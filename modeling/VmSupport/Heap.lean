import VmSupport.Fault
import VmSupport.Heap.Settings
import VmSupport.Layout
import VmSupport.Log
import VmSupport.Memory

/-!
The shared block heap. The block region is divided into blocks of one size. A block is free, held by
whoever requested it, or retired and waiting for a collector to release it. Objects too large for a
block get mappings of their own, which never share an address with the block region or each other.
-/

namespace VmSupport

structure HeapStats where
  collections : Nat := 0
  handedOut : Nat := 0
  largeAllocations : Nat := 0
  deriving DecidableEq, Inhabited

structure Mapping where
  start : Nat
  size : Nat
  deriving DecidableEq, Inhabited

namespace Mapping

def sizeLimit : Nat := 1 <<< 47

def IsFeasible (size : Nat) : Prop := 0 < size ∧ size < sizeLimit

instance (size : Nat) : Decidable (IsFeasible size) := by
  unfold IsFeasible
  infer_instance

def firstAddress : Nat := 0x7f0000001000

def addressLimit : Nat := 1 <<< 64

def FitsAt (address size : Nat) : Prop := IsFeasible size ∧ address + size ≤ addressLimit

instance (address size : Nat) : Decidable (FitsAt address size) := by
  unfold FitsAt
  infer_instance

end Mapping

structure Heap where
  settings : HeapSettings
  start : Nat
  free : List Nat
  retired : List Nat
  large : List Mapping
  arenas : Nat
  stats : HeapStats
  nextMapping : Nat
  memory : Memory
  log : List LogRecord
  deriving Inhabited

namespace Heap

def eraseSwap (b : Nat) : List Nat → List Nat
  | [] => []
  | a :: as =>
    if a = b then
      match as.getLast? with
      | none => []
      | some z => z :: as.dropLast
    else a :: eraseSwap b as

def blockCount (h : Heap) : Nat := h.settings.blockCount

def note (h : Heap) (r : LogRecord) : Heap := { h with log := r :: h.log }

def create (settings : HeapSettings) : Except (Exit SettingsError) Heap :=
  match settings.fault? with
  | some e => .error (.error e)
  | none =>
    if Mapping.IsFeasible settings.heapSize then
      .ok {
        settings
        start := Mapping.firstAddress
        free := List.range settings.blockCount
        retired := []
        large := []
        arenas := 0
        stats := {}
        nextMapping := Mapping.firstAddress + settings.heapSize + pageSize
        memory := .empty
        log := [.heapMapped settings.blockCount settings.blockSize] }
    else .error (.fault (.heapNotMapped settings.heapSize))

def contains (h : Heap) (address : Nat) : Bool :=
  h.start ≤ address && address < h.start + h.settings.heapSize

def blockOf (h : Heap) (address : Nat) : Nat := (address - h.start) / h.settings.blockSize

def blockStart (h : Heap) (block : Nat) : Nat := h.start + block * h.settings.blockSize

def blockEnd (h : Heap) (block : Nat) : Nat := h.blockStart block + h.settings.blockSize

abbrev Action := EStateM Fault Heap

def onMemory {α : Type} (op : EStateM Fault Memory α) : Action α := fun h =>
  match h with
  | ⟨settings, start, free, retired, large, arenas, stats, nextMapping, memory, log⟩ =>
    match op memory with
    | .ok a memory =>
      .ok a ⟨settings, start, free, retired, large, arenas, stats, nextMapping, memory, log⟩
    | .error f memory =>
      .error f ⟨settings, start, free, retired, large, arenas, stats, nextMapping, memory, log⟩

def requestBlock : Action (Option Nat) := do
  let h ← get
  match h.free with
  | [] => return none
  | b :: rest =>
    set { h with free := rest, stats := { h.stats with handedOut := h.stats.handedOut + 1 } }
    return some b

def retireBlock (b : Nat) : Action Unit := do
  if b < (← get).blockCount then
    modify fun h => { h with retired := h.retired ++ [b] }
  else throw .retiredBlockOutOfRange

def releaseBlock (b : Nat) : Action Unit := do
  if b ∈ (← get).retired then
    modify fun h => { h with retired := eraseSwap b h.retired, free := b :: h.free }
  else throw (.releaseOfUnretired b)

def blockBounds (b : Nat) : Action (Nat × Nat) := do
  let h ← get
  if b < h.blockCount then return (h.blockStart b, h.blockEnd b)
  else throw (.blockOutOfRange b)

def sweepLarge (isLive : Nat → Bool) : Action Nat := do
  let h ← get
  let (kept, swept) := h.large.partition fun m => isLive m.start
  set { h with large := kept }
  return swept.length

def allocateLarge (size : Nat) : Action Nat := do
  let h ← get
  let mapped := alignUp pageSize size
  let address := h.nextMapping
  if Mapping.FitsAt address mapped then
    set { h with
      large := ⟨address, mapped⟩ :: h.large
      nextMapping := address + mapped
      stats := { h.stats with largeAllocations := h.stats.largeAllocations + 1 }
      log := .largeObject size :: h.log }
    return address
  else throw (.largeObjectNotMapped size)

def placePinned (h : Heap) (words : List UInt64) : Nat × Heap :=
  (h.nextMapping,
    { h with
      nextMapping := h.nextMapping + pageSize
      memory := h.memory.writeAll h.nextMapping words })

def description (h : Heap) : String :=
  s!"HeapInner \x7b settings: {h.settings.description}, block_count: {h.blockCount}, "
    ++ s!"free_blocks: {h.free.length}, stats: HeapStats \x7b collections: {h.stats.collections}, "
    ++ s!"blocks_handed_out: {h.stats.handedOut}, "
    ++ s!"large_allocations: {h.stats.largeAllocations} \x7d \x7d"

end Heap

end VmSupport
