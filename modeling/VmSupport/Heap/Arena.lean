import VmSupport.Heap.Collector

namespace VmSupport

structure Cursor where
  block : Nat
  bump : Nat
  limit : Nat
  deriving DecidableEq

structure Arena where
  cursor : Option Cursor
  allocated : Nat
  deriving DecidableEq, Inhabited

namespace Arena

def new : Arena := ⟨none, 0⟩

def place? (a : Arena) (l : Layout) : Option (Cursor × Nat) :=
  match a.cursor with
  | none => none
  | some c =>
    let address := alignUp l.align c.bump
    if address + l.size ≤ c.limit then some (c, address) else none

end Arena

structure Mutator (R H : Type) where
  heap : Heap
  arena : Arena
  roots : R
  host : H

namespace Mutator

variable {R H : Type}

abbrev Action (R H : Type) := EStateM Fault (Mutator R H)

def onHeap {α : Type} (op : Heap.Action α) : Action R H α := fun ⟨h, arena, roots, host⟩ =>
  match op h with
  | .ok a h => .ok a ⟨h, arena, roots, host⟩
  | .error f h => .error f ⟨h, arena, roots, host⟩

def note (r : LogRecord) : Action R H Unit := modify fun m => { m with heap := m.heap.note r }

def countBytes (size : Nat) : Action R H Unit := do
  let total := (← get).arena.allocated + size
  if total < 1 <<< 64 then
    modify fun m => { m with arena := { m.arena with allocated := total } }
  else throw .additionOverflow

def allocateOnBlock (l : Layout) : Action R H (Option Nat) := do
  match (← get).arena.place? l with
  | none => return none
  | some (c, address) =>
    let c := { c with bump := address + l.size }
    modify fun m => { m with arena := { m.arena with cursor := some c } }
    countBytes l.size
    return some address

def retire : Action R H Unit := do
  match (← get).arena.cursor with
  | none => return
  | some c =>
    onHeap (Heap.retireBlock c.block)
    modify fun m => { m with arena := { m.arena with cursor := none } }

def collect [RootSet R] (collector : Collector H) : Action R H Unit :=
  fun ⟨h, arena, roots, host⟩ =>
    let round := h.stats.collections + 1
    let h := { h with stats := { h.stats with collections := round } }
    let h := h.note (.collectionRequested round h.retired.length)
    match collector ⟨h, RootSet.toList roots, host⟩ with
    | .ok _ ⟨h, vs, host⟩ => .ok () ⟨h, arena, RootSet.refill roots vs, host⟩
    | .error f ⟨h, vs, host⟩ => .error f ⟨h, arena, RootSet.refill roots vs, host⟩

def requestBlock [RootSet R] (collector : Collector H) : Action R H Nat := do
  match ← onHeap Heap.requestBlock with
  | some b => return b
  | none =>
    collect collector
    match ← onHeap Heap.requestBlock with
    | some b => return b
    | none => throw .noBlockAfterCollection

def exchangeBlock [RootSet R] (collector : Collector H) : Action R H Unit := do
  retire
  let b ← requestBlock collector
  let (start, limit) ← onHeap (Heap.blockBounds b)
  modify fun m => { m with arena := { m.arena with cursor := some ⟨b, start, limit⟩ } }
  note (.arenaSwitched b)

def allocate [RootSet R] (collector : Collector H) (l : Layout) : Action R H Nat := do
  if (← get).heap.settings.largeSize ≤ l.size then
    countBytes l.size
    onHeap (Heap.allocateLarge l.size)
  else
    match ← allocateOnBlock l with
    | some address => return address
    | none =>
      exchangeBlock collector
      match ← allocateOnBlock l with
      | some address => return address
      | none => throw (.freshBlockTooSmall l.size)

end Mutator

namespace Heap

def openArena (h : Heap) : Heap := { h with arenas := h.arenas + 1 }

def closeArena (h : Heap) (a : Arena) : Heap :=
  { h with
    retired := h.retired ++ (a.cursor.map Cursor.block).toList
    arenas := h.arenas - 1 }

end Heap

end VmSupport
