import VmSupport.Builtin
import VmSupport.Fluid.Registry
import VmSupport.Heap.Arena
import VmSupport.Keyword.Registry

/-!
A virtual machine, which all of its contexts share, and the contexts themselves. A context has an
arena on the machine's heap, a value stack, its own fluid values and a dynamic stack. A pinned
thread object names it.
-/

namespace VmSupport

structure Vm where
  heap : Heap
  keywords : KeywordRegistry
  fluids : FluidRegistry
  threads : Array Nat
  stackSize : Nat
  deriving Inhabited

inductive Winder
  | fluid (fluid : FluidId) (previous value : Value)
  | wind (entry exit : Value)
  deriving DecidableEq

namespace Winder

def values : Winder → List Value
  | fluid _ previous value => [previous, value]
  | wind entry exit => [entry, exit]

end Winder

structure Context where
  number : Nat
  arena : Arena
  stack : Array Value
  slots : Array (Option Value)
  winders : Array Winder
  deriving Inhabited

namespace Context

def depth (c : Context) : Nat := c.winders.size

def setSlot (c : Context) (i : Nat) (v : Value) : Context :=
  if i < c.slots.size then { c with slots := c.slots.setIfInBounds i (some v) }
  else { c with slots := (c.slots ++ Array.replicate (i - c.slots.size) none).push (some v) }

end Context

namespace Vm

def create (settings : HeapSettings) (stackSize : Nat) : Except (Exit SettingsError) Vm := do
  let heap ← Heap.create settings
  let builtins := (List.range Builtin.table.length).foldl
    (fun m id => m.write (Builtin.address id) Builtin.header.word) heap.memory
  let heap := { heap with memory := builtins }
  return ⟨heap.note (.vmCreated heap.blockCount), .empty, .empty, #[], stackSize⟩

def threadImage (number : Nat) : List UInt64 :=
  [(Header.pinned .thread).word, UInt64.ofNat (number + 1)]

/-- A value stack has to be smaller than half of the address range, at eight bytes a value. -/
def stackLimit : Nat := 1 <<< 60

def openContext (vm : Vm) : Except Fault (Context × Vm) :=
  if vm.stackSize < stackLimit then
    let number := vm.threads.size
    let (thread, heap) := vm.heap.openArena.placePinned (threadImage number)
    .ok (⟨number, .new, #[], #[], #[]⟩,
      { vm with heap := heap.note .contextCreated, threads := vm.threads.push thread })
  else .error .capacityOverflow

def threadAddress (vm : Vm) (number : Nat) : Nat := vm.threads.getD number 0

def thread (vm : Vm) (number : Nat) : Value := Value.reference (vm.threadAddress number)

def closeContext (c : Context) (vm : Vm) : Vm :=
  let memory := vm.heap.memory.write (vm.threadAddress c.number + 8) 0
  let heap := { vm.heap with memory }
  { vm with heap := (heap.note (.contextDropped c.arena.allocated)).closeArena c.arena }

def typeOf (vm : Vm) (v : Value) : Except Fault ObjectType :=
  match (vm.heap.memory.header v.address).type? with
  | some t => .ok t
  | none => .error .unknownType

def threadData (vm : Vm) (v : Value) : Except Fault (Option Nat) := do
  if v.isReference then
    let found ← vm.typeOf v
    if found = .thread then
      match (vm.heap.memory.read (v.address + 8)).toNat with
      | 0 => return none
      | n + 1 => return some n
    else throw (.wrongType found .thread)
  else throw .threadNotAReference

def stringLength (vm : Vm) (v : Value) : Except Fault Nat := do
  if v.isReference then
    let found ← vm.typeOf v
    if found = .str then return (vm.heap.memory.header v.address).length.toNat
    else throw (.wrongType found .str)
  else throw .notAReference

def description (vm : Vm) : String :=
  s!"Vm \x7b inner: VmShared \x7b heap: Heap({vm.heap.description}), "
    ++ s!"keywords: {vm.keywords.description}, fluids: {vm.fluids.size}, "
    ++ s!"stack_size: {vm.stackSize} \x7d \x7d"

end Vm

end VmSupport
