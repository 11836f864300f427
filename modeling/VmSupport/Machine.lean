import VmSupport.RuntimeError
import VmSupport.Vm

/-!
A machine together with the context that is running on it. Everything a context keeps alive is a
root: values on their way into an object, the value stack, the fluid slots, the dynamic stack and
the default values of the fluids, in this order.
-/

namespace VmSupport

structure ContextRoots where
  pending : List Value
  stack : Array Value
  slots : Array (Option Value)
  winders : Array Winder
  defaults : Array Value

def refillSlots : List (Option Value) → List Value → List (Option Value) × List Value
  | [], vs => ([], vs)
  | none :: slots, vs =>
    let (news, rest) := refillSlots slots vs
    (none :: news, rest)
  | some old :: slots, [] => (some old :: slots, [])
  | some _ :: slots, v :: vs =>
    let (news, rest) := refillSlots slots vs
    (some v :: news, rest)

def refillWinders : List Winder → List Value → List Winder × List Value
  | .fluid id _ _ :: winders, v :: w :: vs =>
    let (news, rest) := refillWinders winders vs
    (.fluid id v w :: news, rest)
  | .wind _ _ :: winders, v :: w :: vs =>
    let (news, rest) := refillWinders winders vs
    (.wind v w :: news, rest)
  | winders, vs => (winders, vs)

instance : RootSet ContextRoots where
  toList r :=
    r.pending ++ r.stack.toList ++ r.slots.toList.filterMap id
      ++ r.winders.toList.flatMap Winder.values ++ r.defaults.toList
  refill r vs :=
    let (pending, vs) := refillList r.pending vs
    let (stack, vs) := refillList r.stack.toList vs
    let (slots, vs) := refillSlots r.slots.toList vs
    let (winders, vs) := refillWinders r.winders.toList vs
    let (defaults, _) := refillList r.defaults.toList vs
    ⟨pending, stack.toArray, slots.toArray, winders.toArray, defaults.toArray⟩

structure Machine (H : Type) where
  vm : Vm
  context : Context
  host : H

namespace Machine

abbrev Action (H : Type) := EStateM (Exit RuntimeError) (Machine H)

variable {H α : Type}

def fault (f : Fault) : Action H α := throw (.fault f)

def escape (e : RuntimeError) : Action H α := throw (.error e)

def liftExcept : Except Fault α → Action H α
  | .ok a => pure a
  | .error f => fault f

/-- Runs an action and turns an error it ends with into a result; a fault still ends everything. -/
def attempt (body : Action H α) : Action H (Except RuntimeError α) := fun m =>
  match body m with
  | .ok a m => .ok (.ok a) m
  | .error (.error e) m => .ok (.error e) m
  | .error (.fault f) m => .error (.fault f) m

def resume : Except RuntimeError α → Action H α
  | .ok a => pure a
  | .error e => escape e

def modifyContext (f : Context → Context) : Action H Unit :=
  modify fun m => { m with context := f m.context }

def push (v : Value) : Action H Unit := modifyContext fun c => { c with stack := c.stack.push v }

def modifyVm (f : Vm → Vm) : Action H Unit := modify fun m => { m with vm := f m.vm }

def note (r : LogRecord) : Action H Unit := modifyVm fun vm => { vm with heap := vm.heap.note r }

def intern (name : String) : Action H Value := do
  let (v, keywords) := (← get).vm.keywords.intern name
  modifyVm fun vm => { vm with keywords }
  return v

def makeFluid (default : Value) : Action H FluidId := do
  let (fluid, fluids) := (← get).vm.fluids.make default
  modifyVm fun vm => { vm with fluids }
  return fluid

def thread : Action H Value := do
  let m ← get
  return m.vm.thread m.context.number

def writeWords (address : Nat) (ws : List UInt64) : Action H Unit :=
  modifyVm fun vm =>
    { vm with heap := { vm.heap with memory := vm.heap.memory.writeAll address ws } }

/-- Runs an operation of the context's allocator, whose roots are those of the context and the
pending values. The pending values come back as a collector may have changed them. -/
def onMutator (pending : List Value) (op : Mutator.Action ContextRoots H α) :
    Action H (α × List Value) :=
  fun ⟨⟨heap, keywords, fluids, threads, stackSize⟩,
      ⟨number, arena, stack, slots, winders⟩, host⟩ =>
    match op ⟨heap, arena, ⟨pending, stack, slots, winders, fluids.defaults⟩, host⟩ with
    | .ok a ⟨heap, arena, ⟨pending, stack, slots, winders, defaults⟩, host⟩ =>
      .ok (a, pending) ⟨⟨heap, keywords, ⟨defaults⟩, threads, stackSize⟩,
        ⟨number, arena, stack, slots, winders⟩, host⟩
    | .error f ⟨heap, arena, ⟨_, stack, slots, winders, defaults⟩, host⟩ =>
      .error (.fault f) ⟨⟨heap, keywords, ⟨defaults⟩, threads, stackSize⟩,
        ⟨number, arena, stack, slots, winders⟩, host⟩

def onArena (op : Mutator.Action (List Value) H α) : Action H α :=
  fun ⟨⟨heap, keywords, fluids, threads, stackSize⟩,
      ⟨number, arena, stack, slots, winders⟩, host⟩ =>
    match op ⟨heap, arena, [], host⟩ with
    | .ok a ⟨heap, arena, _, host⟩ =>
      .ok a ⟨⟨heap, keywords, fluids, threads, stackSize⟩,
        ⟨number, arena, stack, slots, winders⟩, host⟩
    | .error f ⟨heap, arena, _, host⟩ =>
      .error (.fault f) ⟨⟨heap, keywords, fluids, threads, stackSize⟩,
        ⟨number, arena, stack, slots, winders⟩, host⟩

def onStack (op : EStateM (Exit BindError) (List Value) α) : Action H α := fun ⟨vm, c, host⟩ =>
  match op c.stack.toList with
  | .ok a stack => .ok a ⟨vm, { c with stack := stack.toArray }, host⟩
  | .error (.error e) stack =>
    .error (.error (.bind e)) ⟨vm, { c with stack := stack.toArray }, host⟩
  | .error (.fault f) stack => .error (.fault f) ⟨vm, { c with stack := stack.toArray }, host⟩

end Machine

structure Embedder (H : Type) where
  collector : Collector H
  invoke : Value → Machine.Action H Unit
  /-- How many entries one unwinding may undo besides those it found on the dynamic stack. -/
  allowance : Nat

def Embedder.refuse {H : Type} (procedure : Value) : Machine.Action H Unit :=
  Machine.escape (.notApplicable procedure)

end VmSupport
