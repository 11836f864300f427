import Mathlib
import VmSupport.Machine.DynamicStack

/-!
Deep binding, the reference semantics of fluids. Every fluid entry of the dynamic stack owns a
current value; a fluid reads as its innermost entry, else as its top-level value, else as its
default. Nothing is saved and nothing is restored.
-/

namespace VmSupport

inductive DeepEntry
  | fluid (fluid : FluidId) (value : Value)
  | wind (entry exit : Value)

namespace DeepEntry

def find? (fluid : FluidId) : List DeepEntry → Option Value
  | [] => none
  | .fluid g v :: entries => if g = fluid then some v else find? fluid entries
  | .wind _ _ :: entries => find? fluid entries

def assign? (fluid : FluidId) (v : Value) : List DeepEntry → Option (List DeepEntry)
  | [] => none
  | .fluid g w :: entries =>
    if g = fluid then some (.fluid g v :: entries)
    else (assign? fluid v entries).map (.fluid g w :: ·)
  | .wind entry exit :: entries => (assign? fluid v entries).map (.wind entry exit :: ·)

end DeepEntry

structure DeepStack where
  entries : List DeepEntry
  top : FluidId → Option Value
  fluids : FluidRegistry

namespace DeepStack

def fresh (fluids : FluidRegistry) : DeepStack := ⟨[], fun _ => none, fluids⟩

def read? (d : DeepStack) (fluid : FluidId) : Option Value :=
  ((DeepEntry.find? fluid d.entries).or (d.top fluid)).or d.fluids.defaults[fluid.index]?

def assign (d : DeepStack) (fluid : FluidId) (v : Value) : DeepStack :=
  match DeepEntry.assign? fluid v d.entries with
  | some entries => { d with entries }
  | none => { d with top := fun g => if g = fluid then some v else d.top g }

end DeepStack

structure DeepMachine (H : Type) where
  stack : DeepStack
  host : H

namespace DeepMachine

abbrev Action (H : Type) := EStateM (Exit RuntimeError) (DeepMachine H)

variable {H : Type}

def depth : Action H Nat := return (← get).stack.entries.length

def makeFluid (default : Value) : Action H FluidId := do
  let (fluid, fluids) := (← get).stack.fluids.make default
  modify fun m => { m with stack := { m.stack with fluids } }
  return fluid

def fluidRef (fluid : FluidId) : Action H Value := do
  match (← get).stack.read? fluid with
  | some v => return v
  | none => throw (.fault (.unknownFluid fluid.index))

def fluidSet (fluid : FluidId) (v : Value) : Action H Unit := do
  if fluid.index < (← get).stack.fluids.size then
    modify fun m => { m with stack := m.stack.assign fluid v }
  else throw (.fault (.unknownFluid fluid.index))

def pushEntry (e : DeepEntry) : Action H Unit :=
  modify fun m => { m with stack := { m.stack with entries := e :: m.stack.entries } }

def popEntry : Action H DeepEntry := fun m =>
  match m.stack.entries with
  | [] => .error (.fault .dynamicStackUnderflow) m
  | e :: entries => .ok e { m with stack := { m.stack with entries } }

def pushFluid (fluid : FluidId) (v : Value) : Action H Unit := do
  if fluid.index < (← get).stack.fluids.size then pushEntry (.fluid fluid v)
  else throw (.fault (.unknownFluid fluid.index))

def pushWind (invoke : Value → Action H Unit) (entry exit : Value) : Action H Unit := do
  invoke entry
  pushEntry (.wind entry exit)

def pop (invoke : Value → Action H Unit) : Action H Unit := do
  match ← popEntry with
  | .fluid _ _ => return
  | .wind _ exit => invoke exit

def unwindFluid : Action H Unit := do
  match ← popEntry with
  | .fluid _ _ => return
  | .wind entry exit => throw (.fault (.unwindOverWind entry exit))

def popTo (invoke : Value → Action H Unit) (target : Nat) : (allowance : Nat) → Action H Unit
  | 0 => do
    if target < (← depth) then throw (.fault .allowanceSpent)
  | n + 1 => do
    if target < (← depth) then
      pop invoke
      popTo invoke target n

def unwindTo (invoke : Value → Action H Unit) (allowance target : Nat) : Action H Unit := do
  let current ← depth
  if target ≤ current then popTo invoke target (current - target + allowance)
  else throw (.fault (.unwindAboveDepth target current))

end DeepMachine

end VmSupport
