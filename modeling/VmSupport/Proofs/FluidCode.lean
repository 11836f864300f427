import VmSupport.Proofs.DeepBinding
import VmSupport.Proofs.Record

/-!
Code that works with fluids, and the two ways to run it: on the machine, with one slot for every
fluid, and on the reference machine, with deep binding. Both note what every fluid reads after each
step and at the start of each entry or exit action.
-/

namespace VmSupport

inductive MemoryStep
  | cell (type : ObjectType) (car cdr : Value)
  | flonum (bits : UInt64)
  | words (type : ObjectType) (n : UInt32)
  | string (s : String)
  | collect
  | push (v : Value)
  | truncate (n : Nat)

inductive FluidStep
  | makeFluid (default : Value)
  | fluidSet (fluid : FluidId) (v : Value)
  | pushFluid (fluid : FluidId) (v : Value)
  | pushWind (entry exit : Value)
  | pop
  | unwindFluid
  | unwindTo (target : Nat)
  | memory (step : MemoryStep)

/-- Code that reads fluids and takes steps, and goes on as the values read and the errors that came
back tell it to. -/
inductive FluidCode
  | done
  | escape (e : RuntimeError)
  | crash (f : Fault)
  | read (fluid : FluidId) (next : Value → FluidCode)
  | step (s : FluidStep) (next : Option RuntimeError → FluidCode)

structure Moments where
  calls : Nat
  seen : List (List (Option Value))

namespace Moments

def empty : Moments := ⟨0, []⟩

def see (vs : List (Option Value)) (r : Moments) : Moments := { r with seen := vs :: r.seen }

def call (r : Moments) : Moments := { r with calls := r.calls + 1 }

end Moments

/-- A way to run code: what a state reads, how it takes a step with a given invoker, and its record
of moments. -/
structure FluidMachine (σ : Type) where
  fluidCount : σ → Nat
  fluidRef : FluidId → EStateM (Exit RuntimeError) σ Value
  perform : (Value → EStateM (Exit RuntimeError) σ Unit) → FluidStep →
    EStateM (Exit RuntimeError) σ Unit
  moments : σ → Moments
  record : (Moments → Moments) → σ → σ

namespace FluidMachine

variable {σ : Type} (M : FluidMachine σ)

abbrev Action (σ : Type) := EStateM (Exit RuntimeError) σ

def reads (s : σ) : List (Option Value) :=
  (List.range (M.fluidCount s)).map fun i =>
    match M.fluidRef ⟨i⟩ s with
    | .ok v _ => some v
    | .error _ _ => none

def observe (s : σ) : σ := M.record (Moments.see (M.reads s)) s

def attempt (op : Action σ Unit) : Action σ (Option RuntimeError) := fun s =>
  match op s with
  | .ok _ s => .ok none s
  | .error (.error e) s => .ok (some e) s
  | .error (.fault f) s => .error (.fault f) s

def run (invoke : Value → Action σ Unit) : FluidCode → Action σ Unit
  | .done => return
  | .escape e => throw (.error e)
  | .crash f => throw (.fault f)
  | .read fluid next => do
    let v ← M.fluidRef fluid
    run invoke (next v)
  | .step s next => do
    let r ← attempt (M.perform invoke s)
    modify M.observe
    run invoke (next r)

/-- Runs a procedure as the code that stands for its `n`-th invocation in the run; `nesting` bounds
how deeply invocations run inside each other. -/
def invoker (procedures : Nat → Value → FluidCode) : (nesting : Nat) → Value → Action σ Unit
  | 0, _ => throw (.fault .allowanceSpent)
  | nesting + 1, v => do
    modify M.observe
    let n := (M.moments (← get)).calls
    modify (M.record Moments.call)
    run M (invoker procedures nesting) (procedures n v)

def runAll (procedures : Nat → Value → FluidCode) (nesting : Nat) : List FluidCode → σ → σ
  | [], s => s
  | code :: rest, s =>
    let s := (run M (M.invoker procedures nesting) code s).state
    runAll procedures nesting rest (M.observe s)

end FluidMachine

section Shallow

variable {H : Type} (collector : Collector H) (allowance : Nat)

def shallowEmbedder (invoke : Value → Machine.Action (H × Moments) Unit) :
    Embedder (H × Moments) :=
  ⟨collector.beside, invoke, allowance⟩

def Machine.silently {α : Type} (op : Machine.Action H α) : Machine.Action H Unit := fun m =>
  .ok () (op m).state

def Machine.memoryStep (env : Embedder H) : MemoryStep → Machine.Action H Unit
  | .cell type car cdr => silently (allocateCell env type car cdr)
  | .flonum bits => silently (allocateFlonum env bits)
  | .words type n => silently (allocateWords env type n)
  | .string s => silently (allocateString env s)
  | .collect => silently (Machine.collect env)
  | .push v => Machine.push v
  | .truncate n => modifyContext fun c => { c with stack := c.stack.take n }

def Machine.fluidStep (env : Embedder H) : FluidStep → Machine.Action H Unit
  | .makeFluid default => do let _ ← Machine.makeFluid default
  | .fluidSet fluid v => Machine.fluidSet fluid v
  | .pushFluid fluid v => Machine.pushFluid fluid v
  | .pushWind entry exit => Machine.pushWind env entry exit
  | .pop => Machine.pop env
  | .unwindFluid => Machine.unwindFluid
  | .unwindTo target => Machine.unwindTo env target
  | .memory step => memoryStep env step

def FluidMachine.shallow : FluidMachine (Machine (H × Moments)) where
  fluidCount m := m.vm.fluids.size
  fluidRef := Machine.fluidRef
  perform invoke := Machine.fluidStep (shallowEmbedder collector allowance invoke)
  moments m := m.host.2
  record f m := { m with host := (m.host.1, f m.host.2) }

end Shallow

def DeepMachine.fluidStep (invoke : Value → DeepMachine.Action Moments Unit) (allowance : Nat) :
    FluidStep → DeepMachine.Action Moments Unit
  | .makeFluid default => do let _ ← DeepMachine.makeFluid default
  | .fluidSet fluid v => DeepMachine.fluidSet fluid v
  | .pushFluid fluid v => DeepMachine.pushFluid fluid v
  | .pushWind entry exit => DeepMachine.pushWind invoke entry exit
  | .pop => DeepMachine.pop invoke
  | .unwindFluid => DeepMachine.unwindFluid
  | .unwindTo target => DeepMachine.unwindTo invoke allowance target
  | .memory _ => return

def FluidMachine.deep (allowance : Nat) : FluidMachine (DeepMachine Moments) where
  fluidCount m := m.stack.fluids.size
  fluidRef := DeepMachine.fluidRef
  perform invoke := DeepMachine.fluidStep invoke allowance
  moments m := m.host
  record f m := { m with host := f m.host }

end VmSupport
