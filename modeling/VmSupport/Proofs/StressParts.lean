import VmSupport.Proofs.Strands
import VmSupport.Stress.Workload

namespace VmSupport

namespace Stress

open Machine

structure Turn where
  before : Machine Calls
  done : Summary
  after : Machine Calls

/-- The iteration did its work and left the value stack, the dynamic stack and the fluids as it
found them. -/
structure Turn.IsNeutral (depth : Nat) (t : Turn) : Prop where
  done_eq : t.done = ⟨depth, depth, 1, 8⟩
  stack_eq : t.after.context.stack = t.before.context.stack
  winders_eq : t.after.context.winders = t.before.context.winders
  fluids : ∀ fluid v, fluidRef fluid t.before = .ok v t.before →
    fluidRef fluid t.after = .ok v t.after

abbrev Part (α : Type) := Strand (Exit RuntimeError) (Machine Calls) α

namespace Part

open Strand

variable (env : Embedder Calls)

def buildList (fp : Nat) : (n i : Nat) → Part Unit
  | 0, _ => pure ()
  | n + 1, i => do
    let tail := (← lift get).context.stack.getD fp .undefined
    let pair ← lift (cons env (← lift (fixnum i)) tail)
    lift (modifyContext fun c => { c with stack := c.stack.setIfInBounds fp pair })
    buildList fp n (i + 1)

def fillDynamicStack (fluid : FluidId) : (n i : Nat) → Part Unit
  | 0, _ => pure ()
  | n + 1, i => do
    if i % 2 = 0 then lift (pushFluid fluid (← lift (fixnum i)))
    else lift (pushWind env (Value.fixnum 0) (Value.fixnum 1))
    fillDynamicStack fluid n (i + 1)

def popTo (target : Nat) : (allowance : Nat) → Part Unit
  | 0 => do
    if target < (← lift Machine.depth) then lift (fault .allowanceSpent)
  | n + 1 => do
    if target < (← lift Machine.depth) then
      lift (pop env)
      popTo target n

def unwindTo (target : Nat) : Part Unit := do
  let current ← lift Machine.depth
  if target ≤ current then
    lift (note (.unwinding current target))
    popTo env target (current - target + env.allowance)
  else lift (fault (.unwindAboveDepth target current))

def prepare : Part Setup := do
  let fluid ← lift (makeFluid (Value.ofBool false))
  let x ← lift (intern "x")
  let y ← lift (intern "y")
  let d ← lift (liftExcept (CallDescriptor.new 2 1 5 .allowOtherKeys))
  let d ← lift (liftExcept (d.withKeyword x 3))
  let d ← lift (liftExcept (d.withKeyword y 4))
  return ⟨fluid, d, d.keywords.encode⟩

def iteration (setup : Setup) (depth : Nat) : Part Summary := do
  let fp := (← lift get).context.stack.size
  lift (push .nil)
  buildList env fp depth 0
  lift (push (← lift (allocateFlonum env (Float.ofNat depth).toBits)))
  lift (push (← lift (allocateWords env .vector (UInt32.ofNat depth))))
  let base ← lift Machine.depth
  fillDynamicStack env setup.fluid depth 0
  unwindTo env base
  let argsAt := (← lift get).context.stack.size
  let x ← lift (intern "x")
  lift (push (Value.fixnum 1))
  lift (push (Value.fixnum 2))
  lift (push x)
  lift (push (Value.fixnum 3))
  let d := setup.descriptor
  let _ ← lift (bindEncoded argsAt 0 4 setup.code 0 d.tableOffset d.arity)
  let s ← lift (allocateString env "λ-stress")
  let characters ← lift (liftExcept ((← lift get).vm.stringLength s))
  lift (modifyContext fun c => { c with stack := c.stack.take fp })
  return ⟨depth, depth, 1, characters⟩

def iterations (setup : Setup) (depth : Nat) :
    Nat → Summary → List Turn → Part (Summary × List Turn)
  | 0, total, turns => pure (total, turns)
  | n + 1, total, turns => do
    let before ← lift get
    let done ← iteration env setup depth
    let after ← lift get
    iterations setup depth n (total.add done) (⟨before, done, after⟩ :: turns)

def work (count depth : Nat) : Part (Summary × List Turn) := do
  let setup ← prepare
  iterations env setup depth count {} []

theorem run_buildList (fp n i : Nat) :
    (buildList env fp n i).run = Stress.buildList env fp n i := by
  induction n generalizing i with
  | zero => rfl
  | succ n ih => simp only [buildList, Stress.buildList, run_bind, run_lift, ih]

theorem run_fillDynamicStack (fluid : FluidId) (n i : Nat) :
    (fillDynamicStack env fluid n i).run = Stress.fillDynamicStack env fluid n i := by
  induction n generalizing i with
  | zero => rfl
  | succ n ih =>
    simp only [fillDynamicStack, Stress.fillDynamicStack]
    split <;> simp only [run_bind, run_lift, ih]

theorem run_popTo (target n : Nat) : (popTo env target n).run = Machine.popTo env target n := by
  induction n with
  | zero =>
    simp only [popTo, Machine.popTo, run_bind, run_lift]
    congr 1
    funext depth
    split
    · rfl
    · rfl
  | succ n ih =>
    simp only [popTo, Machine.popTo, run_bind, run_lift]
    congr 1
    funext depth
    split
    · simp only [run_bind, run_lift, ih]
    · rfl

theorem run_unwindTo (target : Nat) : (unwindTo env target).run = Machine.unwindTo env target := by
  simp only [unwindTo, Machine.unwindTo, run_bind, run_lift]
  congr 1
  funext current
  split
  · simp only [run_bind, run_lift, run_popTo]
  · exact run_lift _

theorem run_prepare : prepare.run = Stress.prepare := by
  simp only [prepare, Stress.prepare, run_bind, run_lift, run_pure]

theorem run_iteration (setup : Setup) (depth : Nat) :
    (iteration env setup depth).run = Stress.iteration env setup depth := by
  simp only [iteration, Stress.iteration, run_bind, run_lift, run_pure, run_buildList,
    run_fillDynamicStack, run_unwindTo]

theorem run_iterations (setup : Setup) (depth n : Nat) (total : Summary) (turns : List Turn) :
    ((iterations env setup depth n total turns).run >>= fun r => pure r.1) =
      Stress.iterations env setup depth n total := by
  induction n generalizing total turns with
  | zero => rfl
  | succ n ih =>
    have hget : ∀ op : Action Summary, (get >>= fun _ => op) = op := fun _ => rfl
    simp only [iterations, Stress.iterations, run_bind, run_lift, run_iteration, bind_assoc, ih,
      hget]

theorem run_work (count depth : Nat) :
    ((work env count depth).run >>= fun r => pure r.1) = Stress.work env count depth := by
  simp only [work, Stress.work, run_bind, run_prepare, bind_assoc, run_iterations]

end Part

end Stress

end VmSupport
