import VmSupport.Heap.BlockCollector
import VmSupport.Machine.Allocation
import VmSupport.Machine.Binding
import VmSupport.Machine.DynamicStack

namespace VmSupport.Stress

open Machine

structure Summary where
  conses : Nat := 0
  bindings : Nat := 0
  binds : Nat := 0
  characters : Nat := 0
  deriving DecidableEq, Inhabited

namespace Summary

def add (a b : Summary) : Summary :=
  ⟨a.conses + b.conses, a.bindings + b.bindings, a.binds + b.binds, a.characters + b.characters⟩

end Summary

abbrev Calls := Nat

abbrev Action := Machine.Action Calls

def applyCounted (procedure : Value) : Action Unit :=
  if procedure.isFixnum then modify fun m => { m with host := m.host + 1 }
  else escape (.notApplicable procedure)

def embedder (reclaims : Bool) : Embedder Calls where
  collector := if reclaims then Collector.blocks else Collector.none
  invoke := applyCounted
  allowance := 0

def fixnum (n : Nat) : Action Value := (Value.fixnum? n).getDM (fault (.fixnumOverflow n))

def buildList (env : Embedder Calls) (fp : Nat) : (n i : Nat) → Action Unit
  | 0, _ => pure ()
  | n + 1, i => do
    let tail := (← get).context.stack.getD fp .undefined
    let pair ← cons env (← fixnum i) tail
    modifyContext fun c => { c with stack := c.stack.setIfInBounds fp pair }
    buildList env fp n (i + 1)

def fillDynamicStack (env : Embedder Calls) (fluid : FluidId) : (n i : Nat) → Action Unit
  | 0, _ => pure ()
  | n + 1, i => do
    if i % 2 = 0 then pushFluid fluid (← fixnum i)
    else pushWind env (Value.fixnum 0) (Value.fixnum 1)
    fillDynamicStack env fluid n (i + 1)

structure Setup where
  fluid : FluidId
  descriptor : CallDescriptor
  code : List UInt32

def prepare : Action Setup := do
  let fluid ← makeFluid (Value.ofBool false)
  let x ← intern "x"
  let y ← intern "y"
  let d ← liftExcept (CallDescriptor.new 2 1 5 .allowOtherKeys)
  let d ← liftExcept (d.withKeyword x 3)
  let d ← liftExcept (d.withKeyword y 4)
  return ⟨fluid, d, d.keywords.encode⟩

def iteration (env : Embedder Calls) (setup : Setup) (depth : Nat) : Action Summary := do
  let fp := (← get).context.stack.size
  push .nil
  buildList env fp depth 0
  push (← allocateFlonum env (Float.ofNat depth).toBits)
  push (← allocateWords env .vector (UInt32.ofNat depth))
  let base ← Machine.depth
  fillDynamicStack env setup.fluid depth 0
  unwindTo env base
  let argsAt := (← get).context.stack.size
  let x ← intern "x"
  push (Value.fixnum 1)
  push (Value.fixnum 2)
  push x
  push (Value.fixnum 3)
  let d := setup.descriptor
  let _ ← bindEncoded argsAt 0 4 setup.code 0 d.tableOffset d.arity
  let s ← allocateString env "λ-stress"
  let characters ← liftExcept ((← get).vm.stringLength s)
  modifyContext fun c => { c with stack := c.stack.take fp }
  return ⟨depth, depth, 1, characters⟩

def iterations (env : Embedder Calls) (setup : Setup) (depth : Nat) : Nat → Summary → Action Summary
  | 0, total => return total
  | n + 1, total => do
    let done ← iteration env setup depth
    iterations env setup depth n (total.add done)

def work (env : Embedder Calls) (count depth : Nat) : Action Summary := do
  let setup ← prepare
  iterations env setup depth count {}

end VmSupport.Stress
