import VmSupport.Binding.Frame

namespace VmSupport

structure BindCall where
  truncate : Option Nat
  args : List Value
  nargs : Option Nat
  base : Option Nat

namespace BindCall

def run (bind : (base nargs : Nat) → EStateM (Exit BindError) (List Value) Nat) (c : BindCall)
    (stack : List Value) : EStateM.Result (Exit BindError) (List Value) Nat :=
  let stack := match c.truncate with
    | some n => stack.take n
    | none => stack
  let start := stack.length
  bind (c.base.getD start) (c.nargs.getD c.args.length) (stack ++ c.args)

end BindCall

end VmSupport
