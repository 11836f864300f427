import VmSupport.Machine.DynamicStack
import VmSupport.Value.Literal

namespace VmSupport

inductive Operand
  | literal (l : Literal)
  | slot (i : Nat)
  | fluid (i : Nat)
  | builtin (id : Nat)
  | thread
  | keyword (name : String)
  | index
  deriving DecidableEq

namespace Operand

def ofText? (text : String) : Option Operand :=
  match text.toList with
  | '$' :: ds => (Literal.natural? ds).map slot
  | '~' :: ds => (Literal.natural? ds).map fluid
  | '@' :: 'B' :: ds => (Literal.natural? ds).map builtin
  | ['@', 'T'] => some thread
  | ':' :: name => some (keyword (String.ofList name))
  | ['%'] => some index
  | _ => (Literal.ofText? text).map literal

end Operand

namespace Machine

variable {H : Type}

def stackSlot (i : Nat) : Action H Value := return (← get).context.stack.getD i .undefined

def eval (index : Nat) : Operand → Action H Value
  | .literal l => liftExcept l.eval
  | .slot i => stackSlot i
  | .fluid i => fluidRef ⟨i⟩
  | .builtin id => liftExcept (Builtin.reference id)
  | .thread => thread
  | .keyword name => intern name
  | .index => liftExcept (Literal.integer index).eval

end Machine

end VmSupport
