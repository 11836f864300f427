import VmSupport.Binding.Descriptor
import VmSupport.Machine

namespace VmSupport

structure BoundFrame where
  size : Nat
  next : Nat
  deriving DecidableEq

namespace Machine

variable {H : Type}

def bindEncoded (base offset nargs : Nat) (code : List UInt32) (ip : Nat) (tableOffset : Int)
    (arity : Arity) : Action H BoundFrame := do
  let position := (ip : Int) + tableOffset
  if position < 0 ∨ 1 <<< 64 ≤ position then fault (.tableOffsetOutOfRange tableOffset ip)
  else
    let (table, next) ← liftExcept (KeywordTable.decode code position.toNat)
    if 1 <<< 64 ≤ base + offset then fault .additionOverflow
    else
      let size ← onStack (Frame.bind (base + offset) nargs arity table)
      return ⟨size, next⟩

end Machine

end VmSupport
