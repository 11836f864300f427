import VmSupport.Fault

namespace VmSupport

def Literal.eval : Literal → Except Fault Value
  | .word v => .ok v
  | .integer n =>
    match Value.fixnum? n with
    | some v => .ok v
    | none => .error (.fixnumOverflow n)

end VmSupport
