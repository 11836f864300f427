import VmSupport.Fault

namespace VmSupport

namespace Value

def shift (n : Int) (v : Value) : Except Fault Value :=
  match v.integer? with
  | none => .ok v
  | some k =>
    if k + n < -(1 <<< 63 : Nat) ∨ 1 <<< 63 ≤ k + n then .error .additionOverflow
    else match fixnum? (k + n) with
      | some w => .ok w
      | none => .error (.fixnumOverflow (k + n))

def shiftAll (n : Int) : List Value → EStateM.Result Fault (List Value) Unit
  | [] => .ok () []
  | v :: vs =>
    match v.shift n with
    | .error f => .error f (v :: vs)
    | .ok w =>
      match shiftAll n vs with
      | .ok () ws => .ok () (w :: ws)
      | .error f ws => .error f (w :: ws)

end Value

end VmSupport
