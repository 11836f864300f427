namespace VmSupport.Hex

def digits (n : Nat) : String := String.ofList (Nat.toDigits 16 n)

def padded (width n : Nat) : String :=
  let shown := Nat.toDigits 16 n
  String.ofList (List.replicate (width - shown.length) '0' ++ shown)

def word (w : UInt64) : String := "0x" ++ padded 16 w.toNat

def digitValue? (c : Char) : Option Nat :=
  if '0' ≤ c ∧ c ≤ '9' then some (c.toNat - 48)
  else if 'a' ≤ c ∧ c ≤ 'f' then some (c.toNat - 87)
  else if 'A' ≤ c ∧ c ≤ 'F' then some (c.toNat - 55)
  else none

def value? : List Char → Option Nat
  | [] => none
  | cs => cs.foldlM (fun n c => (digitValue? c).map (16 * n + ·)) 0

end VmSupport.Hex
