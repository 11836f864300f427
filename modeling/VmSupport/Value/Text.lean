import VmSupport.Value

namespace VmSupport

namespace Constant

def description : Constant → String
  | ff => "#f"
  | tt => "#t"
  | nil => "()"
  | unspecified => "#<unspecified>"
  | undefined => "#<undefined>"
  | eof => "#<eof>"

def literal : Constant → String
  | ff => "#f"
  | tt => "#t"
  | nil => "()"
  | unspecified => "#u"
  | undefined => "#undef"
  | eof => "#eof"

end Constant

abbrev AddressText := Nat → String

namespace AddressText

def hex : AddressText := fun address => "0x" ++ Hex.digits address

def masked : AddressText := fun _ => "*"

end AddressText

namespace Value

def description (v : Value) (text : AddressText) : String :=
  if v.isFixnum then s!"Fixnum({v.integer})"
  else if v.isReference then s!"Ref({text v.address})"
  else match v.keywordId? with
    | some id => s!"Keyword({id.toNat})"
    | none =>
      if v.isImmediate then
        match v.constant? with
        | some c => c.description
        | none => "#<immediate>"
      else s!"Header({Hex.word v.raw})"

def literal (v : Value) : String :=
  if v.isFixnum then toString v.integer
  else match v.constant? with
    | some c => c.literal
    | none =>
      match v.keywordId? with
      | some id => if v = keyword id then s!"k{id.toNat}" else Hex.word v.raw
      | none => Hex.word v.raw

end Value

inductive Literal
  | integer (n : Int)
  | word (v : Value)
  deriving DecidableEq

namespace Literal

def natural? : List Char → Option Nat
  | [] => none
  | cs => cs.foldlM (fun n c => if c.isDigit then some (10 * n + (c.toNat - 48)) else none) 0

def constant? (text : String) : Option Constant :=
  Constant.all.find? (fun c => c.literal == text)

def ofText? (text : String) : Option Literal :=
  match constant? text with
  | some c => some (.word (Value.constant c))
  | none =>
    match text.toList with
    | 'k' :: id => (natural? id).map fun n => .word (Value.keyword (UInt32.ofNat n))
    | '0' :: 'x' :: ds => (Hex.value? ds).map fun n => .word ⟨UInt64.ofNat n⟩
    | '-' :: ds => (natural? ds).map fun n => .integer (-n)
    | ds => (natural? ds).map fun n => .integer n

end Literal

end VmSupport
