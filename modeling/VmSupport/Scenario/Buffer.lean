import VmSupport.Fault
import VmSupport.Memory

namespace VmSupport

abbrev Buffer := List UInt64

namespace Buffer

def fresh (n : Nat) : Except Fault Buffer :=
  if n < 1 <<< 60 then .ok (List.replicate n 18446744073709551615) else .error .capacityOverflow

def place (image : List UInt64) (b : Buffer) : Buffer := image ++ b.drop image.length

def header (b : Buffer) : Header := Header.ofWord (b.headD 0)

def payload (b : Buffer) : List Value := ((b.drop 1).take b.header.length.toNat).map Value.mk

def setPayload (b : Buffer) (i : Nat) (v : Value) : Except Fault Buffer :=
  if i < b.header.length.toNat then .ok (b.set (i + 1) v.raw)
  else .error (.indexOutOfBounds b.header.length.toNat i)

def byteLength (b : Buffer) : Nat := (b.getD 1 0).toNat

def text? (b : Buffer) : Option String :=
  String.fromUTF8? ⟨((ObjectImage.unpackWords (b.drop 2)).take b.byteLength).toArray⟩

end Buffer

end VmSupport
