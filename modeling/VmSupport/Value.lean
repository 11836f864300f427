import VmSupport.Text.Hex

/-!
Tagged 64-bit words. The low bits of a word tell what it is: a fixnum ends in `0`, a reference in
`01`, an object header in `011` and an immediate in `111`. Immediates are the six constants and the
keywords, whose payload sits above bit 8.
-/

namespace VmSupport

structure Value where
  raw : UInt64
  deriving DecidableEq, Hashable, Inhabited

inductive Constant
  | ff | tt | nil | unspecified | undefined | eof
  deriving DecidableEq

namespace Constant

def code : Constant → UInt64
  | ff => 0
  | tt => 1
  | nil => 2
  | unspecified => 3
  | undefined => 4
  | eof => 5

def all : List Constant := [ff, tt, nil, unspecified, undefined, eof]

end Constant

namespace Value

def isFixnum (v : Value) : Bool := v.raw % 2 == 0

def isReference (v : Value) : Bool := v.raw % 4 == 1

def isHeader (v : Value) : Bool := v.raw % 8 == 3

def isImmediate (v : Value) : Bool := v.raw % 8 == 7

def isKeyword (v : Value) : Bool := v.isImmediate && v.raw / 8 % 2 == 1

def fixnum (n : Int) : Value := ⟨UInt64.ofInt (2 * n)⟩

def fixnum? (n : Int) : Option Value :=
  if -(1 <<< 62 : Nat) ≤ n ∧ n < 1 <<< 62 then some (fixnum n) else none

def integer (v : Value) : Int := v.raw.toInt64.toInt / 2

def integer? (v : Value) : Option Int := if v.isFixnum then some v.integer else none

def reference (address : Nat) : Value := ⟨UInt64.ofNat address + 1⟩

def reference? (address : Nat) : Option Value :=
  if address % 8 = 0 then some (reference address) else none

def address (v : Value) : Nat := (v.raw - v.raw % 4).toNat

def keyword (id : UInt32) : Value := ⟨id.toUInt64 * 256 + 15⟩

def keywordId? (v : Value) : Option UInt32 :=
  if v.isKeyword then some (v.raw / 256).toUInt32 else none

def constant (c : Constant) : Value := ⟨c.code * 256 + 7⟩

def constant? (v : Value) : Option Constant := Constant.all.find? (fun c => constant c == v)

def nil : Value := constant .nil

def unspecified : Value := constant .unspecified

def undefined : Value := constant .undefined

def ofBool (b : Bool) : Value := constant (if b then .tt else .ff)

end Value

end VmSupport
