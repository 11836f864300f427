import Std.Data.HashMap
import VmSupport.ObjectImage

/-!
Memory as words at addresses. Memory that was never written reads as zero, as fresh mappings do.
-/

namespace VmSupport

structure Memory where
  cells : Std.HashMap Nat UInt64
  deriving Inhabited

namespace Memory

def empty : Memory := ⟨∅⟩

def read (m : Memory) (address : Nat) : UInt64 := m.cells.getD address 0

def write (m : Memory) (address : Nat) (w : UInt64) : Memory := ⟨m.cells.insert address w⟩

def writeAll (m : Memory) (address : Nat) : List UInt64 → Memory
  | [] => m
  | w :: ws => (m.write address w).writeAll (address + 8) ws

def readAll (m : Memory) (address n : Nat) : List UInt64 :=
  (List.range n).map fun i => m.read (address + 8 * i)

@[simp] theorem read_empty (a : Nat) : empty.read a = 0 := by
  simp [read, empty]

theorem read_write (m : Memory) (a b : Nat) (w : UInt64) :
    (m.write a w).read b = if a = b then w else m.read b := by
  simp only [read, write, Std.HashMap.getD_insert, beq_iff_eq]

@[simp] theorem read_write_self (m : Memory) (a : Nat) (w : UInt64) : (m.write a w).read a = w := by
  simp [read_write]

theorem read_write_of_ne (m : Memory) {a b : Nat} (w : UInt64) (h : a ≠ b) :
    (m.write a w).read b = m.read b := by
  simp [read_write, h]

def header (m : Memory) (address : Nat) : Header := Header.ofWord (m.read address)

def setHeader (m : Memory) (address : Nat) (h : Header) : Memory := m.write address h.word

@[simp] theorem header_setHeader (m : Memory) (a : Nat) (h : Header) :
    (m.setHeader a h).header a = h := by
  simp [header, setHeader, Header.ofWord_word]

theorem header_setHeader_of_ne (m : Memory) {a b : Nat} (h : Header) (hab : a ≠ b) :
    (m.setHeader a h).header b = m.header b := by
  simp [header, setHeader, read_write_of_ne m h.word hab]

/-- Addresses of the payload words of an object that may hold references: both words of a cell, all
words of a word block and none of any other object. -/
def edgeSlots (type : ObjectType) (length : UInt32) (address : Nat) : List Nat :=
  match type with
  | .pair | .cell => [address + 8, address + 16]
  | .words | .vector => (List.range length.toNat).map fun i => address + 8 + 8 * i
  | .flonum | .str | .builtin | .thread => []

def edges? (m : Memory) (address : Nat) : Option (List Value) :=
  let h := m.header address
  h.type?.map fun type => (edgeSlots type h.length address).map fun slot => ⟨m.read slot⟩

def stringBytes (m : Memory) (address : Nat) : List UInt8 :=
  let size := (m.read (address + 8)).toNat
  (ObjectImage.unpackWords (m.readAll (address + 16) ((size + 7) / 8))).take size

def stringText? (m : Memory) (address : Nat) : Option String :=
  String.fromUTF8? ⟨(m.stringBytes address).toArray⟩

end Memory

end VmSupport
