import VmSupport.Fault
import VmSupport.Memory

/-!
Marking: from a list of values, every object that can be reached gets the mark in its header, pinned
objects and what lies behind them excepted. Each step marks one more address or drops one value, so
marking ends on every memory, however its objects refer to each other.
-/

namespace VmSupport

namespace Memory

def isMarked (m : Memory) (address : Nat) : Bool := (m.header address).hasFlag .marked

def isPinned (m : Memory) (address : Nat) : Bool := (m.header address).hasFlag .pinned

def setMark (m : Memory) (address : Nat) : Memory :=
  m.setHeader address ((m.header address).addFlag .marked)

def clearMark (m : Memory) (address : Nat) : Memory :=
  m.setHeader address ((m.header address).removeFlag .marked)

def unmarked (m : Memory) : Nat → Nat
  | 0 => 0
  | n + 1 => m.unmarked n + if m.isMarked n then 0 else 1

theorem isMarked_setMark (m : Memory) (a : Nat) : (m.setMark a).isMarked a = true := by
  simp only [isMarked, setMark, header_setHeader, Header.hasFlag, Header.addFlag,
    HeaderFlags.contains, HeaderFlags.union, HeaderFlags.marked, beq_iff_eq]
  generalize (m.header a).flags.bits = b
  rw [← UInt8.toBitVec_inj]
  simp only [UInt8.toBitVec_and, UInt8.toBitVec_or]
  ext i hi
  simp only [BitVec.getElem_and, BitVec.getElem_or]
  cases b.toBitVec[i] <;> simp

theorem isMarked_setMark_of_ne (m : Memory) {a b : Nat} (h : a ≠ b) :
    (m.setMark a).isMarked b = m.isMarked b := by
  simp [isMarked, setMark, header_setHeader_of_ne m _ h]

theorem unmarked_setMark_le (m : Memory) (a n : Nat) : (m.setMark a).unmarked n ≤ m.unmarked n := by
  induction n with
  | zero => simp [unmarked]
  | succ n ih =>
    rw [unmarked, unmarked]
    by_cases h : a = n
    · subst h
      simp [isMarked_setMark]
      omega
    · simp only [isMarked_setMark_of_ne m h]
      omega

theorem unmarked_setMark_lt (m : Memory) {a n : Nat} (hn : a < n) (ha : m.isMarked a = false) :
    (m.setMark a).unmarked n < m.unmarked n := by
  induction n with
  | zero => omega
  | succ n ih =>
    rw [unmarked, unmarked]
    by_cases h : a = n
    · subst h
      have := unmarked_setMark_le m a a
      simp [isMarked_setMark, ha]
      omega
    · have := ih (by omega)
      simp only [isMarked_setMark_of_ne m h]
      omega

end Memory

def addressBound : Nat := 1 <<< 64

theorem Value.address_lt (v : Value) : v.address < addressBound := UInt64.toNat_lt _

/-- Marks what the values of `work` reach, the front of the list first, and returns the addresses of
the objects it marked, the last one first, in front of `traced`. -/
def mark (m : Memory) (traced : List Nat) (work : List Value) :
    EStateM.Result Fault Memory (List Nat) :=
  match work with
  | [] => .ok traced m
  | v :: work =>
    if v.isReference = false then mark m traced work
    else if m.isPinned v.address = true then mark m traced work
    else if m.isMarked v.address = true then mark m traced work
    else
      let marked := m.setMark v.address
      match marked.edges? v.address with
      | none => .error .unknownType marked
      | some edges => mark marked (v.address :: traced) (edges.reverse ++ work)
termination_by (m.unmarked addressBound, work.length)
decreasing_by
  · exact Prod.Lex.right _ (Nat.lt_succ_self _)
  · exact Prod.Lex.right _ (Nat.lt_succ_self _)
  · exact Prod.Lex.right _ (Nat.lt_succ_self _)
  · have h := eq_false_of_ne_true ‹¬m.isMarked v.address = true›
    exact Prod.Lex.left _ _ (m.unmarked_setMark_lt v.address_lt h)

end VmSupport
