import VmSupport.Proofs.Marking
import VmSupport.Proofs.ValueEncoding

namespace VmSupport

namespace Memory

theorem read_writeAll_of_ne (m : Memory) {a b : Nat} (ws : List UInt64)
    (h : ∀ i < ws.length, a + 8 * i ≠ b) : (m.writeAll a ws).read b = m.read b := by
  induction ws generalizing m a with
  | nil => rfl
  | cons w ws ih =>
    have hne : a ≠ b := by
      intro hab
      exact h 0 (Nat.succ_pos _) hab
    rw [writeAll, ih, read_write_of_ne m w hne]
    intro i hi
    have hnext := h (i + 1) (Nat.succ_lt_succ hi)
    omega

theorem read_writeAll (m : Memory) (a : Nat) (ws : List UInt64) {i : Nat} (hi : i < ws.length) :
    (m.writeAll a ws).read (a + 8 * i) = ws[i] := by
  induction ws generalizing m a i with
  | nil => exact absurd hi (Nat.not_lt_zero i)
  | cons w ws ih =>
    rw [writeAll]
    cases i with
    | zero =>
      rw [read_writeAll_of_ne _ ws (fun j _ => by omega), Nat.mul_zero, Nat.add_zero,
        read_write_self]
      rfl
    | succ i =>
      have hmem := ih (m.write a w) (a + 8) (Nat.lt_of_succ_lt_succ hi)
      have haddress : a + 8 * (i + 1) = a + 8 + 8 * i := by omega
      rw [haddress, hmem]
      rfl

@[simp] theorem length_readAll (m : Memory) (a n : Nat) : (m.readAll a n).length = n := by
  simp only [readAll, List.length_map, List.length_range]

theorem readAll_eq_iff (m : Memory) (a : Nat) (ws : List UInt64) :
    m.readAll a ws.length = ws ↔ ∀ (i : Nat) (hi : i < ws.length), m.read (a + 8 * i) = ws[i] := by
  constructor
  · intro h i hi
    have hget : (m.readAll a ws.length)[i]? = ws[i]? := by rw [h]
    simpa [readAll, List.getElem?_range hi, List.getElem?_eq_getElem hi] using hget
  · intro h
    apply List.ext_getElem (length_readAll m a ws.length)
    intro i hi hi'
    simpa [readAll] using h i hi'

theorem readAll_writeAll (m : Memory) (a : Nat) (ws : List UInt64) :
    (m.writeAll a ws).readAll a ws.length = ws :=
  (readAll_eq_iff _ a ws).mpr fun _ hi => read_writeAll m a ws hi

theorem readAll_congr {m m' : Memory} {a n : Nat}
    (h : ∀ i < n, m'.read (a + 8 * i) = m.read (a + 8 * i)) : m'.readAll a n = m.readAll a n := by
  apply List.map_congr_left
  intro i hi
  exact h i (List.mem_range.mp hi)

end Memory

def headerOf (ws : List UInt64) : Header := Header.ofWord (ws.headD 0)

theorem headerOf_word (h : Header) (payload : List UInt64) : headerOf (h.word :: payload) = h :=
  Header.ofWord_word h

namespace Memory

theorem header_writeAll_of_pos (m : Memory) (a : Nat) {ws : List UInt64} (hws : 0 < ws.length) :
    (m.writeAll a ws).header a = headerOf ws := by
  have hfirst := read_writeAll m a ws hws
  rw [Nat.mul_zero, Nat.add_zero] at hfirst
  rw [header, hfirst, headerOf, List.headD_eq_head?_getD, List.head?_eq_getElem?,
    List.getElem?_eq_getElem hws]
  rfl

theorem headerOf_readAll (m : Memory) (a : Nat) {n : Nat} (hn : 0 < n) :
    headerOf (m.readAll a n) = m.header a := by
  obtain ⟨n, rfl⟩ := Nat.exists_eq_succ_of_ne_zero (Nat.ne_of_gt hn)
  rw [readAll, List.range_succ_eq_map]
  rfl

theorem header_writeAll (m : Memory) (a : Nat) (h : Header) (payload : List UInt64) :
    (m.writeAll a (h.word :: payload)).header a = h := by
  have hpos : 0 < (h.word :: payload).length := Nat.succ_pos _
  rw [header_writeAll_of_pos m a hpos, headerOf_word]

end Memory

structure IsObject (ws : List UInt64) : Prop where
  nonempty : 0 < ws.length
  unmarked : (headerOf ws).hasFlag .marked = false
  unpinned : (headerOf ws).hasFlag .pinned = false
  typed : ∃ type, (headerOf ws).type? = some type ∧ ∀ {a slot},
    slot ∈ Memory.edgeSlots type (headerOf ws).length a →
      ∃ i, 0 < i ∧ i < ws.length ∧ slot = a + 8 * i

namespace Header

theorem hasFlag_withLength (type : ObjectType) (n : UInt32) :
    (withLength type n).hasFlag .marked = false ∧ (withLength type n).hasFlag .pinned = false := by
  have hnone : HeaderFlags.none.contains .marked = false ∧
      HeaderFlags.none.contains .pinned = false := by decide
  exact hnone

end Header

namespace IsObject

variable {ws : List UInt64}

theorem set (h : IsObject ws) {i : Nat} (hi : 0 < i) (w : UInt64) : IsObject (ws.set i w) := by
  have hheader : headerOf (ws.set i w) = headerOf ws := by
    cases ws with
    | nil => rfl
    | cons v ws =>
      obtain ⟨j, rfl⟩ := Nat.exists_eq_succ_of_ne_zero (Nat.ne_of_gt hi)
      rfl
  obtain ⟨hnonempty, hunmarked, hunpinned, htyped⟩ := h
  exact ⟨by rwa [List.length_set], by rwa [hheader], by rwa [hheader], by
    rw [hheader, List.length_set]
    exact htyped⟩

theorem withLength {type : ObjectType} {n : UInt32} {payload : List UInt64}
    (hslots : ∀ {a slot}, slot ∈ Memory.edgeSlots type n a →
      ∃ i, 0 < i ∧ i < payload.length + 1 ∧ slot = a + 8 * i) :
    IsObject ((Header.withLength type n).word :: payload) := by
  have hheader := headerOf_word (Header.withLength type n) payload
  refine ⟨Nat.succ_pos _, ?_, ?_, type, ?_, ?_⟩
  · rw [hheader]
    exact (Header.hasFlag_withLength type n).1
  · rw [hheader]
    exact (Header.hasFlag_withLength type n).2
  · rw [hheader]
    exact Header.type?_withLength type n
  · rw [hheader]
    exact hslots

end IsObject

namespace Memory

theorem edges?_writeAll (m : Memory) (a : Nat) (type : ObjectType) (n : UInt32)
    (payload : List UInt64) :
    let m' := m.writeAll a ((Header.withLength type n).word :: payload)
    m'.edges? a = some ((edgeSlots type n a).map fun slot => ⟨m'.read slot⟩) := by
  intro m'
  have hheader : m'.header a = Header.withLength type n :=
    header_writeAll m a _ payload
  rw [edges?_eq, hheader, slots?, Header.type?_withLength]
  rfl

end Memory

namespace ObjectImage

theorem isObject_cell {type : ObjectType} (htype : type = .pair ∨ type = .cell) (car cdr : Value) :
    IsObject (cell type car cdr) := by
  apply IsObject.withLength
  intro a slot hslot
  have hmem : slot = a + 8 ∨ slot = a + 16 := by
    rcases htype with rfl | rfl <;> simpa [Memory.edgeSlots] using hslot
  rcases hmem with rfl | rfl
  · exact ⟨1, Nat.succ_pos _, by simp, rfl⟩
  · exact ⟨2, Nat.succ_pos _, by simp, rfl⟩

theorem isObject_flonum (bits : UInt64) : IsObject (flonum bits) := by
  apply IsObject.withLength
  intro a slot hslot
  exact absurd hslot List.not_mem_nil

theorem isObject_string (s : String) : IsObject (string s) := by
  apply IsObject.withLength
  intro a slot hslot
  exact absurd hslot List.not_mem_nil

theorem isObject_words {type : ObjectType} (htype : type = .words ∨ type = .vector) (n : UInt32) :
    IsObject (words type n) := by
  apply IsObject.withLength
  intro a slot hslot
  have hmem : ∃ i < n.toNat, a + 8 + 8 * i = slot := by
    rcases htype with rfl | rfl <;> simpa [Memory.edgeSlots] using hslot
  obtain ⟨i, hi, rfl⟩ := hmem
  refine ⟨i + 1, Nat.succ_pos i, ?_, by omega⟩
  rw [List.length_replicate]
  omega

end ObjectImage

end VmSupport
