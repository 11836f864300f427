import VmSupport.Proofs.ObjectWords
import VmSupport.Proofs.MachineRuns

namespace VmSupport

namespace ObjectImage

@[simp] theorem length_wordBytes (n : Nat) (w : UInt64) : (wordBytes n w).length = n := by
  induction n generalizing w with
  | zero => rfl
  | succ n ih => rw [wordBytes, List.length_cons, ih]

theorem wordBytes_zero (n : Nat) : wordBytes n 0 = List.replicate n 0 := by
  induction n with
  | zero => rfl
  | succ n ih =>
    rw [wordBytes, List.replicate_succ, ← ih]
    rfl

theorem toNat_byte_add (b : UInt8) {w : UInt64} (hw : w.toNat < 2 ^ 56) :
    (b.toUInt64 + 256 * w).toNat = b.toNat + 256 * w.toNat := by
  have hb := b.toNat_lt
  simp only [UInt64.toNat_add, UInt64.toNat_mul, UInt8.toNat_toUInt64, UInt64.reduceToNat]
  omega

theorem wordBytes_cons (n : Nat) (b : UInt8) {w : UInt64} (hw : w.toNat < 2 ^ 56) :
    wordBytes (n + 1) (b.toUInt64 + 256 * w) = b :: wordBytes n w := by
  have hb := b.toNat_lt
  have hsum := toNat_byte_add b hw
  have hlow : (b.toUInt64 + 256 * w).toUInt8 = b := by
    rw [← UInt8.toNat_inj, UInt64.toNat_toUInt8, hsum]
    omega
  have hhigh : (b.toUInt64 + 256 * w) / 256 = w := by
    simp only [← UInt64.toNat_inj, UInt64.toNat_div, hsum, UInt64.reduceToNat]
    omega
  rw [wordBytes, hlow, hhigh]

theorem toNat_packWord_lt (bytes : List UInt8) (h : bytes.length ≤ 8) :
    (packWord bytes).toNat < 256 ^ bytes.length := by
  induction bytes with
  | nil => exact Nat.one_pos
  | cons b bytes ih =>
    have hb := b.toNat_lt
    have hword := ih (Nat.le_of_succ_le h)
    have hle : 256 ^ bytes.length ≤ 256 ^ 7 :=
      Nat.pow_le_pow_right (by omega) (Nat.le_of_succ_le_succ h)
    change (b.toUInt64 + 256 * packWord bytes).toNat < 256 ^ (bytes.length + 1)
    rw [toNat_byte_add b (hword.trans_le hle), Nat.pow_succ]
    omega

theorem toNat_packWord_lt_of_room {bytes : List UInt8} (h : bytes.length < 8) :
    (packWord bytes).toNat < 2 ^ 56 :=
  (toNat_packWord_lt bytes h.le).trans_le
    (Nat.pow_le_pow_right (by omega : 0 < 256) (Nat.le_of_lt_succ h))

theorem toNat_packWord_cons (b : UInt8) {bytes : List UInt8} (h : bytes.length < 8) :
    (packWord (b :: bytes)).toNat = b.toNat + 256 * (packWord bytes).toNat :=
  toNat_byte_add b (toNat_packWord_lt_of_room h)

theorem wordBytes_packWord {n : Nat} (hn : n ≤ 8) (bytes : List UInt8) (h : bytes.length ≤ n) :
    wordBytes n (packWord bytes) = bytes ++ List.replicate (n - bytes.length) 0 := by
  induction bytes generalizing n with
  | nil => exact wordBytes_zero n
  | cons b bytes ih =>
    obtain ⟨n, rfl⟩ := Nat.exists_eq_add_of_lt (Nat.lt_of_lt_of_le (Nat.zero_lt_succ _) h)
    rw [Nat.zero_add] at h hn ⊢
    have hlength : bytes.length ≤ n := Nat.le_of_succ_le_succ h
    have hword : (packWord bytes).toNat < 2 ^ 56 := toNat_packWord_lt_of_room (by omega)
    change wordBytes (n + 1) (b.toUInt64 + 256 * packWord bytes) = _
    rw [wordBytes_cons n b hword, ih (by omega) hlength, List.length_cons, Nat.add_sub_add_right,
      List.cons_append]

theorem getElem?_packWords {n i : Nat} (bytes : List UInt8) (hi : i < n) :
    (packWords n bytes)[i]? = some (packWord ((bytes.drop (8 * i)).take 8)) := by
  induction n generalizing bytes i with
  | zero => exact absurd hi (Nat.not_lt_zero i)
  | succ n ih =>
    cases i with
    | zero => rfl
    | succ i =>
      have hrest := ih (bytes.drop 8) (Nat.lt_of_succ_lt_succ hi)
      rw [List.drop_drop] at hrest
      have height : 8 * (i + 1) = 8 + 8 * i := by omega
      rw [height]
      exact hrest

theorem unpackWords_cons (w : UInt64) (ws : List UInt64) :
    unpackWords (w :: ws) = wordBytes 8 w ++ unpackWords ws := List.flatMap_cons

theorem unpackWords_replicate (n : Nat) :
    unpackWords (List.replicate n 0) = List.replicate (8 * n) 0 := by
  induction n with
  | zero => rfl
  | succ n ih =>
    rw [List.replicate_succ, unpackWords_cons, ih, wordBytes_zero, ← List.replicate_add]
    congr 1
    omega

theorem unpackWords_packWords (n : Nat) (bytes : List UInt8) (h : bytes.length ≤ 8 * n) :
    unpackWords (packWords n bytes) = bytes ++ List.replicate (8 * n - bytes.length) 0 := by
  induction n generalizing bytes with
  | zero =>
    obtain rfl := List.eq_nil_of_length_eq_zero (Nat.le_zero.mp h)
    rfl
  | succ n ih =>
    have htake : (bytes.take 8).length ≤ 8 := List.length_take_le 8 bytes
    have hdrop : (bytes.drop 8).length ≤ 8 * n := by
      rw [List.length_drop]
      omega
    rw [packWords, unpackWords_cons, wordBytes_packWord le_rfl _ htake, ih _ hdrop]
    by_cases hlt : bytes.length < 8
    · -- the last bytes: zeros follow in this word and in all later ones
      rw [List.take_of_length_le hlt.le, List.drop_of_length_le hlt.le, List.nil_append,
        List.append_assoc, ← List.replicate_add, List.length_nil]
      congr 2
      omega
    · rw [List.length_take, List.length_drop, Nat.min_eq_left (not_lt.mp hlt), Nat.sub_self,
        List.replicate_zero, List.append_nil, ← List.append_assoc, List.take_append_drop]
      congr 2
      omega

theorem unpackWords_packBytes (bytes : List UInt8) : unpackWords (packBytes bytes) =
    bytes ++ List.replicate (8 * ((bytes.length + 7) / 8) - bytes.length) 0 :=
  unpackWords_packWords _ bytes (by omega)

theorem length_le_utf8ByteSize (s : String) : s.length ≤ s.utf8ByteSize := by
  induction s using String.push_induction with
  | empty => exact le_rfl
  | push s c ih =>
    have hpos := c.utf8Size_pos
    rw [String.length_push, String.utf8ByteSize_push]
    omega

/-- A header without flags: the type, no flags, two reserved bytes and the length. -/
def headerBytes (type : ObjectType) (length : Nat) : List UInt8 :=
  [type.code * 8 + 3, 0, 0, 0] ++ wordBytes 4 (UInt64.ofNat length)

theorem wordBytes_withLength (type : ObjectType) (n : UInt32) :
    wordBytes 8 (Header.withLength type n).word = headerBytes type n.toNat := by
  have hn := n.toNat_lt
  have hlength : (UInt64.ofNat n.toNat).toNat = n.toNat := by
    rw [UInt64.toNat_ofNat', Nat.mod_eq_of_lt (by omega)]
  have htype := (type.code * 8 + 3).toNat_lt
  have hword : (Header.withLength type n).word = (type.code * 8 + 3).toUInt64 + 256 *
      ((0 : UInt8).toUInt64 + 256 * ((0 : UInt8).toUInt64 + 256 *
        ((0 : UInt8).toUInt64 + 256 * UInt64.ofNat n.toNat))) := by
    simp only [Header.withLength, Header.word, HeaderFlags.none, ← UInt64.toNat_inj,
      UInt64.toNat_add, UInt64.toNat_mul, UInt8.toNat_toUInt64, UInt16.toNat_toUInt64,
      UInt32.toNat_toUInt64, UInt64.reduceToNat, UInt8.reduceToNat, UInt16.reduceToNat, hlength]
    omega
  have hshift : ∀ {w : UInt64} {k : Nat}, w.toNat < 2 ^ 32 * 256 ^ k → k ≤ 2 →
      ((0 : UInt8).toUInt64 + 256 * w).toNat < 2 ^ 32 * 256 ^ (k + 1) := by
    intro w k hw hk
    have hle : 256 ^ k ≤ 256 ^ 2 := Nat.pow_le_pow_right (by omega) hk
    simp only [UInt64.toNat_add, UInt64.toNat_mul, UInt8.toNat_toUInt64, UInt64.reduceToNat,
      UInt8.reduceToNat, Nat.pow_succ] at hw ⊢
    omega
  have h0 : (UInt64.ofNat n.toNat).toNat < 2 ^ 32 * 256 ^ 0 := by omega
  have h1 := hshift h0 (by omega)
  have h2 := hshift h1 (by omega)
  have h3 := hshift h2 (by omega)
  rw [hword, wordBytes_cons 7 _ (by omega), wordBytes_cons 6 _ (by omega),
    wordBytes_cons 5 _ (by omega), wordBytes_cons 4 _ (by omega)]
  rfl

end ObjectImage

namespace Memory

def byte (m : Memory) (b : Nat) : UInt8 :=
  (ObjectImage.wordBytes 8 (m.read (8 * (b / 8)))).getD (b % 8) 0

def bytes (m : Memory) (a n : Nat) : List UInt8 := (List.range n).map fun i => m.byte (a + i)

variable {m : Memory} {a b : Nat}

theorem bytes_word (ha : 8 ∣ a) : m.bytes a 8 = ObjectImage.wordBytes 8 (m.read a) := by
  obtain ⟨k, rfl⟩ := ha
  apply List.ext_getElem
  · rw [bytes, List.length_map, List.length_range, ObjectImage.length_wordBytes]
  · intro i hi hi'
    rw [ObjectImage.length_wordBytes] at hi'
    have hdiv : (8 * k + i) / 8 = k := by omega
    have hmod : (8 * k + i) % 8 = i := by omega
    simp only [bytes, List.getElem_map, List.getElem_range, byte, hdiv, hmod]
    exact List.getD_eq_getElem _ _ _

theorem bytes_add (m : Memory) (a n k : Nat) :
    m.bytes a (n + k) = m.bytes a n ++ m.bytes (a + n) k := by
  simp only [bytes, List.range_add, List.map_append, List.map_map, Function.comp_def,
    Nat.add_assoc]

theorem bytes_eq_unpackWords (ha : 8 ∣ a) (n : Nat) :
    m.bytes a (8 * n) = ObjectImage.unpackWords (m.readAll a n) := by
  induction n with
  | zero => rfl
  | succ n ih =>
    have hword : m.bytes (a + 8 * n) 8 = ObjectImage.wordBytes 8 (m.read (a + 8 * n)) :=
      bytes_word (Nat.dvd_add ha (Nat.dvd_mul_right 8 n))
    rw [Nat.mul_succ, bytes_add, ih, hword]
    simp only [readAll, List.range_succ, List.map_append, ObjectImage.unpackWords,
      List.flatMap_append, List.map_cons, List.map_nil, List.flatMap_cons, List.flatMap_nil,
      List.append_nil]

theorem byte_congr {m' : Memory} (h : m'.read (8 * (b / 8)) = m.read (8 * (b / 8))) :
    m'.byte b = m.byte b := by
  rw [byte, byte, h]

theorem bytes_writeAll (m : Memory) (ha : 8 ∣ a) (ws : List UInt64) :
    (m.writeAll a ws).bytes a (8 * ws.length) = ObjectImage.unpackWords ws := by
  rw [bytes_eq_unpackWords ha, readAll_writeAll]

theorem byte_writeAll_of_outside (m : Memory) (ha : 8 ∣ a) {ws : List UInt64}
    (hb : b < a ∨ a + 8 * ws.length ≤ b) : (m.writeAll a ws).byte b = m.byte b := by
  apply byte_congr
  apply read_writeAll_of_ne
  intro i hi
  omega

end Memory

namespace ObjectRequest

open ObjectImage

def IsShort : ObjectRequest → Prop
  | string s => s.utf8ByteSize < 2 ^ 32
  | cell .. | flonum _ | words .. => True

theorem IsShort.fits {r : ObjectRequest} (h : r.IsShort) : r.Fits := by
  cases r with
  | cell type car cdr => exact trivial
  | flonum bits => exact trivial
  | words type n => exact trivial
  | string s =>
    have hlt : s.utf8ByteSize < 2 ^ 32 := h
    change 1 + (s.utf8ByteSize + 7) / 8 < 2 ^ 32
    omega

def contents (r : ObjectRequest) (vs : List Value) : List UInt8 :=
  match r with
  | cell type _ _ => headerBytes type 0 ++ vs.flatMap fun v => wordBytes 8 v.raw
  | flonum bits => headerBytes .flonum 0 ++ wordBytes 8 bits
  | words type n => headerBytes type n.toNat ++ List.replicate (8 * n.toNat) 0
  | string s => headerBytes .str s.length ++ wordBytes 8 (UInt64.ofNat s.utf8ByteSize) ++
      s.toUTF8.data.toList ++
      List.replicate (8 * ((s.utf8ByteSize + 7) / 8) - s.utf8ByteSize) 0

theorem unpackWords_imageOf {r : ObjectRequest} (h : r.IsShort) (vs : List Value) :
    unpackWords (r.imageOf vs) = r.contents vs := by
  cases r with
  | cell type car cdr =>
    rw [imageOf, fields, unpackWords_cons, Header.new, wordBytes_withLength, unpackWords,
      List.flatMap_map]
    rfl
  | flonum bits =>
    rw [imageOf, ObjectImage.flonum, unpackWords_cons, Header.new, wordBytes_withLength,
      unpackWords_cons]
    exact congrArg _ (List.append_nil _)
  | words type n =>
    rw [imageOf, ObjectImage.words, unpackWords_cons, wordBytes_withLength, unpackWords_replicate]
    rfl
  | string s =>
    have hlength : (UInt32.ofNat s.length).toNat = s.length := by
      have hle := length_le_utf8ByteSize s
      have hlt : s.utf8ByteSize < 2 ^ 32 := h
      rw [UInt32.toNat_ofNat', Nat.mod_eq_of_lt (by omega)]
    rw [imageOf, ObjectImage.string, unpackWords_cons, wordBytes_withLength, unpackWords_cons,
      unpackWords_packBytes, length_toUTF8, hlength]
    simp only [contents, List.append_assoc]

theorem length_imageOf (r : ObjectRequest) {vs : List Value} (h : vs.length = r.operands.length) :
    (r.imageOf vs).length = r.image.length := by
  cases r with
  | cell type car cdr =>
    simp only [image, imageOf, fields, List.length_cons, List.length_map, h]
  | flonum bits => rfl
  | words type n => rfl
  | string s => rfl

end ObjectRequest

end VmSupport
