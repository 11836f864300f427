import Mathlib
import VmSupport.Header

namespace VmSupport

namespace Value

variable {n : Int} {a : Nat}

theorem isFixnum_iff (v : Value) : v.isFixnum ↔ v.raw.toNat % 2 = 0 := by
  simp only [isFixnum, beq_iff_eq, ← UInt64.toNat_inj, UInt64.toNat_mod, UInt64.reduceToNat]

theorem isReference_iff (v : Value) : v.isReference ↔ v.raw.toNat % 4 = 1 := by
  simp only [isReference, beq_iff_eq, ← UInt64.toNat_inj, UInt64.toNat_mod, UInt64.reduceToNat]

theorem isHeader_iff (v : Value) : v.isHeader ↔ v.raw.toNat % 8 = 3 := by
  simp only [isHeader, beq_iff_eq, ← UInt64.toNat_inj, UInt64.toNat_mod, UInt64.reduceToNat]

theorem isImmediate_iff (v : Value) : v.isImmediate ↔ v.raw.toNat % 8 = 7 := by
  simp only [isImmediate, beq_iff_eq, ← UInt64.toNat_inj, UInt64.toNat_mod, UInt64.reduceToNat]

theorem isKeyword_iff (v : Value) : v.isKeyword ↔ v.raw.toNat % 16 = 15 := by
  simp only [isKeyword, Bool.and_eq_true, isImmediate_iff, beq_iff_eq, ← UInt64.toNat_inj,
    UInt64.toNat_mod, UInt64.toNat_div, UInt64.reduceToNat]
  omega

theorem toNat_raw_fixnum (n : Int) : ((fixnum n).raw.toNat : Int) = 2 * n % 2 ^ 64 := by
  simp only [fixnum, UInt64.ofInt, UInt64.toNat_ofNat']
  omega

theorem toNat_raw_reference (haligned : 8 ∣ a) (hlt : a < 2 ^ 64) :
    (reference a).raw.toNat = a + 1 := by
  simp only [reference, UInt64.toNat_add, UInt64.toNat_ofNat', UInt64.reduceToNat]
  omega

theorem toNat_raw_constant (c : Constant) : (constant c).raw.toNat = c.code.toNat * 256 + 7 := by
  cases c <;> rfl

theorem toNat_raw_keyword (id : UInt32) : (keyword id).raw.toNat = id.toNat * 256 + 15 := by
  have hid := id.toNat_lt
  simp only [keyword, UInt64.toNat_add, UInt64.toNat_mul, UInt32.toNat_toUInt64, UInt64.reduceToNat]
  omega

theorem integer_fixnum (hn : -2 ^ 62 ≤ n ∧ n < 2 ^ 62) : (fixnum n).integer = n := by
  have hnonneg : 0 ≤ 2 * n % 2 ^ 64 := by omega
  have hbmod : (2 * n).bmod (2 ^ 64) = 2 * n := by
    apply Int.bmod_eq_of_le <;>
      · push_cast
        omega
  have hsigned : (fixnum n).raw.toInt64.toInt = 2 * n := by
    rw [fixnum, UInt64.ofInt, UInt64.toInt64_ofNat', Int64.toInt_ofNat', Int.toNat_of_nonneg hnonneg]
    exact (Int.emod_bmod _ _).trans hbmod
  rw [integer, hsigned]
  omega

theorem isReference_fixnum (n : Int) : (fixnum n).isReference = false := by
  have hraw := toNat_raw_fixnum n
  rw [Bool.eq_false_iff, ne_eq, isReference_iff]
  omega

theorem isReference_reference (haligned : 8 ∣ a) : (reference a).isReference := by
  rw [isReference_iff]
  simp only [reference, UInt64.toNat_add, UInt64.toNat_ofNat', UInt64.reduceToNat]
  omega

theorem address_reference (haligned : 8 ∣ a) (hlt : a < 2 ^ 64) : (reference a).address = a := by
  have hraw := toNat_raw_reference haligned hlt
  have hmod : ((reference a).raw % 4).toNat = 1 := by
    rw [UInt64.toNat_mod, hraw]
    change (a + 1) % 4 = 1
    omega
  rw [address, UInt64.toNat_sub_of_le, hraw, hmod]
  · rfl
  · rw [UInt64.le_iff_toNat_le, hmod, hraw]
    omega

theorem keywordId?_keyword (id : UInt32) : (keyword id).keywordId? = some id := by
  have hid := id.toNat_lt
  have hraw := toNat_raw_keyword id
  have hkeyword : (keyword id).isKeyword = true := by
    rw [isKeyword_iff, hraw]
    omega
  have hshift : ((keyword id).raw / 256).toUInt32 = id := by
    simp only [← UInt32.toNat_inj, UInt64.toNat_toUInt32, UInt64.toNat_div, hraw,
      UInt64.reduceToNat]
    omega
  rw [keywordId?, if_pos hkeyword, hshift]

theorem constant?_constant (c : Constant) : (constant c).constant? = some c := by
  cases c <;> rfl

theorem isSome_integer? (v : Value) : v.integer?.isSome ↔ v.isFixnum := by
  unfold integer?
  split <;> simp [*]

theorem isSome_keywordId? (v : Value) : v.keywordId?.isSome ↔ v.isKeyword := by
  unfold keywordId?
  split <;> simp [*]

end Value

namespace Header

theorem toNat_word (h : Header) : h.word.toNat =
    h.typeByte.toNat + h.flags.bits.toNat * 2 ^ 8 + h.reserved.toNat * 2 ^ 16
      + h.length.toNat * 2 ^ 32 := by
  have ht := h.typeByte.toNat_lt
  have hf := h.flags.bits.toNat_lt
  have hr := h.reserved.toNat_lt
  have hl := h.length.toNat_lt
  simp only [word, UInt64.toNat_add, UInt64.toNat_mul, UInt8.toNat_toUInt64, UInt16.toNat_toUInt64,
    UInt32.toNat_toUInt64, UInt64.reduceToNat]
  omega

theorem word_inj {h h' : Header} : h.word = h'.word ↔ h = h' := by
  constructor
  · intro heq
    rw [← ofWord_word h, heq, ofWord_word]
  · exact congrArg word

theorem type?_withLength (type : ObjectType) (length : UInt32) :
    (withLength type length).type? = some type := by
  have hcode : (type.code * 8 + 3) / 8 = type.code := by
    cases type <;> decide
  simp only [type?, withLength, hcode, ObjectType.ofCode?_code]

theorem toNat_typeByte_withLength (type : ObjectType) (length : UInt32) :
    (withLength type length).typeByte.toNat = type.code.toNat * 8 + 3 := by
  cases type <;> rfl

theorem flags_addFlag_withLength (type : ObjectType) (length : UInt32) (flags : HeaderFlags) :
    ((withLength type length).addFlag flags).flags = flags := by
  simp only [addFlag, withLength, HeaderFlags.union, HeaderFlags.none, UInt8.zero_or]

end Header

inductive WordKind
  | fixnum | reference | header | immediate
  deriving DecidableEq

namespace WordKind

def test : WordKind → Value → Bool
  | fixnum => Value.isFixnum
  | reference => Value.isReference
  | header => Value.isHeader
  | immediate => Value.isImmediate

def ofLowBits (n : Nat) : WordKind :=
  if n % 2 = 0 then fixnum
  else if n % 4 = 1 then reference
  else if n % 8 = 3 then header
  else immediate

theorem test_iff (kind : WordKind) (v : Value) : kind.test v ↔ kind = ofLowBits v.raw.toNat := by
  unfold ofLowBits
  cases kind with
  | fixnum =>
    simp only [test, Value.isFixnum_iff]
    split_ifs <;> simp <;> omega
  | reference =>
    simp only [test, Value.isReference_iff]
    split_ifs <;> simp <;> omega
  | header =>
    simp only [test, Value.isHeader_iff]
    split_ifs <;> simp <;> omega
  | immediate =>
    simp only [test, Value.isImmediate_iff]
    split_ifs <;> simp <;> omega

theorem existsUnique_test (v : Value) : ∃! kind : WordKind, kind.test v := by
  refine ⟨ofLowBits v.raw.toNat, (test_iff _ v).mpr rfl, ?_⟩
  intro kind h
  exact (test_iff kind v).mp h

end WordKind

inductive ValueSource
  | fixnum (n : Int) (hn : -2 ^ 62 ≤ n ∧ n < 2 ^ 62)
  | reference (address : Nat) (haligned : 8 ∣ address) (hlt : address < 2 ^ 64)
  | constant (c : Constant)
  | keyword (id : UInt32)
  | header (type : ObjectType) (flags : HeaderFlags) (length : UInt32)

namespace ValueSource

def word : ValueSource → Value
  | fixnum n _ => .fixnum n
  | reference address _ _ => .reference address
  | constant c => .constant c
  | keyword id => .keyword id
  | header type flags length => ⟨((Header.withLength type length).addFlag flags).word⟩

def make? : ValueSource → Option Value
  | fixnum n _ => Value.fixnum? n
  | reference address _ _ => Value.reference? address
  | constant c => some (.constant c)
  | keyword id => some (.keyword id)
  | header type flags length => some ⟨((Header.withLength type length).addFlag flags).word⟩

def kind : ValueSource → WordKind
  | fixnum .. => .fixnum
  | reference .. => .reference
  | constant _ | keyword _ => .immediate
  | header .. => .header

def integer? : ValueSource → Option Int
  | fixnum n _ => some n
  | _ => none

def address? : ValueSource → Option Nat
  | reference address _ _ => some address
  | _ => none

def keywordId? : ValueSource → Option UInt32
  | keyword id => some id
  | _ => none

theorem make?_eq (s : ValueSource) : s.make? = some s.word := by
  cases s with
  | fixnum n hn => exact if_pos hn
  | reference address haligned hlt => exact if_pos (Nat.mod_eq_zero_of_dvd haligned)
  | constant c => rfl
  | keyword id => rfl
  | header type flags length => rfl

theorem test_kind (s : ValueSource) : s.kind.test s.word := by
  cases s with
  | fixnum n hn =>
    have hraw := Value.toNat_raw_fixnum n
    refine (Value.isFixnum_iff _).mpr ?_
    rw [word]
    omega
  | reference address haligned hlt => exact Value.isReference_reference haligned
  | constant c =>
    refine (Value.isImmediate_iff _).mpr ?_
    rw [word, Value.toNat_raw_constant]
    omega
  | keyword id =>
    refine (Value.isImmediate_iff _).mpr ?_
    rw [word, Value.toNat_raw_keyword]
    omega
  | header type flags length =>
    have htype := Header.toNat_typeByte_withLength type length
    refine (Value.isHeader_iff _).mpr ?_
    rw [word, Header.toNat_word]
    change ((Header.withLength type length).typeByte.toNat + _ + _ + _) % 8 = 3
    omega

theorem test_word_iff (s : ValueSource) (kind : WordKind) : kind.test s.word ↔ kind = s.kind := by
  constructor
  · intro h
    exact (WordKind.existsUnique_test s.word).unique h s.test_kind
  · rintro rfl
    exact s.test_kind

theorem isKeyword_word (s : ValueSource) : s.word.isKeyword ↔ ∃ id, s = .keyword id := by
  constructor
  · intro h
    have himmediate : WordKind.immediate.test s.word := (Bool.and_eq_true_iff.mp h).1
    have hkind := (s.test_word_iff .immediate).mp himmediate
    cases s with
    | constant c =>
      rw [Value.isKeyword_iff, word, Value.toNat_raw_constant] at h
      omega
    | keyword id => exact ⟨id, rfl⟩
    | fixnum n hn => contradiction
    | reference address haligned hlt => contradiction
    | header type flags length => contradiction
  · rintro ⟨id, rfl⟩
    rw [Value.isKeyword_iff, word, Value.toNat_raw_keyword]
    omega

theorem integer?_word (s : ValueSource) : s.word.integer? = s.integer? := by
  by_cases h : s.word.isFixnum
  · have hkind := (s.test_word_iff .fixnum).mp h
    cases s with
    | fixnum n hn => exact (if_pos h).trans (congrArg some (Value.integer_fixnum hn))
    | reference address haligned hlt => contradiction
    | constant c => contradiction
    | keyword id => contradiction
    | header type flags length => contradiction
  · cases s with
    | fixnum n hn => exact absurd (test_kind (.fixnum n hn)) h
    | reference address haligned hlt => exact if_neg h
    | constant c => exact if_neg h
    | keyword id => exact if_neg h
    | header type flags length => exact if_neg h

theorem keywordId?_word (s : ValueSource) : s.word.keywordId? = s.keywordId? := by
  by_cases h : s.word.isKeyword
  · obtain ⟨id, rfl⟩ := s.isKeyword_word.mp h
    exact Value.keywordId?_keyword id
  · cases s with
    | keyword id => exact absurd ((isKeyword_word _).mpr ⟨id, rfl⟩) h
    | fixnum n hn => exact if_neg h
    | reference address haligned hlt => exact if_neg h
    | constant c => exact if_neg h
    | header type flags length => exact if_neg h

theorem address_word (s : ValueSource) : ∀ a ∈ s.address?, s.word.address = a := by
  intro a ha
  cases s with
  | reference address haligned hlt =>
    cases Option.mem_some.mp ha
    exact Value.address_reference haligned hlt
  | fixnum n hn => contradiction
  | constant c => contradiction
  | keyword id => contradiction
  | header type flags length => contradiction

theorem word_injective : Function.Injective word := by
  intro s t h
  have hkind : s.kind = t.kind := (t.test_word_iff s.kind).mp (h ▸ s.test_kind)
  have hinteger : s.integer? = t.integer? := by rw [← integer?_word, h, integer?_word]
  have hkeyword : s.keywordId? = t.keywordId? := by rw [← keywordId?_word, h, keywordId?_word]
  cases s with
  | fixnum n hn =>
    cases t with
    | fixnum n' hn' =>
      cases hinteger
      rfl
    | _ => contradiction
  | reference a haligned hlt =>
    cases t with
    | reference a' haligned' hlt' =>
      have haddress : a = a' := by
        rw [← address_word (.reference a haligned hlt) a rfl, h]
        exact address_word (.reference a' haligned' hlt') a' rfl
      cases haddress
      rfl
    | _ => contradiction
  | constant c =>
    cases t with
    | constant c' =>
      have hconstant : some c = some c' := by
        rw [← Value.constant?_constant, ← Value.constant?_constant]
        exact congrArg Value.constant? h
      cases hconstant
      rfl
    | _ => contradiction
  | keyword id =>
    cases t with
    | keyword id' =>
      cases hkeyword
      rfl
    | _ => contradiction
  | header type flags length =>
    cases t with
    | header type' flags' length' =>
      have hheader := Header.word_inj.mp (congrArg Value.raw h)
      have htype : some type = some type' := by
        rw [← Header.type?_withLength type length, ← Header.type?_withLength type' length']
        exact (congrArg Header.type? hheader :)
      have hflags : flags = flags' := by
        rw [← Header.flags_addFlag_withLength type length flags, hheader,
          Header.flags_addFlag_withLength]
      have hlength : length = length' := congrArg Header.length hheader
      cases htype
      rw [hflags, hlength]
    | _ => contradiction

end ValueSource

/-- Each word has one kind. Words of different sources differ, and each has the kind of its source;
of the immediates the keywords are marked as such. The integer, the address and the keyword that a
word was made from come back, and no other word passes for an integer or for a keyword. -/
theorem encoding_unambiguous :
    (∀ v : Value, ∃! kind : WordKind, kind.test v) ∧
    (∀ s : ValueSource, s.make? = some s.word) ∧ Function.Injective ValueSource.word ∧
    (∀ (s : ValueSource) (kind : WordKind), kind.test s.word ↔ kind = s.kind) ∧
    (∀ s : ValueSource, s.word.isKeyword ↔ ∃ id, s = .keyword id) ∧
    (∀ s : ValueSource, s.word.integer? = s.integer? ∧ s.word.keywordId? = s.keywordId? ∧
      ∀ a ∈ s.address?, s.word.address = a) ∧
    ∀ v : Value, (v.integer?.isSome ↔ v.isFixnum) ∧ (v.keywordId?.isSome ↔ v.isKeyword) :=
  ⟨WordKind.existsUnique_test, ValueSource.make?_eq, ValueSource.word_injective,
    ValueSource.test_word_iff, ValueSource.isKeyword_word,
    fun s => ⟨s.integer?_word, s.keywordId?_word, s.address_word⟩,
    fun v => ⟨v.isSome_integer?, v.isSome_keywordId?⟩⟩

end VmSupport
