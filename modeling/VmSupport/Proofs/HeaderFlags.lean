import VmSupport.Proofs.ValueEncoding

namespace VmSupport

theorem HeaderFlags.contains_iff (flags flag : HeaderFlags) :
    flags.contains flag ↔
      ∀ i, flag.bits.toNat.testBit i = true → flags.bits.toNat.testBit i = true := by
  have heq : flags.contains flag ↔
      ∀ i, (flags.bits.toNat.testBit i && flag.bits.toNat.testBit i) =
        flag.bits.toNat.testBit i := by
    simp only [contains, beq_iff_eq, ← UInt8.toNat_inj, UInt8.toNat_and, ← Nat.testBit_and]
    exact ⟨fun h i => congrArg (Nat.testBit · i) h, Nat.eq_of_testBit_eq⟩
  simp only [heq, Bool.and_eq_right_iff_imp]

namespace Header

inductive Built : Header → ObjectType → UInt32 → HeaderFlags → Prop
  | new (type : ObjectType) : Built (new type) type 0 .none
  | withLength (type : ObjectType) (length : UInt32) :
      Built (withLength type length) type length .none
  | pinned (type : ObjectType) : Built (pinned type) type 0 .pinned

variable {h : Header} {type : ObjectType} {length : UInt32} {flags : HeaderFlags}

theorem Built.eq (hbuilt : h.Built type length flags) :
    h = { Header.withLength type length with flags := flags } := by
  cases hbuilt with
  | new => rfl
  | withLength => rfl
  | pinned =>
    have hflags := flags_addFlag_withLength type 0 .pinned
    exact congrArg (fun flags => { Header.withLength type 0 with flags := flags }) hflags

theorem isValid_iff (h : Header) :
    h.isValid ↔ h.typeByte.toNat % 8 = 3 ∧ h.typeByte.toNat / 8 < 8 := by
  simp only [isValid, Bool.and_eq_true, beq_iff_eq, decide_eq_true_eq, ← UInt8.toNat_inj,
    UInt8.lt_iff_toNat_lt, UInt8.toNat_mod, UInt8.toNat_div, UInt8.reduceToNat]

theorem isValid_withLength (type : ObjectType) (length : UInt32) :
    (Header.withLength type length).isValid := by
  have hbyte := toNat_typeByte_withLength type length
  have hcode : type.code.toNat < 8 := by cases type <;> decide
  rw [isValid_iff]
  omega

theorem isHeader_word (hvalid : h.isValid) : (Value.mk h.word).isHeader := by
  have hbyte := (isValid_iff h).mp hvalid
  rw [Value.isHeader_iff, toNat_word]
  omega

theorem testBit_word_low (h : Header) {i : Nat} (hi : i < 8) :
    h.word.toNat.testBit i = h.typeByte.toNat.testBit i := by
  have hsplit : h.word.toNat = 2 ^ 8 * (h.word.toNat / 2 ^ 8) + h.typeByte.toNat := by
    have := h.typeByte.toNat_lt
    rw [toNat_word]
    omega
  rw [hsplit, Nat.testBit_two_pow_mul_add _ h.typeByte.toNat_lt, if_pos hi]

theorem testBit_word_flags (h : Header) {i : Nat} (hi : i < 8) :
    h.word.toNat.testBit (8 + i) = h.flags.bits.toNat.testBit i := by
  have hdiv : h.word.toNat / 2 ^ 8 =
      2 ^ 8 * (h.word.toNat / 2 ^ 16) + h.flags.bits.toNat := by
    have ht := h.typeByte.toNat_lt
    have hf := h.flags.bits.toNat_lt
    rw [toNat_word]
    omega
  rw [Nat.add_comm, ← Nat.testBit_div_two_pow, hdiv,
    Nat.testBit_two_pow_mul_add _ h.flags.bits.toNat_lt, if_pos hi]

theorem testBit_word_high (h : Header) (i : Nat) : h.word.toNat.testBit (16 + i) =
    (h.reserved.toNat + h.length.toNat * 2 ^ 16).testBit i := by
  have hdiv : h.word.toNat / 2 ^ 16 = h.reserved.toNat + h.length.toNat * 2 ^ 16 := by
    have ht := h.typeByte.toNat_lt
    have hf := h.flags.bits.toNat_lt
    rw [toNat_word]
    omega
  rw [Nat.add_comm, ← Nat.testBit_div_two_pow, hdiv]

theorem testBit_word_of_frame (flags : HeaderFlags) {i : Nat} (hi : i < 8 ∨ 16 ≤ i) :
    { h with flags := flags }.word.toNat.testBit i = h.word.toNat.testBit i := by
  obtain hlow | hhigh := hi
  · rw [testBit_word_low _ hlow, testBit_word_low _ hlow]
  · obtain ⟨j, rfl⟩ := Nat.exists_eq_add_of_le hhigh
    rw [testBit_word_high, testBit_word_high]

end Header

inductive FlagChange
  | add (flag : HeaderFlags)
  | remove (flag : HeaderFlags)
  | fetchAdd (flag : HeaderFlags)

namespace FlagChange

def perform : FlagChange → Header → Option HeaderFlags × Header
  | add flag, h => (none, h.addFlag flag)
  | remove flag, h => (none, h.removeFlag flag)
  | fetchAdd flag, h => ((h.fetchAddFlag flag).1, (h.fetchAddFlag flag).2)

def performAll : List FlagChange → Header → List (Option HeaderFlags) × Header
  | [], h => ([], h)
  | c :: cs, h => ((c.perform h).1 :: (performAll cs (c.perform h).2).1,
      (performAll cs (c.perform h).2).2)

def onByte (b : UInt8) : FlagChange → UInt8
  | add flag => b ||| flag.bits
  | remove flag => b &&& ~~~flag.bits
  | fetchAdd flag => b ||| flag.bits

def answer (flags : HeaderFlags) : FlagChange → Option HeaderFlags
  | add _ => none
  | remove _ => none
  | fetchAdd _ => some flags

theorem perform_eq (c : FlagChange) (h : Header) :
    c.perform h = (c.answer h.flags, { h with flags := ⟨c.onByte h.flags.bits⟩ }) := by
  cases c <;> rfl

theorem performAll_snd (cs : List FlagChange) (h : Header) :
    (performAll cs h).2 = { h with flags := ⟨cs.foldl onByte h.flags.bits⟩ } := by
  induction cs generalizing h with
  | nil => rfl
  | cons c cs ih => rw [performAll, ih, perform_eq, List.foldl_cons]

theorem performAll_append (before after : List FlagChange) (h : Header) :
    performAll (before ++ after) h =
      ((performAll before h).1 ++ (performAll after (performAll before h).2).1,
        (performAll after (performAll before h).2).2) := by
  induction before generalizing h with
  | nil => rfl
  | cons c before ih => rw [List.cons_append, performAll, ih, performAll, List.cons_append]

theorem length_performAll (cs : List FlagChange) (h : Header) :
    (performAll cs h).1.length = cs.length := by
  induction cs generalizing h with
  | nil => rfl
  | cons c cs ih => rw [performAll, List.length_cons, ih, List.length_cons]

theorem getElem?_performAll (before after : List FlagChange) (c : FlagChange) (h : Header) :
    (performAll (before ++ c :: after) h).1[before.length]? =
      some (c.answer (performAll before h).2.flags) := by
  have hlen := length_performAll before h
  rw [performAll_append, ← hlen, List.getElem?_append_right (Nat.le_refl _), Nat.sub_self,
    performAll, perform_eq, List.getElem?_cons_zero]

end FlagChange

/-- A header that is built and whose flags are then changed any number of times has the type, the
length and the reserved bytes it was built with. It is valid, as a value its word is a header, from
its word it is read back, and outside the flag byte no bit of the word is another. The flag byte is
the fold of the changes, a change that fetches answers with the flags before it, and a header has
the flags all of whose bits are set. -/
theorem flag_changes_confined {h : Header} {type : ObjectType} {length : UInt32}
    {flags : HeaderFlags} (hbuilt : h.Built type length flags) (cs : List FlagChange) :
    let h' := (FlagChange.performAll cs h).2
    (h'.type? = some type ∧ h'.length = length ∧ h'.reserved = 0) ∧
    (h'.isValid ∧ (Value.mk h'.word).isHeader ∧ Header.ofWord h'.word = h') ∧
    (∀ i, i < 8 ∨ 16 ≤ i → h'.word.toNat.testBit i = h.word.toNat.testBit i) ∧
    (∀ i < 8, h'.word.toNat.testBit (8 + i) = h'.flags.bits.toNat.testBit i) ∧
    h'.flags.bits = cs.foldl FlagChange.onByte flags.bits ∧
    (∀ before flag after, cs = before ++ .fetchAdd flag :: after →
      (FlagChange.performAll cs h).1[before.length]? =
        some (some (FlagChange.performAll before h).2.flags)) ∧
    ∀ flag, h'.hasFlag flag ↔
      ∀ i, flag.bits.toNat.testBit i = true → h'.flags.bits.toNat.testBit i = true := by
  intro h'
  have hstart := hbuilt.eq
  have hflags : h.flags = flags := by rw [hstart]
  have hend : h' = { h with flags := ⟨cs.foldl FlagChange.onByte h.flags.bits⟩ } :=
    FlagChange.performAll_snd cs h
  have hvalid : h'.isValid := by
    rw [hend, hstart]
    exact Header.isValid_withLength type length
  refine ⟨⟨?_, ?_, ?_⟩, ⟨hvalid, Header.isHeader_word hvalid, Header.ofWord_word h'⟩, ?_, ?_, ?_,
    ?_, ?_⟩
  · rw [hend, hstart]
    exact Header.type?_withLength type length
  · rw [hend, hstart]
    rfl
  · rw [hend, hstart]
    rfl
  · intro i hi
    rw [hend]
    exact Header.testBit_word_of_frame _ hi
  · intro i hi
    exact Header.testBit_word_flags h' hi
  · rw [hend, hflags]
  · rintro before flag after rfl
    exact FlagChange.getElem?_performAll before after _ h
  · intro flag
    exact HeaderFlags.contains_iff h'.flags flag

theorem flag_changes_confined_pinned_thread :
    (Header.pinned .thread).Built .thread 0 .pinned ∧
      (FlagChange.performAll [.add .marked, .fetchAdd ⟨255⟩, .remove ⟨254⟩, .fetchAdd ⟨128⟩]
        (Header.pinned .thread)).2.type? = some .thread ∧
      (FlagChange.performAll [.add .marked, .fetchAdd ⟨255⟩, .remove ⟨254⟩, .fetchAdd ⟨128⟩]
        (Header.pinned .thread)).2.flags.bits = 129 ∧
      (FlagChange.performAll [.add .marked, .fetchAdd ⟨255⟩, .remove ⟨254⟩, .fetchAdd ⟨128⟩]
        (Header.pinned .thread)).1[3]? = some (some .marked) := by
  obtain ⟨⟨htype, -⟩, -, -, -, hbits, hfetch, -⟩ :=
    flag_changes_confined (.pinned .thread)
      [.add .marked, .fetchAdd ⟨255⟩, .remove ⟨254⟩, .fetchAdd ⟨128⟩]
  refine ⟨.pinned .thread, htype, hbits, ?_⟩
  exact hfetch [.add .marked, .fetchAdd ⟨255⟩, .remove ⟨254⟩] ⟨128⟩ [] rfl

end VmSupport
