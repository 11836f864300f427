import VmSupport.Proofs.BoundLocals

namespace VmSupport

theorem BindFlags.contains_trans {flags more flag : BindFlags} (hmore : more.contains flags)
    (h : flags.contains flag) : more.contains flag := by
  simp only [contains, beq_iff_eq] at hmore h ⊢
  rw [← h, ← UInt8.and_assoc, hmore]

namespace Frame

variable {flags more : BindFlags} {table : KeywordTable} {arity : Arity} {base nargs size : Nat}
  {stack stack' : List Value}

theorem itemError?_of_more_flags (hmore : more.contains flags) {extra : Option BindError}
    {item : RegionItem} (h : itemError? flags table extra item = none) :
    itemError? more table extra item = none := by
  cases item with
  | pair key value =>
    simp only [itemError?, ite_eq_left_iff, reduceCtorEq, imp_false, not_not, Bool.or_eq_true]
      at h ⊢
    exact h.imp_right (BindFlags.contains_trans hmore)
  | lone key =>
    cases hknown : (table.lookup? key).isSome with
    | true => simp [itemError?, hknown] at h
    | false =>
      simp only [itemError?, hknown, Bool.false_eq_true, ↓reduceIte, ite_eq_left_iff, reduceCtorEq,
        imp_false, not_not] at h ⊢
      exact BindFlags.contains_trans hmore h
  | plain v =>
    simp only [itemError?, ite_eq_left_iff, reduceCtorEq, imp_false, not_not] at h ⊢
    exact BindFlags.contains_trans hmore h

theorem regionError?_of_more_flags (hmore : more.contains flags) {extra : BindError}
    {items : List RegionItem} (h : regionError? flags table extra items = none) :
    regionError? more table extra items = none := by
  cases items with
  | nil => rfl
  | cons item items =>
    rw [regionError?, Option.or_eq_none_iff, List.findSome?_eq_none_iff] at h ⊢
    refine ⟨itemError?_of_more_flags hmore h.1, fun other hother => ?_⟩
    exact itemError?_of_more_flags hmore (h.2 other hother)

/-- A frame that is bound under some flags is bound to the same locals and the same size under any
flags that contain these. -/
theorem bind_of_more_flags (hmore : more.contains flags)
    (hbind : bind base nargs { arity with flags := flags } table stack = .ok size stack') :
    bind base nargs { arity with flags := more } table stack = .ok size stack' := by
  obtain ⟨hframe, hgood, hstored⟩ := bind_eq_ok_iff.mp hbind
  exact bind_eq_ok_iff.mpr ⟨hframe, regionError?_of_more_flags hmore hgood, hstored⟩

theorem bind_of_more_flags_all_bits :
    let arity : Arity := ⟨1, 2, 4, ⟨0⟩⟩
    let table : KeywordTable := ⟨[(7, 3)]⟩
    let region : List Value := [.keyword 7, .keyword 8, .fixnum 12, .keyword 7, .fixnum 13]
    let stack : List Value := .fixnum 10 :: .fixnum 11 :: region
    let stack' : List Value :=
      .fixnum 10 :: .fixnum 11 :: .unspecified :: .unspecified :: .fixnum 13 :: region
    BindFlags.contains ⟨0xff⟩ .hasRest ∧
      bind 1 6 { arity with flags := .hasRest } table stack = .ok 9 stack' ∧
      bind 1 6 { arity with flags := ⟨0xff⟩ } table stack = .ok 9 stack' := by
  intro arity table region stack stack'
  have hmore : BindFlags.contains ⟨0xff⟩ .hasRest := by decide
  have hbind : bind 1 6 { arity with flags := .hasRest } table stack = .ok 9 stack' := by cbv
  exact ⟨hmore, hbind, bind_of_more_flags hmore hbind⟩

end Frame

end VmSupport
