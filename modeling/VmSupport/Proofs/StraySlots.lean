import VmSupport.Proofs.ConfinedFrames
import VmSupport.Proofs.RegionGrammar

namespace VmSupport

/-- Reading the region from its left end comes, behind `before`, to a keyword that names a local
from `n` on; the keywords before it name none of these. -/
inductive KeywordTable.Strays (table : KeywordTable) (n : Nat) : List Value → List Value → Prop
  | here {key value : Value} {rest : List Value} {j : Nat} (hkey : key.isKeyword)
    (hmaps : table.Maps key j) (hj : n ≤ j) : table.Strays n [] (key :: value :: rest)
  | pair {k v : Value} {before region : List Value} (hk : k.isKeyword)
    (hslot : ∀ j, table.Maps k j → j < n) (h : table.Strays n before region) :
    table.Strays n (k :: v :: before) (k :: v :: region)
  | plain {v : Value} {before region : List Value} (hv : ¬ v.isKeyword)
    (h : table.Strays n before region) : table.Strays n (v :: before) (v :: region)

namespace KeywordTable

variable {table : KeywordTable} {n : Nat} {before region : List Value}

theorem Strays.lt_of_meets (h : table.Strays n before region) {key value : Value}
    {rest : List Value} {j : Nat} (hmeets : Meets key value rest before)
    (hmaps : table.Maps key j) : j < n := by
  induction h with
  | here => exact absurd hmeets not_meets_nil
  | pair hk hslot _ ih =>
    rcases (meets_pair_iff hk).mp hmeets with ⟨rfl, -, -⟩ | hmeets
    · exact hslot j hmaps
    · exact ih hmeets
  | plain hv _ ih => exact ih ((meets_plain_iff hv).mp hmeets)

theorem lt_or_strays (table : KeywordTable) (n : Nat) (region : List Value) :
    (∀ key value rest j, Meets key value rest region → table.Maps key j → j < n) ∨
      ∃ before, table.Strays n before region := by
  -- along the reading of the region, an item at a time
  induction region using RegionItem.parse.induct with
  | case1 => exact Or.inl fun _ _ _ _ hmeets => absurd hmeets not_meets_nil
  | case2 k hk => exact Or.inl fun _ _ _ _ hmeets => absurd hmeets not_meets_singleton
  | case3 v hv => exact Or.inl fun _ _ _ _ hmeets => absurd hmeets not_meets_singleton
  | case4 k v region hk ih =>
    by_cases hslot : ∀ j, table.Maps k j → j < n
    · rcases ih with hlt | ⟨before, hstrays⟩
      · left
        intro key value rest j hmeets hmaps
        rcases (meets_pair_iff hk).mp hmeets with ⟨rfl, -, -⟩ | hmeets
        · exact hslot j hmaps
        · exact hlt key value rest j hmeets hmaps
      · exact Or.inr ⟨_, .pair hk hslot hstrays⟩
    · push Not at hslot
      obtain ⟨j, hmaps, hj⟩ := hslot
      exact Or.inr ⟨[], .here hk hmaps hj⟩
  | case5 v w region hv ih =>
    have hv : ¬ v.isKeyword := by simpa using hv
    rcases ih with hlt | ⟨before, hstrays⟩
    · left
      intro key value rest j hmeets
      exact hlt key value rest j ((meets_plain_iff hv).mp hmeets)
    · exact Or.inr ⟨_, .plain hv hstrays⟩

theorem Strays.parse_eq (h : table.Strays n before region) :
    ∃ key value items slot, RegionItem.parse region =
        RegionItem.parse before ++ .pair key value :: items ∧
      table.lookup? key = some slot ∧ n ≤ slot.toNat := by
  induction h with
  | @here key value rest j hkey hmaps hj =>
    obtain ⟨slot, hlookup, rfl⟩ := maps_iff.mp hmaps
    refine ⟨key, value, RegionItem.parse rest, slot, ?_, hlookup, hj⟩
    simp only [RegionItem.parse, hkey, ↓reduceIte, List.nil_append]
  | pair hk _ _ ih =>
    obtain ⟨key, value, items, slot, hparse, hslot⟩ := ih
    refine ⟨key, value, items, slot, ?_, hslot⟩
    simp only [RegionItem.parse, hk, ↓reduceIte, hparse, List.cons_append]
  | plain hv _ ih =>
    obtain ⟨key, value, items, slot, hparse, hslot⟩ := ih
    refine ⟨key, value, items, slot, ?_, hslot⟩
    rw [Frame.parse_plain hv, Frame.parse_plain hv, hparse, List.cons_append]

end KeywordTable

namespace Frame

variable {table : KeywordTable} {arity : Arity} {base nargs p : Nat}
  {args locals locals' stack before region : List Value}

theorem store_append {items : List RegionItem}
    (h : store table items locals = .ok () locals') (more : List RegionItem) :
    store table (items ++ more) locals = store table more locals' := by
  induction items generalizing locals with
  | nil =>
    cases h
    rfl
  | cons item items ih =>
    cases item with
    | pair key value =>
      cases hlookup : table.lookup? key with
      | none =>
        simp only [store, List.cons_append, hlookup] at h ⊢
        exact ih h
      | some slot =>
        rw [store_pair_of_lookup? hlookup] at h
        rw [List.cons_append, store_pair_of_lookup? hlookup]
        by_cases hlt : slot.toNat < locals.length
        · rw [if_pos hlt] at h ⊢
          exact ih h
        · rw [if_neg hlt] at h
          cases h
    | lone key => exact ih h
    | plain v => exact ih h

theorem store_of_strays (h : table.Strays locals.length before region) :
    ∃ locals', store table (RegionItem.parse region) locals = .error .slotOutsideLocals locals' ∧
      locals'.length = locals.length ∧
      ∀ j otherwise, locals[j]? = some otherwise →
        ∃ v, locals'[j]? = some v ∧ Assigned table j otherwise before v := by
  obtain ⟨key, value, items, slot, hparse, hlookup, hslot⟩ := h.parse_eq
  have hbefore : ∀ key value rest j, Meets key value rest before → table.Maps key j →
      j < locals.length := fun _ _ _ _ hmeets hmaps => h.lt_of_meets hmeets hmaps
  obtain ⟨locals', hstore, hlength, hassigned⟩ := store_assigns_met before hbefore
  refine ⟨locals', ?_, hlength, hassigned⟩
  have hover : ¬ slot.toNat < locals'.length := by omega
  rw [hparse, store_append hstore, store_pair_of_lookup? hlookup, if_neg hover]

/-- The stack a binding leaves that ended behind `before`: the region is in its place behind the
locals, and these hold what the pairs of `before` gave them. -/
structure IsCutShort (arity : Arity) (table : KeywordTable) (stack args : List Value)
    (p base : Nat) (before stack' : List Value) : Prop where
  confined : Confined stack base (arity.locals.toNat + (args.drop p).length) stack'
  region : (stack'.drop (base + arity.locals.toNat)).take (args.drop p).length = args.drop p
  locals : ∀ j < arity.locals.toNat, ∃ v, stack'[base + j]? = some v ∧
    Assigned table j ((args.take p)[j]?.getD .unspecified) before v

theorem isCutShort_splice (hbase : base ≤ stack.length)
    (hlength : locals.length = arity.locals.toNat)
    (hlocals : ∀ j < arity.locals.toNat, ∃ v, locals[j]? = some v ∧
      Assigned table j ((args.take p)[j]?.getD .unspecified) before v) :
    IsCutShort arity table stack args p base before
      (splice stack base (locals ++ args.drop p)) := by
  constructor
  · rw [← hlength, ← List.length_append]
    exact confined_splice hbase
  · exact take_drop_splice hbase hlength
  · intro j hj
    obtain ⟨v, hv, hassigned⟩ := hlocals j hj
    refine ⟨v, ?_, hassigned⟩
    rw [getElem?_splice_locals hbase (by omega), hv]

section Frame

variable (harity : arity.IsWellFormed) (hframe : base + nargs ≤ stack.length)
  (hstack : stack.length < 2 ^ 64) (hargs : (stack.drop base).take nargs = args)

include harity hframe hstack hargs

theorem Accepts.bind_of_strays (h : Accepts arity table args) (hp : arity.SplitsAt args p)
    (hstrays : table.Strays arity.locals.toNat before (args.drop p)) :
    ∃ stack', bind base nargs arity table stack = .error (.fault .slotOutsideLocals) stack' ∧
      IsCutShort arity table stack args p base before stack' := by
  have hlocals := length_unassigned harity hp
  rw [← hlocals] at hstrays
  obtain ⟨locals, hstore, hlength, hassigned⟩ := store_of_strays hstrays
  refine ⟨_, (h.bind_of_store harity hframe hstack hargs hp).2 _ locals hstore,
    isCutShort_splice (by omega) (hlength.trans hlocals) fun j hj => ?_⟩
  exact hassigned j _ (getElem?_unassigned hp hj)

end Frame

/-- A binding that fails leaves the stack as it was, unless it comes to a keyword of accepted
arguments whose slot is no local: then, and only then, it ends with a fault, and the locals are
those of the pairs before that keyword. A stack has no `2 ^ 64` values. -/
theorem bind_undone_or_cut_short (table : KeywordTable) (harity : arity.IsWellFormed)
    (hframe : base + nargs ≤ stack.length) (hstack : stack.length < 2 ^ 64) :
    let args := (stack.drop base).take nargs
    (∀ e stack', bind base nargs arity table stack = .error (.error e) stack' → stack' = stack) ∧
    (∀ f stack', bind base nargs arity table stack = .error (.fault f) stack' →
      f = .slotOutsideLocals ∧ ∃ p before, arity.SplitsAt args p ∧
        table.Strays arity.locals.toNat before (args.drop p) ∧
        IsCutShort arity table stack args p base before stack') ∧
    ((∃ f stack', bind base nargs arity table stack = .error (.fault f) stack') ↔
      Accepts arity table args ∧ ∃ p before, arity.SplitsAt args p ∧
        table.Strays arity.locals.toNat before (args.drop p)) := by
  intro args
  rcases accepts_or_rejects harity table args with hgood | ⟨e, hbad⟩
  · obtain ⟨p, hp, -⟩ := hgood.regionError?_eq
    rcases table.lt_or_strays arity.locals.toNat (args.drop p) with hlt | ⟨before, hstray⟩
    · obtain ⟨size, stack', hbind⟩ := hgood.bind_of_lt harity hframe hstack rfl hp hlt
      refine ⟨by simp [hbind], by simp [hbind], iff_of_false (by simp [hbind]) ?_⟩
      rintro ⟨-, q, before, hq, hstray⟩
      obtain ⟨stack'', hfault, -⟩ := hgood.bind_of_strays harity hframe hstack rfl hq hstray
      exact absurd (hbind.symm.trans hfault) (by simp)
    · obtain ⟨stack', hbind, hcut⟩ :=
        hgood.bind_of_strays harity hframe hstack rfl hp hstray
      refine ⟨by simp [hbind], ?_, iff_of_true ⟨_, _, hbind⟩ ⟨hgood, p, before, hp, hstray⟩⟩
      intro f stack'' hfault
      cases hbind.symm.trans hfault
      exact ⟨rfl, p, before, hp, hstray, hcut⟩
  · have hbind : bind base nargs arity table stack = .error (.error e) stack :=
      hbad.bind_eq harity hframe hstack rfl
    refine ⟨?_, by simp [hbind], iff_of_false (by simp [hbind]) ?_⟩
    · intro e' stack' herror
      cases hbind.symm.trans herror
      rfl
    · rintro ⟨hgood, q, before, hq, hstray⟩
      obtain ⟨stack'', hfault, -⟩ := hgood.bind_of_strays harity hframe hstack rfl hq hstray
      exact absurd (hbind.symm.trans hfault) (by simp)

theorem bind_undone_or_cut_short_second_pair :
    let arity : Arity := ⟨1, 2, 4, ⟨0⟩⟩
    let table : KeywordTable := ⟨[(0, 4), (1, 2)]⟩
    let args : List Value := [.fixnum 1, .keyword 1, .fixnum 8, .keyword 0, .fixnum 9]
    let stack : List Value := .fixnum 10 :: args ++ [.fixnum 11]
    let stack' : List Value := [.fixnum 10, .fixnum 1, .unspecified, .fixnum 8, .unspecified,
      .keyword 1, .fixnum 8, .keyword 0, .fixnum 9]
    bind 1 5 arity table stack = .error (.fault .slotOutsideLocals) stack' ∧
      Accepts arity table args ∧ ∃ p before, arity.SplitsAt args p ∧
        table.Strays 4 before (args.drop p) ∧
        IsCutShort arity table stack args p 1 before stack' := by
  intro arity table args stack stack'
  have hbind : bind 1 5 arity table stack = .error (.fault .slotOutsideLocals) stack' := by cbv
  obtain ⟨-, hfault, hiff⟩ :=
    bind_undone_or_cut_short table (by decide : arity.IsWellFormed)
      (by decide : 1 + 5 ≤ stack.length) (by decide)
  exact ⟨hbind, (hiff.mp ⟨_, _, hbind⟩).1, (hfault _ _ hbind).2⟩

theorem not_bind_undone_by_fault :
    ¬ ∀ code start table next, KeywordTable.decode code start = .ok (table, next) →
      ∀ (stack : List Value) (base nargs : Nat) (arity : Arity), arity.IsWellFormed →
        base + nargs ≤ stack.length → ∀ exit stack',
          bind base nargs arity table stack = .error exit stack' → stack' = stack := by
  intro h
  let arity : Arity := ⟨1, 2, 4, ⟨0⟩⟩
  let table : KeywordTable := ⟨[(0, 4), (1, 2)]⟩
  let stack : List Value := [.fixnum 1, .keyword 1, .fixnum 8, .keyword 0, .fixnum 9]
  let stack' : List Value := [.fixnum 1, .unspecified, .fixnum 8, .unspecified,
    .keyword 1, .fixnum 8, .keyword 0, .fixnum 9]
  have hdecode : KeywordTable.decode [2, 0, 4, 1, 2] 0 = .ok (table, 5) := by cbv
  have hbind : bind 0 5 arity table stack = .error (.fault .slotOutsideLocals) stack' := by cbv
  have hsame : stack' = stack :=
    h _ _ _ _ hdecode stack 0 5 arity (by decide) (by decide) _ _ hbind
  exact absurd (congrArg List.length hsame) (by decide)

end Frame

end VmSupport
