import VmSupport.Binding.Frame
import VmSupport.Proofs.Outcome

/-!
What the locals of a bound frame hold. The arguments fall into the positional ones and the keyword
region; the region stays behind the locals as it was passed, and each local has the value of the
last pair of the region whose keyword names it, or else its own argument, if it has one.
-/

namespace VmSupport

open EStateM

/-- The first `p` arguments are positional: the required ones, and the others as far as they go
without a keyword. -/
structure Arity.SplitsAt (arity : Arity) (args : List Value) (p : Nat) : Prop where
  required_le : arity.required.toNat ≤ p
  le_positional : p ≤ arity.positional.toNat
  le_length : p ≤ args.length
  plain : ∀ i v, arity.required.toNat ≤ i → i < p → args[i]? = some v → ¬ v.isKeyword
  stops : p = arity.positional.toNat ∨ p = args.length ∨ ∃ v, args[p]? = some v ∧ v.isKeyword

/-- Reading the region from its left end, a keyword together with the value behind it, comes to
the keyword `key` with `value`; `rest` is then still to be read. -/
inductive Meets (key value : Value) (rest : List Value) : List Value → Prop
  | here (hkey : key.isKeyword) : Meets key value rest (key :: value :: rest)
  | pair {k v : Value} {region : List Value} (hk : k.isKeyword)
    (h : Meets key value rest region) : Meets key value rest (k :: v :: region)
  | plain {v : Value} {region : List Value} (hv : ¬ v.isKeyword)
    (h : Meets key value rest region) : Meets key value rest (v :: region)

def KeywordTable.Maps (table : KeywordTable) (key : Value) (j : Nat) : Prop :=
  ∃ id slot before after, key.keywordId? = some id ∧
    table.entries = before ++ (id, slot) :: after ∧ (∀ entry ∈ before, entry.1 ≠ id) ∧
    slot.toNat = j

/-- The local `j`, which holds `otherwise` before the region is read, holds `v` after that. -/
inductive Assigned (table : KeywordTable) (j : Nat) (otherwise : Value) (region : List Value) :
    Value → Prop
  | last {key value : Value} {rest : List Value} (hmeets : Meets key value rest region)
    (hmaps : table.Maps key j)
    (hlast : ∀ key' value' rest', Meets key' value' rest' rest → ¬ table.Maps key' j) :
    Assigned table j otherwise region value
  | never (hnever : ∀ key value rest, Meets key value rest region → ¬ table.Maps key j) :
    Assigned table j otherwise region otherwise

section Meets

variable {key value k v : Value} {rest region : List Value}

theorem not_meets_nil : ¬ Meets key value rest [] := by
  rintro ⟨⟩

theorem not_meets_singleton : ¬ Meets key value rest [v] := by
  intro h
  cases h with
  | plain hv h => exact not_meets_nil h

theorem meets_pair_iff (hk : k.isKeyword) : Meets key value rest (k :: v :: region) ↔
    key = k ∧ value = v ∧ rest = region ∨ Meets key value rest region := by
  constructor
  · intro h
    cases h with
    | here _ => exact Or.inl ⟨rfl, rfl, rfl⟩
    | pair _ h => exact Or.inr h
    | plain hv _ => exact absurd hk hv
  · rintro (⟨rfl, rfl, rfl⟩ | h)
    · exact .here hk
    · exact .pair hk h

theorem meets_plain_iff (hv : ¬ v.isKeyword) :
    Meets key value rest (v :: region) ↔ Meets key value rest region := by
  constructor
  · intro h
    cases h with
    | here hkey => exact absurd hkey hv
    | pair hk _ => exact absurd hk hv
    | plain _ h => exact h
  · exact .plain hv

end Meets

namespace KeywordTable

variable {table : KeywordTable} {key : Value} {j : Nat}

theorem maps_iff : table.Maps key j ↔ ∃ slot, table.lookup? key = some slot ∧ slot.toNat = j := by
  simp only [lookup?, Option.bind_eq_some_iff, List.lookup_eq_some_iff]
  constructor
  · rintro ⟨id, slot, before, after, hid, hentries, hfirst, hslot⟩
    refine ⟨slot, ⟨id, hid, before, after, hentries, fun entry hentry => ?_⟩, hslot⟩
    simpa using (hfirst entry hentry).symm
  · rintro ⟨slot, ⟨id, hid, before, after, hentries, hfirst⟩, hslot⟩
    refine ⟨id, slot, before, after, hid, hentries, fun entry hentry => ?_, hslot⟩
    simpa using Ne.symm (by simpa using hfirst entry hentry)

theorem maps_of_lookup? {slot : UInt32} (h : table.lookup? key = some slot) :
    table.Maps key j ↔ slot.toNat = j := by
  simp only [maps_iff, h, Option.some.injEq, exists_eq_left']

theorem not_maps (h : table.lookup? key = none) : ¬ table.Maps key j := by
  simp only [maps_iff, h, reduceCtorEq, false_and, exists_false, not_false_eq_true]

theorem mem_of_lookup? {slot : UInt32} (h : table.lookup? key = some slot) :
    ∃ entry ∈ table.entries, entry.2 = slot := by
  obtain ⟨id, -, h⟩ := Option.bind_eq_some_iff.mp h
  obtain ⟨before, after, hentries, -⟩ := List.lookup_eq_some_iff.mp h
  refine ⟨(id, slot), ?_, rfl⟩
  rw [hentries]
  exact List.mem_append_right _ List.mem_cons_self

theorem Maps.lt {n : Nat} (hmaps : table.Maps key j)
    (hslots : ∀ entry ∈ table.entries, entry.2.toNat < n) : j < n := by
  obtain ⟨slot, hlookup, rfl⟩ := maps_iff.mp hmaps
  obtain ⟨entry, hentry, rfl⟩ := mem_of_lookup? hlookup
  exact hslots entry hentry

end KeywordTable

namespace Assigned

variable {table : KeywordTable} {j : Nat} {otherwise k v w : Value} {region : List Value}

theorem of_unread (hnever : ∀ key value rest, ¬ Meets key value rest region) :
    Assigned table j otherwise region otherwise :=
  .never fun key value rest h => absurd h (hnever key value rest)

theorem plain (hv : ¬ v.isKeyword) (h : Assigned table j otherwise region w) :
    Assigned table j otherwise (v :: region) w := by
  cases h with
  | last hmeets hmaps hlast => exact .last (.plain hv hmeets) hmaps hlast
  | never hnever =>
    apply Assigned.never
    intro key value rest hmeets
    exact hnever key value rest ((meets_plain_iff hv).mp hmeets)

theorem pair (hk : k.isKeyword) (hmaps : ¬ table.Maps k j)
    (h : Assigned table j otherwise region w) :
    Assigned table j otherwise (k :: v :: region) w := by
  cases h with
  | last hmeets hmaps hlast => exact .last (.pair hk hmeets) hmaps hlast
  | never hnever =>
    apply Assigned.never
    intro key value rest hmeets
    rcases (meets_pair_iff hk).mp hmeets with ⟨rfl, -, -⟩ | hmeets
    · exact hmaps
    · exact hnever key value rest hmeets

theorem assign (hk : k.isKeyword) (hmaps : table.Maps k j) (h : Assigned table j v region w) :
    Assigned table j otherwise (k :: v :: region) w := by
  cases h with
  | last hmeets hmaps hlast => exact .last (.pair hk hmeets) hmaps hlast
  | never hnever => exact .last (.here hk) hmaps hnever

end Assigned

namespace Frame

variable {table : KeywordTable} {arity : Arity} {args locals stack values : List Value}
  {base nargs p : Nat}

theorem store_pair_of_lookup? {key value : Value} {items : List RegionItem} {slot : UInt32}
    (hlookup : table.lookup? key = some slot) :
    store table (.pair key value :: items) locals =
      if slot.toNat < locals.length then store table items (locals.set slot.toNat value)
      else .error .slotOutsideLocals locals := by
  simp only [store, hlookup]
  refine (EStateM.bind_of_ok rfl).trans ?_
  split <;> rfl

theorem length_store (table : KeywordTable) (items : List RegionItem) (locals : List Value) :
    (store table items locals).state.length = locals.length := by
  induction items generalizing locals with
  | nil => rfl
  | cons item items ih =>
    cases item with
    | pair key value =>
      cases hlookup : table.lookup? key with
      | none => simpa only [store, hlookup] using ih locals
      | some slot =>
        rw [store_pair_of_lookup? hlookup]
        split
        · rw [ih, List.length_set]
        · rfl
    | lone key => exact ih locals
    | plain value => exact ih locals

theorem store_assigns_met (region : List Value)
    (hslots : ∀ key value rest j, Meets key value rest region → table.Maps key j →
      j < locals.length) :
    ∃ locals', store table (RegionItem.parse region) locals = .ok () locals' ∧
      locals'.length = locals.length ∧
      ∀ j otherwise, locals[j]? = some otherwise →
        ∃ v, locals'[j]? = some v ∧ Assigned table j otherwise region v := by
  -- along the reading of the region; what a pair stores is what the rest finds in its local
  induction region using RegionItem.parse.induct generalizing locals with
  | case1 =>
    exact ⟨locals, rfl, rfl, fun j v hv => ⟨v, hv, .of_unread fun _ _ _ => not_meets_nil⟩⟩
  | case2 k hk =>
    simp only [RegionItem.parse, hk, ↓reduceIte]
    exact ⟨locals, rfl, rfl, fun j v hv => ⟨v, hv, .of_unread fun _ _ _ => not_meets_singleton⟩⟩
  | case3 v hv =>
    simp only [RegionItem.parse, hv, Bool.false_eq_true, ↓reduceIte]
    exact ⟨locals, rfl, rfl, fun j v hv => ⟨v, hv, .of_unread fun _ _ _ => not_meets_singleton⟩⟩
  | case4 k v region hk ih =>
    simp only [RegionItem.parse, hk, ↓reduceIte]
    have hlater : ∀ key value rest j, Meets key value rest region → table.Maps key j →
        j < locals.length := by
      intro key value rest j hmeets
      exact hslots key value rest j (.pair hk hmeets)
    cases hlookup : table.lookup? k with
    | none =>
      obtain ⟨locals', hstore, hlength, hassigned⟩ := ih hlater
      refine ⟨locals', ?_, hlength, fun j otherwise hj => ?_⟩
      · simpa only [store, hlookup] using hstore
      · obtain ⟨w, hw, hassign⟩ := hassigned j otherwise hj
        exact ⟨w, hw, hassign.pair hk (KeywordTable.not_maps hlookup)⟩
    | some slot =>
      have hmaps : table.Maps k slot.toNat := (KeywordTable.maps_of_lookup? hlookup).mpr rfl
      have hlt := hslots k v region slot.toNat (.here hk) hmaps
      have hlater' : ∀ key value rest j, Meets key value rest region → table.Maps key j →
          j < (locals.set slot.toNat v).length := by
        simpa only [List.length_set] using hlater
      obtain ⟨locals', hstore, hlength, hassigned⟩ := ih hlater'
      refine ⟨locals', ?_, hlength.trans List.length_set, fun j otherwise hj => ?_⟩
      · rw [store_pair_of_lookup? hlookup, if_pos hlt, hstore]
      · by_cases heq : slot.toNat = j
        · subst heq
          obtain ⟨w, hw, hassign⟩ := hassigned slot.toNat v (by rw [List.getElem?_set_self hlt])
          exact ⟨w, hw, hassign.assign hk hmaps⟩
        · obtain ⟨w, hw, hassign⟩ :=
            hassigned j otherwise (by rw [List.getElem?_set_ne heq, hj])
          exact ⟨w, hw, hassign.pair hk fun hmaps =>
            heq ((KeywordTable.maps_of_lookup? hlookup).mp hmaps)⟩
  | case5 v w region hv ih =>
    have hv : ¬ v.isKeyword := by simpa using hv
    obtain ⟨locals', hstore, hlength, hassigned⟩ := ih fun key value rest j hmeets =>
      hslots key value rest j (.plain hv hmeets)
    simp only [RegionItem.parse, hv, Bool.false_eq_true, ↓reduceIte]
    refine ⟨locals', hstore, hlength, fun j otherwise hj => ?_⟩
    obtain ⟨x, hx, hassign⟩ := hassigned j otherwise hj
    exact ⟨x, hx, hassign.plain hv⟩

theorem store_assigns (region : List Value)
    (hslots : ∀ entry ∈ table.entries, entry.2.toNat < locals.length) :
    ∃ locals', store table (RegionItem.parse region) locals = .ok () locals' ∧
      locals'.length = locals.length ∧
      ∀ j otherwise, locals[j]? = some otherwise →
        ∃ v, locals'[j]? = some v ∧ Assigned table j otherwise region v := by
  apply store_assigns_met
  intro key value rest j _ hmaps
  exact hmaps.lt hslots

theorem positionalCount_splits (harity : arity.IsWellFormed)
    (hrequired : arity.required.toNat ≤ args.length) :
    arity.SplitsAt args (positionalCount arity args) := by
  have hle : arity.required.toNat ≤ arity.positional.toNat := harity.1
  let limit := arity.positional.toNat - arity.required.toNat
  let optional := (args.drop arity.required.toNat).take limit
  let plain := optional.takeWhile fun v => !v.isKeyword
  let others := optional.dropWhile fun v => !v.isKeyword
  have hcount : positionalCount arity args = arity.required.toNat + plain.length := rfl
  have hdivide : plain ++ others = optional := List.takeWhile_append_dropWhile
  have hoptional : ∀ i < limit, optional[i]? = args[arity.required.toNat + i]? := fun i hi => by
    rw [List.getElem?_take_of_lt hi, List.getElem?_drop]
  have hlength : optional.length = min limit (args.length - arity.required.toNat) := by
    rw [List.length_take, List.length_drop]
  have hsum : plain.length + others.length = optional.length := by
    rw [← List.length_append, hdivide]
  constructor
  · omega
  · omega
  · omega
  · intro i v hi hlt hv
    obtain ⟨i, rfl⟩ := Nat.exists_eq_add_of_le hi
    have hi : i < plain.length := by omega
    rw [← hoptional i (by omega), ← hdivide, List.getElem?_append_left hi] at hv
    simpa using List.mem_takeWhile_imp (List.mem_of_getElem? hv)
  · cases hothers : others with
    | nil =>
      rw [hothers, List.length_nil] at hsum
      omega
    | cons v later =>
      -- the first value that is not taken is a keyword, and it stands where the count ends
      have hkeyword := List.head?_dropWhile_not (fun v : Value => !v.isKeyword) optional
      have hv : optional[plain.length]? = some v := by
        rw [← hdivide, List.getElem?_append_right le_rfl, Nat.sub_self, hothers,
          List.getElem?_cons_zero]
      have hlt : plain.length < limit := by
        have := (List.getElem?_eq_some_iff.mp hv).1
        omega
      refine Or.inr (Or.inr ⟨v, ?_, ?_⟩)
      · rw [hcount, ← hoptional _ hlt, hv]
      · rw [show optional.dropWhile _ = v :: later from hothers] at hkeyword
        simpa using hkeyword

def unassigned (arity : Arity) (args : List Value) (p : Nat) : List Value :=
  args.take p ++ List.replicate (arity.locals.toNat - p) Value.unspecified

theorem length_unassigned (harity : arity.IsWellFormed) (hsplits : arity.SplitsAt args p) :
    (unassigned arity args p).length = arity.locals.toNat := by
  have hlength := hsplits.le_length
  have hpositional := hsplits.le_positional
  have hlocals : arity.positional.toNat ≤ arity.locals.toNat := harity.2
  rw [unassigned, List.length_append, List.length_take_of_le hlength, List.length_replicate]
  omega

theorem getElem?_unassigned (hsplits : arity.SplitsAt args p) {j : Nat}
    (hj : j < arity.locals.toNat) :
    (unassigned arity args p)[j]? = some ((args.take p)[j]?.getD .unspecified) := by
  have htake : (args.take p).length = p := List.length_take_of_le hsplits.le_length
  by_cases hlt : j < p
  · rw [unassigned, List.getElem?_append_left (by omega), List.getElem?_eq_getElem (by omega),
      Option.getD_some]
  · rw [unassigned, List.getElem?_append_right (by omega), List.getElem?_replicate_of_lt (by omega),
      List.getElem?_eq_none (by omega), Option.getD_none]

theorem splice_eq (values : List Value) (hbase : base ≤ stack.length) :
    splice stack base values = stack.take base ++ (values ++ stack.drop (base + values.length)) ∧
      (stack.take base).length = base :=
  ⟨List.append_assoc _ _ _, List.length_take_of_le hbase⟩

theorem length_splice (hbase : base ≤ stack.length) :
    (splice stack base values).length = max stack.length (base + values.length) := by
  simp only [splice, List.length_append, List.length_take, List.length_drop]
  omega

theorem drop_splice (hbase : base ≤ stack.length) :
    (splice stack base values).drop base = values ++ stack.drop (base + values.length) := by
  obtain ⟨hsplice, hlength⟩ := splice_eq values hbase
  rw [hsplice, List.drop_left' hlength]

theorem getElem?_splice_of_lt (hbase : base ≤ stack.length) {i : Nat} (hi : i < base) :
    (splice stack base values)[i]? = stack[i]? := by
  obtain ⟨hsplice, hlength⟩ := splice_eq values hbase
  rw [hsplice, List.getElem?_append_left (by rwa [hlength]), List.getElem?_take_of_lt hi]

theorem getElem?_splice_add (hbase : base ≤ stack.length) {j : Nat} :
    (splice stack base values)[base + j]? = (values ++ stack.drop (base + values.length))[j]? := by
  rw [← drop_splice hbase, List.getElem?_drop]

theorem getElem?_splice_of_ge (hbase : base ≤ stack.length) {i : Nat}
    (hi : base + values.length ≤ i) : (splice stack base values)[i]? = stack[i]? := by
  obtain ⟨j, rfl⟩ := Nat.exists_eq_add_of_le hi
  rw [Nat.add_assoc, getElem?_splice_add hbase, List.getElem?_append_right (Nat.le_add_right _ _),
    Nat.add_sub_cancel_left, List.getElem?_drop, Nat.add_assoc]

theorem length_args (hframe : base + nargs ≤ stack.length)
    (hargs : (stack.drop base).take nargs = args) : args.length = nargs := by
  rw [← hargs, List.length_take, List.length_drop]
  omega

theorem take_drop_splice {region : List Value} {n : Nat} (hbase : base ≤ stack.length)
    (hlength : locals.length = n) :
    ((splice stack base (locals ++ region)).drop (base + n)).take region.length = region := by
  rw [← List.drop_drop, drop_splice hbase, List.append_assoc, List.drop_left' hlength,
    List.take_left]

theorem getElem?_splice_locals {region : List Value} (hbase : base ≤ stack.length) {j : Nat}
    (hj : j < locals.length) :
    (splice stack base (locals ++ region))[base + j]? = locals[j]? := by
  rw [getElem?_splice_add hbase, List.append_assoc, List.getElem?_append_left hj]

theorem bind_eq_ok_iff {size : Nat} {stack' : List Value} :
    bind base nargs arity table stack = .ok size stack' ↔
      (arity.IsWellFormed ∧ base + nargs < 2 ^ 64 ∧ base + nargs ≤ stack.length ∧
        arity.required.toNat ≤ nargs) ∧
      let args := (stack.drop base).take nargs
      let region := args.drop (positionalCount arity args)
      regionError? arity.flags table
          (.wrongNumberOfArgs nargs arity.required.toNat arity.positional.toNat)
          (RegionItem.parse region) = none ∧
        ∃ locals, store table (RegionItem.parse region)
            (unassigned arity args (positionalCount arity args)) = .ok () locals ∧
          size = arity.locals.toNat + region.length ∧
          stack' = splice stack base (locals ++ region) := by
  constructor
  · intro h
    simp only [bind] at h
    split_ifs at h with harity hsum hover hfew
    split at h
    · cases h
    · rename_i hgood
      split at h
      · rename_i hstore
        cases h
        exact ⟨⟨harity, by omega, by omega, by omega⟩, hgood, _, hstore, rfl, rfl⟩
      · cases h
  · rintro ⟨⟨harity, hsum, hover, hfew⟩, hgood, locals, hstore, rfl, rfl⟩
    have hsum : ¬ 1 <<< 64 ≤ base + nargs := by omega
    have hover : ¬ stack.length < base + nargs := by omega
    have hfew : ¬ nargs < arity.required.toNat := by omega
    rw [unassigned] at hstore
    simp only [bind, harity, not_true_eq_false, hsum, hover, hfew, ↓reduceIte, hgood, hstore]

section Frame

variable (harity : arity.IsWellFormed) (hframe : base + nargs ≤ stack.length)
  (hstack : stack.length < 2 ^ 64) (hrequired : arity.required.toNat ≤ nargs)
  (hargs : (stack.drop base).take nargs = args) (hp : positionalCount arity args = p)

include harity hframe hstack hrequired hargs hp

theorem bind_of_regionError {e : BindError} (he : regionError? arity.flags table
      (.wrongNumberOfArgs nargs arity.required.toNat arity.positional.toNat)
      (RegionItem.parse (args.drop p)) = some e) :
    bind base nargs arity table stack = .error (.error e) stack := by
  have hsum : ¬ 1 <<< 64 ≤ base + nargs := by omega
  have hover : ¬ stack.length < base + nargs := by omega
  have hfew : ¬ nargs < arity.required.toNat := by omega
  simp only [bind, harity, not_true_eq_false, hsum, hover, hfew, ↓reduceIte, hargs, hp, he]

variable (hgood : regionError? arity.flags table
  (.wrongNumberOfArgs nargs arity.required.toNat arity.positional.toNat)
  (RegionItem.parse (args.drop p)) = none)

include hgood

theorem bind_of_store (hstore : store table (RegionItem.parse (args.drop p))
      (unassigned arity args p) = .ok () locals) :
    bind base nargs arity table stack = .ok (arity.locals.toNat + (args.drop p).length)
      (splice stack base (locals ++ args.drop p)) := by
  subst hp hargs
  have hsum : base + nargs < 2 ^ 64 := by omega
  exact bind_eq_ok_iff.mpr
    ⟨⟨harity, hsum, hframe, hrequired⟩, hgood, locals, hstore, rfl, rfl⟩

theorem bind_of_store_error {f : Fault} (hstore : store table (RegionItem.parse (args.drop p))
      (unassigned arity args p) = .error f locals) :
    bind base nargs arity table stack =
      .error (.fault f) (splice stack base (locals ++ args.drop p)) := by
  have hsum : ¬ 1 <<< 64 ≤ base + nargs := by omega
  have hover : ¬ stack.length < base + nargs := by omega
  have hfew : ¬ nargs < arity.required.toNat := by omega
  rw [unassigned] at hstore
  simp only [bind, harity, not_true_eq_false, hsum, hover, hfew, ↓reduceIte, hargs, hp, hgood,
    hstore]

end Frame

theorem bind_of_lt_required (table : KeywordTable) (harity : arity.IsWellFormed)
    (hframe : base + nargs ≤ stack.length) (hstack : stack.length < 2 ^ 64)
    (hfew : nargs < arity.required.toNat) :
    bind base nargs arity table stack = .error (.error
      (.wrongNumberOfArgs nargs arity.required.toNat arity.positional.toNat)) stack := by
  have hsum : ¬ 1 <<< 64 ≤ base + nargs := by omega
  have hover : ¬ stack.length < base + nargs := by omega
  simp only [bind, harity, not_true_eq_false, hsum, hover, hfew, ↓reduceIte]

theorem bind_cases (table : KeywordTable) (harity : arity.IsWellFormed)
    (hframe : base + nargs ≤ stack.length) (hstack : stack.length < 2 ^ 64)
    (hargs : (stack.drop base).take nargs = args) (hp : positionalCount arity args = p) :
    (∃ e, bind base nargs arity table stack = .error (.error e) stack) ∨
      arity.SplitsAt args p ∧ ∀ locals,
        store table (RegionItem.parse (args.drop p)) (unassigned arity args p) = .ok () locals →
        bind base nargs arity table stack = .ok (arity.locals.toNat + (args.drop p).length)
          (splice stack base (locals ++ args.drop p)) := by
  have hlength := length_args hframe hargs
  rcases Nat.lt_or_ge nargs arity.required.toNat with hfew | hrequired
  · exact Or.inl ⟨_, bind_of_lt_required table harity hframe hstack hfew⟩
  cases he : regionError? arity.flags table
      (.wrongNumberOfArgs nargs arity.required.toNat arity.positional.toNat)
      (RegionItem.parse (args.drop p)) with
  | some e => exact Or.inl ⟨e, bind_of_regionError harity hframe hstack hrequired hargs hp he⟩
  | none =>
    refine Or.inr ⟨hp ▸ positionalCount_splits harity (by omega), fun locals hstore => ?_⟩
    exact bind_of_store harity hframe hstack hrequired hargs hp he hstore

/-- The frame of `size` values at `base` in the stack `stack'`, made from the arguments `args` that
were there in `stack`, of which the first `p` are positional. -/
structure IsBound (arity : Arity) (table : KeywordTable) (stack args : List Value)
    (p base size : Nat) (stack' : List Value) : Prop where
  size_eq : size = arity.locals.toNat + (args.drop p).length
  region : (stack'.drop (base + arity.locals.toNat)).take (args.drop p).length = args.drop p
  locals : ∀ j < arity.locals.toNat, ∃ v, stack'[base + j]? = some v ∧
    Assigned table j ((args.take p)[j]?.getD .unspecified) (args.drop p) v
  below : ∀ i < base, stack'[i]? = stack[i]?
  above : ∀ i ≥ base + size, stack'[i]? = stack[i]?

theorem isBound_splice (hbase : base ≤ stack.length) (hlength : locals.length = arity.locals.toNat)
    (hlocals : ∀ j < arity.locals.toNat, ∃ v, locals[j]? = some v ∧
      Assigned table j ((args.take p)[j]?.getD .unspecified) (args.drop p) v) :
    IsBound arity table stack args p base (arity.locals.toNat + (args.drop p).length)
      (splice stack base (locals ++ args.drop p)) := by
  constructor
  · rfl
  · exact take_drop_splice hbase hlength
  · intro j hj
    obtain ⟨v, hv, hassigned⟩ := hlocals j hj
    refine ⟨v, ?_, hassigned⟩
    rw [getElem?_splice_locals hbase (by omega), hv]
  · intro i hi
    exact getElem?_splice_of_lt hbase hi
  · intro i hi
    exact getElem?_splice_of_ge hbase (by rwa [List.length_append, hlength])

/-- Where the slots of the table are locals, binding never faults, and a frame that it does bind
holds the positional arguments, the values of the last pairs and the whole region. A stack has no
`2 ^ 64` values. -/
theorem bind_places_arguments (harity : arity.IsWellFormed)
    (hslots : ∀ entry ∈ table.entries, entry.2 < arity.locals)
    (hframe : base + nargs ≤ stack.length) (hstack : stack.length < 2 ^ 64) :
    (∀ f stack', bind base nargs arity table stack ≠ .error (.fault f) stack') ∧
      ∀ size stack', bind base nargs arity table stack = .ok size stack' →
        ∃ p, arity.SplitsAt ((stack.drop base).take nargs) p ∧
          IsBound arity table stack ((stack.drop base).take nargs) p base size stack' := by
  obtain ⟨args, hargs⟩ : ∃ args, (stack.drop base).take nargs = args := ⟨_, rfl⟩
  obtain ⟨p, hp⟩ : ∃ p, positionalCount arity args = p := ⟨_, rfl⟩
  rw [hargs]
  rcases bind_cases table harity hframe hstack hargs hp with ⟨e, hbind⟩ | ⟨hsplits, hbind⟩
  · constructor
    · intro f stack' hfault
      rw [hbind] at hfault
      cases hfault
    · intro size stack' hok
      rw [hbind] at hok
      cases hok
  · have hlength := length_unassigned harity hsplits
    obtain ⟨locals, hstore, hlocals, hassigned⟩ := store_assigns (args.drop p)
      fun entry hentry => hlength.symm ▸ UInt32.lt_iff_toNat_lt.mp (hslots entry hentry)
    rw [hbind locals hstore]
    constructor
    · intro f stack' hfault
      cases hfault
    · intro size stack' hok
      cases hok
      refine ⟨p, hsplits, isBound_splice (by omega) (hlocals.trans hlength) fun j hj => ?_⟩
      exact hassigned j _ (getElem?_unassigned hsplits hj)

theorem bind_places_arguments_twice :
    let arity : Arity := ⟨1, 2, 4, ⟨3⟩⟩
    let table : KeywordTable := ⟨[(7, 3), (9, 0), (7, 2)]⟩
    let region : List Value := [.keyword 7, .keyword 9, .fixnum 12, .keyword 7, .fixnum 13,
      .keyword 8, .keyword 7, .keyword 9, .fixnum 14]
    let stack : List Value := .fixnum 10 :: .fixnum 11 :: region
    let stack' : List Value :=
      .fixnum 10 :: .fixnum 14 :: .unspecified :: .unspecified :: .fixnum 13 :: region
    bind 1 10 arity table stack = .ok 13 stack' ∧
      ∃ p, arity.SplitsAt ((stack.drop 1).take 10) p ∧
        IsBound arity table stack ((stack.drop 1).take 10) p 1 13 stack' := by
  intro arity table region stack stack'
  have hbind : bind 1 10 arity table stack = .ok 13 stack' := by cbv
  have hslots : ∀ entry ∈ table.entries, entry.2 < arity.locals := by simp [table, arity]
  have hlength : stack.length = 11 := rfl
  exact ⟨hbind, (bind_places_arguments (by decide) hslots (by omega) (by omega)).2 13 stack' hbind⟩

end Frame

end VmSupport
