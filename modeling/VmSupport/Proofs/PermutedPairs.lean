import VmSupport.Proofs.RegionGrammar

namespace VmSupport

open EStateM

namespace KeywordTable

variable {table : KeywordTable} {pair other : Value × Value}

def Separates (table : KeywordTable) (pair other : Value × Value) : Prop :=
  ∀ j, table.Maps pair.1 j → ¬ table.Maps other.1 j

theorem Separates.symm (h : table.Separates pair other) : table.Separates other pair :=
  fun j hother hpair => h j hpair hother

theorem separates_iff : table.Separates pair other ↔
    table.lookup? pair.1 = none ∨ table.lookup? pair.1 ≠ table.lookup? other.1 := by
  cases hpair : table.lookup? pair.1 with
  | none => exact iff_of_true (fun j h => absurd h (not_maps hpair)) (Or.inl rfl)
  | some slot =>
    cases hother : table.lookup? other.1 with
    | none => exact iff_of_true (fun j _ => not_maps hother) (Or.inr (by simp))
    | some slot' =>
      simp only [Separates, maps_of_lookup? hpair, maps_of_lookup? hother, forall_eq',
        UInt32.toNat_inj, reduceCtorEq, false_or, ne_eq, Option.some.injEq]
      exact ne_comm

instance : Decidable (table.Separates pair other) := decidable_of_iff _ separates_iff.symm

end KeywordTable

namespace RegionItem

def ofPair (pair : Value × Value) : RegionItem := .pair pair.1 pair.2

def unparse (pairs : List (Value × Value)) : List Value :=
  pairs.flatMap fun pair => [pair.1, pair.2]

theorem parse_unparse {pairs : List (Value × Value)} (hkeys : ∀ pair ∈ pairs, pair.1.isKeyword) :
    parse (unparse pairs) = pairs.map ofPair := by
  induction pairs with
  | nil => rfl
  | cons pair pairs ih =>
    have hrest := ih fun other hother => hkeys other (List.mem_cons_of_mem _ hother)
    change parse (pair.1 :: pair.2 :: unparse pairs) = _
    rw [parse, if_pos (hkeys pair List.mem_cons_self), hrest]
    rfl

end RegionItem

open RegionItem (ofPair unparse)

namespace Frame

variable {table : KeywordTable} {arity : Arity} {args locals locals' stack stack' : List Value}
  {base nargs size p : Nat} {pair other : Value × Value} {pairs pairs' : List (Value × Value)}

def assign? (table : KeywordTable) (pair : Value × Value) (locals : List Value) :
    Option (List Value) :=
  match table.lookup? pair.1 with
  | none => some locals
  | some slot =>
    if slot.toNat < locals.length then some (locals.set slot.toNat pair.2) else none

theorem store_ofPair_eq_ok_iff {items : List RegionItem} :
    store table (ofPair pair :: items) locals = .ok () locals' ↔
      ∃ middle, assign? table pair locals = some middle ∧
        store table items middle = .ok () locals' := by
  rw [ofPair]
  cases hlookup : table.lookup? pair.1 with
  | none => simp [assign?, store, hlookup]
  | some slot =>
    rw [store_pair_of_lookup? hlookup]
    by_cases hlt : slot.toNat < locals.length <;> simp [assign?, hlookup, hlt]

theorem assign?_comm (hapart : table.Separates pair other) :
    (assign? table pair locals).bind (assign? table other) =
      (assign? table other locals).bind (assign? table pair) := by
  cases hpair : table.lookup? pair.1 with
  | none =>
    have hskip : ∀ locals, assign? table pair locals = some locals := by simp [assign?, hpair]
    simp [funext hskip]
  | some slot =>
    cases hother : table.lookup? other.1 with
    | none =>
      have hskip : ∀ locals, assign? table other locals = some locals := by simp [assign?, hother]
      simp [funext hskip]
    | some slot' =>
      have hne : slot.toNat ≠ slot'.toNat := by
        simpa [KeywordTable.separates_iff, hpair, hother, UInt32.toNat_inj] using hapart
      by_cases hlt : slot.toNat < locals.length <;> by_cases hlt' : slot'.toNat < locals.length <;>
        simp [assign?, hpair, hother, hlt, hlt', List.set_comm _ _ hne]

theorem store_perm (hperm : pairs.Perm pairs') (hapart : pairs.Pairwise table.Separates)
    (hstore : store table (pairs.map ofPair) locals = .ok () locals') :
    store table (pairs'.map ofPair) locals = .ok () locals' := by
  induction hperm generalizing locals with
  | nil => exact hstore
  | cons pair _ ih =>
    obtain ⟨middle, hassign, hstore⟩ := store_ofPair_eq_ok_iff.mp hstore
    exact store_ofPair_eq_ok_iff.mpr
      ⟨middle, hassign, ih (List.pairwise_cons.mp hapart).2 hstore⟩
  | swap pair other pairs =>
    obtain ⟨middle, hother, hstore⟩ := store_ofPair_eq_ok_iff.mp hstore
    obtain ⟨last, hpair, hstore⟩ := store_ofPair_eq_ok_iff.mp hstore
    have hboth : (assign? table pair locals).bind (assign? table other) = some last := by
      rw [← assign?_comm ((List.pairwise_cons.mp hapart).1 pair List.mem_cons_self), hother]
      exact hpair
    obtain ⟨middle', hpair', hother'⟩ := Option.bind_eq_some_iff.mp hboth
    exact store_ofPair_eq_ok_iff.mpr
      ⟨middle', hpair', store_ofPair_eq_ok_iff.mpr ⟨last, hother', hstore⟩⟩
  | trans hperm _ ih ih' =>
    exact ih' ((hperm.pairwise_iff KeywordTable.Separates.symm).mp hapart) (ih hapart hstore)

theorem regionError?_ofPair_eq_none_iff {flags : BindFlags} {extra : BindError} :
    regionError? flags table extra (pairs.map ofPair) = none ↔
      ∀ pair ∈ pairs, itemError? flags table none (ofPair pair) = none := by
  cases pairs with
  | nil => simp [regionError?]
  | cons pair pairs =>
    have hfirst : itemError? flags table (some extra) (ofPair pair) =
        itemError? flags table none (ofPair pair) := rfl
    rw [List.map_cons, regionError?, Option.or_eq_none_iff, List.findSome?_eq_none_iff, hfirst,
      List.forall_mem_map, List.forall_mem_cons]

def withPairs (args : List Value) (p : Nat) (pairs : List (Value × Value)) : List Value :=
  args.take p ++ unparse pairs

theorem take_withPairs (hp : p ≤ args.length) :
    (withPairs args p pairs).take p = args.take p := by
  rw [withPairs, List.take_left' (List.length_take_of_le hp)]

theorem unassigned_withPairs (hp : p ≤ args.length) :
    unassigned arity (withPairs args p pairs) p = unassigned arity args p := by
  rw [unassigned, take_withPairs hp, unassigned]

theorem drop_withPairs (hp : p ≤ args.length) :
    (withPairs args p pairs).drop p = unparse pairs := by
  rw [withPairs, List.drop_left' (List.length_take_of_le hp)]

theorem length_withPairs (hregion : args.drop p = unparse pairs) (hperm : pairs'.Perm pairs) :
    (withPairs args p pairs').length = args.length := by
  have hlength : (unparse pairs').length = (args.drop p).length := by
    rw [hregion]
    exact (hperm.flatMap_right _).length_eq
  rw [withPairs, List.length_append, hlength, ← List.length_append, List.take_append_drop]

theorem splitsAt_withPairs (hp : arity.SplitsAt args p)
    (hkeys : ∀ pair ∈ pairs, pair.1.isKeyword) : arity.SplitsAt (withPairs args p pairs) p := by
  have htake : (args.take p).length = p := List.length_take_of_le hp.le_length
  constructor
  · exact hp.required_le
  · exact hp.le_positional
  · rw [withPairs, List.length_append]
    omega
  · intro i v hrequired hi hv
    rw [← List.getElem?_take_of_lt hi, take_withPairs hp.le_length,
      List.getElem?_take_of_lt hi] at hv
    exact hp.plain i v hrequired hi hv
  · cases pairs with
    | nil => exact Or.inr (Or.inl (by simp [withPairs, unparse, htake]))
    | cons pair pairs =>
      refine Or.inr (Or.inr ⟨pair.1, ?_, hkeys pair List.mem_cons_self⟩)
      rw [← List.head?_drop, drop_withPairs hp.le_length]
      rfl

theorem bind_pairs_eq_ok_iff (hargs : (stack.drop base).take nargs = args)
    (hp : arity.SplitsAt args p) (hregion : args.drop p = unparse pairs)
    (hkeys : ∀ pair ∈ pairs, pair.1.isKeyword) :
    bind base nargs arity table stack = .ok size stack' ↔
      (arity.IsWellFormed ∧ base + nargs < 2 ^ 64 ∧ base + nargs ≤ stack.length ∧
        arity.required.toNat ≤ nargs) ∧
      (∀ pair ∈ pairs, itemError? arity.flags table none (ofPair pair) = none) ∧
      ∃ locals, store table (pairs.map ofPair) (unassigned arity args p) = .ok () locals ∧
        size = arity.locals.toNat + (unparse pairs).length ∧
        stack' = splice stack base (locals ++ unparse pairs) := by
  rw [bind_eq_ok_iff]
  refine and_congr_right fun ⟨harity, _, hframe, hrequired⟩ => ?_
  have hnargs := length_args hframe hargs
  have hcount := (positionalCount_splits harity (hnargs.symm ▸ hrequired)).unique hp
  simp only [hargs, hcount, hregion, RegionItem.parse_unparse hkeys,
    regionError?_ofPair_eq_none_iff]

section Splice

variable {values values' region region' : List Value}

theorem splice_splice (hbase : base ≤ stack.length) (hle : values.length ≤ values'.length) :
    splice (splice stack base values) base values' = splice stack base values' := by
  obtain ⟨hsplice, hlength⟩ := splice_eq values hbase
  have htake : (splice stack base values).take base = stack.take base := by
    rw [hsplice, List.take_left' hlength]
  have hdrop : (splice stack base values).drop (base + values'.length) =
      stack.drop (base + values'.length) := by
    rw [← List.drop_drop, drop_splice hbase, List.drop_append, List.drop_of_length_le hle,
      List.nil_append, List.drop_drop]
    congr 1
    omega
  rw [splice, htake, hdrop, splice]

theorem splice_behind (hbase : base ≤ stack.length) (hregion : region.length = region'.length) :
    splice (splice stack base (locals ++ region)) (base + locals.length) region' =
      splice stack base (locals ++ region') := by
  have hlength : (stack.take base ++ locals).length = base + locals.length := by
    rw [List.length_append, List.length_take_of_le hbase]
  have hsplice : ∀ others : List Value, splice stack base (locals ++ others) =
      (stack.take base ++ locals) ++
        (others ++ stack.drop (base + locals.length + others.length)) := by
    intro others
    simp only [splice, List.append_assoc, List.length_append, Nat.add_assoc]
  rw [hsplice region', splice, hsplice region, List.take_left' hlength, ← List.drop_drop,
    List.drop_left' hlength, List.drop_left' hregion, hregion, List.append_assoc]

end Splice

/-- A frame whose keyword region is made of pairs, no two of them for the same local, is bound to
the same locals whatever order the pairs come in; only the region behind the locals is in the other
order then. Keywords that the table does not know come in pairs like the others. -/
theorem bind_of_permuted_pairs (hbind : bind base nargs arity table stack = .ok size stack')
    (hargs : (stack.drop base).take nargs = args) (hp : arity.SplitsAt args p)
    (hregion : args.drop p = unparse pairs) (hkeys : ∀ pair ∈ pairs, pair.1.isKeyword)
    (hapart : pairs.Pairwise table.Separates) (hperm : pairs'.Perm pairs) :
    ∃ stack'', bind base nargs arity table (splice stack base (withPairs args p pairs')) =
        .ok size stack'' ∧
      (∀ j < arity.locals.toNat, stack''[base + j]? = stack'[base + j]?) ∧
      stack'' = splice stack' (base + arity.locals.toNat) (unparse pairs') := by
  obtain ⟨⟨harity, hsum, hframe, hrequired⟩, hgood, locals, hstore, rfl, rfl⟩ :=
    (bind_pairs_eq_ok_iff hargs hp hregion hkeys).mp hbind
  have hbase : base ≤ stack.length := by omega
  have hlocals : locals.length = arity.locals.toNat := by
    have hlength := length_store table (pairs.map ofPair) (unassigned arity args p)
    rw [hstore] at hlength
    exact hlength.trans (length_unassigned harity hp)
  have hlength : (unparse pairs).length = (unparse pairs').length :=
    (hperm.flatMap_right _).length_eq.symm
  have hkeys' : ∀ pair ∈ pairs', pair.1.isKeyword := fun pair hpair =>
    hkeys pair (hperm.mem_iff.mp hpair)
  have hnargs' : (withPairs args p pairs').length = nargs :=
    (length_withPairs hregion hperm).trans (length_args hframe hargs)
  have hframe' : base + nargs ≤ (splice stack base (withPairs args p pairs')).length := by
    rw [length_splice hbase]
    omega
  have hargs' : ((splice stack base (withPairs args p pairs')).drop base).take nargs =
      withPairs args p pairs' := by
    rw [drop_splice hbase, List.take_left' hnargs']
  have hbind' : bind base nargs arity table (splice stack base (withPairs args p pairs')) =
      .ok (arity.locals.toNat + (unparse pairs).length)
        (splice (splice stack base (withPairs args p pairs')) base (locals ++ unparse pairs')) := by
    refine (bind_pairs_eq_ok_iff hargs' (splitsAt_withPairs hp hkeys')
      (drop_withPairs hp.le_length) hkeys').mpr ⟨⟨harity, hsum, hframe', hrequired⟩,
        fun pair hpair => hgood pair (hperm.mem_iff.mp hpair), locals, ?_, by rw [hlength], rfl⟩
    rw [unassigned_withPairs hp.le_length]
    exact store_perm hperm.symm hapart hstore
  have hshort : (withPairs args p pairs').length ≤ (locals ++ unparse pairs').length := by
    have hpositional := hp.le_positional
    have hlast : arity.positional.toNat ≤ arity.locals.toNat := harity.2
    rw [withPairs, List.length_append, List.length_append, List.length_take]
    omega
  refine ⟨_, hbind', fun j hj => ?_, ?_⟩
  · rw [splice_splice hbase hshort, getElem?_splice_locals hbase (by omega),
      getElem?_splice_locals hbase (by omega)]
  · rw [splice_splice hbase hshort, ← hlocals, splice_behind hbase hlength]

theorem bind_of_permuted_pairs_unknown_key :
    let arity : Arity := ⟨1, 2, 4, .allowOtherKeys⟩
    let table : KeywordTable := ⟨[(7, 3), (9, 2)]⟩
    let pairs : List (Value × Value) :=
      [(.keyword 7, .keyword 9), (.keyword 8, .fixnum 12), (.keyword 9, .fixnum 13)]
    let pairs' : List (Value × Value) :=
      [(.keyword 9, .fixnum 13), (.keyword 7, .keyword 9), (.keyword 8, .fixnum 12)]
    let args : List Value := .fixnum 10 :: .fixnum 11 :: unparse pairs
    let locals : List Value := [.fixnum 10, .fixnum 11, .fixnum 13, .keyword 9]
    bind 1 8 arity table (.nil :: args) = .ok 10 (.nil :: (locals ++ unparse pairs)) ∧
      arity.SplitsAt args 2 ∧ pairs.Pairwise table.Separates ∧ pairs'.Perm pairs ∧
      bind 1 8 arity table (.nil :: withPairs args 2 pairs') =
        .ok 10 (.nil :: (locals ++ unparse pairs')) := by
  intro arity table pairs pairs' args locals
  have hbind : bind 1 8 arity table (.nil :: args) =
      .ok 10 (.nil :: (locals ++ unparse pairs)) := by cbv
  have hp : arity.SplitsAt args 2 := positionalCount_splits (by decide) (by decide)
  have hapart : pairs.Pairwise table.Separates := by decide
  have hperm : pairs'.Perm pairs := by decide
  obtain ⟨stack'', hbind', -, rfl⟩ :=
    bind_of_permuted_pairs hbind rfl hp rfl (by decide) hapart hperm
  exact ⟨hbind, hp, hapart, hperm, hbind'⟩

end Frame

end VmSupport
