import VmSupport.Proofs.BoundLocals

/-!
Which frames can be bound, and what is wrong with the others. The keyword region is read from its
left end, one item at a time; either it ends in a way it may end, or the first item that may not
stand where it stands decides the error.
-/

namespace VmSupport

open EStateM

namespace KeywordTable

def Knows (table : KeywordTable) (key : Value) : Prop :=
  ∃ entry ∈ table.entries, key.keywordId? = some entry.1

theorem isSome_lookup?_iff {table : KeywordTable} {key : Value} :
    (table.lookup? key).isSome ↔ table.Knows key := by
  simp only [lookup?, Knows]
  cases key.keywordId? with
  | none => simp
  | some id => simp only [Option.bind_some, List.lookup_isSome_iff, beq_iff_eq, Option.some.injEq]

end KeywordTable

namespace Frame

/-- Complete items that may stand in the region lead from its left end to `rest`: a keyword of the
table or one that is ignored, with the value behind it, or a value that is no keyword and belongs to
the rest arguments. -/
inductive Reads (flags : BindFlags) (table : KeywordTable) : List Value → List Value → Prop
  | here (rest : List Value) : Reads flags table rest rest
  | known {k v : Value} {region rest : List Value} (hk : k.isKeyword) (hknown : table.Knows k)
    (h : Reads flags table region rest) : Reads flags table (k :: v :: region) rest
  | ignored {k v : Value} {region rest : List Value} (hk : k.isKeyword)
    (hunknown : ¬ table.Knows k) (hflag : flags.contains .allowOtherKeys)
    (h : Reads flags table region rest) : Reads flags table (k :: v :: region) rest
  | plain {v : Value} {region rest : List Value} (hv : ¬ v.isKeyword)
    (hflag : flags.contains .hasRest) (h : Reads flags table region rest) :
    Reads flags table (v :: region) rest

/-- What may be left at the end of a region: nothing, or a keyword that is ignored and has no value
behind it. -/
inductive Ends (flags : BindFlags) (table : KeywordTable) : List Value → Prop
  | nil : Ends flags table []
  | ignored {k : Value} (hk : k.isKeyword) (hunknown : ¬ table.Knows k)
    (hflag : flags.contains .allowOtherKeys) : Ends flags table [k]

def Accepts (arity : Arity) (table : KeywordTable) (args : List Value) : Prop :=
  arity.required.toNat ≤ args.length ∧ ∃ p, arity.SplitsAt args p ∧
    ∃ rest, Reads arity.flags table (args.drop p) rest ∧ Ends arity.flags table rest

/-- The error of the first item that may not stand where it stands. -/
inductive Rejects (arity : Arity) (table : KeywordTable) (args : List Value) : BindError → Prop
  | tooFew (h : args.length < arity.required.toNat) :
    Rejects arity table args
      (.wrongNumberOfArgs args.length arity.required.toNat arity.positional.toNat)
  | extra {p : Nat} {v : Value} {later : List Value} (hp : arity.SplitsAt args p)
    (hregion : args.drop p = v :: later) (hv : ¬ v.isKeyword)
    (hflag : ¬ arity.flags.contains .hasRest) :
    Rejects arity table args
      (.wrongNumberOfArgs args.length arity.required.toNat arity.positional.toNat)
  | missingValue {p : Nat} {k : Value} (hp : arity.SplitsAt args p)
    (hreads : Reads arity.flags table (args.drop p) [k]) (hk : k.isKeyword)
    (hknown : table.Knows k) : Rejects arity table args (.missingKeywordValue k)
  | unrecognized {p : Nat} {k : Value} {later : List Value} (hp : arity.SplitsAt args p)
    (hreads : Reads arity.flags table (args.drop p) (k :: later)) (hk : k.isKeyword)
    (hunknown : ¬ table.Knows k) (hflag : ¬ arity.flags.contains .allowOtherKeys) :
    Rejects arity table args (.unrecognizedKeyword k)
  | invalid {p : Nat} {v : Value} {later : List Value} (hp : arity.SplitsAt args p)
    (hreads : Reads arity.flags table (args.drop p) (v :: later))
    (hlater : v :: later ≠ args.drop p) (hv : ¬ v.isKeyword)
    (hflag : ¬ arity.flags.contains .hasRest) : Rejects arity table args (.invalidKeyword v)

section Scan

variable {flags : BindFlags} {table : KeywordTable} {k v : Value} {region rest later : List Value}
  {e extra : BindError}

inductive Misfit (flags : BindFlags) (table : KeywordTable) : List Value → BindError → Prop
  | missingValue {k : Value} (hk : k.isKeyword) (hknown : table.Knows k) :
    Misfit flags table [k] (.missingKeywordValue k)
  | unrecognized {k : Value} {later : List Value} (hk : k.isKeyword) (hunknown : ¬ table.Knows k)
    (hflag : ¬ flags.contains .allowOtherKeys) :
    Misfit flags table (k :: later) (.unrecognizedKeyword k)
  | invalid {v : Value} {later : List Value} (hv : ¬ v.isKeyword)
    (hflag : ¬ flags.contains .hasRest) : Misfit flags table (v :: later) (.invalidKeyword v)

def scanError? (flags : BindFlags) (table : KeywordTable) (region : List Value) :
    Option BindError :=
  (RegionItem.parse region).findSome? (itemError? flags table none)

theorem scanError?_pair (hk : k.isKeyword) : scanError? flags table (k :: v :: region) =
    (itemError? flags table none (.pair k v)).or (scanError? flags table region) := by
  rw [scanError?, RegionItem.parse, if_pos hk, List.findSome?_cons]
  cases itemError? flags table none (.pair k v) <;> rfl

theorem parse_plain (hv : ¬ v.isKeyword) :
    RegionItem.parse (v :: region) = .plain v :: RegionItem.parse region := by
  cases region <;> simp only [RegionItem.parse, hv, Bool.false_eq_true, ↓reduceIte]

theorem scanError?_plain (hv : ¬ v.isKeyword) : scanError? flags table (v :: region) =
    (itemError? flags table none (.plain v)).or (scanError? flags table region) := by
  rw [scanError?, parse_plain hv, List.findSome?_cons]
  cases itemError? flags table none (.plain v) <;> rfl

theorem scanError?_lone (hk : k.isKeyword) :
    scanError? flags table [k] = itemError? flags table none (.lone k) := by
  rw [scanError?, RegionItem.parse, if_pos hk, List.findSome?_cons]
  cases itemError? flags table none (.lone k) <;> rfl

theorem Reads.scanError?_eq (h : Reads flags table region rest) :
    scanError? flags table region = scanError? flags table rest := by
  induction h with
  | here rest => rfl
  | known hk hknown _ ih =>
    rw [scanError?_pair hk, ih, itemError?, KeywordTable.isSome_lookup?_iff.mpr hknown]
    rfl
  | ignored hk _ hflag _ ih =>
    rw [scanError?_pair hk, ih, itemError?, hflag, Bool.or_true]
    rfl
  | plain hv hflag _ ih =>
    rw [scanError?_plain hv, ih, itemError?, if_pos hflag]
    rfl

theorem not_isSome_lookup? (hunknown : ¬ table.Knows k) : ¬ (table.lookup? k).isSome :=
  fun hsome => hunknown (KeywordTable.isSome_lookup?_iff.mp hsome)

theorem Ends.scanError?_eq (h : Ends flags table rest) : scanError? flags table rest = none := by
  cases h with
  | nil => rfl
  | ignored hk hunknown hflag =>
    rw [scanError?_lone hk, itemError?, if_neg (not_isSome_lookup? hunknown), if_pos hflag]

theorem Misfit.scanError?_eq (h : Misfit flags table rest e) :
    scanError? flags table rest = some e := by
  cases h with
  | missingValue hk hknown =>
    rw [scanError?_lone hk, itemError?, if_pos (KeywordTable.isSome_lookup?_iff.mpr hknown)]
  | @unrecognized k later hk hunknown hflag =>
    have hsome := not_isSome_lookup? hunknown
    cases later with
    | nil => rw [scanError?_lone hk, itemError?, if_neg hsome, if_neg hflag]
    | cons v later =>
      rw [scanError?_pair hk, itemError?, if_neg (by simp [hsome, hflag])]
      rfl
  | invalid hv hflag =>
    rw [scanError?_plain hv, itemError?, if_neg hflag]
    rfl

theorem exists_reads (flags : BindFlags) (table : KeywordTable) (region : List Value) :
    ∃ rest, Reads flags table region rest ∧
      (Ends flags table rest ∨ ∃ e, Misfit flags table rest e) := by
  -- along the reading of the region, an item at a time
  induction region using RegionItem.parse.induct with
  | case1 => exact ⟨[], .here [], Or.inl .nil⟩
  | case2 k hk =>
    by_cases hknown : table.Knows k
    · exact ⟨[k], .here [k], Or.inr ⟨_, .missingValue hk hknown⟩⟩
    by_cases hflag : flags.contains .allowOtherKeys
    · exact ⟨[k], .here [k], Or.inl (.ignored hk hknown hflag)⟩
    · exact ⟨[k], .here [k], Or.inr ⟨_, .unrecognized hk hknown hflag⟩⟩
  | case3 v hv =>
    by_cases hflag : flags.contains .hasRest
    · exact ⟨[], .plain hv hflag (.here []), Or.inl .nil⟩
    · exact ⟨[v], .here [v], Or.inr ⟨_, .invalid hv hflag⟩⟩
  | case4 k v region hk ih =>
    obtain ⟨rest, hreads, hrest⟩ := ih
    by_cases hknown : table.Knows k
    · exact ⟨rest, .known hk hknown hreads, hrest⟩
    by_cases hflag : flags.contains .allowOtherKeys
    · exact ⟨rest, .ignored hk hknown hflag hreads, hrest⟩
    · exact ⟨_, .here _, Or.inr ⟨_, .unrecognized hk hknown hflag⟩⟩
  | case5 v w region hv ih =>
    obtain ⟨rest, hreads, hrest⟩ := ih
    by_cases hflag : flags.contains .hasRest
    · exact ⟨rest, .plain hv hflag hreads, hrest⟩
    · exact ⟨_, .here _, Or.inr ⟨_, .invalid hv hflag⟩⟩

theorem regionError?_extra (hv : ¬ v.isKeyword) (hflag : ¬ flags.contains .hasRest) :
    regionError? flags table extra (RegionItem.parse (v :: later)) = some extra := by
  rw [parse_plain hv, regionError?, itemError?, if_neg hflag]
  rfl

theorem regionError?_eq_scanError?
    (h : ∀ v later, region = v :: later → v.isKeyword ∨ flags.contains .hasRest) :
    regionError? flags table extra (RegionItem.parse region) = scanError? flags table region := by
  cases region with
  | nil => rfl
  | cons v later =>
    by_cases hv : v.isKeyword
    · cases later with
      | nil =>
        rw [scanError?_lone hv, RegionItem.parse, if_pos hv, regionError?]
        exact Option.or_none ..
      | cons w later =>
        rw [scanError?_pair hv, RegionItem.parse, if_pos hv]
        rfl
    · have hflag := (h v later rfl).resolve_left hv
      rw [scanError?_plain hv, parse_plain hv, regionError?, itemError?, itemError?, if_pos hflag,
        if_pos hflag]
      rfl

theorem regionError?_of_scanError? {r : Option BindError} (h : scanError? flags table region = r)
    (hr : ∀ v, r ≠ some (.invalidKeyword v)) :
    regionError? flags table extra (RegionItem.parse region) = r := by
  rw [regionError?_eq_scanError?, h]
  intro v later hregion
  by_contra hstart
  rw [not_or] at hstart
  have hmisfit : Misfit flags table region (.invalidKeyword v) :=
    hregion ▸ .invalid hstart.1 hstart.2
  exact hr v (h.symm.trans hmisfit.scanError?_eq)

end Scan

end Frame

section Bind

variable {arity : Arity} {table : KeywordTable} {args stack : List Value} {base nargs p q : Nat}
  {e : BindError}

theorem Arity.SplitsAt.unique (hp : arity.SplitsAt args p) (hq : arity.SplitsAt args q) :
    p = q := by
  have hle : ∀ {p q}, arity.SplitsAt args p → arity.SplitsAt args q → q ≤ p := by
    intro p q hp hq
    apply Nat.le_of_not_lt
    intro hlt
    rcases hp.stops with heq | heq | ⟨v, hv, hkeyword⟩
    · exact absurd hq.le_positional (by omega)
    · exact absurd hq.le_length (by omega)
    · exact hq.plain p v hp.required_le hlt hv hkeyword
  exact Nat.le_antisymm (hle hq hp) (hle hp hq)

namespace Frame

theorem accepts_or_rejects (harity : arity.IsWellFormed) (table : KeywordTable)
    (args : List Value) : Accepts arity table args ∨ ∃ e, Rejects arity table args e := by
  rcases Nat.lt_or_ge args.length arity.required.toNat with hfew | hrequired
  · exact Or.inr ⟨_, .tooFew hfew⟩
  have hp := positionalCount_splits harity hrequired
  obtain ⟨rest, hreads, hrest⟩ :=
    exists_reads arity.flags table (args.drop (positionalCount arity args))
  rcases hrest with hends | ⟨e, hmisfit⟩
  · exact Or.inl ⟨hrequired, _, hp, rest, hreads, hends⟩
  right
  cases hmisfit with
  | missingValue hk hknown => exact ⟨_, .missingValue hp hreads hk hknown⟩
  | unrecognized hk hunknown hflag => exact ⟨_, .unrecognized hp hreads hk hunknown hflag⟩
  | @invalid v later hv hflag =>
    by_cases hstart : v :: later = args.drop (positionalCount arity args)
    · exact ⟨_, .extra hp hstart.symm hv hflag⟩
    · exact ⟨_, .invalid hp hreads hstart hv hflag⟩

theorem Accepts.regionError?_eq (h : Accepts arity table args) :
    ∃ p, arity.SplitsAt args p ∧ ∀ extra,
      regionError? arity.flags table extra (RegionItem.parse (args.drop p)) = none := by
  obtain ⟨-, p, hp, rest, hreads, hends⟩ := h
  refine ⟨p, hp, fun extra => regionError?_of_scanError? ?_ (by simp)⟩
  rw [hreads.scanError?_eq, hends.scanError?_eq]

section Frame

variable (harity : arity.IsWellFormed) (hslots : ∀ entry ∈ table.entries, entry.2 < arity.locals)
  (hframe : base + nargs ≤ stack.length) (hstack : stack.length < 2 ^ 64)
  (hargs : (stack.drop base).take nargs = args)

include harity hframe hstack hargs

theorem bind_of_regionError? (hp : arity.SplitsAt args p)
    (he : regionError? arity.flags table
      (.wrongNumberOfArgs args.length arity.required.toNat arity.positional.toNat)
      (RegionItem.parse (args.drop p)) = some e) :
    bind base nargs arity table stack = .error (.error e) stack := by
  have hlength := length_args hframe hargs
  have hrequired := hp.required_le.trans hp.le_length
  have hcount := (positionalCount_splits harity hrequired).unique hp
  rw [hlength] at hrequired he
  exact bind_of_regionError harity hframe hstack hrequired hargs hcount he

theorem Rejects.bind_eq (h : Rejects arity table args e) :
    bind base nargs arity table stack = .error (.error e) stack := by
  have hlength := length_args hframe hargs
  cases h with
  | tooFew hfew =>
    rw [hlength] at hfew ⊢
    exact bind_of_lt_required table harity hframe hstack hfew
  | extra hp hregion hv hflag =>
    apply bind_of_regionError? harity hframe hstack hargs hp
    rw [hregion]
    exact regionError?_extra hv hflag
  | missingValue hp hreads hk hknown =>
    apply bind_of_regionError? harity hframe hstack hargs hp
    apply regionError?_of_scanError? _ (by simp)
    rw [hreads.scanError?_eq, (Misfit.missingValue hk hknown).scanError?_eq]
  | unrecognized hp hreads hk hunknown hflag =>
    apply bind_of_regionError? harity hframe hstack hargs hp
    apply regionError?_of_scanError? _ (by simp)
    rw [hreads.scanError?_eq, (Misfit.unrecognized hk hunknown hflag).scanError?_eq]
  | @invalid p v later hp hreads hlater hv hflag =>
    apply bind_of_regionError? harity hframe hstack hargs hp
    rw [regionError?_eq_scanError?, hreads.scanError?_eq, (Misfit.invalid hv hflag).scanError?_eq]
    -- nothing is read before a value that may not stand at the start of the region
    intro w others hregion
    rw [hregion] at hreads hlater
    cases hreads with
    | here => exact absurd rfl hlater
    | known hk => exact Or.inl hk
    | ignored hk => exact Or.inl hk
    | plain _ hrest => exact Or.inr hrest

theorem Accepts.bind_of_store (h : Accepts arity table args) (hp : arity.SplitsAt args p) :
    (∀ locals, store table (RegionItem.parse (args.drop p)) (unassigned arity args p) =
        .ok () locals → bind base nargs arity table stack =
          .ok (arity.locals.toNat + (args.drop p).length)
            (splice stack base (locals ++ args.drop p))) ∧
      ∀ f locals, store table (RegionItem.parse (args.drop p)) (unassigned arity args p) =
        .error f locals → bind base nargs arity table stack =
          .error (.fault f) (splice stack base (locals ++ args.drop p)) := by
  obtain ⟨q, hq, hgood⟩ := h.regionError?_eq
  cases hq.unique hp
  have hlength := length_args hframe hargs
  have hrequired := hp.required_le.trans hp.le_length
  have hcount := (positionalCount_splits harity hrequired).unique hp
  rw [hlength] at hrequired
  constructor
  · intro locals hstore
    exact Frame.bind_of_store harity hframe hstack hrequired hargs hcount (hgood _) hstore
  · intro f locals hstore
    exact bind_of_store_error harity hframe hstack hrequired hargs hcount (hgood _) hstore

theorem Accepts.bind_of_lt (h : Accepts arity table args) (hp : arity.SplitsAt args p)
    (hlt : ∀ key value rest j, Meets key value rest (args.drop p) → table.Maps key j →
      j < arity.locals.toNat) :
    ∃ size stack', bind base nargs arity table stack = .ok size stack' := by
  have hlocals := length_unassigned harity hp
  obtain ⟨locals, hstore, -⟩ := store_assigns_met (args.drop p) (hlocals.symm ▸ hlt)
  exact ⟨_, _, (h.bind_of_store harity hframe hstack hargs hp).1 locals hstore⟩

include hslots

theorem Accepts.bind_eq (h : Accepts arity table args) :
    ∃ size stack', bind base nargs arity table stack = .ok size stack' := by
  obtain ⟨p, hp, -⟩ := h.regionError?_eq
  apply h.bind_of_lt harity hframe hstack hargs hp
  intro key value rest j _ hmaps
  exact hmaps.lt fun entry hentry => UInt32.lt_iff_toNat_lt.mp (hslots entry hentry)

end Frame

theorem Rejects.outside {required positional n : Nat}
    (h : Rejects arity table args (.wrongNumberOfArgs n required positional)) :
    n = args.length ∧ (n < required ∨ positional < n) := by
  cases h with
  | tooFew hfew => exact ⟨rfl, Or.inl hfew⟩
  | @extra p v later hp hregion hv hflag =>
    refine ⟨rfl, Or.inr ?_⟩
    have hget : args[p]? = some v := by
      rw [← List.head?_drop, hregion]
      rfl
    have hlt : p < args.length := (List.getElem?_eq_some_iff.mp hget).1
    rcases hp.stops with heq | heq | ⟨w, hw, hkeyword⟩
    · exact heq ▸ hlt
    · exact absurd hlt (by omega)
    · rw [hget] at hw
      cases hw
      exact absurd hkeyword hv

/-- A frame is bound exactly if its arguments follow the grammar. Otherwise the stack stays as it
was, and the error is that of the first item that may not stand where it stands; the number of
arguments is only found wrong if it is. A stack has no `2 ^ 64` values. -/
theorem bind_follows_grammar (harity : arity.IsWellFormed)
    (hslots : ∀ entry ∈ table.entries, entry.2 < arity.locals)
    (hframe : base + nargs ≤ stack.length) (hstack : stack.length < 2 ^ 64) :
    let args := (stack.drop base).take nargs
    ((∃ size stack', bind base nargs arity table stack = .ok size stack') ↔
      Accepts arity table args) ∧
    (∀ e, bind base nargs arity table stack = .error (.error e) stack ↔
      Rejects arity table args e) ∧
    (∀ exit stack', bind base nargs arity table stack = .error exit stack' →
      ∃ e, exit = .error e ∧ stack' = stack) ∧
    ∀ n required positional,
      Rejects arity table args (.wrongNumberOfArgs n required positional) →
        n = nargs ∧ (n < required ∨ positional < n) := by
  intro args
  have hlength : args.length = nargs := by
    rw [List.length_take, List.length_drop]
    omega
  have haccepts : Accepts arity table args →
      ∃ size stack', bind base nargs arity table stack = .ok size stack' :=
    Accepts.bind_eq harity hslots hframe hstack rfl
  have hrejects : ∀ {e}, Rejects arity table args e →
      bind base nargs arity table stack = .error (.error e) stack :=
    Rejects.bind_eq harity hframe hstack rfl
  rcases accepts_or_rejects harity table args with hgood | ⟨e, hbad⟩
  · obtain ⟨size, stack', hbind⟩ := haccepts hgood
    refine ⟨iff_of_true ⟨size, stack', hbind⟩ hgood, fun e => ?_, ?_, ?_⟩
    · refine iff_of_false (by simp [hbind]) fun hbad => ?_
      exact absurd (hbind.symm.trans (hrejects hbad)) (by simp)
    · intro exit stack'' hexit
      exact absurd (hbind.symm.trans hexit) (by simp)
    · intro n required positional hbad
      exact absurd (hbind.symm.trans (hrejects hbad)) (by simp)
  · have hbind := hrejects hbad
    refine ⟨?_, fun e' => ⟨fun he => ?_, hrejects⟩, ?_, ?_⟩
    · refine iff_of_false (by simp [hbind]) fun hgood => ?_
      obtain ⟨size, stack', hok⟩ := haccepts hgood
      exact absurd (hbind.symm.trans hok) (by simp)
    · cases hbind.symm.trans he
      exact hbad
    · intro exit stack' hexit
      cases hbind.symm.trans hexit
      exact ⟨e, rfl, rfl⟩
    · intro n required positional hwrong
      exact hlength ▸ hwrong.outside

theorem bind_follows_grammar_to_lone_key :
    let arity : Arity := ⟨1, 2, 4, ⟨3⟩⟩
    let table : KeywordTable := ⟨[(7, 3)]⟩
    let stack : List Value :=
      [.fixnum 10, .keyword 7, .keyword 7, .keyword 8, .fixnum 11, .fixnum 12, .keyword 7]
    bind 0 7 arity table stack = .error (.error (.missingKeywordValue (.keyword 7))) stack ∧
      Rejects arity table stack (.missingKeywordValue (.keyword 7)) ∧
      ¬ Accepts arity table stack := by
  intro arity table stack
  have hbind : bind 0 7 arity table stack =
      .error (.error (.missingKeywordValue (.keyword 7))) stack := by cbv
  have hslots : ∀ entry ∈ table.entries, entry.2 < arity.locals := by simp [table, arity]
  have hlength : stack.length = 7 := rfl
  have hframe : 0 + 7 ≤ stack.length := by omega
  obtain ⟨haccepts, hrejects, -⟩ :=
    bind_follows_grammar (by decide : arity.IsWellFormed) hslots hframe (by omega)
  refine ⟨hbind, (hrejects _).mp hbind, fun hgood => ?_⟩
  obtain ⟨size, stack', hok⟩ := haccepts.mpr hgood
  exact absurd (hbind.symm.trans hok) (by simp)

end Frame

end Bind

end VmSupport
