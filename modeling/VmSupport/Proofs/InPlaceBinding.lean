import VmSupport.Proofs.BoundLocals

def EStateM.Result.mapState {ε σ τ α : Type} (f : σ → τ) : Result ε σ α → Result ε τ α
  | .ok a s => .ok a (f s)
  | .error e s => .error e (f s)

namespace VmSupport

open EStateM

namespace Frame

def grow (stack : List Value) (length : Nat) : List Value :=
  stack ++ List.replicate (length - stack.length) Value.unspecified

def move (stack : List Value) (start stop target : Nat) : List Value :=
  splice stack target ((stack.drop start).take (stop - start))

def clear (stack : List Value) (start stop : Nat) : List Value :=
  splice stack start (List.replicate (stop - start) Value.unspecified)

def entry (i : Nat) : EStateM Fault (List Value) Value := fun stack =>
  match stack[i]? with
  | some v => .ok v stack
  | none => .error (.indexOutOfBounds stack.length i) stack

def scan (table : KeywordTable) (base total stop i : Nat) : EStateM Fault (List Value) Unit := do
  if i < stop then
    let key ← entry i
    if key.isKeyword then
      match table.lookup? key with
      | none => scan table base total stop (i + 2)
      | some slot =>
        if slot.toNat < total then
          let value ← entry (i + 1)
          modify fun stack => stack.set (base + slot.toNat) value
          scan table base total stop (i + 2)
        else throw .slotOutsideLocals
    else scan table base total stop (i + 1)
termination_by stop - i

/-- Binds a frame where it stands, one step after the other. -/
def bindInPlace (base nargs : Nat) (arity : Arity) (table : KeywordTable) :
    EStateM (Exit BindError) (List Value) Nat := fun stack =>
  if ¬ arity.IsWellFormed then .error (.fault (.malformedArity arity)) stack
  else if 1 <<< 64 ≤ base + nargs then .error (.fault .additionOverflow) stack
  else if stack.length < base + nargs then
    .error (.fault (.frameOverrun nargs base stack.length)) stack
  else
    let wrongNumber := BindError.wrongNumberOfArgs nargs arity.required.toNat arity.positional.toNat
    if nargs < arity.required.toNat then .error (.error wrongNumber) stack
    else
      let args := (stack.drop base).take nargs
      let count := positionalCount arity args
      match regionError? arity.flags table wrongNumber (RegionItem.parse (args.drop count)) with
      | some e => .error (.error e) stack
      | none =>
        let total := arity.locals.toNat
        let size := total + (nargs - count)
        let grown := grow stack (base + size)
        let moved := move grown (base + count) (base + nargs) (base + total)
        let cleared := clear moved (base + count) (base + total)
        match scan table base total (base + size) (base + total) cleared with
        | .ok () stack => .ok size stack
        | .error f stack => .error (.fault f) stack

section Layout

variable {stack args : List Value} {base nargs p : Nat}

theorem splice_append (before stack values : List Value) (n : Nat) :
    splice (before ++ stack) (before.length + n) values = before ++ splice stack n values := by
  simp only [splice, List.take_append, List.drop_append, Nat.add_assoc, Nat.add_sub_cancel_left,
    List.take_of_length_le (Nat.le_add_right _ _), List.drop_of_length_le (Nat.le_add_right _ _),
    List.nil_append, List.append_assoc]

theorem grow_append (before stack : List Value) (n : Nat) :
    grow (before ++ stack) (before.length + n) = before ++ grow stack n := by
  rw [grow, grow, List.length_append, Nat.add_sub_add_left, List.append_assoc]

theorem move_append (before stack : List Value) (n k : Nat) :
    move (before ++ stack) before.length (before.length + n) (before.length + k) =
      before ++ splice stack k (stack.take n) := by
  rw [move, List.drop_left, Nat.add_sub_cancel_left, splice_append]

theorem clear_append (before stack : List Value) (k : Nat) :
    clear (before ++ stack) before.length (before.length + k) =
      before ++ (List.replicate k Value.unspecified ++ stack.drop k) := by
  have hsplice := splice_append before stack (List.replicate k Value.unspecified) 0
  rw [clear, Nat.add_sub_cancel_left]
  refine hsplice.trans ?_
  rw [splice, List.take_zero, List.nil_append, Nat.zero_add, List.length_replicate]

theorem drop_grow (stack : List Value) (k : Nat) : (grow stack k).drop k = stack.drop k := by
  rw [grow, List.drop_append, List.drop_of_length_le (Nat.le_of_eq List.length_replicate),
    List.append_nil]

theorem clear_move_grow (hframe : base + nargs ≤ stack.length)
    (hargs : (stack.drop base).take nargs = args) (hp : p ≤ nargs) (k : Nat) :
    clear (move (grow stack (base + (p + k + (nargs - p)))) (base + p) (base + nargs)
        (base + (p + k))) (base + p) (base + (p + k)) =
      splice stack base
        (args.take p ++ List.replicate k Value.unspecified ++ args.drop p) := by
  have hlength : args.length = nargs := length_args hframe hargs
  -- what is kept, what is moved, and what lies behind the arguments
  let kept := stack.take base ++ args.take p
  let region := args.drop p
  let rest := stack.drop (base + nargs)
  have hkept : kept.length = base + p := by
    simp only [kept, List.length_append, List.length_take]
    omega
  have hregion : region.length = nargs - p := by rw [List.length_drop, hlength]
  have hstack : stack = kept ++ (region ++ rest) := by
    rw [List.append_assoc, ← List.append_assoc (args.take p), List.take_append_drop, ← hargs]
    simp only [rest, ← List.drop_drop, List.take_append_drop]
  have hgrown : grow stack (base + (p + k + (nargs - p))) =
      kept ++ (region ++ grow rest k) := by
    rw [hstack, ← grow_append, ← grow_append, hkept, hregion]
    congr 1
    omega
  have hmoved : move (kept ++ (region ++ grow rest k)) kept.length (kept.length + region.length)
      (kept.length + k) = kept ++ splice (region ++ grow rest k) k region := by
    rw [move_append, List.take_left]
  have hroom : k ≤ (region ++ grow rest k).length := by
    simp only [grow, List.length_append, List.length_replicate]
    omega
  have hbehind : (region ++ grow rest k).drop (k + region.length) = rest.drop k := by
    rw [Nat.add_comm, ← List.drop_drop, List.drop_left, drop_grow]
  have hlast : stack.drop
      (base + (args.take p ++ List.replicate k Value.unspecified ++ args.drop p).length) =
        rest.drop k := by
    rw [List.drop_drop]
    congr 1
    simp only [List.length_append, List.length_take, List.length_replicate, List.length_drop]
    omega
  rw [hgrown, ← Nat.add_assoc, ← hkept, show base + nargs = kept.length + region.length by omega,
    hmoved, clear_append, drop_splice hroom, hbehind, splice, hlast]
  simp only [kept, region, List.append_assoc]

end Layout

section Scan

variable {table : KeywordTable} {base total stop i slot : Nat} {stack : List Value}
  {key value : Value}

theorem entry_eq_ok (h : stack[i]? = some value) : entry i stack = .ok value stack := by
  rw [entry, h]

theorem scan_of_le (h : stop ≤ i) : scan table base total stop i stack = .ok () stack := by
  rw [scan, if_neg (Nat.not_lt.mpr h)]
  rfl

theorem scan_of_plain (hi : i < stop) (hentry : stack[i]? = some value)
    (hplain : ¬value.isKeyword) :
    scan table base total stop i stack = scan table base total stop (i + 1) stack := by
  rw [scan, if_pos hi, bind_of_ok (entry_eq_ok hentry), if_neg hplain]

theorem scan_of_unknown (hi : i < stop) (hentry : stack[i]? = some key) (hkey : key.isKeyword)
    (hlookup : table.lookup? key = none) :
    scan table base total stop i stack = scan table base total stop (i + 2) stack := by
  rw [scan, if_pos hi, bind_of_ok (entry_eq_ok hentry), if_pos hkey, hlookup]

theorem scan_of_pair {slot : UInt32} (hi : i < stop) (hentry : stack[i]? = some key)
    (hkey : key.isKeyword) (hvalue : stack[i + 1]? = some value)
    (hlookup : table.lookup? key = some slot) :
    scan table base total stop i stack =
      if slot.toNat < total then
        scan table base total stop (i + 2) (stack.set (base + slot.toNat) value)
      else .error .slotOutsideLocals stack := by
  rw [scan, if_pos hi, bind_of_ok (entry_eq_ok hentry), if_pos hkey]
  simp only [hlookup]
  by_cases hslot : slot.toNat < total
  · rw [if_pos hslot, if_pos hslot, bind_of_ok (entry_eq_ok hvalue)]
    rfl
  · rw [if_neg hslot, if_neg hslot]
    rfl

def laidOut (below locals region above : List Value) : List Value :=
  below ++ (locals ++ (region ++ above))

def Closed (table : KeywordTable) (region : List Value) : Prop :=
  ∀ key, .lone key ∈ RegionItem.parse region → table.lookup? key = none

section Region

variable {below locals before region above : List Value}

theorem getElem?_laidOut (hi : i = below.length + locals.length + before.length) (j : Nat)
    (hvalue : region[j]? = some value) :
    (laidOut below locals (before ++ region) above)[i + j]? = some value := by
  have hj : j < region.length := (List.getElem?_eq_some_iff.mp hvalue).1
  rw [hi, laidOut, List.append_assoc before, Nat.add_assoc, Nat.add_assoc,
    List.getElem?_append_right (Nat.le_add_right _ _), Nat.add_sub_cancel_left,
    List.getElem?_append_right (Nat.le_add_right _ _), Nat.add_sub_cancel_left,
    List.getElem?_append_right (Nat.le_add_right _ _), Nat.add_sub_cancel_left,
    List.getElem?_append_left hj, hvalue]

theorem set_laidOut (hslot : slot < locals.length) :
    (laidOut below locals region above).set (below.length + slot) value =
      laidOut below (locals.set slot value) region above := by
  rw [laidOut, List.set_append_right _ _ (Nat.le_add_right _ _), Nat.add_sub_cancel_left,
    List.set_append_left _ _ hslot]
  rfl

theorem Closed.tail {region' : List Value} {item : RegionItem} (hclosed : Closed table region)
    (hparse : RegionItem.parse region = item :: RegionItem.parse region') : Closed table region' :=
  fun key hkey => hclosed key (hparse ▸ List.mem_cons_of_mem _ hkey)

theorem scan_eq_store (above : List Value) (hclosed : Closed table region)
    (hi : i = below.length + locals.length + before.length) (hstop : stop = i + region.length) :
    scan table below.length locals.length stop i (laidOut below locals (before ++ region) above) =
      (store table (RegionItem.parse region) locals).mapState
        (laidOut below · (before ++ region) above) := by
  induction region using RegionItem.parse.induct generalizing before locals i with
  | case1 => exact scan_of_le (Nat.le_of_eq hstop)
  | case2 k hk =>
    have hparse : RegionItem.parse [k] = [.lone k] := by rw [RegionItem.parse, if_pos hk]
    have hunknown : table.lookup? k = none := hclosed k (hparse ▸ List.mem_singleton_self _)
    have hlt : i < stop := hstop ▸ Nat.lt_succ_self i
    rw [scan_of_unknown hlt (getElem?_laidOut hi 0 rfl) hk hunknown, hparse,
      scan_of_le (hstop ▸ Nat.le_succ (i + 1))]
    rfl
  | case3 v hv =>
    have hparse : RegionItem.parse [v] = [.plain v] := by rw [RegionItem.parse, if_neg hv]
    have hlt : i < stop := hstop ▸ Nat.lt_succ_self i
    have hle : stop ≤ i + 1 := Nat.le_of_eq hstop
    rw [scan_of_plain hlt (getElem?_laidOut hi 0 rfl) hv, hparse, scan_of_le hle]
    rfl
  | case4 k v region hk ih =>
    have hparse : RegionItem.parse (k :: v :: region) = .pair k v :: RegionItem.parse region := by
      rw [RegionItem.parse, if_pos hk]
    have hlt : i < stop := by
      rw [hstop]
      exact Nat.lt_add_of_pos_right (Nat.succ_pos _)
    have hmoved : before ++ k :: v :: region = before ++ [k, v] ++ region := by
      rw [List.append_assoc, List.cons_append, List.cons_append, List.nil_append]
    have hnext : i + 2 = below.length + locals.length + (before ++ [k, v]).length := by
      rw [hi, List.length_append]
      rfl
    have hstop' : stop = i + 2 + region.length := by
      rw [hstop, List.length_cons, List.length_cons]
      omega
    have hkey : (laidOut below locals (before ++ k :: v :: region) above)[i + 0]? = some k :=
      getElem?_laidOut hi 0 rfl
    cases hlookup : table.lookup? k with
    | none =>
      rw [scan_of_unknown hlt hkey hk hlookup, hparse, hmoved,
        ih (hclosed.tail hparse) hnext hstop']
      simp only [store, hlookup]
    | some slot =>
      rw [scan_of_pair hlt hkey hk (getElem?_laidOut hi 1 rfl) hlookup, hparse,
        store_pair_of_lookup? hlookup]
      by_cases hslot : slot.toNat < locals.length
      · have hlocals : (locals.set slot.toNat v).length = locals.length := List.length_set
        rw [if_pos hslot, if_pos hslot, set_laidOut hslot, hmoved, ← hlocals]
        exact ih (hclosed.tail hparse) (hlocals.symm ▸ hnext) hstop'
      · rw [if_neg hslot, if_neg hslot]
        rfl
  | case5 v w region hv ih =>
    have hparse : RegionItem.parse (v :: w :: region) =
        .plain v :: RegionItem.parse (w :: region) := by
      rw [RegionItem.parse, if_neg hv]
    have hlt : i < stop := by
      rw [hstop]
      exact Nat.lt_add_of_pos_right (Nat.succ_pos _)
    have hnext : i + 1 = below.length + locals.length + (before ++ [v]).length := by
      rw [hi, List.length_append]
      rfl
    have hstop' : stop = i + 1 + (w :: region).length := by
      rw [hstop, List.length_cons]
      omega
    rw [scan_of_plain hlt (getElem?_laidOut hi 0 rfl) hv, hparse, List.append_cons,
      ih (hclosed.tail hparse) hnext hstop']
    rfl

end Region

end Scan

section Bind

variable {arity : Arity} {table : KeywordTable} {stack args locals region : List Value}
  {base nargs p : Nat}

theorem closed_of_regionError? {flags : BindFlags} {extra : BindError}
    (h : regionError? flags table extra (RegionItem.parse region) = none) :
    Closed table region := by
  intro key hkey
  cases hlookup : table.lookup? key with
  | none => rfl
  | some slot =>
    have herror : ∀ e, itemError? flags table e (.lone key) = some (.missingKeywordValue key) := by
      intro e
      rw [itemError?, hlookup]
      rfl
    cases hparse : RegionItem.parse region with
    | nil =>
      rw [hparse] at hkey
      exact absurd hkey List.not_mem_nil
    | cons item items =>
      rw [hparse] at h hkey
      rw [regionError?, Option.or_eq_none_iff, List.findSome?_eq_none_iff] at h
      rcases List.mem_cons.mp hkey with rfl | hkey
      · exact absurd ((herror _).symm.trans h.1) (Option.some_ne_none _)
      · exact absurd ((herror _).symm.trans (h.2 _ hkey)) (Option.some_ne_none _)

theorem scan_splice (locals : List Value) (hclosed : Closed table region)
    (hbase : base ≤ stack.length) :
    scan table base locals.length (base + (locals.length + region.length)) (base + locals.length)
        (splice stack base (locals ++ region)) =
      (store table (RegionItem.parse region) locals).mapState
        fun locals' => splice stack base (locals' ++ region) := by
  let above := stack.drop (base + (locals.length + region.length))
  have hbelow : (stack.take base).length = base := List.length_take_of_le hbase
  have hlaid : ∀ locals' : List Value, locals'.length = locals.length →
      splice stack base (locals' ++ region) = laidOut (stack.take base) locals' region above := by
    intro locals' hlength
    rw [splice, List.length_append, hlength, laidOut, List.append_assoc, List.append_assoc]
  have hi : base + locals.length =
      (stack.take base).length + locals.length + ([] : List Value).length := by rw [hbelow]; rfl
  have hscan := scan_eq_store above hclosed hi (Nat.add_assoc base _ _).symm
  rw [hbelow, List.nil_append] at hscan
  have hlength := length_store table (RegionItem.parse region) locals
  rw [hlaid locals rfl, hscan]
  cases hstore : store table (RegionItem.parse region) locals with
  | ok _ locals' =>
    rw [hstore] at hlength
    rw [Result.mapState, Result.mapState, hlaid locals' hlength]
  | error f locals' =>
    rw [hstore] at hlength
    rw [Result.mapState, Result.mapState, hlaid locals' hlength]

/-- The steps that bind a frame in place come to what `bind` says. -/
theorem bindInPlace_eq_bind (base nargs : Nat) (arity : Arity) (table : KeywordTable) :
    bindInPlace base nargs arity table = bind base nargs arity table := by
  funext stack
  by_cases harity : arity.IsWellFormed
  swap
  · simp only [bindInPlace, bind, harity, not_false_eq_true, ↓reduceIte]
  by_cases hsum : 1 <<< 64 ≤ base + nargs
  · simp only [bindInPlace, bind, hsum, ↓reduceIte]
  by_cases hover : stack.length < base + nargs
  · simp only [bindInPlace, bind, hover, ↓reduceIte]
  by_cases hfew : nargs < arity.required.toNat
  · simp only [bindInPlace, bind, hfew, ↓reduceIte]
  have hframe : base + nargs ≤ stack.length := Nat.not_lt.mp hover
  simp only [bindInPlace, bind, harity, hsum, hover, hfew, not_true_eq_false, ↓reduceIte]
  generalize hargs : (stack.drop base).take nargs = args
  have hnargs : args.length = nargs := length_args hframe hargs
  have hsplits : arity.SplitsAt args (positionalCount arity args) :=
    positionalCount_splits harity (hnargs ▸ Nat.not_lt.mp hfew)
  generalize positionalCount arity args = p at hsplits
  cases hgood : regionError? arity.flags table
      (.wrongNumberOfArgs nargs arity.required.toNat arity.positional.toNat)
      (RegionItem.parse (args.drop p)) with
  | some e => rfl
  | none =>
    have hp : p ≤ nargs := hnargs ▸ hsplits.le_length
    have htotal : (unassigned arity args p).length = arity.locals.toNat :=
      length_unassigned harity hsplits
    have hregion : (args.drop p).length = nargs - p := hnargs ▸ List.length_drop
    obtain ⟨k, hk⟩ := Nat.exists_eq_add_of_le
      (Nat.le_trans hsplits.le_positional (UInt32.le_iff_toNat_le.mp harity.2))
    have hcleared := clear_move_grow hframe hargs hp k
    have hscan := scan_splice (unassigned arity args p) (closed_of_regionError? hgood)
      (Nat.le_of_add_right_le hframe)
    rw [htotal, hregion, unassigned, hk, Nat.add_sub_cancel_left] at hscan
    simp only [hk, hcleared, hscan, hregion, Nat.add_sub_cancel_left]
    cases store table (RegionItem.parse (args.drop p))
      (args.take p ++ List.replicate k Value.unspecified) with
    | ok _ locals => rfl
    | error f locals => rfl

end Bind

end Frame

end VmSupport
