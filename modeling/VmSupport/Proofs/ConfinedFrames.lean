import VmSupport.Proofs.BoundLocals

namespace VmSupport

namespace Frame

variable {stack stack' : List Value} {base nargs size top : Nat} {arity : Arity}
  {table : KeywordTable}

/-- From `stack` to `stack'`, only the `size` values from `base` on have changed, and values were
added at the end only as far as those reach. -/
structure Confined (stack : List Value) (base size : Nat) (stack' : List Value) : Prop where
  below : ∀ i < base, stack'[i]? = stack[i]?
  above : ∀ i ≥ base + size, stack'[i]? = stack[i]?
  length_eq : stack'.length = max stack.length (base + size)

theorem Confined.take_eq (h : Confined stack base size stack') (htop : top ≤ base) :
    stack'.take top = stack.take top := by
  apply List.ext_getElem?
  intro i
  by_cases hi : i < top
  · rw [List.getElem?_take_of_lt hi, List.getElem?_take_of_lt hi]
    exact h.below i (by omega)
  · rw [List.getElem?_take_eq_none (by omega), List.getElem?_take_eq_none (by omega)]

theorem confined_splice {values : List Value} (hbase : base ≤ stack.length) :
    Confined stack base values.length (splice stack base values) := by
  constructor
  · intro i hi
    exact getElem?_splice_of_lt hbase hi
  · intro i hi
    exact getElem?_splice_of_ge hbase hi
  · exact length_splice hbase

theorem bind_confined (harity : arity.IsWellFormed)
    (hslots : ∀ entry ∈ table.entries, entry.2 < arity.locals)
    (hframe : base + nargs ≤ stack.length) (hstack : stack.length < 2 ^ 64) :
    (∃ e, bind base nargs arity table stack = .error (.error e) stack) ∨
      ∃ size stack', bind base nargs arity table stack = .ok size stack' ∧ nargs ≤ size ∧
        Confined stack base size stack' := by
  rcases bind_cases table harity hframe hstack rfl rfl with herror | ⟨hsplits, hbind⟩
  · exact Or.inl herror
  have hlength := length_unassigned harity hsplits
  obtain ⟨locals, hstore, hlocals, -⟩ := store_assigns
    (((stack.drop base).take nargs).drop (positionalCount arity ((stack.drop base).take nargs)))
    fun entry hentry => hlength.symm ▸ UInt32.lt_iff_toNat_lt.mp (hslots entry hentry)
  have hpositional := hsplits.le_positional
  have htotal : arity.positional.toNat ≤ arity.locals.toNat := harity.2
  refine Or.inr ⟨_, _, hbind locals hstore, ?_, ?_⟩
  · simp only [List.length_drop, List.length_take]
    omega
  · rw [← hlength, ← hlocals, ← List.length_append]
    exact confined_splice (by omega)

structure Segment where
  base : Nat
  values : List Value

def Segment.LiesIn (segment : Segment) (stack : List Value) : Prop :=
  (stack.drop segment.base).take segment.values.length = segment.values

theorem Segment.LiesIn.congr {segment : Segment} (h : segment.LiesIn stack)
    (htop : segment.base + segment.values.length ≤ top)
    (htake : stack'.take top = stack.take top) : segment.LiesIn stack' := by
  obtain ⟨room, hroom⟩ := Nat.exists_eq_add_of_le (Nat.le_of_add_right_le htop)
  have hdrop := congrArg (List.drop segment.base) htake
  simp only [hroom, List.drop_take, Nat.add_sub_cancel_left] at hdrop
  have hle : segment.values.length ≤ room := by omega
  rw [LiesIn] at h ⊢
  rw [← Nat.min_eq_left hle, ← List.take_take, hdrop, List.take_take, Nat.min_eq_left hle, h]

/-- Calls are bound one after another on a stack. Each frame begins at or above `top`, the end of
the last one that was bound, and before each call the values from there on may change freely;
`frames` are the bound ones as their binding left them. -/
inductive Binds : Nat → List Segment → List Value → Prop
  | start (stack : List Value) : Binds 0 [] stack
  | change {top : Nat} {frames : List Segment} {stack stack' : List Value}
    (h : Binds top frames stack) (hlength : top ≤ stack'.length)
    (htake : stack'.take top = stack.take top) : Binds top frames stack'
  | call {top : Nat} {frames : List Segment} {stack stack' : List Value} {base nargs size : Nat}
    {arity : Arity} {table : KeywordTable} (h : Binds top frames stack)
    (harity : arity.IsWellFormed) (hslots : ∀ entry ∈ table.entries, entry.2 < arity.locals)
    (htop : top ≤ base) (hframe : base + nargs ≤ stack.length) (hstack : stack.length < 2 ^ 64)
    (hbind : bind base nargs arity table stack = .ok size stack') :
    Binds (base + size) (frames ++ [⟨base, (stack'.drop base).take size⟩]) stack'
  | failedCall {top : Nat} {frames : List Segment} {stack stack' : List Value} {base nargs : Nat}
    {arity : Arity} {table : KeywordTable} {e : BindError} (h : Binds top frames stack)
    (harity : arity.IsWellFormed) (hslots : ∀ entry ∈ table.entries, entry.2 < arity.locals)
    (htop : top ≤ base) (hframe : base + nargs ≤ stack.length) (hstack : stack.length < 2 ^ 64)
    (hbind : bind base nargs arity table stack = .error (.error e) stack') :
    Binds top frames stack'

structure Stand (top : Nat) (frames : List Segment) (stack : List Value) : Prop where
  le_length : top ≤ stack.length
  le_top : ∀ frame ∈ frames, frame.base + frame.values.length ≤ top
  lies : ∀ frame ∈ frames, frame.LiesIn stack

variable {frames : List Segment}

theorem Stand.congr (h : Stand top frames stack) (hlength : top ≤ stack'.length)
    (htake : stack'.take top = stack.take top) : Stand top frames stack' := by
  refine ⟨hlength, h.le_top, fun frame hframe => ?_⟩
  exact (h.lies frame hframe).congr (h.le_top frame hframe) htake

theorem Stand.bound (h : Stand top frames stack) (htop : top ≤ base)
    (hconfined : Confined stack base size stack') :
    Stand (base + size) (frames ++ [⟨base, (stack'.drop base).take size⟩]) stack' := by
  have hlength := hconfined.length_eq
  have hkept := h.congr (by omega) (hconfined.take_eq htop)
  have hsize : ((stack'.drop base).take size).length = size := by
    rw [List.length_take, List.length_drop]
    omega
  constructor
  · omega
  · intro frame hframe
    rcases List.mem_append.mp hframe with hold | hnew
    · have := hkept.le_top frame hold
      omega
    · rw [List.mem_singleton.mp hnew]
      exact Nat.le_of_eq (congrArg (base + ·) hsize)
  · intro frame hframe
    rcases List.mem_append.mp hframe with hold | hnew
    · exact hkept.lies frame hold
    · rw [List.mem_singleton.mp hnew]
      exact congrArg (List.take · (stack'.drop base)) hsize

theorem Binds.stand (h : Binds top frames stack) : Stand top frames stack := by
  -- along the run; a call is confined to its own frame, which begins above all that stand
  induction h with
  | start stack =>
    exact ⟨Nat.zero_le _, fun _ h => absurd h List.not_mem_nil,
      fun _ h => absurd h List.not_mem_nil⟩
  | change _ hlength htake ih => exact ih.congr hlength htake
  | call _ harity hslots htop hframe hstack hbind ih =>
    rcases bind_confined harity hslots hframe hstack with ⟨e, herror⟩ | ⟨_, _, hok, -, hconfined⟩
    · rw [hbind] at herror
      cases herror
    · rw [hbind] at hok
      cases hok
      exact ih.bound htop hconfined
  | failedCall _ harity hslots htop hframe hstack hbind ih =>
    rcases bind_confined harity hslots hframe hstack with ⟨e, herror⟩ | ⟨_, _, hok, -, -⟩
    · rw [hbind] at herror
      cases herror
      exact ih
    · rw [hbind] at hok
      cases hok

/-- Binding fails and changes nothing, or it is confined to the frame it makes, which has room for
all the arguments; and after any calls in frames that follow one another, all the frames that were
bound are as they were. A stack has no `2 ^ 64` values. -/
theorem binding_confined_to_frame :
    (∀ stack base nargs arity table, Arity.IsWellFormed arity →
      (∀ entry ∈ KeywordTable.entries table, entry.2 < arity.locals) →
      base + nargs ≤ stack.length → stack.length < 2 ^ 64 →
      (∃ e, bind base nargs arity table stack = .error (.error e) stack) ∨
        ∃ size stack', bind base nargs arity table stack = .ok size stack' ∧ nargs ≤ size ∧
          Confined stack base size stack') ∧
      ∀ top frames stack, Binds top frames stack → ∀ frame ∈ frames, frame.LiesIn stack := by
  constructor
  · intro stack base nargs arity table harity hslots hframe hstack
    exact bind_confined harity hslots hframe hstack
  · intro top frames stack hrun
    exact hrun.stand.lies

theorem binding_confined_to_frame_growing :
    let arity : Arity := ⟨1, 1, 3, ⟨0⟩⟩
    let table : KeywordTable := ⟨[(7, 2)]⟩
    let stack : List Value := [.fixnum 10, .fixnum 11, .keyword 7, .fixnum 12]
    let first : List Value := [.fixnum 11, .unspecified, .fixnum 12, .keyword 7, .fixnum 12]
    let second : List Value := [.unspecified, .unspecified, .unspecified]
    let stack' : List Value := .fixnum 10 :: first
    (bind 1 3 arity table stack = .ok 5 stack' ∧
      ((∃ e, bind 1 3 arity table stack = .error (.error e) stack) ∨
        ∃ size stack', bind 1 3 arity table stack = .ok size stack' ∧ 3 ≤ size ∧
          Confined stack 1 size stack')) ∧
      Binds 9 [⟨1, first⟩, ⟨6, second⟩] (stack' ++ second) ∧
      ∀ frame ∈ [⟨1, first⟩, ⟨6, second⟩], Segment.LiesIn frame (stack' ++ second) := by
  intro arity table stack first second stack'
  have hslots : ∀ entry ∈ table.entries, entry.2 < 3 := by simp [table]
  have hfirst : bind 1 3 arity table stack = .ok 5 stack' := by cbv
  have hsecond : bind 6 0 ⟨0, 0, 3, ⟨0⟩⟩ table stack' = .ok 3 (stack' ++ second) := by cbv
  have hthird : bind 9 0 arity table (stack' ++ second) =
      .error (.error (.wrongNumberOfArgs 0 1 1)) (stack' ++ second) := by cbv
  have hrun : Binds 9 [⟨1, first⟩, ⟨6, second⟩] (stack' ++ second) := by
    refine .failedCall (.call (.call (.start stack) ?_ hslots ?_ ?_ ?_ hfirst) ?_ hslots ?_ ?_ ?_
      hsecond) ?_ hslots ?_ ?_ ?_ hthird
    all_goals decide
  refine ⟨⟨hfirst, ?_⟩, hrun, binding_confined_to_frame.2 _ _ _ hrun⟩
  exact binding_confined_to_frame.1 stack 1 3 arity table (by decide) hslots (by decide) (by decide)

end Frame

end VmSupport
