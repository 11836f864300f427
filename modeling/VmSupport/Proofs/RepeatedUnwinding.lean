import VmSupport.Proofs.Record
import VmSupport.Proofs.Unwinding

/-!
Unwinding that is interrupted and taken up again. An exit action may leave entries behind, and it
may escape; then the unwinding ends there, and another one goes on with what is left. A log tells
the entries of the beginning from those left behind, and shows that of the former none is undone
twice.
-/

namespace VmSupport

open EStateM

def Winder.exit? : Winder → Option Value
  | fluid .. => none
  | wind _ exit => some exit

def windExits (ws : List Winder) (k : Nat) : List (Nat × Value) :=
  (ws.zipIdx.drop k).reverse.filterMap fun (w, i) => w.exit?.map (i, ·)

theorem windExits_length (ws : List Winder) : windExits ws ws.length = [] := by
  rw [windExits, List.drop_eq_nil_of_le (by simp)]
  rfl

theorem windExits_succ {ws : List Winder} {k : Nat} {w : Winder} (h : ws[k]? = some w) :
    windExits ws k = windExits ws (k + 1) ++ (w.exit?.map (k, ·)).toList := by
  obtain ⟨hlt, hget⟩ := List.getElem?_eq_some_iff.mp h
  have hlt' : k < ws.zipIdx.length := by simpa using hlt
  rw [windExits, List.drop_eq_getElem_cons hlt', List.reverse_cons, List.filterMap_append,
    windExits]
  simp only [List.getElem_zipIdx, hget, Nat.zero_add]
  cases w <;> rfl

structure ExitCall where
  entry : Option Nat
  below : List Winder
  procedure : Value
  escaped : Option RuntimeError

def ExitCall.numbered? (c : ExitCall) : Option (Nat × Value) := c.entry.map (·, c.procedure)

/-- Every entry of the dynamic stack has a number, from the bottom up: those of the beginning their
place, and those left behind by actions none. -/
structure ExitLog where
  numbers : List (Option Nat)
  calls : List ExitCall

namespace ExitLog

def start (depth : Nat) : ExitLog := ⟨(List.range depth).map some, []⟩

def note (log : ExitLog) (below after : List Winder) (procedure : Value)
    (escaped : Option RuntimeError) : ExitLog where
  numbers := log.numbers.take below.length ++ List.replicate (after.length - below.length) none
  calls := log.calls ++ [⟨log.numbers[below.length]?.join, below, procedure, escaped⟩]

end ExitLog

inductive Ran : List ExitCall → Option RuntimeError → Prop
  | done : Ran [] none
  | escaped {c : ExitCall} {e : RuntimeError} (h : c.escaped = some e) : Ran [c] (some e)
  | cons {c : ExitCall} {cs : List ExitCall} {r : Option RuntimeError} (h : c.escaped = none)
    (hcs : Ran cs r) : Ran (c :: cs) r

theorem Ran.append {cs cs' : List ExitCall} {r : Option RuntimeError} (h : Ran cs none)
    (h' : Ran cs' r) : Ran (cs ++ cs') r := by
  generalize hnone : (none : Option RuntimeError) = quiet at h
  induction h with
  | done => exact h'
  | escaped he => cases hnone
  | cons hc _ ih => exact .cons hc (ih hnone)

theorem Ran.single (c : ExitCall) : Ran [c] c.escaped := by
  cases he : c.escaped with
  | none => exact .cons he .done
  | some e => exact .escaped he

namespace Machine

variable {H : Type}

def numbered (m : Machine H) : Machine (H × ExitLog) :=
  ⟨m.vm, m.context, (m.host, .start m.context.depth)⟩

def numberedInvoke (invoke : Value → Action H Unit) (v : Value) : Action (H × ExitLog) Unit := do
  let below := (← get).context.winders.toList
  let result ← attempt (beside (invoke v))
  let escaped := match result with | .ok () => none | .error e => some e
  modify fun m =>
    { m with host := (m.host.1, m.host.2.note below m.context.winders.toList v escaped) }
  resume result

inductive Retries (env : Embedder H) (target : Nat) (m : Machine H) :
    List (Option RuntimeError) → Machine H → Prop
  | start : Retries env target m [] m
  | call {rs : List (Option RuntimeError)} {r : Option RuntimeError} {m₁ m₂ : Machine H}
    (h : Retries env target m rs m₁) (hcall : Ends (unwindTo env target) m₁ r m₂) :
    Retries env target m (rs ++ [r]) m₂

/-- The action pushes entries and pops its own, and may leave some behind. -/
def Adds (op : Action H Unit) : Prop :=
  ∀ m r m', Ends op m r m' → m.context.winders.toList <+: m'.context.winders.toList

end Machine

def Embedder.numbering {H : Type} (env : Embedder H) : Embedder (H × ExitLog) :=
  ⟨env.collector.beside, Machine.numberedInvoke env.invoke, env.allowance⟩

namespace Machine

variable {H : Type} {m m' : Machine (H × ExitLog)} {ws rest : List Winder} {w : Winder}
  {k target : Nat} {r : Option RuntimeError}

/-- The entries from place `k` on are gone, and the exit of each of them was called once, from the
top down and with nothing above the entries below its own. -/
structure Numbered (ws : List Winder) (k : Nat) (m : Machine (H × ExitLog)) : Prop where
  le_length : k ≤ ws.length
  winders : ∃ others, m.context.winders.toList = ws.take k ++ others ∧
    (List.range k).map some ++ List.replicate others.length none <+: m.host.2.numbers
  exits : m.host.2.calls.filterMap ExitCall.numbered? = windExits ws k
  below : ∀ c ∈ m.host.2.calls, ∀ i, c.entry = some i → c.below = ws.take i

theorem numberedInvoke_ends {invoke : Value → Action H Unit} {v : Value}
    (h : Ends (numberedInvoke invoke v) m r m') :
    ∃ m₁, Ends (invoke v) ⟨m.vm, m.context, m.host.1⟩ r m₁ ∧
      m' = ⟨m₁.vm, m₁.context, (m₁.host, m.host.2.note m.context.winders.toList
        m₁.context.winders.toList v r)⟩ := by
  obtain ⟨vm, context, host, log⟩ := m
  simp only [Ends, numberedInvoke, bind, EStateM.bind, get, getThe, MonadStateOf.get, EStateM.get,
    attempt, beside] at h
  cases hrun : invoke v ⟨vm, context, host⟩ with
  | ok u m₁ =>
    simp only [hrun] at h
    cases r with
    | none =>
      cases h
      exact ⟨m₁, hrun, rfl⟩
    | some e => cases h
  | error exit m₁ =>
    cases exit with
    | fault f =>
      simp only [hrun] at h
      cases r <;> cases h
    | error e =>
      simp only [hrun] at h
      cases r with
      | none => cases h
      | some e' =>
        cases h
        exact ⟨m₁, hrun, rfl⟩

theorem Numbered.top (h : Numbered ws k m) (hw : m.context.winders.toList = rest ++ [w]) :
    (∃ others, rest = ws.take k ++ others ∧
      (List.range k).map some ++ List.replicate others.length none ++ [none] <+:
        m.host.2.numbers) ∨
    ∃ j, k = j + 1 ∧ rest = ws.take j ∧ ws[j]? = some w ∧
      (List.range j).map some ++ [some j] <+: m.host.2.numbers := by
  obtain ⟨hle, ⟨others, hwinders, hnumbers⟩, -, -⟩ := h
  rw [hw] at hwinders
  rcases List.eq_nil_or_concat' others with rfl | ⟨others, w', rfl⟩
  · right
    rw [List.append_nil] at hwinders
    cases k with
    | zero => simp at hwinders
    | succ j =>
      have hlt : j < ws.length := hle
      rw [List.take_succ_eq_append_getElem hlt] at hwinders
      obtain ⟨hrest, hget⟩ := List.append_inj' hwinders rfl
      refine ⟨j, rfl, hrest, ?_, ?_⟩
      · rw [List.getElem?_eq_getElem hlt]
        exact congrArg some (List.singleton_inj.mp hget).symm
      · simpa [List.range_succ] using hnumbers
  · left
    rw [← List.append_assoc] at hwinders
    obtain ⟨hrest, -⟩ := List.append_inj' hwinders rfl
    refine ⟨others, hrest, ?_⟩
    rw [List.length_append, List.length_singleton, List.replicate_succ', ← List.append_assoc]
      at hnumbers
    exact hnumbers

theorem note_eq {log : ExitLog} {numbers : List (Option Nat)} {number : Option Nat}
    {below more : List Winder} (hnumbers : numbers ++ [number] <+: log.numbers)
    (hlength : numbers.length = below.length) (procedure : Value)
    (escaped : Option RuntimeError) :
    log.note below (below ++ more) procedure escaped =
      ⟨numbers ++ List.replicate more.length none,
        log.calls ++ [⟨number, below, procedure, escaped⟩]⟩ := by
  obtain ⟨later, hlog⟩ := hnumbers
  rw [List.append_assoc, List.singleton_append] at hlog
  rw [ExitLog.note, ← hlog, ← hlength, List.take_left, List.getElem?_append_right le_rfl,
    Nat.sub_self, List.length_append, hlength, Nat.add_sub_cancel_left]
  rfl

theorem Numbered.discard (h : Numbered ws k m) (hw : m.context.winders.toList = rest ++ [w])
    (hexit : w.exit? = none) (hwinders : m'.context.winders.toList = rest)
    (hlog : m'.host.2 = m.host.2) : Numbered ws k m' ∨ ∃ j, k = j + 1 ∧ rest = ws.take j ∧
      Numbered ws j m' := by
  rcases h.top hw with ⟨others, hrest, hnumbers⟩ | ⟨j, rfl, hrest, hget, hnumbers⟩
  · refine Or.inl ⟨h.le_length, ⟨others, hwinders.trans hrest, ?_⟩, ?_, ?_⟩
    · exact hlog ▸ (List.prefix_append _ _).trans hnumbers
    · exact hlog ▸ h.exits
    · exact hlog ▸ h.below
  · refine Or.inr ⟨j, rfl, hrest, Nat.le_of_lt h.le_length, ⟨[], ?_, ?_⟩, ?_, ?_⟩
    · rw [hwinders, hrest, List.append_nil]
    · rw [hlog, List.length_nil, List.replicate_zero, List.append_nil]
      exact (List.prefix_append _ _).trans hnumbers
    · rw [hlog, h.exits, windExits_succ hget, hexit]
      exact (List.append_nil _).symm
    · exact hlog ▸ h.below

theorem Numbered.call {entry exit : Value} {more : List Winder} (h : Numbered ws k m)
    (hw : m.context.winders.toList = rest ++ [.wind entry exit])
    (hwinders : m'.context.winders.toList = rest ++ more)
    (hlog : m'.host.2 = m.host.2.note rest (rest ++ more) exit r) :
    ∃ c, m'.host.2.calls = m.host.2.calls ++ [c] ∧ c.escaped = r ∧
      (Numbered ws k m' ∨ ∃ j, k = j + 1 ∧ rest = ws.take j ∧ Numbered ws j m') := by
  rcases h.top hw with ⟨others, hrest, hnumbers⟩ | ⟨j, rfl, hrest, hget, hnumbers⟩
  · have hlength : ((List.range k).map some ++ List.replicate others.length none).length =
        rest.length := by
      rw [hrest]
      simp [h.le_length]
    rw [note_eq hnumbers hlength] at hlog
    refine ⟨⟨none, rest, exit, r⟩, by rw [hlog], rfl, Or.inl ⟨h.le_length, ?_, ?_, ?_⟩⟩
    · refine ⟨others ++ more, by rw [hwinders, hrest, List.append_assoc], ?_⟩
      rw [hlog, List.length_append, List.replicate_add, ← List.append_assoc]
    · rw [hlog, List.filterMap_append, h.exits]
      exact List.append_nil _
    · intro c hc i hi
      rw [hlog] at hc
      rcases List.mem_append.mp hc with hc | hc
      · exact h.below c hc i hi
      · cases List.mem_singleton.mp hc
        cases hi
  · have hlength : ((List.range j).map some).length = rest.length := by
      have hlt : j ≤ ws.length := Nat.le_of_lt h.le_length
      rw [hrest]
      simp [hlt]
    rw [note_eq hnumbers hlength] at hlog
    refine ⟨⟨some j, rest, exit, r⟩, by rw [hlog], rfl, Or.inr ⟨j, rfl, hrest, ?_, ?_, ?_, ?_⟩⟩
    · exact Nat.le_of_lt h.le_length
    · refine ⟨more, by rw [hwinders, hrest], ?_⟩
      rw [hlog]
    · rw [hlog, List.filterMap_append, h.exits, windExits_succ hget]
      rfl
    · intro c hc i hi
      rw [hlog] at hc
      rcases List.mem_append.mp hc with hc | hc
      · exact h.below c hc i hi
      · cases List.mem_singleton.mp hc
        cases hi
        exact hrest

variable {env : Embedder H}

theorem pop_numbered (hadds : ∀ v, Adds (env.invoke v)) (h : Numbered ws k m)
    (htarget : target ≤ k) (hdepth : target < m.context.depth)
    (hpop : Ends (pop env.numbering) m r m') :
    ∃ j calls, target ≤ j ∧ Numbered ws j m' ∧
      m'.host.2.calls = m.host.2.calls ++ calls ∧ Ran calls r := by
  obtain ⟨rest, w, hws⟩ := Array.exists_push_of_size_pos (Nat.zero_lt_of_lt hdepth)
  have hw : m.context.winders.toList = rest.toList ++ [w] := by rw [hws, Array.toList_push]
  have hplace : ∀ {j}, rest.toList = ws.take j → k = j + 1 → target ≤ j := by
    intro j hrest hk
    have hlength := congrArg List.length hrest
    rw [Array.length_toList, List.length_take] at hlength
    rw [Context.depth, hws, Array.size_push] at hdepth
    omega
  have hleft : Numbered ws k m' ∨ (∃ j, k = j + 1 ∧ rest.toList = ws.take j ∧ Numbered ws j m') →
      ∃ j, target ≤ j ∧ Numbered ws j m' := by
    rintro (hsame | ⟨j, hk, hrest, hnext⟩)
    · exact ⟨k, htarget, hsame⟩
    · exact ⟨j, hplace hrest hk, hnext⟩
  unfold Ends pop at hpop
  rw [bind_of_ok (popWinder_push hws)] at hpop
  cases w with
  | fluid fluid previous v =>
    simp only [fluidSet_apply] at hpop
    split at hpop
    · cases r with
      | some e => cases hpop
      | none =>
        cases hpop
        obtain ⟨j, hj, hnext⟩ := hleft
          (h.discard hw rfl (congrArg Array.toList (winders_setSlot _ _ _)) rfl)
        exact ⟨j, [], hj, hnext, (List.append_nil _).symm, .done⟩
    · cases r <;> cases hpop
  | wind entry exit =>
    obtain ⟨m₁, hexit, rfl⟩ := numberedInvoke_ends hpop
    obtain ⟨more, hmore⟩ := hadds exit _ _ _ hexit
    let m' : Machine (H × ExitLog) := ⟨m₁.vm, m₁.context, (m₁.host,
      m.host.2.note rest.toList m₁.context.winders.toList exit r)⟩
    have hlog : m'.host.2 = m.host.2.note rest.toList (rest.toList ++ more) exit r := by
      rw [hmore]
    obtain ⟨c, hcalls, rfl, hnumbered⟩ := Numbered.call h hw hmore.symm hlog
    obtain ⟨j, hj, hnext⟩ := hleft hnumbered
    exact ⟨j, [c], hj, hnext, hcalls, .single c⟩

/-- How one unwinding ended after the exits were called that `earlier` lists. -/
structure Unwound (ws : List Winder) (target j : Nat) (earlier : List ExitCall)
    (r : Option RuntimeError) (m : Machine (H × ExitLog)) : Prop where
  numbered : Numbered ws j m
  target_le : target ≤ j
  calls : ∃ calls, m.host.2.calls = earlier ++ calls ∧ Ran calls r
  done : r = none → j = target ∧ m.context.winders.toList = ws.take target

theorem Numbered.le_depth (h : Numbered ws k m) : k ≤ m.context.depth := by
  obtain ⟨others, hwinders, -⟩ := h.winders
  have hlength := congrArg List.length hwinders
  rw [List.length_append, List.length_take_of_le h.le_length, Array.length_toList] at hlength
  rw [Context.depth]
  omega

theorem Numbered.unwound (h : Numbered ws k m) (htarget : target ≤ k)
    (hdepth : m.context.depth ≤ target) :
    Unwound ws target k m.host.2.calls none m := by
  obtain rfl : k = target := Nat.le_antisymm (h.le_depth.trans hdepth) htarget
  refine ⟨h, le_rfl, ⟨[], (List.append_nil _).symm, .done⟩, fun _ => ⟨rfl, ?_⟩⟩
  obtain ⟨others, hwinders, -⟩ := h.winders
  have hlength := congrArg List.length hwinders
  rw [List.length_append, List.length_take_of_le h.le_length, Array.length_toList] at hlength
  rw [Context.depth] at hdepth
  obtain rfl : others = [] := List.length_eq_zero_iff.mp (by omega)
  rw [hwinders, List.append_nil]

theorem popTo_numbered (hadds : ∀ v, Adds (env.invoke v)) {n : Nat} (h : Numbered ws k m)
    (htarget : target ≤ k) (hrun : Ends (popTo env.numbering target n) m r m') :
    ∃ j, Unwound ws target j m.host.2.calls r m' := by
  induction n generalizing m k with
  | zero =>
    rcases Nat.lt_or_ge target m.context.depth with hdepth | hdepth
    · rw [Ends, popTo_zero_of_lt_depth hdepth] at hrun
      cases r <;> cases hrun
    · rw [Ends, popTo_of_depth_le hdepth] at hrun
      cases r <;> cases hrun
      exact ⟨k, h.unwound htarget hdepth⟩
  | succ n ih =>
    rcases Nat.lt_or_ge target m.context.depth with hdepth | hdepth
    · rw [Ends, popTo_of_lt_depth hdepth] at hrun
      rcases Ends.bind_cases hrun with ⟨u, m₁, hpop, hrest⟩ | ⟨e, rfl, hpop⟩
      · obtain ⟨j₁, calls₁, htarget₁, h₁, hcalls₁, hran₁⟩ :=
          pop_numbered (r := none) hadds h htarget hdepth hpop
        obtain ⟨j, hnext, hj, ⟨calls, hcalls, hran⟩, hdone⟩ := ih h₁ htarget₁ hrest
        refine ⟨j, hnext, hj, ⟨calls₁ ++ calls, ?_, hran₁.append hran⟩, hdone⟩
        rw [hcalls, hcalls₁, List.append_assoc]
      · obtain ⟨j, calls, hj, hnext, hcalls, hran⟩ :=
          pop_numbered (r := some e) hadds h htarget hdepth hpop
        exact ⟨j, hnext, hj, ⟨calls, hcalls, hran⟩, by simp⟩
    · rw [Ends, popTo_of_depth_le hdepth] at hrun
      cases r <;> cases hrun
      exact ⟨k, h.unwound htarget hdepth⟩

theorem unwindTo_numbered (hadds : ∀ v, Adds (env.invoke v)) (h : Numbered ws k m)
    (htarget : target ≤ k) (hrun : Ends (unwindTo env.numbering target) m r m') :
    ∃ j, Unwound ws target j m.host.2.calls r m' := by
  rw [Ends, unwindTo_of_le (htarget.trans h.le_depth)] at hrun
  have hnoted := Numbered.mk (m := { m with vm := { m.vm with
    heap := m.vm.heap.note (.unwinding m.context.depth target) } })
    h.le_length h.winders h.exits h.below
  obtain ⟨j, hunwound⟩ := popTo_numbered hadds hnoted htarget hrun
  exact ⟨j, hunwound⟩

theorem numbered_start (m : Machine H) :
    Numbered m.context.winders.toList m.context.depth m.numbered where
  le_length := Nat.le_of_eq Array.length_toList.symm
  winders := by
    refine ⟨[], ?_, ?_⟩
    · rw [List.append_nil, Context.depth, ← Array.length_toList, List.take_length]
      rfl
    · exact List.append_nil _ ▸ List.prefix_rfl
  exits := by
    rw [Context.depth, ← Array.length_toList, windExits_length]
    rfl
  below := nofun

theorem Retries.numbered {m : Machine H} {m' : Machine (H × ExitLog)}
    {rs : List (Option RuntimeError)} (hadds : ∀ v, Adds (env.invoke v))
    (htarget : target ≤ m.context.depth) (h : Retries env.numbering target m.numbered rs m') :
    ∃ k, target ≤ k ∧ Numbered m.context.winders.toList k m' := by
  induction h with
  | start => exact ⟨m.context.depth, htarget, numbered_start m⟩
  | call _ hcall ih =>
    obtain ⟨k, hk, hnumbered⟩ := ih
    obtain ⟨j, hunwound⟩ := unwindTo_numbered hadds hnumbered hk hcall
    exact ⟨j, hunwound.target_le, hunwound.numbered⟩

theorem Erases.ends_iff {op : Action (H × ExitLog) Unit} {op' : Action H Unit}
    (h : Erases op op') {m₁ : Machine H} :
    Ends op' m.unrecorded r m₁ ↔ ∃ m', m'.unrecorded = m₁ ∧ Ends op m r m' := by
  have hagree := h m m.unrecorded rfl
  simp only [Ends]
  constructor
  · intro hends
    rw [hends] at hagree
    rcases hagree.cases with ⟨u, m', m₂, hop, hout, hm⟩ | ⟨e, m', m₂, hop, hout, hm⟩
    · cases r <;> cases hout
      exact ⟨m', hm, hop⟩
    · cases r <;> cases hout
      exact ⟨m', hm, hop⟩
  · rintro ⟨m', rfl, hends⟩
    rw [hends] at hagree
    rcases hagree.cases with ⟨u, m₂, m₁, hout, hop, hm⟩ | ⟨e, m₂, m₁, hout, hop, hm⟩
    · cases r <;> cases hout
      exact hm ▸ hop
    · cases r <;> cases hout
      exact hm ▸ hop

theorem erases_numberedInvoke (invoke : Value → Action H Unit) (v : Value) :
    Erases (numberedInvoke invoke v) (invoke v) := by
  apply Erases.of_apply
  rintro ⟨vm, context, host, log⟩
  simp only [numberedInvoke, bind, EStateM.bind, get, getThe, MonadStateOf.get, EStateM.get,
    attempt, beside, unrecorded]
  cases invoke v ⟨vm, context, host⟩ with
  | ok u m₁ => exact ⟨rfl, rfl⟩
  | error exit m₁ => cases exit <;> exact ⟨rfl, rfl⟩

theorem retries_numbering {m m₁ : Machine H} {rs : List (Option RuntimeError)} :
    Retries env target m rs m₁ ↔
      ∃ m', m'.unrecorded = m₁ ∧ Retries env.numbering target m.numbered rs m' := by
  have herases : Erases (unwindTo env.numbering target) (unwindTo env target) :=
    Erases.unwindTo (erases_numberedInvoke env.invoke) rfl target
  constructor
  · intro h
    induction h with
    | start => exact ⟨m.numbered, rfl, .start⟩
    | call _ hcall ih =>
      obtain ⟨m', rfl, hretries⟩ := ih
      obtain ⟨m₂, rfl, hcall'⟩ := herases.ends_iff.mp hcall
      exact ⟨m₂, rfl, hretries.call hcall'⟩
  · rintro ⟨m', rfl, h⟩
    induction h with
    | start => exact .start
    | call _ hcall ih => exact ih.call (herases.ends_iff.mpr ⟨_, rfl, hcall⟩)

/-- However many unwindings to one depth came before and escaped, and whatever the exit actions
left behind: each exit is called once, from the top down. -/
theorem unwinding_calls_each_exit_once (env : Embedder H) (hadds : ∀ v, Adds (env.invoke v))
    (m : Machine H) {target : Nat} (htarget : target ≤ m.context.depth) :
    (∀ rs m₁, Retries env target m rs m₁ ↔
      ∃ m', m'.unrecorded = m₁ ∧ Retries env.numbering target m.numbered rs m') ∧
    ∀ rs r m₁ m₂, Retries env.numbering target m.numbered rs m₁ →
      Ends (unwindTo env.numbering target) m₁ r m₂ →
        ∃ j, Unwound m.context.winders.toList target j m₁.host.2.calls r m₂ := by
  refine ⟨fun _ _ => retries_numbering, fun rs r m₁ m₂ hretries hcall => ?_⟩
  obtain ⟨k, hk, hnumbered⟩ := hretries.numbered hadds htarget
  exact unwindTo_numbered hadds hnumbered hk hcall

theorem unwinding_calls_each_exit_once_interrupted :
    let env : Embedder Unit := ⟨.none, fun v => if v = .fixnum 2 then do
      pushWinder (.wind .nil (.fixnum 8))
      escape (.notApplicable v) else pure (), 0⟩
    let ws : List Winder := [.wind .nil (.fixnum 1), .fluid ⟨0⟩ .nil .nil,
      .wind .nil (.fixnum 2), .wind .nil (.fixnum 3)]
    let m : Machine Unit := ⟨{ (default : Vm) with fluids := ⟨#[.nil]⟩ },
      { (default : Context) with winders := ⟨ws⟩ }, ()⟩
    (∀ v, Adds (env.invoke v)) ∧ 0 ≤ m.context.depth ∧ ∃ m₁ m₂,
      Retries env.numbering 0 m.numbered [some (.notApplicable (.fixnum 2))] m₁ ∧
      Ends (unwindTo env.numbering 0) m₁ none m₂ ∧
      m₁.host.2.calls.filterMap ExitCall.numbered? = [(3, .fixnum 3), (2, .fixnum 2)] ∧
      m₂.host.2.calls.map ExitCall.procedure =
        [.fixnum 3, .fixnum 2, .fixnum 8, .fixnum 1] ∧
      ∃ j, Unwound ws 0 j m₁.host.2.calls none m₂ := by
  intro env ws m
  have hadds : ∀ v, Adds (env.invoke v) := by
    intro v m r m' h
    by_cases hv : v = .fixnum 2
    · simp only [env, Ends, hv, ↓reduceIte] at h
      cases r <;> cases h
      exact ⟨[.wind .nil (.fixnum 8)], Array.toList_push.symm⟩
    · simp only [env, Ends, hv, ↓reduceIte] at h
      cases r <;> cases h
      exact List.prefix_rfl
  let m₁ := (unwindTo env.numbering 0 m.numbered).state
  let m₂ := (unwindTo env.numbering 0 m₁).state
  have hescaped : Ends (unwindTo env.numbering 0) m.numbered
    (some (.notApplicable (.fixnum 2))) m₁ := by rfl
  have hdone : Ends (unwindTo env.numbering 0) m₁ none m₂ := by rfl
  have hcalls₁ : m₁.host.2.calls.filterMap ExitCall.numbered? =
      [(3, .fixnum 3), (2, .fixnum 2)] := by decide +kernel
  have hcalls₂ : m₂.host.2.calls.map ExitCall.procedure =
      [.fixnum 3, .fixnum 2, .fixnum 8, .fixnum 1] := by decide +kernel
  have hretries := Retries.start.call hescaped
  have hexits := (unwinding_calls_each_exit_once env hadds m (Nat.zero_le _)).2
  exact ⟨hadds, Nat.zero_le _, m₁, m₂, hretries, hdone, hcalls₁, hcalls₂,
    hexits _ _ _ _ hretries hdone⟩

end Machine

end VmSupport
