import VmSupport.Proofs.Supplies
import VmSupport.Stress

/-!
Threads that work on one machine, a part of one of them at a time and in any order. Where each
thread on its own keeps to the terms, the machine is shared soundly at every point of every
schedule, and the calls are those of the threads together. The stress program, which lets one thread
after the other do its work, follows one of these schedules.
-/

namespace VmSupport

namespace Stress

inductive Worker (α : Type) : Type 1
  | waiting
  | working (context : Context) (rest : Part α)
  | ended (result : α)

namespace Worker

variable {α : Type}

def context? : Worker α → Option Context
  | working c _ => some c
  | _ => none

def result? : Worker α → Option α
  | ended a => some a
  | _ => none

end Worker

structure Crew (α : Type) : Type 1 where
  vm : Vm
  calls : Calls
  workers : List (Worker α)

namespace Crew

variable {α : Type}

def start (vm : Vm) (threads : Nat) : Crew α := ⟨vm, 0, List.replicate threads .waiting⟩

def results (s : Crew α) : List α := s.workers.filterMap Worker.result?

def step (body : Part α) (i : Nat) (s : Crew α) : Except (Nat × Exit RuntimeError) (Crew α) :=
  match s.workers[i]? with
  | none | some (.ended _) => .ok s
  | some .waiting =>
    match s.vm.openContext with
    | .ok (c, vm) => .ok { s with vm, workers := s.workers.set i (.working c body) }
    | .error f => .error (i, .fault f)
  | some (.working c (.done a)) =>
    .ok { s with vm := s.vm.closeContext c, workers := s.workers.set i (.ended a) }
  | some (.working c (.part op next)) =>
    match op ⟨s.vm, c, s.calls⟩ with
    | .ok b ⟨vm, c, calls⟩ => .ok ⟨vm, calls, s.workers.set i (.working c (next b))⟩
    | .error e _ => .error (i, e)

def run (body : Part α) : List Nat → Crew α → Except (Nat × Exit RuntimeError) (Crew α)
  | [], s => .ok s
  | i :: is, s =>
    match s.step body i with
    | .ok s => run body is s
    | .error e => .error e

end Crew

def Worker.IsOnTrack {α : Type} (h : Heap) (post : α → Nat → Prop) (vm : Vm) (calls : Calls) :
    Worker α → Nat → Prop
  | waiting, n => n = 0
  | working c rest, n =>
    rest.Meets (Company.others h).terms (fun a n _ => post a n) n ⟨vm, c, calls⟩
  | ended a, n => post a n

variable {α : Type} {h : Heap} {post : α → Nat → Prop} {body : Part α} {s : Crew α}
  {vm vm' : Vm} {calls calls' n n' : Nat} {w w' : Worker α} {shares : List (Worker α × Nat)}

theorem Worker.IsOnTrack.undisturbed (hw : w.IsOnTrack h post vm calls n)
    (hu : ∀ c ∈ w.context?, Vm.Undisturbed h c vm vm') : w.IsOnTrack h post vm' calls' n := by
  cases w with
  | waiting => exact hw
  | working c rest => exact hw.rely ⟨rfl, hu c rfl⟩
  | ended a => exact hw

theorem Worker.IsOnTrack.of_result? (hw : w.IsOnTrack h post vm calls n) {a : α}
    (ha : w.result? = some a) : post a n := by
  cases w with
  | ended b =>
    cases ha
    exact hw
  | waiting => contradiction
  | working c rest => contradiction

namespace Crew

def openContexts (shares : List (Worker α × Nat)) : List Context :=
  shares.filterMap fun p => p.1.context?

/-- The open contexts share the machine, and each thread is on its track; `shares` says how many of
the calls each of the threads made. -/
structure Sound (h : Heap) (post : α → Nat → Prop) (s : Crew α) (shares : List (Worker α × Nat)) :
    Prop where
  workers_eq : s.workers = shares.map Prod.fst
  calls_eq : s.calls = (shares.map Prod.snd).sum
  contexts : s.vm.HasContexts h (openContexts shares)
  onTrack : ∀ p ∈ shares, p.1.IsOnTrack h post s.vm s.calls p.2

theorem Sound.start (hs : vm.HasContexts h []) (threads : Nat) :
    (start vm threads).Sound h post (List.replicate threads (.waiting, 0)) := by
  have hnone : openContexts (List.replicate threads ((.waiting : Worker α), 0)) = [] := by
    simp [openContexts, Worker.context?]
  refine ⟨?_, ?_, ?_, ?_⟩
  · rw [List.map_replicate]
    rfl
  · rw [List.map_replicate, List.sum_replicate]
    rfl
  · rw [hnone]
    exact hs
  · intro p hp
    rw [List.eq_of_mem_replicate hp]
    rfl

variable {front back : List (Worker α × Nat)}

theorem openContexts_perm (front back : List (Worker α × Nat)) (w : Worker α) (n : Nat) :
    (openContexts (front ++ (w, n) :: back)).Perm
      (w.context?.toList ++ openContexts (front ++ back)) := by
  have hmiddle : ((w, n) :: (front ++ back)).Perm (front ++ (w, n) :: back) :=
    List.perm_middle.symm
  refine (hmiddle.filterMap _).symm.trans (.of_eq ?_)
  cases w <;> rfl

theorem Sound.replace (hs : s.Sound h post (front ++ (w, n) :: back))
    (hcontexts : vm'.HasContexts h (w'.context?.toList ++ openContexts (front ++ back)))
    (hu : ∀ c ∈ openContexts (front ++ back), Vm.Undisturbed h c s.vm vm')
    (hcalls : calls' + n = s.calls + n') (hw : w'.IsOnTrack h post vm' calls' n') :
    (Crew.mk vm' calls' (s.workers.set front.length w')).Sound h post
      (front ++ (w', n') :: back) := by
  refine ⟨?_, ?_, hcontexts.perm (openContexts_perm front back w' n'), fun p hp => ?_⟩
  · rw [hs.workers_eq]
    simp
  · have hsum := hs.calls_eq
    simp only [List.map_append, List.map_cons, List.sum_append, List.sum_cons] at hsum ⊢
    rw [hsum] at hcalls
    -- the calls are numbers to `omega` only where their type says so
    change calls' = _
    omega
  · have hothers : ∀ p ∈ front ++ back, p.1.IsOnTrack h post vm' calls' p.2 := by
      intro p hp
      have hmem : p ∈ front ++ (w, n) :: back :=
        List.perm_middle.symm.subset (List.mem_cons_of_mem _ hp)
      exact (hs.onTrack p hmem).undisturbed fun c hc => hu c (List.mem_filterMap.mpr ⟨p, hp, hc⟩)
    rcases List.mem_cons.mp (List.perm_middle.subset hp) with rfl | hp
    · exact hw
    · exact hothers p hp

theorem Sound.split (hs : s.Sound h post shares) {i : Nat} (hw : s.workers[i]? = some w) :
    ∃ front n back, shares = front ++ (w, n) :: back ∧ front.length = i := by
  rw [hs.workers_eq, List.getElem?_map] at hw
  obtain ⟨⟨w, n⟩, hp, rfl⟩ := Option.map_eq_some_iff.mp hw
  obtain ⟨hlt, hget⟩ := List.getElem?_eq_some_iff.mp hp
  refine ⟨shares.take i, n, shares.drop (i + 1), ?_, List.length_take_of_le (Nat.le_of_lt hlt)⟩
  rw [← hget, List.getElem_cons_drop, List.take_append_drop]

theorem Sound.contexts_cons (hs : s.Sound h post (front ++ (w, n) :: back)) :
    s.vm.HasContexts h (w.context?.toList ++ openContexts (front ++ back)) :=
  hs.contexts.perm (openContexts_perm front back w n).symm

theorem Sound.onTrack_self (hs : s.Sound h post (front ++ (w, n) :: back)) :
    w.IsOnTrack h post s.vm s.calls n :=
  hs.onTrack (w, n) (List.mem_append_right _ List.mem_cons_self)

theorem Sound.part {β : Type} {op : Action β} {next : β → Part α} {c : Context}
    (hs : s.Sound h post (front ++ (.working c (.part op next), n) :: back)) :
    match op ⟨s.vm, c, s.calls⟩ with
    | .ok b m => ∃ n', (Crew.mk m.vm m.host
        (s.workers.set front.length (.working m.context (next b)))).Sound h post
          (front ++ (.working m.context (next b), n') :: back)
    | .error e _ => (Company.others h).excuses e := by
  have hop := hs.onTrack_self ⟨s.vm, c, s.calls⟩ ((Company.others h).rely_refl _)
  cases hr : op ⟨s.vm, c, s.calls⟩ with
  | error e m =>
    rw [hr] at hop
    exact hop
  | ok b m =>
    rw [hr] at hop
    obtain ⟨⟨hcourteous, hle⟩, hnext⟩ := hop
    obtain ⟨hshared, hu⟩ := hcourteous _ hs.contexts_cons
    refine ⟨_, hs.replace hshared hu ?_ hnext⟩
    have hcalls : s.calls + (m.host - s.calls) = m.host := Nat.add_sub_cancel' hle
    change m.host + n = s.calls + (n + (m.host - s.calls))
    rw [Nat.add_left_comm, hcalls, Nat.add_comm]

theorem Sound.step (hs : s.Sound h post shares)
    (hbody : ∀ m : Machine Calls, m.Seated h → m.context.stack = #[] →
      body.Meets (Company.others h).terms (fun a n _ => post a n) 0 m) (i : Nat) :
    match s.step body i with
    | .ok s' => ∃ shares', s'.Sound h post shares' ∧ shares'.length = shares.length
    | .error (_, e) => (Company.others h).excuses e := by
  cases hi : s.workers[i]? with
  | none =>
    simp only [Crew.step, hi]
    exact ⟨shares, hs, rfl⟩
  | some w =>
    obtain ⟨front, n, back, rfl, rfl⟩ := hs.split hi
    have hw := hs.onTrack_self
    cases w with
    | waiting =>
      obtain ⟨c, vm, hopen⟩ := hs.contexts.exists_openContext
      obtain ⟨-, rfl, -⟩ := Vm.openContext_eq_ok hopen
      simp only [Crew.step, hi, hopen]
      obtain ⟨hopened, hu⟩ := Vm.openContext_shared hs.contexts_cons hopen
      obtain rfl : n = 0 := hw
      refine ⟨_, hs.replace hopened hu rfl (hbody _ ?_ rfl), by simp⟩
      exact ⟨hopened.region, hopened.seated _ List.mem_cons_self⟩
    | working c rest =>
      cases rest with
      | done a =>
        simp only [Crew.step, hi]
        obtain ⟨hclosed, hu⟩ := Vm.closeContext_shared hs.contexts_cons
        have hmeets : (Strand.done a : Part α).Meets (Company.others h).terms
          (fun a n _ => post a n) n ⟨s.vm, c, s.calls⟩ := hw
        have hended : (Worker.ended a).IsOnTrack h post (s.vm.closeContext c) s.calls n :=
          hmeets.done
        exact ⟨_, hs.replace hclosed hu rfl hended, by simp⟩
      | part op next =>
        have hpart := hs.part
        simp only [Crew.step, hi]
        cases hr : op ⟨s.vm, c, s.calls⟩ with
        | error e m =>
          rw [hr] at hpart
          exact hpart
        | ok b m =>
          rw [hr] at hpart
          obtain ⟨n', hs'⟩ := hpart
          exact ⟨_, hs', by simp⟩
    | ended a =>
      simp only [Crew.step, hi]
      exact ⟨_, hs, rfl⟩

theorem Sound.run (hs : s.Sound h post shares)
    (hbody : ∀ m : Machine Calls, m.Seated h → m.context.stack = #[] →
      body.Meets (Company.others h).terms (fun a n _ => post a n) 0 m) (is : List Nat) :
    match s.run body is with
    | .ok s' => ∃ shares', s'.Sound h post shares' ∧ shares'.length = shares.length
    | .error (_, e) => (Company.others h).excuses e := by
  induction is generalizing s shares with
  | nil => exact ⟨shares, hs, rfl⟩
  | cons i is ih =>
    have hstep := hs.step hbody i
    unfold Crew.run
    cases hr : s.step body i with
    | error e =>
      rw [hr] at hstep
      exact hstep
    | ok s' =>
      rw [hr] at hstep
      obtain ⟨shares', hs', hlength⟩ := hstep
      rw [← hlength]
      exact ih hs'

theorem Sound.exists_of_mem_results (hs : s.Sound h post shares) {a : α} (ha : a ∈ s.results) :
    ∃ n, post a n := by
  obtain ⟨w, hw, hresult⟩ := List.mem_filterMap.mp ha
  rw [hs.workers_eq] at hw
  obtain ⟨p, hp, rfl⟩ := List.mem_map.mp hw
  exact ⟨p.2, (hs.onTrack p hp).of_result? hresult⟩

def IsOver (s : Crew α) : Prop := ∀ w ∈ s.workers, w.result?.isSome

theorem run_append (is js : List Nat) (s : Crew α) :
    s.run body (is ++ js) = match s.run body is with
      | .ok s' => s'.run body js
      | .error e => .error e := by
  induction is generalizing s with
  | nil => rfl
  | cons i is ih =>
    simp only [List.cons_append, run]
    cases s.step body i with
    | ok s' => exact ih s'
    | error e => rfl

theorem exists_run_working {i : Nat} {c : Context} {t : Part α} {s : Crew α}
    (hi : s.workers[i]? = some (.working c t)) :
    ∃ is, s.run body is = match t.run ⟨s.vm, c, s.calls⟩ with
      | .ok a ⟨vm, c, calls⟩ =>
        .ok ⟨vm.closeContext c, calls, s.workers.set i (.ended a)⟩
      | .error e _ => .error (i, e) := by
  obtain ⟨hlt, -⟩ := List.getElem?_eq_some_iff.mp hi
  induction t generalizing s c with
  | done a =>
    refine ⟨[i], ?_⟩
    simp only [run, step, hi]
    rfl
  | part op next ih =>
    have hstep : s.step body i = match op ⟨s.vm, c, s.calls⟩ with
        | .ok b ⟨vm, c, calls⟩ => .ok ⟨vm, calls, s.workers.set i (.working c (next b))⟩
        | .error e _ => .error (i, e) := by
      simp only [step, hi]
    cases hop : op ⟨s.vm, c, s.calls⟩ with
    | error e m =>
      refine ⟨[i], ?_⟩
      rw [Strand.run, EStateM.bind_of_error hop]
      simp only [run, hstep, hop]
    | ok b m =>
      obtain ⟨vm, c', calls⟩ := m
      let s' : Crew α := ⟨vm, calls, s.workers.set i (.working c' (next b))⟩
      have hi' : s'.workers[i]? = some (.working c' (next b)) := List.getElem?_set_self hlt
      obtain ⟨is, his⟩ := ih b hi' (by simpa [s'] using hlt)
      refine ⟨i :: is, ?_⟩
      rw [Strand.run, EStateM.bind_of_ok hop]
      simp only [run, hstep, hop]
      rw [his]
      simp only [s', List.set_set]

end Crew

section Sequence

variable {s : Crew (Summary × List Turn)}

def Crew.total (s : Crew (Summary × List Turn)) : Summary :=
  (s.results.map Prod.fst).foldl Summary.add {}

def Crew.outcome : Except (Nat × Exit RuntimeError) (Crew (Summary × List Turn)) →
    Except Failure (Vm × Calls × Summary)
  | .ok s => .ok (s.vm, s.calls, s.total)
  | .error (i, .error e) => .error (.failed i e)
  | .error (i, .fault _) => .error (.brokeOff i)

theorem Crew.total_eq {front : List (Worker (Summary × List Turn))} {n : Nat}
    (hs : s.workers = front ++ List.replicate n .waiting) :
    s.total = ((front.filterMap Worker.result?).map Prod.fst).foldl Summary.add {} := by
  rw [total, results, hs, List.filterMap_append, List.filterMap_replicate_of_none rfl,
    List.append_nil]

theorem exists_run_eq_runThreads (body : Part (Summary × List Turn))
    {front : List (Worker (Summary × List Turn))} {n : Nat} (hfront : ∀ w ∈ front, w.result?.isSome)
    (hs : s.workers = front ++ List.replicate n .waiting) :
    ∃ is, runThreads (body.run >>= fun r => pure r.1) n front.length s.vm s.calls s.total =
        Crew.outcome (s.run body is) ∧
      ∀ s', s.run body is = .ok s' → s'.IsOver := by
  induction n generalizing s front with
  | zero =>
    refine ⟨[], rfl, ?_⟩
    rintro s' hs'
    cases hs'
    rw [Crew.IsOver, hs, List.replicate_zero, List.append_nil]
    exact hfront
  | succ n ih =>
    have hi : s.workers[front.length]? = some .waiting := by
      rw [hs, List.getElem?_append_right (Nat.le_refl _), Nat.sub_self]
      rfl
    obtain ⟨hlt, -⟩ := List.getElem?_eq_some_iff.mp hi
    -- the threads in front have ended, and the next one now opens its context and works to its end
    cases hopen : s.vm.openContext with
    | error f =>
      refine ⟨[front.length], ?_, ?_⟩
      · simp only [runThreads, hopen, Crew.run, Crew.step, hi]
        rfl
      · simp [Crew.run, Crew.step, hi, hopen]
    | ok p =>
      obtain ⟨c, vm⟩ := p
      let s₁ : Crew (Summary × List Turn) :=
        { s with vm, workers := s.workers.set front.length (.working c body) }
      have hstart : s.step body front.length = .ok s₁ := by
        simp only [Crew.step, hi, hopen, s₁]
      have hi₁ : s₁.workers[front.length]? = some (.working c body) := List.getElem?_set_self hlt
      obtain ⟨is, his⟩ : ∃ is, s₁.run body is = _ := Crew.exists_run_working hi₁
      have hrun : s.run body (front.length :: is) = s₁.run body is := by
        simp only [Crew.run, hstart]
      simp only [runThreads, hopen]
      cases hr : body.run ⟨vm, c, s.calls⟩ with
      | error e m =>
        refine ⟨front.length :: is, ?_⟩
        rw [EStateM.bind_of_error hr, hrun, his]
        simp only [s₁, hr]
        cases e with
        | error e => exact ⟨rfl, nofun⟩
        | fault f => exact ⟨rfl, nofun⟩
      | ok r m =>
        obtain ⟨vm', c', calls⟩ := m
        let s₂ : Crew (Summary × List Turn) :=
          ⟨vm'.closeContext c', calls, s.workers.set front.length (.ended r)⟩
        have hdone : s₁.run body is = .ok s₂ := by
          rw [his]
          simp only [s₁, s₂, hr, List.set_set]
        have hs₂ : s₂.workers = front ++ [.ended r] ++ List.replicate n .waiting := by
          simp [s₂, hs, List.replicate_succ]
        have hfront₂ : ∀ w ∈ front ++ [.ended r], w.result?.isSome :=
          List.forall_mem_append.mpr ⟨hfront, List.forall_mem_singleton.mpr rfl⟩
        have htotal : s₂.total = s.total.add r.1 := by
          rw [Crew.total_eq hs₂, Crew.total_eq hs]
          simp [Worker.result?]
        obtain ⟨js, hrest, hover⟩ := ih hfront₂ hs₂
        refine ⟨front.length :: (is ++ js), ?_⟩
        have hall : s.run body (front.length :: (is ++ js)) = s₂.run body js := by
          simp only [Crew.run, hstart]
          rw [Crew.run_append, hdone]
        rw [hall, EStateM.bind_of_ok hr]
        refine ⟨?_, hover⟩
        rw [← hrest, htotal, List.length_append]
        rfl

end Sequence

end Stress

end VmSupport
