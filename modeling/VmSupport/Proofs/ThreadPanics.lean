import VmSupport.Proofs.AmpleBlocks
import VmSupport.Stress

namespace VmSupport

namespace Stress

open Machine

inductive Arrives (body : Action Summary) (vm : Vm) : (i : Nat) → Vm → Calls → Prop
  | start : Arrives body vm 0 vm 0
  | next {i : Nat} {vm₁ vm₂ : Vm} {calls : Calls} {c : Context} {done : Summary}
    {m : Machine Calls} (h : Arrives body vm i vm₁ calls)
    (hopen : vm₁.openContext = .ok (c, vm₂)) (hbody : body ⟨vm₂, c, calls⟩ = .ok done m) :
    Arrives body vm (i + 1) (m.vm.closeContext m.context) m.host

def Panics (body : Action Summary) (vm : Vm) (i : Nat) : Prop :=
  ∃ vm₁ calls c vm₂ f m, Arrives body vm i vm₁ calls ∧ vm₁.openContext = .ok (c, vm₂) ∧
    body ⟨vm₂, c, calls⟩ = .error (.fault f) m

variable {body : Action Summary} {vm vm' : Vm} {calls : Calls} {i j k n : Nat} {total : Summary}

theorem Arrives.runThreads_eq (h : Arrives body vm i vm' calls) (k : Nat) (total : Summary) :
    ∃ total', runThreads body (i + k) 0 vm 0 total = runThreads body k i vm' calls total' := by
  induction h generalizing k with
  | start => exact ⟨total, by rw [Nat.zero_add]⟩
  | @next i vm₁ vm₂ calls c done m h hopen hbody ih =>
    obtain ⟨total', heq⟩ := ih (k + 1)
    obtain ⟨vm₃, c', calls'⟩ := m
    refine ⟨total'.add done, ?_⟩
    rw [Nat.add_assoc, Nat.add_comm 1, heq, runThreads]
    simp only [hopen, hbody]

theorem Panics.runThreads_eq (h : Panics body vm i) (hlt : i < n) (total : Summary) :
    runThreads body n 0 vm 0 total = .error (.brokeOff i) := by
  obtain ⟨vm₁, calls, c, vm₂, f, m, harrives, hopen, hbody⟩ := h
  obtain ⟨k, rfl⟩ := Nat.exists_eq_add_of_lt hlt
  obtain ⟨total', heq⟩ := harrives.runThreads_eq (k + 1) total
  rw [Nat.add_assoc, heq, runThreads]
  simp only [hopen, hbody]

theorem Arrives.panics_of_error
    (hopens : ∀ {i vm' calls}, Arrives body vm i vm' calls →
      ∃ c vm'', vm'.openContext = .ok (c, vm''))
    (h : Arrives body vm i vm' calls)
    (herror : runThreads body k i vm' calls total = .error (.brokeOff j)) :
    j < i + k ∧ Panics body vm j := by
  induction k generalizing i vm' calls total with
  | zero => contradiction
  | succ k ih =>
    obtain ⟨c, vm₂, hopen⟩ := hopens h
    rw [runThreads, hopen] at herror
    simp only at herror
    cases hbody : body ⟨vm₂, c, calls⟩ with
    | ok done m =>
      obtain ⟨vm₃, c', calls'⟩ := m
      simp only [hbody] at herror
      have hrest := ih (h.next hopen hbody) herror
      rwa [Nat.add_assoc, Nat.add_comm 1] at hrest
    | error e m =>
      cases e with
      | error e =>
        simp only [hbody, Except.error.injEq, reduceCtorEq] at herror
      | fault f =>
        simp only [hbody, Except.error.injEq, Failure.brokeOff.injEq] at herror
        subst herror
        exact ⟨Nat.lt_add_of_pos_right k.succ_pos, _, _, _, _, f, m, h, hopen, hbody⟩

section Work

variable {h : Heap} {env : Embedder Calls} {count depth : Nat} (hc : env.collector.IsGentle)
  (henv : env.invoke = applyCounted)

include hc henv

theorem Arrives.hasContexts (hsmall : 32 < h.settings.largeSize) (hend : h.regionEnd ≤ 2 ^ 64)
    (hstart : vm.HasContexts h []) (harrives : Arrives (work env count depth) vm i vm' calls) :
    vm'.HasContexts h [] := by
  induction harrives with
  | start => exact hstart
  | @next i vm₁ vm₂ calls c done m h' hopen hbody ih =>
    obtain ⟨-, rfl, -⟩ := Vm.openContext_eq_ok hopen
    obtain ⟨hopened, -⟩ := Vm.openContext_shared ih hopen
    let start : Machine Calls := ⟨vm₂, ⟨vm₁.threads.size, .new, #[], #[], #[]⟩, calls⟩
    have hseated : start.Seated h := ⟨hopened.region, hopened.seated _ List.mem_cons_self⟩
    have hserves := work_serves (S := Supply.shared hc hsmall hend depth) hc henv
      (Company.others_covers h depth 0) 0 count
    have hrun := (hserves.meets 0 start ⟨⟨rfl, hseated, rfl⟩, trivial⟩).run
    rw [← Part.run_work] at hbody
    cases hr : (Part.work env count depth).run start with
    | error e m' =>
      rw [EStateM.bind_of_error hr] at hbody
      contradiction
    | ok r m' =>
      rw [hr] at hrun
      rw [EStateM.bind_of_ok hr] at hbody
      cases hbody
      exact (Vm.closeContext_shared (hrun.1.1 [] hopened).1).1

theorem not_panics_of_ample (hsuits : Suits h depth) {threads : Nat} (hstart : vm.HasContexts h [])
    (hblocks : threads * (count * (requestSizes depth).length) ≤ vm.heap.free.length)
    (hbytes : count * (requestSizes depth).sum < 1 <<< 64) (hi : i < threads) :
    ¬Panics (work env count depth) vm i := by
  let share := count * (requestSizes depth).length
  have hstep : ∀ {i}, i < threads → (threads - i) * share = share + (threads - (i + 1)) * share := by
    intro i hi
    have hmore : threads - i = threads - (i + 1) + 1 := by omega
    rw [hmore, Nat.succ_mul, Nat.add_comm]
  have hleft : ∀ {i vm₁ calls}, Arrives (work env count depth) vm i vm₁ calls → i ≤ threads →
      vm₁.HasContexts h [] ∧ (threads - i) * share ≤ vm₁.heap.free.length := by
    intro i vm₁ calls harrives
    induction harrives with
    | start => exact fun _ => ⟨hstart, hblocks⟩
    | @next i vm₁ vm₂ calls c done m h' hopen hbody ih =>
      intro hi
      obtain ⟨hcontexts, hfree⟩ := ih (Nat.le_of_succ_le hi)
      rw [hstep hi] at hfree
      obtain ⟨done', m', hrun, hdone, hrest⟩ :=
        work_of_ample hc henv hsuits hcontexts hopen hfree hbytes calls
      rw [hrun] at hbody
      cases hbody
      exact ⟨(Vm.closeContext_shared hdone).1, hrest⟩
  rintro ⟨vm₁, calls, c, vm₂, f, m, harrives, hopen, hbody⟩
  obtain ⟨hcontexts, hfree⟩ := hleft harrives (Nat.le_of_lt hi)
  rw [hstep hi] at hfree
  obtain ⟨done, m', hrun, -⟩ := work_of_ample hc henv hsuits hcontexts hopen hfree hbytes calls
  rw [hrun] at hbody
  contradiction

end Work

end Stress

end VmSupport
