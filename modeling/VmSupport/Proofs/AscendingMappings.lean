import VmSupport.Proofs.SharedMachine

namespace VmSupport

open EStateM

theorem Heap.Follows.withLarge {h : Heap} {threads : List Nat} (hf : h.Follows threads)
    (size : Nat) : (h.withLarge size).Follows threads := by
  have hnext : (h.withLarge size).nextMapping = h.nextMapping + alignUp pageSize size := rfl
  have haligned : pageSize ∣ (h.withLarge size).nextMapping :=
    Nat.dvd_add hf.aligned (dvd_alignUp pageSize size)
  have hle : h.nextMapping ≤ (h.withLarge size).nextMapping := Nat.le_add_right _ _
  refine ⟨haligned, Nat.le_trans hf.regionEnd_le hle, fun mapping hm => ?_,
    fun t ht => Nat.le_trans (hf.threads t ht) hle,
    fun id hid => Nat.lt_of_lt_of_le (hf.builtins id hid) hle⟩
  rcases List.mem_cons.mp hm with rfl | hm
  · exact Nat.le_refl _
  · exact Nat.le_trans (hf.large mapping hm) hle

namespace Mutator

variable {R H : Type} [RootSet R] {threads : List Nat} {m m' : Mutator R H}

theorem follows_collect :
    Keeps (fun m : Mutator R H => m.heap.Follows threads) (collect .blocks) := by
  rintro ⟨heap, arena, roots, host⟩ hf
  have hstarted : (collecting heap).Follows threads :=
    hf.change ⟨rfl, rfl⟩ (fun _ hm => hm) (Nat.le_refl _) hf.aligned
  have hground := (Collector.blocks_isGentle (H := H)).ground
    ⟨collecting heap, RootSet.toList roots, host⟩
  have hlarge := (Collector.blocks_onlyReclaims (H := H)
    ⟨collecting heap, RootSet.toList roots, host⟩).large
  have hdone := hstarted.change hground.sameRegion hlarge (Nat.le_of_eq hground.nextMapping.symm)
    (hground.nextMapping ▸ hstarted.aligned)
  unfold collecting at hdone
  simp only [collect]
  cases hr : Collector.blocks (Collection.mk (Heap.note _ _) (RootSet.toList roots) host) <;>
    · rw [hr] at hdone
      exact hdone

theorem Step.follows (hstep : Step .blocks m m') (hf : m.heap.Follows threads) :
    m'.heap.Follows threads := by
  have hsame : ∀ {heap heap' : Heap}, heap.Follows threads → heap.SameGround heap' →
      heap'.large = heap.large → heap'.Follows threads := by
    intro heap heap' hf hground hlarge
    exact hf.change hground.sameRegion (fun _ hm => hlarge ▸ hm)
      (Nat.le_of_eq hground.nextMapping.symm) (hground.nextMapping ▸ hf.aligned)
  cases hstep with
  | count => exact hf
  | note => exact hsame hf ⟨rfl, rfl, rfl⟩ rfl
  | retire => exact hsame hf ⟨rfl, rfl, rfl⟩ rfl
  | take => exact hsame hf ⟨rfl, rfl, rfl⟩ rfl
  | lose => exact hsame hf ⟨rfl, rfl, rfl⟩ rfl
  | bump => exact hf
  | collect => exact follows_collect.state hf

theorem Steps.follows (hsteps : Steps .blocks m m') (hf : m.heap.Follows threads) :
    m'.heap.Follows threads := by
  induction hsteps with
  | refl => exact hf
  | tail _ hstep ih => exact hstep.follows ih

theorem follows_allocate {l : Layout} (hl : 0 < l.align) (hf : m.heap.Follows threads) :
    (allocate .blocks l m).state.heap.Follows threads := by
  have hallocate := allocate_steps .blocks m hl m rfl
  cases hrun : allocate .blocks l m with
  | error f m' =>
    rw [hrun] at hallocate
    exact hallocate.follows hf
  | ok address m' =>
    rw [hrun] at hallocate
    by_cases hlarge : m.heap.settings.largeSize ≤ l.size
    · simp only [hlarge, ↓reduceIte] at hallocate
      obtain ⟨-, total, -⟩ := hallocate
      exact hf.withLarge l.size
    · simp only [hlarge, ↓reduceIte] at hallocate
      obtain ⟨heap, c, allocated, total, roots, host, hsteps, -⟩ := hallocate
      have hdone := hsteps.follows hf
      exact hdone

end Mutator

namespace VmRun

variable {s : VmRun} {i : Nat} {r : LiveContext}

/-- The step maps memory behind all that is mapped, if it chooses where memory is mapped. -/
def Ascends (s : VmRun) : VmStep → Prop
  | .mapAt place => pageSize ∣ place ∧ s.vm.heap.nextMapping ≤ place
  | _ => True

theorem Follows.leave (hf : s.Follows) {m : Machine Unit} {l : Ledger} {fresh : Option Value}
    {log : List LogRecord} {memory : Memory}
    (hheap : m.vm.heap = { s.vm.heap with log, memory }) (hthreads : m.vm.threads = s.vm.threads) :
    (s.leave i l fresh m).Follows := by
  have hdone : Heap.Follows { s.vm.heap with log, memory } s.vm.threads.toList.reverse :=
    hf.change ⟨rfl, rfl⟩ (fun _ hm => hm) (Nat.le_refl _) hf.aligned
  change m.vm.heap.Follows m.vm.threads.toList.reverse
  rw [hheap, hthreads]
  exact hdone

theorem Follows.retains (hf : s.Follows) {pushed set : List Value} {m : Machine Unit}
    (hm : Machine.Retains pushed set (s.machine r) m) :
    (s.leave i s.toLedger r.fresh m).Follows := by
  obtain ⟨log, hheap⟩ := hm.heap_eq
  exact hf.leave hheap hm.threads_eq

theorem Follows.perform {before after : List LiveContext} (hf : s.Follows)
    (h : s.LiveAt i r before after) (hs : s.Sound) {op : ContextOp} (hlegal : s.LegalOn r op)
    (hfits : VmStep.Fits (.onContext i op)) : (s.perform i r op).Follows := by
  have henv : ∀ ending v, Machine.Quiet [] [] ((embedder ending).invoke v) :=
    fun ending _ => Machine.Quiet.resume ending
  cases op with
  | allocate request =>
    obtain ⟨htyped, hoperands, hmap⟩ := hlegal
    obtain ⟨x, hx, -, hrun⟩ := h.allocate_cases hs htyped hfits hoperands hmap
    have hdone : x.heap.Follows s.inventory.threads :=
      hx ▸ Mutator.follows_allocate (l := .ofWords request.size) (Nat.succ_pos _) hf
    rcases hrun with hrun | ⟨a, -, -, hrun⟩
    · rw [hrun]
      exact hdone
    · rw [hrun]
      exact hdone.change ⟨rfl, rfl⟩ (fun _ hm => hm) (Nat.le_refl _) hdone.aligned
  | write target j v => exact hf.leave rfl rfl
  | push v => exact hf.retains (.push _ v)
  | truncate n => exact hf.retains (.truncate _ n)
  | fluidSet fluid v => exact hf.retains (.fluidSet _ fluid v)
  | pushFluid fluid v => exact hf.retains (.pushFluid _ fluid v)
  | pushWind entry exit ending => exact hf.retains (.pushWind (henv ending) _ entry exit)
  | pop ending => exact hf.retains (.pop (henv ending) _)
  | makeFluid v => exact hf.retains (.makeFluid _ v)
  | collect =>
    have hcollect := (h.sound_during hs fun v hv => absurd hv List.not_mem_nil).collect
      (LiveAt.roots_subset s r before after []) (h.subset_roots [])
    have hstate : (Machine.collect (embedder (.ok ())) (s.machine r)).state =
        (s.machine r).withMutator _ := Machine.state_collect hcollect.roots_eq
    change (s.leave i s.toLedger none (Machine.collect _ (s.machine r)).state).Follows
    rw [hstate]
    exact Mutator.follows_collect.state (s := (s.machine r).mutator []) hf

theorem Follows.step (hf : s.Follows) (hs : s.Sound) {op : VmStep} (hlegal : s.Legal op)
    (hfits : op.Fits) (hascends : s.Ascends op) : (s.step op).Follows := by
  cases op with
  | mapAt place =>
    exact hf.change ⟨rfl, rfl⟩ (fun _ hm => hm) hascends.2 hascends.1
  | openContext => exact hf.openContext
  | dropContext i =>
    simp only [VmRun.step]
    rcases s.contexts[i]? with - | - | r
    · exact hf
    · exact hf
    · exact hf.change ⟨rfl, rfl⟩ (fun _ hm => hm) (Nat.le_refl _) hf.aligned
  | onContext i op =>
    simp only [VmRun.step]
    cases hi : s.contexts[i]? with
    | none => exact hf
    | some slot =>
      cases slot with
      | none => exact hf
      | some r =>
        obtain ⟨before, after, h⟩ := exists_liveAt hi
        exact hf.perform h hs (hlegal r hi) hfits

/-- The states of all runs in which the operating system maps memory in ascending order. Steps have
to be legal only if memory can be mapped. -/
inductive Ascending (vm : Vm) : VmRun → Prop
  | start : Ascending vm (VmRun.start vm)
  | step {s : VmRun} (h : Ascending vm s) (op : VmStep)
    (hlegal : (∀ size, s.MayMap size) → s.Legal op) (hfits : op.Fits) (hascends : s.Ascends op) :
    Ascending vm (s.step op)

theorem Ascending.reached {settings : HeapSettings} {stackSize : Nat} {vm : Vm}
    (hcreate : Vm.create settings stackSize = .ok vm) (h : Ascending vm s) :
    Reached VmStep.Fits vm s ∧ s.Follows := by
  induction h with
  | start => exact ⟨.create hcreate, follows_start hcreate⟩
  | @step s _ op hlegal hfits hascends ih =>
    obtain ⟨hreached, hf⟩ := ih
    have hlegal' : s.Legal op := hlegal hf.mayMap
    exact ⟨hreached.step op hlegal' hfits,
      hf.step (hreached.sound hcreate) hlegal' hfits hascends⟩

end VmRun

end VmSupport
