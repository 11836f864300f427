import VmSupport.Proofs.Crews
import VmSupport.Proofs.ThreadPanics

namespace VmSupport

namespace Stress

open Machine Strand

namespace Options

def settings (o : Options) : HeapSettings :=
  { heapSize := o.heapSize * 1024 * 1024, blockSize := o.blockSize * 1024 }

def work (o : Options) : Action Summary :=
  Stress.work (embedder (o.threads == 1)) o.iterations o.depth

def body (o : Options) : Part (Summary × List Turn) :=
  Part.work (embedder (o.threads == 1)) o.iterations o.depth

def total (o : Options) : Summary :=
  ⟨o.threads * o.iterations * o.depth, o.threads * o.iterations * o.depth,
    o.threads * o.iterations, 8 * (o.threads * o.iterations)⟩

def calls (o : Options) : Nat := 2 * (o.threads * o.iterations * (o.depth / 2))

end Options

variable {h : Heap} {fluid : FluidId}

theorem foldl_add_eq (l : List Summary) {a b c d : Nat} (hl : ∀ x ∈ l, x = ⟨a, b, c, d⟩)
    (total : Summary) :
    l.foldl Summary.add total =
      total.add ⟨l.length * a, l.length * b, l.length * c, l.length * d⟩ := by
  induction l generalizing total with
  | nil => simp [Summary.add]
  | cons x l ih =>
    obtain ⟨rfl, hrest⟩ := List.forall_mem_cons.mp hl
    rw [List.foldl_cons, ih hrest, List.length_cons]
    simp only [Summary.add, Summary.mk.injEq]
    refine ⟨?_, ?_, ?_, ?_⟩ <;> ring

namespace Crew

variable {s : Crew (Summary × List Turn)} {shares : List (Worker (Summary × List Turn) × Nat)}
  {count depth : Nat}

theorem Sound.calls_of_isOver (hs : s.Sound h (IsDone count depth) shares) (hover : s.IsOver) :
    s.calls = shares.length * (count * (2 * (depth / 2))) := by
  rw [hs.calls_eq]
  have hall : ∀ n ∈ shares.map Prod.snd, n = count * (2 * (depth / 2)) := by
    intro n hn
    obtain ⟨p, hp, rfl⟩ := List.mem_map.mp hn
    have hended := hover p.1 (hs.workers_eq ▸ List.mem_map_of_mem hp)
    obtain ⟨r, hr⟩ := Option.isSome_iff_exists.mp hended
    exact ((hs.onTrack p hp).of_result? hr).calls_eq
  rw [List.sum_eq_card_nsmul _ _ hall, List.length_map, smul_eq_mul]

theorem Sound.total_of_isOver (hs : s.Sound h (IsDone count depth) shares) (hover : s.IsOver) :
    s.total = ⟨shares.length * (count * depth), shares.length * (count * depth),
      shares.length * count, shares.length * (count * 8)⟩ := by
  have hlength : (s.results.map Prod.fst).length = shares.length := by
    rw [List.length_map, results, List.filterMap_length_eq_length.mpr hover, hs.workers_eq,
      List.length_map]
  have hall : ∀ x ∈ s.results.map Prod.fst,
      x = ⟨count * depth, count * depth, count, count * 8⟩ := by
    intro x hx
    obtain ⟨r, hr, rfl⟩ := List.mem_map.mp hx
    obtain ⟨n, hdone⟩ := hs.exists_of_mem_results hr
    exact hdone.total_eq
  rw [total, foldl_add_eq _ hall, hlength]
  simp only [Summary.add, Nat.zero_add]

end Crew

theorem embedder_isGentle (reclaims : Bool) : (embedder reclaims).collector.IsGentle := by
  cases reclaims
  · exact Collector.none_isGentle
  · exact Collector.blocks_isGentle

theorem exists_run_eq_work (o : Options) (vm : Vm) : ∃ is,
    runThreads o.work o.threads 0 vm 0 {} =
      Crew.outcome ((Crew.start vm o.threads).run o.body is) ∧
    ∀ s, (Crew.start vm o.threads).run o.body is = .ok s → s.IsOver := by
  have hstart : (Crew.start vm o.threads : Crew (Summary × List Turn)).workers =
      [] ++ List.replicate o.threads .waiting := rfl
  obtain ⟨is, hthreads, hover⟩ := exists_run_eq_runThreads o.body (List.forall_mem_nil _) hstart
  rw [Crew.total_eq hstart, Options.body, Part.run_work, ← Options.body] at hthreads
  exact ⟨is, hthreads, hover⟩

section Totals

variable {o : Options} {vm : Vm} (hcreate : Vm.create o.settings 1024 = .ok vm)

include hcreate

theorem contexts_start : vm.HasContexts vm.heap [] ∧ vm.heap.settings = o.settings ∧
    vm.heap.regionEnd ≤ 2 ^ 64 := Vm.HasContexts.create (by decide) hcreate

theorem lt_largeSize : 32 < vm.heap.settings.largeSize := by
  rw [(contexts_start hcreate).2.1]
  exact Nat.le_of_ble_eq_true rfl

theorem free_start : vm.heap.free = List.range o.settings.blockCount := by
  obtain ⟨h, memory, r, hheap, rfl, -⟩ := VmRun.create_eq hcreate
  obtain ⟨-, -, rfl⟩ := Heap.create_eq_ok hheap
  rfl

theorem suits_start (hdepth : o.depth ≤ 2 ^ 62)
    (hsizes : ∀ size ∈ requestSizes o.depth, size < o.settings.largeSize) :
    Suits vm.heap o.depth := by
  obtain ⟨-, hsettings, hend⟩ := contexts_start hcreate
  have hbase := VmRun.mayStartAt_create hcreate
  obtain ⟨h, memory, r, hheap, rfl, -⟩ := VmRun.create_eq hcreate
  have hregular := Heap.Regular.create hheap hbase
  obtain ⟨-, -, rfl⟩ := Heap.create_eq_ok hheap
  exact ⟨hregular.valid, hregular.dvd_blockStart, hend, hsettings ▸ hsizes, hdepth⟩

theorem not_panics (hdepth : o.depth ≤ 2 ^ 62)
    (hsizes : ∀ size ∈ requestSizes o.depth, size < o.settings.largeSize)
    (hblocks : o.threads * (o.iterations * (requestSizes o.depth).length) ≤ o.settings.blockCount)
    (hbytes : o.iterations * (requestSizes o.depth).sum < 1 <<< 64) {i : Nat} (hi : i < o.threads) :
    ¬Panics o.work vm i := by
  rw [← List.length_range (n := o.settings.blockCount), ← free_start hcreate] at hblocks
  exact not_panics_of_ample (embedder_isGentle _) rfl (suits_start hcreate hdepth hsizes)
    (contexts_start hcreate).1 hblocks hbytes hi

theorem not_overflowing :
    ¬(1 <<< 64 ≤ o.heapSize * 1024 * 1024 ∨ 1 <<< 64 ≤ o.blockSize * 1024) := by
  obtain ⟨h, memory, r, hheap, -, -⟩ := VmRun.create_eq hcreate
  obtain ⟨hvalid, ⟨-, hsize⟩, -⟩ := Heap.create_eq_ok hheap
  have hblock := Nat.le_of_dvd hvalid.heapSize_pos hvalid.blockSize_dvd
  have hlimit : Mapping.sizeLimit ≤ 1 <<< 64 := by decide
  change o.blockSize * 1024 ≤ o.heapSize * 1024 * 1024 at hblock
  change o.heapSize * 1024 * 1024 < Mapping.sizeLimit at hsize
  omega

theorem run_of_error {f : Failure} (hthreads : runThreads o.work o.threads 0 vm 0 {} = .error f) :
    run o = ⟨1, [], [f.message]⟩ := by
  have hfits := not_overflowing hcreate
  unfold Options.settings at hcreate
  unfold Options.work at hthreads
  simp only [run, hfits, ↓reduceIte, hcreate, hthreads]

theorem run_of_ok {vm' : Vm} {calls : Calls} {total : Summary}
    (hthreads : runThreads o.work o.threads 0 vm 0 {} = .ok (vm', calls, total)) :
    run o = success o vm' calls total := by
  have hfits := not_overflowing hcreate
  unfold Options.settings at hcreate
  unfold Options.work at hthreads
  simp only [run, hfits, ↓reduceIte, hcreate, hthreads]

theorem iteration_neutral {m : Machine Calls} (hseated : m.Seated vm.heap)
    (hknown : fluid.index < m.vm.fluids.size) (x y : UInt32) :
    match iteration (embedder (o.threads == 1)) (setupOf fluid x y) o.depth m with
    | .ok r m' => (Turn.mk m r m').IsNeutral o.depth ∧ m'.host = m.host + 2 * (o.depth / 2)
    | .error e _ => ∃ f, e = .fault f ∧ f.IsPanic := by
  obtain ⟨-, -, hend⟩ := contexts_start hcreate
  have hc := embedder_isGentle (o.threads == 1)
  have hamid : Amid (Supply.shared hc (lt_largeSize hcreate) hend o.depth) fluid m 0 0 [] []
      (requestSizes o.depth) [] 0 m := ⟨.start hseated hknown, trivial⟩
  have hcovers := Company.others_covers vm.heap o.depth m.context.stack.size
  have hrun := ((Amid.iteration_serves hc rfl x y hcovers).meets 0 m hamid).run
  rw [Part.run_iteration] at hrun
  cases hr : iteration (embedder (o.threads == 1)) (setupOf fluid x y) o.depth m with
  | error e m' =>
    rw [hr] at hrun
    exact hrun
  | ok r m' =>
    rw [hr] at hrun
    obtain ⟨⟨-, hle⟩, rfl, hunderway, -⟩ := hrun
    refine ⟨hunderway.isNeutral o.depth, ?_⟩
    have howed := hunderway.owed
    rw [List.countP_nil, Nat.add_zero, Nat.zero_add, Nat.zero_add] at howed
    exact (Nat.eq_add_of_sub_eq hle howed).trans (Nat.add_comm _ _)

theorem crew_exact (is : List Nat) :
    match (Crew.start vm o.threads).run o.body is with
    | .ok s => (∀ r ∈ s.results, r.2.length = o.iterations ∧ ∀ t ∈ r.2, t.IsNeutral o.depth) ∧
      (s.IsOver → s.calls = o.calls ∧ s.total = o.total)
    | .error (_, e) => ∃ f, e = .fault f ∧ f.IsPanic := by
  obtain ⟨hcontexts, -, hend⟩ := contexts_start hcreate
  have hc := embedder_isGentle (o.threads == 1)
  have hserves := work_serves (S := Supply.shared hc (lt_largeSize hcreate) hend o.depth)
    hc rfl (Company.others_covers _ _ _) 0 o.iterations
  have hbody : ∀ m : Machine Calls, m.Seated vm.heap → m.context.stack = #[] →
      o.body.Meets (Company.others vm.heap).terms
        (fun r n _ => IsDone o.iterations o.depth r n) 0 m :=
    fun m hm hstack => (hserves.meets 0 m ⟨⟨rfl, hm, hstack⟩, trivial⟩).mono fun _ _ _ h => h.1
  have hrun := (Crew.Sound.start hcontexts o.threads).run hbody is
  cases hr : (Crew.start vm o.threads).run o.body is with
  | error e =>
    rw [hr] at hrun
    exact hrun
  | ok s =>
    rw [hr] at hrun
    obtain ⟨shares, hs, hlength⟩ := hrun
    rw [List.length_replicate] at hlength
    refine ⟨fun r hr => ?_, fun hover => ⟨?_, ?_⟩⟩
    · obtain ⟨n, hdone⟩ := hs.exists_of_mem_results hr
      exact ⟨hdone.length_eq, hdone.neutral⟩
    · have hcalls := hs.calls_of_isOver hover
      rw [hlength] at hcalls
      rw [hcalls]
      change o.threads * (o.iterations * (2 * (o.depth / 2))) =
        2 * (o.threads * o.iterations * (o.depth / 2))
      ring
    · rw [hs.total_of_isOver hover, hlength, Options.total]
      simp only [Summary.mk.injEq]
      refine ⟨?_, ?_, trivial, ?_⟩ <;> ring

theorem runThreads_exact :
    (∃ i < o.threads, Panics o.work vm i ∧
      runThreads o.work o.threads 0 vm 0 {} = .error (.brokeOff i)) ∨
    (∀ i < o.threads, ¬Panics o.work vm i) ∧
      ∃ vm', runThreads o.work o.threads 0 vm 0 {} = .ok (vm', o.calls, o.total) := by
  obtain ⟨hcontexts, -, hend⟩ := contexts_start hcreate
  obtain ⟨is, hthreads, hover⟩ := exists_run_eq_work o vm
  have hcrew := crew_exact hcreate is
  cases hr : (Crew.start vm o.threads).run o.body is with
  | error p =>
    rw [hr] at hcrew hthreads
    obtain ⟨f, hf, -⟩ := hcrew
    obtain ⟨thread, e⟩ := p
    obtain rfl : e = .fault f := hf
    have hopens : ∀ {i vm' calls}, Arrives o.work vm i vm' calls →
        ∃ c vm'', vm'.openContext = .ok (c, vm'') := fun harrives =>
      (harrives.hasContexts (embedder_isGentle _) rfl (lt_largeSize hcreate) hend
        hcontexts).exists_openContext
    obtain ⟨hlt, hpanics⟩ := Arrives.panics_of_error hopens .start hthreads
    rw [Nat.zero_add] at hlt
    exact Or.inl ⟨thread, hlt, hpanics, hthreads⟩
  | ok s =>
    rw [hr] at hcrew hthreads
    obtain ⟨hcalls, htotal⟩ := hcrew.2 (hover s hr)
    have hexact : runThreads o.work o.threads 0 vm 0 {} = .ok (s.vm, o.calls, o.total) := by
      rw [hthreads, ← hcalls, ← htotal]
      rfl
    refine Or.inr ⟨fun i hi hpanics => ?_, s.vm, hexact⟩
    rw [hpanics.runThreads_eq hi] at hexact
    contradiction

theorem exists_run_ok (hnone : ∀ i < o.threads, ¬Panics o.work vm i) :
    ∃ is s, (Crew.start vm o.threads).run o.body is = .ok s ∧ s.IsOver := by
  obtain ⟨is, hthreads, hover⟩ := exists_run_eq_work o vm
  obtain ⟨-, vm', hrun⟩ := (runThreads_exact hcreate).resolve_left
    fun ⟨i, hi, hpanics, _⟩ => hnone i hi hpanics
  rw [hrun] at hthreads
  cases hr : (Crew.start vm o.threads).run o.body is with
  | ok s => exact ⟨is, s, hr, hover s hr⟩
  | error p =>
    obtain ⟨thread, e⟩ := p
    rw [hr] at hthreads
    cases e <;> contradiction

theorem exists_machine : ∃ m : Machine Calls, m.vm.HasContexts vm.heap [m.context] ∧
    m.vm.fluids.size = 1 ∧ m.context.stack = #[] ∧ m.context.arena.allocated = 0 ∧
    m.vm.heap.free = List.range o.settings.blockCount := by
  obtain ⟨hcontexts, -, -⟩ := contexts_start hcreate
  have hfree := free_start hcreate
  obtain ⟨h, memory, r, -, rfl, -⟩ := VmRun.create_eq hcreate
  obtain ⟨c, vm', hopen⟩ := hcontexts.exists_openContext
  obtain ⟨-, rfl, hfluids, -, hsame⟩ := Vm.openContext_eq_ok hopen
  obtain ⟨hopened, -⟩ := Vm.openContext_shared hcontexts hopen
  let start : Machine Calls := ⟨vm', ⟨0, .new, #[], #[], #[]⟩, 0⟩
  have htakes : start.TakesNothing [] [.nil] (makeFluid .nil start).state :=
    ⟨.makeFluid start .nil, Array.toList_push ▸ List.prefix_append _ _, rfl⟩
  refine ⟨_, (htakes.courteous [] hopened).1, ?_, rfl, rfl, hsame.trans hfree⟩
  change (vm'.fluids.defaults.push _).size = 1
  rw [hfluids]
  rfl

/-- An iteration that does not panic is neutral, on whatever machine of this heap it begins. So is
each iteration of threads that take turns, part by part, in whatever order; once all of them have
ended, the totals are exact. The program, in which the threads follow each other, breaks off exactly
if one of its threads panics in the course of its work; otherwise it ends with code 0 and reports
these totals. -/
theorem iterations_neutral_totals_exact :
    (∀ (m : Machine Calls) (fluid : FluidId) (x y : UInt32), m.Seated vm.heap →
      fluid.index < m.vm.fluids.size →
      match iteration (embedder (o.threads == 1)) (setupOf fluid x y) o.depth m with
      | .ok r m' => (Turn.mk m r m').IsNeutral o.depth ∧ m'.host = m.host + 2 * (o.depth / 2)
      | .error e _ => ∃ f, e = .fault f ∧ f.IsPanic) ∧
    (∀ is, match (Crew.start vm o.threads).run o.body is with
      | .ok s => (∀ r ∈ s.results, r.2.length = o.iterations ∧ ∀ t ∈ r.2, t.IsNeutral o.depth) ∧
        (s.IsOver → s.calls = o.calls ∧ s.total = o.total)
      | .error (_, e) => ∃ f, e = .fault f ∧ f.IsPanic) ∧
    ((∃ i < o.threads, Panics o.work vm i ∧
        run o = ⟨1, [], ["thread " ++ toString i ++ " panicked"]⟩) ∨
      (∀ i < o.threads, ¬Panics o.work vm i) ∧
        ∃ blocks collections : Nat, (run o).code = 0 ∧ (run o).errors = [] ∧ (run o).output = [
          "threads:            " ++ toString o.threads,
          "conses:             " ++ toString (o.threads * o.iterations * o.depth),
          "dynamic bindings:   " ++ toString (o.threads * o.iterations * o.depth),
          "keyword binds:      " ++ toString (o.threads * o.iterations),
          "string characters:  " ++ toString (8 * (o.threads * o.iterations)),
          "procedure calls:    " ++ toString (2 * (o.threads * o.iterations * (o.depth / 2))),
          "blocks handed out:  " ++ toString blocks,
          "collections:        " ++ toString collections]) := by
  refine ⟨fun _ _ x y hseated hknown => iteration_neutral hcreate hseated hknown x y,
    crew_exact hcreate, ?_⟩
  rcases runThreads_exact hcreate with ⟨i, hi, hpanics, hthreads⟩ | ⟨hnone, vm', hthreads⟩
  · exact Or.inl ⟨i, hi, hpanics, run_of_error hcreate hthreads⟩
  · refine Or.inr ⟨hnone, vm'.heap.stats.handedOut, vm'.heap.stats.collections, ?_⟩
    rw [run_of_ok hcreate hthreads]
    exact ⟨rfl, rfl, rfl⟩

end Totals

theorem iterations_neutral_totals_exact_two_threads : ∃ (vm : Vm) (m : Machine Calls),
    Vm.create (Options.settings ⟨1, 32, 2, 2, 3⟩) 1024 = .ok vm ∧ m.Seated vm.heap ∧
      m.vm.fluids.size = 1 ∧
      (∃ r m', iteration (embedder false) (setupOf ⟨0⟩ 0 1) 3 m = .ok r m' ∧
        (Turn.mk m r m').IsNeutral 3 ∧ m'.host = m.host + 2) ∧
      (∃ is s, (Crew.start vm 2).run (Part.work (embedder false) 2 3) is = .ok s ∧ s.IsOver ∧
        (∀ r ∈ s.results, r.2.length = 2 ∧ ∀ t ∈ r.2, t.IsNeutral 3) ∧
        s.calls = 8 ∧ s.total = ⟨12, 12, 4, 32⟩) ∧
      (∀ i < 2, ¬Panics (Stress.work (embedder false) 2 3) vm i) ∧
      ∃ blocks collections : Nat, (run ⟨1, 32, 2, 2, 3⟩).code = 0 ∧
        (run ⟨1, 32, 2, 2, 3⟩).errors = [] ∧ (run ⟨1, 32, 2, 2, 3⟩).output = [
          "threads:            2",
          "conses:             12",
          "dynamic bindings:   12",
          "keyword binds:      4",
          "string characters:  32",
          "procedure calls:    8",
          "blocks handed out:  " ++ toString blocks,
          "collections:        " ++ toString collections] := by
  obtain ⟨vm, hcreate⟩ : ∃ vm, Vm.create (Options.settings ⟨1, 32, 2, 2, 3⟩) 1024 = .ok vm :=
    ⟨_, rfl⟩
  let o : Options := ⟨1, 32, 2, 2, 3⟩
  obtain ⟨hiteration, hcrew, hrun⟩ := iterations_neutral_totals_exact hcreate
  have hsizes : ∀ size ∈ requestSizes o.depth, size < o.settings.largeSize := by decide +kernel
  have hnone : ∀ i < o.threads, ¬Panics o.work vm i := fun i hi =>
    not_panics hcreate (by decide) hsizes (by decide) (by decide) hi
  obtain ⟨-, blocks, collections, hreport⟩ := hrun.resolve_left
    fun ⟨i, hi, hpanics, _⟩ => hnone i hi hpanics
  obtain ⟨m, hm, hsize, hstack, hcount, hfree⟩ := exists_machine hcreate
  have hseated : m.Seated vm.heap := ⟨hm.region, hm.seated _ List.mem_cons_self⟩
  have hknown : (⟨0⟩ : FluidId).index < m.vm.fluids.size := hsize ▸ Nat.one_pos
  have hample : Ample vm.heap (requestSizes 3).length (requestSizes 3).sum m :=
    ⟨hm, hfree ▸ by decide, hcount ▸ by decide⟩
  obtain ⟨r, m', hiterated⟩ := iteration_of_ample (embedder_isGentle false) rfl
    (suits_start hcreate (by decide) hsizes) hknown (hstack ▸ by decide) 0 1 hample
  have hneutral : match iteration (embedder false) (setupOf ⟨0⟩ 0 1) 3 m with
      | .ok r m' => (Turn.mk m r m').IsNeutral 3 ∧ m'.host = m.host + 2
      | .error e _ => ∃ f, e = .fault f ∧ f.IsPanic := hiteration m ⟨0⟩ 0 1 hseated hknown
  rw [hiterated] at hneutral
  obtain ⟨is, s, hr, hover⟩ := exists_run_ok hcreate hnone
  have hexact := hcrew is
  rw [hr] at hexact
  exact ⟨vm, m, hcreate, hseated, hsize, ⟨r, m', hiterated, hneutral⟩,
    ⟨is, s, hr, hover, hexact.1, hexact.2 hover⟩, hnone, blocks, collections, hreport⟩

end Stress

end VmSupport
