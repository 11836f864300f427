import VmSupport.Proofs.AllocationFaults
import VmSupport.Proofs.BlockTiling
import VmSupport.Proofs.CollectionSafety
import VmSupport.Proofs.FreshObjects

namespace VmSupport

open EStateM

structure Collector.IsGentle {H : Type} (collector : Collector H) : Prop where
  roots : collector.KeepsRoots
  memory : collector.KeepsMemory
  releases : Collection.OnlyReleases collector
  ground : ∀ c : Collection H, c.heap.SameGround (collector c).state.heap
  host : ∀ c : Collection H, (collector c).state.host = c.host
  faults : Raises collector Fault.IsPanic

namespace Collector

variable {H : Type}

theorem none_isGentle : (Collector.none : Collector H).IsGentle where
  roots := Collector.none_keepsRoots
  memory := Collector.none_keepsMemory
  releases := Collection.OnlyReleases.pure ()
  ground _ := ⟨rfl, rfl, rfl⟩
  host _ := rfl
  faults := Raises.pure ()

theorem blocks_isGentle : (Collector.blocks : Collector H).IsGentle := by
  have hkeeps : ∀ c : Collection H, Keeps (fun c' => c.heap.SameGround c'.heap ∧ c'.host = c.host)
      Collection.reclaimUnlessShared := by
    intro c
    have honHeap : ∀ {α : Type} {op : Heap.Action α},
        (∀ heap : Heap, heap.SameGround (op heap).state) →
        Keeps (fun c' => c.heap.SameGround c'.heap ∧ c'.host = c.host)
          (Collection.onHeap op : Collection.Action H α) := by
      rintro α op hop ⟨heap, roots, host⟩ ⟨⟨hsettings, hstart, hnext⟩, hhost⟩
      obtain ⟨hsettings', hstart', hnext'⟩ := hop heap
      simp only [Collection.onHeap]
      cases hr : op heap <;>
        · rw [hr] at hsettings' hstart' hnext'
          exact ⟨⟨hsettings'.trans hsettings, hstart'.trans hstart, hnext'.trans hnext⟩, hhost⟩
    apply Collection.keeps_reclaimUnlessShared
    · intro α op
      refine honHeap fun heap => ?_
      simp only [Heap.onMemory]
      cases op heap.memory <;> exact ⟨rfl, rfl, rfl⟩
    · intro b
      refine honHeap fun heap => ?_
      by_cases hb : b ∈ heap.retired
      · rw [Heap.releaseBlock_of_mem hb]
        exact ⟨rfl, rfl, rfl⟩
      · rw [Heap.releaseBlock_of_not_mem hb]
        exact ⟨rfl, rfl, rfl⟩
    · intro isLive
      refine honHeap fun heap => ?_
      obtain ⟨n, hsweep⟩ := Collection.sweepLarge_ok isLive heap
      rw [hsweep]
      exact ⟨rfl, rfl, rfl⟩
    · exact fun r c' hc' => ⟨⟨hc'.1.settings, hc'.1.start, hc'.1.nextMapping⟩, hc'.2⟩
  have hstate : ∀ c : Collection H, c.heap.SameGround (Collector.blocks c).state.heap ∧
      (Collector.blocks c).state.host = c.host := fun c => (hkeeps c).state ⟨⟨rfl, rfl, rfl⟩, rfl⟩
  exact ⟨Collector.blocks_keepsRoots, Collector.blocks_keepsMemory,
    Collection.OnlyReleases.reclaimUnlessShared, fun c => (hstate c).1, fun c => (hstate c).2,
    Collection.reclaimUnlessShared_raises⟩

theorem IsGentle.keepsRegion {collector : Collector H} (hc : collector.IsGentle) :
    collector.KeepsRegion := fun c => ⟨(hc.ground c).start, (hc.ground c).settings⟩

end Collector

namespace Mutator

variable {R H : Type} {collector : Collector H} {h : Heap} {arenas : Nat} {held : List Nat}

def Shares (h : Heap) (arenas : Nat) (held : List Nat) (m : Mutator R H) : Prop :=
  (∃ released, m.heap.Accounts h.settings arenas (m.arena.blocks ++ held) released) ∧
    h.regionEnd ≤ m.heap.nextMapping

variable [RootSet R]

theorem collect_shares (hc : collector.IsGentle) :
    Keeps (Shares (R := R) h arenas held) (Mutator.collect collector) := by
  rintro ⟨heap, arena, roots, host⟩ ⟨⟨released, haccounts⟩, hmapped⟩
  simp only [Mutator.collect]
  generalize hstart : Collection.mk (Heap.note _ _) (RootSet.toList roots) host = c
  have hstarted : c.heap.Accounts h.settings arenas (arena.blocks ++ held) released :=
    hstart ▸ haccounts.sameBlocks ⟨rfl, rfl, rfl, rfl, rfl⟩
  have hnext : c.heap.nextMapping = heap.nextMapping := by rw [← hstart]; rfl
  obtain ⟨n, hreleases⟩ := hc.releases c
  have hdone := hstarted.releases hreleases
  have hmapped' : h.regionEnd ≤ (collector c).state.heap.nextMapping := by
    rw [(hc.ground c).nextMapping, hnext]
    exact hmapped
  cases hr : collector c <;>
    · rw [hr] at hdone hmapped'
      exact ⟨⟨_, hdone⟩, hmapped'⟩

theorem Step.shares {m m' : Mutator R H} (hstep : Step collector m m') (hc : collector.IsGentle)
    (hm : m.Shares h arenas held) : m'.Shares h arenas held := by
  cases hstep with
  | count => exact hm
  | note heap arena roots host r =>
    obtain ⟨⟨released, haccounts⟩, hmapped⟩ := hm
    exact ⟨⟨released, haccounts.sameBlocks ⟨rfl, rfl, rfl, rfl, rfl⟩⟩, hmapped⟩
  | retire heap c allocated roots host =>
    obtain ⟨⟨released, haccounts⟩, hmapped⟩ := hm
    exact ⟨⟨released, Heap.Accounts.retire [c.block] haccounts⟩, hmapped⟩
  | take heap b rest allocated roots host hfree hb =>
    obtain ⟨⟨released, haccounts⟩, hmapped⟩ := hm
    exact ⟨⟨released, haccounts.handOut hfree⟩, hmapped⟩
  | lose heap b rest arena roots host hfree hb =>
    obtain ⟨⟨released, haccounts⟩, hmapped⟩ := hm
    have hlt := haccounts.divided.lt_of_mem_free (hfree ▸ List.mem_cons_self)
    exact absurd hlt (Nat.not_lt.mpr hb)
  | bump => exact hm
  | collect => exact (collect_shares hc).state hm

theorem Steps.shares {m m' : Mutator R H} (hsteps : Steps collector m m')
    (hc : collector.IsGentle) (hm : m.Shares h arenas held) : m'.Shares h arenas held := by
  induction hsteps with
  | refl => exact hm
  | tail _ hstep ih => exact hstep.shares hc ih

theorem allocate_shares (hc : collector.IsGentle) {l : Layout} (hl : 0 < l.align)
    {m m' : Mutator R H} {address : Nat} (hseated : m.Seated h) (hm : m.Shares h arenas held)
    (hallocate : allocate collector l m = .ok address m') :
    m'.Shares h arenas held ∧
      ∀ b ∈ held, ∀ a ∈ h.blockRange b, a < address ∨ address + l.size ≤ a := by
  have hlies := allocate_seated hc.keepsRegion hl m hseated
  have hspec := allocate_steps collector m hl m rfl
  rw [hallocate] at hlies hspec
  simp only [hseated.1.settings] at hspec
  by_cases hlarge : h.settings.largeSize ≤ l.size
  · rw [if_pos hlarge] at hspec
    obtain ⟨rfl, total, -⟩ := hspec
    obtain ⟨⟨released, haccounts⟩, hmapped⟩ := hm
    refine ⟨⟨⟨released, haccounts.sameBlocks ⟨rfl, rfl, rfl, rfl, rfl⟩⟩,
      Nat.le_add_right_of_le hmapped⟩, fun b hb a ha => Or.inl ?_⟩
    have hlt : b < h.blockCount := by
      have hlt' := haccounts.divided.lt_blockCount (List.mem_append_right _ hb)
      rwa [Heap.blockCount, hseated.1.settings] at hlt'
    exact Nat.lt_of_lt_of_le ha.2 (Nat.le_trans (h.blockEnd_le_regionEnd hlt) hmapped)
  · rw [if_neg hlarge] at hspec
    have hshares : m'.Shares h arenas held := by
      obtain ⟨heap, c, allocated, total, roots, host, hsteps, -⟩ := hspec
      exact hsteps.shares hc hm
    refine ⟨hshares, fun b hb a ha => ?_⟩
    obtain ⟨c, hcursor, hlow, hhigh⟩ := (hlies.2 (Nat.not_le.mp hlarge)).2
    obtain ⟨⟨released, haccounts⟩, -⟩ := hshares
    have hne : b ≠ c.block := by
      have hnodup := haccounts.divided.held_nodup
      rw [Arena.blocks, hcursor] at hnodup
      exact fun heq => (List.nodup_cons.mp hnodup).1 (heq ▸ hb)
    rcases Nat.lt_or_gt_of_ne hne with hlt | hgt
    · exact Or.inl (Nat.lt_of_lt_of_le ha.2 (Nat.le_trans (h.blockEnd_le_blockStart hlt) hlow))
    · exact Or.inr (Nat.le_trans hhigh (Nat.le_trans (h.blockEnd_le_blockStart hgt) ha.1))

variable [LawfulRootSet R]

theorem collect_held (hc : collector.IsGentle) (roots : R) (host : H) :
    KeepsHeld (fun r host' => r = roots ∧ host' = host) (collect collector) := by
  rintro ⟨heap, arena, roots', host'⟩ ⟨rfl, rfl⟩
  have hroots := (collect_keepsRoots hc.roots roots').state (s := ⟨heap, arena, roots', host'⟩) rfl
  simp only [collect] at hroots ⊢
  generalize hstart : Collection.mk (Heap.note _ _) (RootSet.toList roots') host' = c at hroots ⊢
  have hhost : (collector c).state.host = host' := by
    rw [hc.host c, ← hstart]
  cases hr : collector c <;>
    · rw [hr] at hroots hhost
      exact ⟨hroots, hhost⟩

theorem allocate_held (hc : collector.IsGentle) (l : Layout) (m : Mutator R H) :
    (allocate collector l m).state.roots = m.roots ∧ (allocate collector l m).state.host = m.host :=
  (KeepsHeld.allocate (collect_held hc m.roots m.host) l).state (s := m) ⟨rfl, rfl⟩

end Mutator

namespace Vm

structure HasContexts (h : Heap) (vm : Vm) (cs : List Context) : Prop where
  region : h.SameRegion vm.heap
  accounts : ∃ released,
    vm.heap.Accounts h.settings cs.length (cs.flatMap (·.arena.blocks)) released
  seated : ∀ c ∈ cs, ∀ k, c.arena.cursor = some k → h.Seats k
  mapped : h.regionEnd ≤ vm.heap.nextMapping
  threads : ∀ i, h.contains (vm.threadAddress i + 8) = false
  stackSize_lt : vm.stackSize < stackLimit

structure Undisturbed (h : Heap) (c : Context) (vm vm' : Vm) : Prop where
  region : h.SameRegion vm.heap → h.SameRegion vm'.heap
  fluids : vm.fluids.defaults.toList <+: vm'.fluids.defaults.toList
  words : ∀ k, c.arena.cursor = some k → ∀ a ∈ h.blockRange k.block,
    vm'.heap.memory.read a = vm.heap.memory.read a

variable {h : Heap} {vm vm' vm'' : Vm} {c : Context} {cs cs' : List Context}

theorem Undisturbed.refl (h : Heap) (c : Context) (vm : Vm) : Undisturbed h c vm vm :=
  ⟨fun hs => hs, List.prefix_rfl, fun _ _ _ _ => rfl⟩

theorem Undisturbed.trans (hu : Undisturbed h c vm vm') (hu' : Undisturbed h c vm' vm'') :
    Undisturbed h c vm vm'' :=
  ⟨fun hs => hu'.region (hu.region hs), hu.fluids.trans hu'.fluids,
    fun k hk a ha => (hu'.words k hk a ha).trans (hu.words k hk a ha)⟩

theorem HasContexts.perm (hs : vm.HasContexts h cs) (hperm : cs'.Perm cs) :
    vm.HasContexts h cs' := by
  obtain ⟨released, haccounts⟩ := hs.accounts
  refine ⟨hs.region, ⟨released, ?_⟩, fun c hc => hs.seated c (hperm.mem_iff.mp hc), hs.mapped,
    hs.threads, hs.stackSize_lt⟩
  rw [hperm.length_eq]
  exact haccounts.perm (hperm.flatMap_right _)

theorem HasContexts.contains_of_mem (hs : vm.HasContexts h cs) (hc : c ∈ cs) {k : Cursor}
    (hk : c.arena.cursor = some k) {a : Nat} (ha : a ∈ h.blockRange k.block) : h.contains a :=
  Heap.contains_of_mem (hs.seated c hc k hk).1 ha

theorem HasContexts.create {settings : HeapSettings} {stackSize : Nat}
    (hstack : stackSize < stackLimit) (hcreate : Vm.create settings stackSize = .ok vm) :
    vm.HasContexts vm.heap [] ∧ vm.heap.settings = settings ∧ vm.heap.regionEnd ≤ 2 ^ 64 := by
  obtain ⟨h, memory, r, hheap, rfl, -⟩ := VmRun.create_eq hcreate
  have hbase := Heap.mayStartAt_of_create hheap
  have hfollows := Heap.Follows.create hheap
  obtain ⟨-, -, rfl⟩ := Heap.create_eq_ok hheap
  have haccounts := Heap.Accounts.create hheap
  refine ⟨⟨⟨rfl, rfl⟩, ⟨0, ?_⟩, fun c hc => absurd hc List.not_mem_nil, hfollows.regionEnd_le,
    fun i => ?_, hstack⟩, rfl, hbase.le_limit⟩
  · exact haccounts.sameBlocks ⟨rfl, rfl, rfl, rfl, rfl⟩
  · apply Bool.eq_false_iff.mpr
    intro hin
    have hle : Mapping.firstAddress ≤ 0 + 8 := ((Heap.contains_iff _ _).mp hin).1
    exact absurd hle (by decide)

theorem openContext_eq_ok (hopen : vm.openContext = .ok (c, vm')) :
    vm.stackSize < stackLimit ∧ c = ⟨vm.threads.size, .new, #[], #[], #[]⟩ ∧
      vm'.fluids = vm.fluids ∧ vm'.heap.settings = vm.heap.settings ∧
      vm'.heap.free = vm.heap.free := by
  unfold openContext at hopen
  split at hopen
  · cases hopen
    exact ⟨by assumption, rfl, rfl, rfl, rfl⟩
  · contradiction

theorem openContext_shared (hs : vm.HasContexts h cs) (hopen : vm.openContext = .ok (c, vm')) :
    vm'.HasContexts h (c :: cs) ∧ ∀ d ∈ cs, Undisturbed h d vm vm' := by
  unfold openContext at hopen
  split at hopen
  · cases hopen
    obtain ⟨released, haccounts⟩ := hs.accounts
    refine ⟨⟨⟨hs.region.start, hs.region.settings⟩, ⟨released, ?_⟩, ?_,
        Nat.le_add_right_of_le hs.mapped, fun i => ?_, hs.stackSize_lt⟩,
      fun d hd => ⟨fun hr => ⟨hr.start, hr.settings⟩, List.prefix_rfl, fun k hk a ha => ?_⟩⟩
    · exact haccounts.openArena.sameBlocks ⟨rfl, rfl, rfl, rfl, rfl⟩
    · intro d hd k hk
      rcases List.mem_cons.mp hd with rfl | hd
      · contradiction
      · exact hs.seated d hd k hk
    · have hold := hs.threads i
      have hmapped := hs.mapped
      simp only [threadAddress, Array.getD_eq_getD_getElem?, Array.getElem?_push] at hold ⊢
      split
      · apply Bool.eq_false_iff.mpr
        intro hin
        have hlt := ((h.contains_iff _).mp hin).2
        change vm.heap.nextMapping + 8 < h.regionEnd at hlt
        omega
      · exact hold
    · have hlt := ((h.contains_iff a).mp (hs.contains_of_mem hd hk ha)).2
      have hmapped := hs.mapped
      refine Memory.read_writeAll_of_ne _ _ fun i _ => ?_
      change vm.heap.nextMapping + 8 * i ≠ a
      omega
  · contradiction

theorem HasContexts.exists_openContext (hs : vm.HasContexts h cs) :
    ∃ c vm', vm.openContext = .ok (c, vm') := by
  unfold openContext
  rw [if_pos hs.stackSize_lt]
  exact ⟨_, _, rfl⟩

theorem closeContext_shared (hs : vm.HasContexts h (c :: cs)) :
    (vm.closeContext c).HasContexts h cs ∧
      ∀ d ∈ cs, Undisturbed h d vm (vm.closeContext c) := by
  obtain ⟨released, haccounts⟩ := hs.accounts
  refine ⟨⟨⟨hs.region.start, hs.region.settings⟩, ⟨released, ?_⟩,
      fun d hd => hs.seated d (List.mem_cons_of_mem c hd), hs.mapped, hs.threads,
      hs.stackSize_lt⟩,
    fun d hd => ⟨fun hr => ⟨hr.start, hr.settings⟩, List.prefix_rfl, fun k hk a ha => ?_⟩⟩
  · exact Heap.Accounts.closeArena (haccounts.sameBlocks ⟨rfl, rfl, rfl, rfl, rfl⟩)
  · refine Memory.read_write_of_ne _ _ fun heq => ?_
    have hin := hs.contains_of_mem (List.mem_cons_of_mem c hd) hk ha
    rw [← heq, hs.threads] at hin
    contradiction

end Vm

namespace Machine

variable {H : Type} {h : Heap} {m m' m'' : Machine H} {pushed set : List Value}

def Courteous (h : Heap) (m m' : Machine H) : Prop :=
  ∀ cs, m.vm.HasContexts h (m.context :: cs) →
    m'.vm.HasContexts h (m'.context :: cs) ∧ ∀ c ∈ cs, Vm.Undisturbed h c m.vm m'.vm

structure TakesNothing (pushed set : List Value) (m m' : Machine H) : Prop
    extends Retains pushed set m m' where
  fluids : m.vm.fluids.defaults.toList <+: m'.vm.fluids.defaults.toList
  stackSize_eq : m'.vm.stackSize = m.vm.stackSize

theorem TakesNothing.refl (m : Machine H) : m.TakesNothing [] [] m :=
  ⟨Retains.refl [] [] m, List.prefix_rfl, rfl⟩

theorem TakesNothing.courteous (ht : m.TakesNothing pushed set m') : Courteous h m m' := by
  obtain ⟨⟨⟨log, hheap⟩, hthreads, harena, -, -⟩, hfluids, hstack⟩ := ht
  intro cs hs
  obtain ⟨released, haccounts⟩ := hs.accounts
  have hthread : ∀ i, m'.vm.threadAddress i = m.vm.threadAddress i := by
    intro i
    rw [Vm.threadAddress, Vm.threadAddress, hthreads]
  refine ⟨⟨?_, ⟨released, ?_⟩, ?_, ?_, fun i => ?_, hstack ▸ hs.stackSize_lt⟩,
    fun c hc => ⟨fun hr => ?_, hfluids, ?_⟩⟩
  · rw [hheap]
    exact ⟨hs.region.start, hs.region.settings⟩
  · rw [List.flatMap_cons, harena, hheap]
    exact haccounts.sameBlocks ⟨rfl, rfl, rfl, rfl, rfl⟩
  · intro c hc k hk
    rcases List.mem_cons.mp hc with rfl | hc
    · exact hs.seated m.context List.mem_cons_self k (harena ▸ hk)
    · exact hs.seated c (List.mem_cons_of_mem _ hc) k hk
  · rw [hheap]
    exact hs.mapped
  · rw [hthread]
    exact hs.threads i
  · rw [hheap]
    exact ⟨hr.start, hr.settings⟩
  · intro k _ a _
    rw [hheap]

theorem Courteous.trans (hc : Courteous h m m') (hc' : Courteous h m' m'') : Courteous h m m'' := by
  intro cs hs
  obtain ⟨hs', hu⟩ := hc cs hs
  obtain ⟨hs'', hu'⟩ := hc' cs hs'
  exact ⟨hs'', fun c hmem => (hu c hmem).trans (hu' c hmem)⟩

def Seated (h : Heap) (m : Machine H) : Prop :=
  h.SameRegion m.vm.heap ∧ ∀ k, m.context.arena.cursor = some k → h.Seats k

theorem TakesNothing.seated (ht : m.TakesNothing pushed set m') (hm : m.Seated h) :
    m'.Seated h := by
  obtain ⟨⟨⟨log, hheap⟩, -, harena, -, -⟩, -, -⟩ := ht
  refine ⟨?_, harena ▸ hm.2⟩
  rw [hheap]
  exact ⟨hm.1.start, hm.1.settings⟩

end Machine

namespace ObjectRequest

variable {H : Type} {env : Embedder H} {h : Heap} {m : Machine H}

theorem length_image_pos (r : ObjectRequest) : 0 < r.image.length := by
  cases r <;> exact Nat.succ_pos _

theorem courteous_allocate (hc : env.collector.IsGentle) {pending : List Value} {size a : Nat}
    {ws : List UInt64} (hws : 8 * ws.length = size) {x : Mutator ContextRoots H}
    (hallocate : Mutator.allocate env.collector (.ofWords size) (m.mutator pending) = .ok a x) :
    Machine.Courteous h m (Machine.writeWords a ws (m.withMutator x)).state := by
  intro cs hs
  have hseated : (m.mutator pending).Seated h := ⟨hs.region, hs.seated _ List.mem_cons_self⟩
  have hshares : (m.mutator pending).Shares h (cs.length + 1) (cs.flatMap (·.arena.blocks)) :=
    ⟨hs.accounts, hs.mapped⟩
  have hl : 0 < (Layout.ofWords size).align := Nat.succ_pos 7
  obtain ⟨⟨⟨released, haccounts⟩, hmapped⟩, hapart⟩ :=
    Mutator.allocate_shares hc hl hseated hshares hallocate
  have hdone := Mutator.allocate_seated hc.keepsRegion hl _ hseated
  rw [hallocate] at hdone
  obtain ⟨⟨hregion, hcursor⟩, -⟩ := hdone
  refine ⟨⟨⟨hregion.start, hregion.settings⟩, ⟨released, ?_⟩, ?_, hmapped, hs.threads,
      hs.stackSize_lt⟩,
    fun c hc' => ⟨fun _ => ⟨hregion.start, hregion.settings⟩, List.prefix_rfl, fun k hk b hb => ?_⟩⟩
  · exact haccounts.sameBlocks ⟨rfl, rfl, rfl, rfl, rfl⟩
  · intro c hc' k hk
    rcases List.mem_cons.mp hc' with rfl | hc'
    · exact hcursor k hk
    · exact hs.seated c (List.mem_cons_of_mem _ hc') k hk
  · have hheld : k.block ∈ cs.flatMap (·.arena.blocks) := by
      refine List.mem_flatMap.mpr ⟨c, hc', ?_⟩
      rw [Arena.blocks, hk]
      exact List.mem_singleton_self _
    have hbeside : b < a ∨ a + size ≤ b := hapart k.block hheld b hb
    change (x.heap.memory.writeAll a ws).read b = m.vm.heap.memory.read b
    rw [Memory.read_writeAll_of_ne _ ws fun i hi => by omega]
    exact Mutator.read_allocate hc.memory hallocate b

theorem perform_shared {r : ObjectRequest} (hc : env.collector.IsGentle) (hfits : r.Fits)
    (hseated : m.Seated h) :
    match r.perform env m with
    | .ok v m' => Machine.Courteous h m m' ∧ m'.Seated h ∧
        (∃ heap arena, m' =
          { m with vm := { m.vm with heap }, context := { m.context with arena } }) ∧
        ∃ a, v = .reference a ∧ m'.vm.heap.memory.header a = headerOf r.image ∧
          (r.size < h.settings.largeSize → 8 ∣ a ∧
            ∃ k, m'.context.arena.cursor = some k ∧ a ∈ h.blockRange k.block)
    | .error e _ => ∃ f, e = .fault f ∧ f.IsPanic := by
  have hheld := Mutator.allocate_held hc (.ofWords r.size) (m.mutator r.operands)
  have hseated' : (m.mutator r.operands).Seated h := hseated
  have hl : 0 < (Layout.ofWords r.size).align := Nat.succ_pos 7
  have hdone := Mutator.allocate_seated hc.keepsRegion hl _ hseated'
  have hraises := Mutator.allocate_raises hc.faults (.ofWords r.size) (m.mutator r.operands) trivial
  rw [r.perform_eq env]
  cases hop : Mutator.allocate env.collector (.ofWords r.size) (m.mutator r.operands) with
  | error f x =>
    rw [hop] at hheld hraises
    rw [Machine.allocateObject_error hop hheld.1]
    exact ⟨f, rfl, hraises⟩
  | ok a x =>
    rw [hop] at hheld hdone
    rw [Machine.allocateObject_ok hop hheld.1]
    obtain ⟨⟨hregion, hcursor⟩, hlies⟩ := hdone
    have hlength : 8 * r.image.length = r.size := r.length_image_iff.mpr hfits
    have hpos := r.length_image_pos
    have hhost : (Machine.writeWords a r.image (m.withMutator x)).state.host = m.host := hheld.2
    refine ⟨courteous_allocate hc hlength hop, ⟨⟨hregion.start, hregion.settings⟩, hcursor⟩,
      ⟨(Machine.writeWords a r.image (m.withMutator x)).state.vm.heap, x.arena, ?_⟩, a, rfl,
      Memory.header_writeAll_of_pos _ a hpos, fun hsmall => ?_⟩
    · rw [← hhost]
      rfl
    · obtain ⟨haligned, k, hk, hlow, hhigh⟩ := hlies hsmall
      have hhigh' : a + r.size ≤ h.blockEnd k.block := hhigh
      exact ⟨haligned, k, hk, hlow, by omega⟩

end ObjectRequest

end VmSupport
