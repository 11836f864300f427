import VmSupport.Proofs.BlockOwnership
import VmSupport.Proofs.HandedOut

/-!
Runs of any number of arenas on one heap: they allocate, exchange blocks, collect and are dropped in
any order, under any collector that only takes back what nobody owns, and the operating system maps
memory wherever there is room. What is returned in a run and what is taken back is recorded.
-/

namespace VmSupport

open EStateM

variable {R H : Type}

def Layout.IsPaged (l : Layout) : Prop := l.align.isPowerOfTwo ∧ l.align ≤ pageSize

instance (l : Layout) : Decidable l.IsPaged := by
  unfold Layout.IsPaged
  infer_instance

theorem Layout.IsPaged.align_pos {l : Layout} (h : l.IsPaged) : 0 < l.align :=
  Nat.pos_of_isPowerOfTwo h.1

theorem Layout.IsPaged.align_dvd {l : Layout} (h : l.IsPaged) : l.align ∣ pageSize := by
  obtain ⟨⟨k, hk⟩, hle⟩ := h
  have hpage : pageSize = 2 ^ 12 := rfl
  rw [hk, hpage] at hle ⊢
  exact Nat.pow_dvd_pow 2 ((Nat.pow_le_pow_iff_right (by decide)).mp hle)

namespace Collector

def OnlyReclaims (collector : Collector H) : Prop :=
  ∀ c : Collection H, c.heap.Reclaims (collector c).state.heap

def reporting (collector : Collector H) : Collector ((H × List HeapEvent) × Nat) :=
  (collector.noting fun c events => c.heap.endings (collector c).state.heap ++ events).beside

theorem reporting_state (collector : Collector H) (c : Collection ((H × List HeapEvent) × Nat)) :
    let after := (collector ⟨c.heap, c.roots, c.host.1.1⟩).state.heap
    (collector.reporting c).state.heap = after ∧
      (collector.reporting c).state.host.1.2 = c.heap.endings after ++ c.host.1.2 := by
  obtain ⟨heap, roots, ⟨host, events⟩, n⟩ := c
  simp only [reporting, Collector.beside, Collector.noting]
  cases hc : collector ⟨heap, roots, host⟩ <;> exact ⟨rfl, rfl⟩

end Collector

namespace Collection

variable {α β : Type}

def LeavesGround (op : Action H α) : Prop :=
  ∀ start large, Keeps (fun c => c.heap.start = start ∧ c.heap.large ⊆ large) op

theorem LeavesGround.bind {op : Action H α} {f : α → Action H β} (h : LeavesGround op)
    (hf : ∀ a, LeavesGround (f a)) : LeavesGround (op >>= f) :=
  fun start large => (h start large).bind fun a => hf a start large

theorem LeavesGround.pure (a : α) : LeavesGround (pure a : Action H α) := fun _ _ => Keeps.pure a

theorem LeavesGround.get : LeavesGround (get : Action H (Collection H)) := fun _ _ => Keeps.get

theorem LeavesGround.note (r : LogRecord) : LeavesGround (note r : Action H Unit) :=
  fun _ _ _ hc => hc

theorem LeavesGround.onHeap {op : Heap.Action α}
    (h : ∀ heap, (op heap).state.start = heap.start ∧ (op heap).state.large ⊆ heap.large) :
    LeavesGround (onHeap op : Action H α) := by
  rintro start large ⟨heap, roots, host⟩ ⟨rfl, hlarge⟩
  obtain ⟨hstart, hsub⟩ := h heap
  simp only [Collection.onHeap]
  cases hop : op heap <;>
    · rw [hop] at hstart hsub
      exact ⟨hstart, fun _ hmapping => hlarge (hsub hmapping)⟩

theorem LeavesGround.onMemory (op : EStateM Fault Memory α) :
    LeavesGround (Collection.onHeap (Heap.onMemory op) : Action H α) := by
  refine LeavesGround.onHeap fun heap => ?_
  simp only [Heap.onMemory]
  cases op heap.memory <;> exact ⟨rfl, fun _ h => h⟩

theorem LeavesGround.releaseBlock (b : Nat) :
    LeavesGround (Collection.onHeap (Heap.releaseBlock b) : Action H Unit) := by
  refine LeavesGround.onHeap fun heap => ?_
  by_cases hb : b ∈ heap.retired
  · rw [Heap.releaseBlock_of_mem hb]
    exact ⟨rfl, fun _ h => h⟩
  · rw [Heap.releaseBlock_of_not_mem hb]
    exact ⟨rfl, fun _ h => h⟩

theorem LeavesGround.releaseDead (isLive : Nat → Bool) (bs : List Nat) :
    LeavesGround (releaseDead isLive bs : Action H Nat) :=
  fun start large =>
    keeps_releaseDead (fun b => LeavesGround.releaseBlock b start large) isLive bs

theorem LeavesGround.reclaimUnlessShared :
    LeavesGround (reclaimUnlessShared : Action H Unit) := by
  intro start large
  apply keeps_reclaimUnlessShared
  · exact fun op => LeavesGround.onMemory op start large
  · exact fun b => LeavesGround.releaseBlock b start large
  · intro isLive
    refine LeavesGround.onHeap (fun heap => ?_) start large
    obtain ⟨n, hsweep⟩ := sweepLarge_ok isLive heap
    rw [hsweep]
    exact ⟨rfl, List.filter_sublist.subset⟩
  · exact fun r => LeavesGround.note r start large

end Collection

namespace Collector

theorem onlyReclaims_of {collector : Collector H} (hblocks : Collection.OnlyReleases collector)
    (hground : Collection.LeavesGround collector) : collector.OnlyReclaims := by
  intro c
  obtain ⟨hstart, hlarge⟩ := (hground c.heap.start c.heap.large).state ⟨rfl, fun _ h => h⟩
  exact ⟨hblocks c, hstart, hlarge⟩

theorem blocks_onlyReclaims : (Collector.blocks : Collector H).OnlyReclaims :=
  onlyReclaims_of Collection.OnlyReleases.reclaimUnlessShared
    Collection.LeavesGround.reclaimUnlessShared

def releasing : Collector H :=
  ((do
    let c ← get
    let _ ← Collection.releaseDead (fun _ => false) c.heap.retired) : Collection.Action H Unit)

theorem releasing_onlyReclaims : (releasing : Collector H).OnlyReclaims := by
  refine onlyReclaims_of (Collection.OnlyReleases.get.bind fun c => ?_)
    (Collection.LeavesGround.get.bind fun c => ?_)
  · exact (Collection.OnlyReleases.releaseDead _ _).bind fun _ => Collection.OnlyReleases.pure ()
  · exact (Collection.LeavesGround.releaseDead _ _).bind fun _ => Collection.LeavesGround.pure ()

end Collector

namespace Mutator

def Orderly (settings : HeapSettings) (arenas : Nat) (others : List Cursor)
    (m : Mutator R ((H × List HeapEvent) × Nat)) : Prop :=
  m.heap.Orderly settings arenas (m.arena.cursor.toList ++ others) m.host.1.2

variable {collector : Collector H} {settings : HeapSettings} {arenas : Nat}
  {others : List Cursor} [RootSet R]

theorem Orderly.collect {m : Mutator R ((H × List HeapEvent) × Nat)}
    (ho : m.Orderly settings arenas others) (hc : collector.OnlyReclaims) :
    (Mutator.collect collector.reporting m).state.Orderly settings arenas others := by
  obtain ⟨heap, arena, roots, host⟩ := m
  simp only [Mutator.collect]
  generalize hstart : Collection.mk (Heap.note _ _) (RootSet.toList roots) host = c
  have hstarted : c.heap.Orderly settings arenas (arena.cursor.toList ++ others) c.host.1.2 := by
    rw [← hstart]
    exact ho.sameBlocks ⟨rfl, rfl, rfl, rfl, rfl⟩ rfl rfl
  obtain ⟨hheap, hevents⟩ := collector.reporting_state c
  have hdone := hstarted.reclaim (hc ⟨c.heap, c.roots, c.host.1.1⟩)
  rw [← hevents, ← hheap] at hdone
  cases hr : collector.reporting c <;>
    · rw [hr] at hdone
      exact hdone

theorem Step.orderly {m m' : Mutator R ((H × List HeapEvent) × Nat)}
    (hstep : Step collector.reporting m m') (hc : collector.OnlyReclaims)
    (ho : m.Orderly settings arenas others) : m'.Orderly settings arenas others := by
  cases hstep with
  | count => exact ho
  | note heap arena roots host r => exact Heap.Orderly.note ho r
  | retire heap c allocated roots host => exact Heap.Orderly.retire ho
  | take heap b rest allocated roots host hfree hb => exact Heap.Orderly.take ho hfree
  | lose heap b rest arena roots host hfree hb =>
    have hlt : b < heap.blockCount := Heap.Orderly.lt_blockCount ho (hfree ▸ List.mem_cons_self)
    exact absurd hlt (Nat.not_lt.mpr hb)
  | bump heap c next allocated roots host hbump hnext => exact Heap.Orderly.bump ho hbump hnext
  | collect => exact ho.collect hc

theorem Steps.orderly {m m' : Mutator R ((H × List HeapEvent) × Nat)}
    (hsteps : Steps collector.reporting m m') (hc : collector.OnlyReclaims)
    (ho : m.Orderly settings arenas others) : m'.Orderly settings arenas others := by
  induction hsteps with
  | refl => exact ho
  | tail _ hstep ih => exact hstep.orderly hc ih

theorem orderly_of_steps {α : Type} {op : Action R ((H × List HeapEvent) × Nat) α}
    (hc : collector.OnlyReclaims) (hop : ∀ m, Keeps (Steps collector.reporting m) op) :
    Keeps (Orderly settings arenas others) op := by
  intro m ho
  have hsteps := hop m m .refl
  cases hr : op m <;>
    · rw [hr] at hsteps
      exact Steps.orderly hsteps hc ho

def report (l : Layout) (address : Nat) (mapped : Bool) :
    Action R ((H × List HeapEvent) × Nat) Unit :=
  modify fun m =>
    let block := if mapped then none else m.arena.cursor.map Cursor.block
    { m with host := ((m.host.1.1, .returned address l.size block :: m.host.1.2), m.host.2) }

def performReported (collector : Collector H) :
    ArenaOp → Action R ((H × List HeapEvent) × Nat) Unit
  | .allocate l => do
    let mapped := decide ((← get).heap.settings.largeSize ≤ l.size)
    let address ← allocate collector.reporting l
    report l address mapped
  | .allocateOnBlock l => do
    match ← allocateOnBlock l with
    | some address => report l address false
    | none => return
  | .exchangeBlock => exchangeBlock collector.reporting
  | .collect => Mutator.collect collector.reporting

theorem Placed.orderly {m m' : Mutator R ((H × List HeapEvent) × Nat)} {l : Layout} {address : Nat}
    (hp : Placed collector.reporting m l address m') (hc : collector.OnlyReclaims)
    (hl : 0 < l.align) (ho : m.Orderly settings arenas others) :
    (report l address false m').state.Orderly settings arenas others := by
  obtain ⟨heap, c, allocated, total, roots, host, hsteps, hplace⟩ := hp
  have ho' : heap.Orderly settings arenas (c :: others) host.1.2 := hsteps.orderly hc ho
  obtain ⟨-, haddress, hlimit⟩ := Arena.place?_eq_some.mp hplace
  exact ho'.placed (haddress ▸ le_alignUp hl c.bump) hlimit

omit [RootSet R] in
theorem Mapped.orderly {m m' : Mutator R ((H × List HeapEvent) × Nat)} {l : Layout}
    (hm : Mapped m l m') (hmay : m.heap.MayMap l.size) (ho : m.Orderly settings arenas others) :
    (report l m.heap.nextMapping true m').state.Orderly settings arenas others := by
  obtain ⟨total, hfits⟩ := hm
  exact Heap.Orderly.mapped ho hmay

end Mutator

namespace ArenaOp

/-- The alignment is a power of two up to the page size, and for an object too large for a block the
operating system has room at the place it chose. -/
def Legal (h : Heap) : ArenaOp → Prop
  | .allocate l => l.IsPaged ∧ (h.settings.largeSize ≤ l.size → h.MayMap l.size)
  | .allocateOnBlock l => l.IsPaged
  | .exchangeBlock | .collect => True

instance (h : Heap) : (op : ArenaOp) → Decidable (op.Legal h)
  | .allocate l => inferInstanceAs (Decidable (l.IsPaged ∧ (_ → h.MayMap l.size)))
  | .allocateOnBlock l => inferInstanceAs (Decidable l.IsPaged)
  | .exchangeBlock | .collect => inferInstanceAs (Decidable True)

end ArenaOp

namespace Mutator

variable {collector : Collector H} {settings : HeapSettings} {arenas : Nat}
  {others : List Cursor} [RootSet R]

theorem allocate_reported (hc : collector.OnlyReclaims) (l : Layout) :
    Ensures (performReported collector (.allocate l))
      (fun m : Mutator R _ => m.Orderly settings arenas others ∧ (ArenaOp.allocate l).Legal m.heap)
      (fun _ m => m.Orderly settings arenas others) (Orderly settings arenas others) := by
  rintro m ⟨ho, hl, hmay⟩
  have hspec := allocate_steps collector.reporting m hl.align_pos m rfl
  simp only [performReported, bind, EStateM.bind, get, getThe, MonadStateOf.get, EStateM.get]
  cases hr : allocate collector.reporting l m with
  | error e m' =>
    rw [hr] at hspec
    exact Steps.orderly hspec hc ho
  | ok address m' =>
    rw [hr] at hspec
    simp only at hspec
    by_cases hlarge : m.heap.settings.largeSize ≤ l.size
    · rw [if_pos hlarge] at hspec
      obtain ⟨rfl, hmapped⟩ := hspec
      simp only [hlarge, decide_true]
      exact hmapped.orderly (hmay hlarge) ho
    · rw [if_neg hlarge] at hspec
      simp only [hlarge, decide_false]
      exact hspec.orderly hc hl.align_pos ho

theorem performReported_orderly (hc : collector.OnlyReclaims) (op : ArenaOp) :
    Ensures (performReported collector op)
      (fun m : Mutator R _ => m.Orderly settings arenas others ∧ op.Legal m.heap)
      (fun _ m => m.Orderly settings arenas others) (Orderly settings arenas others) := by
  cases op with
  | allocate l => exact allocate_reported hc l
  | allocateOnBlock l =>
    rintro m ⟨ho, hl⟩
    have hspec := allocateOnBlock_steps collector.reporting m hl.align_pos m .refl
    simp only [performReported, bind, EStateM.bind]
    cases hr : allocateOnBlock l m with
    | error e m' =>
      rw [hr] at hspec
      exact Steps.orderly hspec hc ho
    | ok placed m' =>
      rw [hr] at hspec
      cases placed with
      | none => exact Steps.orderly hspec hc ho
      | some address => exact Placed.orderly hspec hc hl.align_pos ho
  | exchangeBlock =>
    exact (orderly_of_steps hc fun _ => exchangeBlock_steps).mono (fun _ h => h.1) (fun _ _ h => h)
      fun _ h => h
  | collect =>
    exact (orderly_of_steps hc fun _ => collect_steps).mono (fun _ h => h.1) (fun _ _ h => h)
      fun _ h => h

theorem allocate_lies (hc : collector.OnlyReclaims) {l : Layout} (hl : l.IsPaged)
    {m m' : Mutator R ((H × List HeapEvent) × Nat)} (ho : m.Orderly settings arenas others)
    (hmay : settings.largeSize ≤ l.size → m.heap.MayMap l.size) {address : Nat}
    (h : allocate collector.reporting l m = .ok address m') :
    l.align ∣ address ∧
      (l.size < settings.largeSize → ∃ c, m'.arena.cursor = some c ∧
        c.block < m'.heap.blockCount ∧ m'.heap.blockStart c.block ≤ address ∧
        address + l.size ≤ m'.heap.blockEnd c.block) ∧
      (settings.largeSize ≤ l.size → m'.arena.cursor = m.arena.cursor ∧
        m'.heap.large = ⟨address, alignUp pageSize l.size⟩ :: m.heap.large) := by
  have hspec := allocate_steps collector.reporting m hl.align_pos m rfl
  rw [h] at hspec
  simp only [Heap.Orderly.settings_eq ho] at hspec
  by_cases hlarge : settings.largeSize ≤ l.size
  · rw [if_pos hlarge] at hspec
    obtain ⟨rfl, total, hfits⟩ := hspec
    exact ⟨Nat.dvd_trans hl.align_dvd (hmay hlarge).aligned,
      fun hlt => absurd hlarge (Nat.not_le.mpr hlt), fun _ => ⟨rfl, rfl⟩⟩
  · rw [if_neg hlarge] at hspec
    obtain ⟨heap, c, allocated, total, roots, host, hsteps, hplace⟩ := hspec
    have ho' : heap.Orderly settings arenas (c :: others) host.1.2 := hsteps.orderly hc ho
    obtain ⟨-, haddress, hlimit⟩ := Arena.place?_eq_some.mp hplace
    obtain ⟨hlow, -, hend⟩ := ho'.bounds c List.mem_cons_self
    have hblock : c.block < heap.blockCount := ho'.block_lt List.mem_cons_self
    refine ⟨haddress ▸ dvd_alignUp _ _, fun _ => ⟨_, rfl, hblock, ?_, ?_⟩,
      fun hle => absurd hle hlarge⟩
    · exact Nat.le_trans hlow (haddress ▸ le_alignUp hl.align_pos c.bump)
    · exact hend ▸ hlimit

end Mutator

inductive SharedHeapOp (R : Type)
  | openArena
  | dropArena (arena : Nat)
  | onArena (arena : Nat) (roots : R) (op : ArenaOp)

def SharedHeapOp.Legal (h : Heap) : SharedHeapOp R → Prop
  | .onArena _ _ op => op.Legal h
  | .openArena | .dropArena _ => True

instance (h : Heap) : (op : SharedHeapOp R) → Decidable (op.Legal h)
  | .onArena _ _ op => inferInstanceAs (Decidable (op.Legal h))
  | .openArena | .dropArena _ => inferInstanceAs (Decidable True)

namespace BlockOwners

def mapAt (s : BlockOwners H) (place : Nat) : BlockOwners H :=
  { s with heap := { s.heap with nextMapping := place } }

section Run

variable [RootSet R] (collector : Collector H)

def performReported : SharedHeapOp R → Action (H × List HeapEvent) Unit
  | .openArena => openArena
  | .dropArena i => dropArena i
  | .onArena i roots op => onArena i roots (Mutator.performReported collector op)

/-- One operation after the other, each with the place where memory is mapped if it needs a mapping;
a fault ends the operation and leaves the state as it is then. -/
def runReported (s : BlockOwners (H × List HeapEvent)) :
    List (Nat × SharedHeapOp R) → BlockOwners (H × List HeapEvent)
  | [] => s
  | (place, op) :: ops => runReported (performReported collector op (s.mapAt place)).state ops

def LegalRun (s : BlockOwners (H × List HeapEvent)) : List (Nat × SharedHeapOp R) → Prop
  | [] => True
  | (place, op) :: ops => op.Legal (s.mapAt place).heap ∧
    LegalRun (performReported collector op (s.mapAt place)).state ops

instance decidableLegalRun (s : BlockOwners (H × List HeapEvent)) :
    (ops : List (Nat × SharedHeapOp R)) → Decidable (LegalRun collector s ops)
  | [] => inferInstanceAs (Decidable True)
  | (_, _) :: ops => @instDecidableAnd _ _ inferInstance (decidableLegalRun _ ops)

end Run

def cursors (s : BlockOwners H) : List Cursor := s.live.flatMap (·.cursor.toList)

def Orderly (settings : HeapSettings) (s : BlockOwners (H × List HeapEvent)) : Prop :=
  s.heap.Orderly settings s.live.length s.cursors s.host.2

variable {settings : HeapSettings} {s : BlockOwners (H × List HeapEvent)}

theorem Orderly.mapAt (ho : s.Orderly settings) (place : Nat) : (s.mapAt place).Orderly settings :=
  Heap.Orderly.sameBlocks ho ⟨rfl, rfl, rfl, rfl, rfl⟩ rfl rfl

theorem Orderly.openArena (ho : s.Orderly settings) :
    (BlockOwners.openArena s).state.Orderly settings := by
  have hlive : (BlockOwners.openArena s).state.live = s.live ++ [.new] := List.filterMap_append
  have hcursors : (BlockOwners.openArena s).state.cursors = s.cursors := by
    simp [cursors, hlive, Arena.new]
  unfold Orderly
  rw [hcursors, hlive, List.length_append]
  exact Heap.Orderly.openArena ho

theorem orderly_iff {h : Heap} {live before after : List Arena} {a : Arena}
    {events : List HeapEvent} (hlive : live = before ++ a :: after) :
    h.Orderly settings live.length (live.flatMap (·.cursor.toList)) events ↔
      h.Orderly settings ((before ++ after).length + 1)
        (a.cursor.toList ++ (before ++ after).flatMap (·.cursor.toList)) events := by
  have hlength : live.length = (before ++ after).length + 1 := by
    rw [hlive, List.length_append, List.length_append, List.length_cons, Nat.add_assoc]
  have hperm := flatMap_middle_perm (fun a : Arena => a.cursor.toList) before after a
  rw [hlength, hlive]
  exact ⟨fun ho => ho.perm hperm.symm, fun ho => ho.perm hperm⟩

theorem Orderly.dropArena (ho : s.Orderly settings) (i : Nat) :
    (BlockOwners.dropArena i s).state.Orderly settings := by
  unfold BlockOwners.dropArena
  cases hi : s.arenas[i]? with
  | none => exact ho
  | some slot =>
    cases slot with
    | none => exact ho
    | some a =>
      obtain ⟨before, after, hslots, -, hset⟩ := filterMap_id_set hi
      have hlive' : ({ s with heap := s.heap.closeArena a, arenas := s.arenas.set i none } :
          BlockOwners (H × List HeapEvent)).live = before ++ after := hset
      change Orderly settings { s with heap := s.heap.closeArena a, arenas := s.arenas.set i none }
      unfold Orderly cursors
      rw [hlive']
      exact ((orderly_iff hslots).mp ho).closeArena

theorem Orderly.onArena {op : Mutator.Action R ((H × List HeapEvent) × Nat) Unit}
    (legal : Heap → Prop)
    (hop : ∀ arenas others, Ensures op (fun m => m.Orderly settings arenas others ∧ legal m.heap)
      (fun _ m => m.Orderly settings arenas others) (Mutator.Orderly settings arenas others))
    (ho : s.Orderly settings) (hlegal : legal s.heap) (i : Nat) (roots : R) :
    (BlockOwners.onArena i roots op s).state.Orderly settings := by
  unfold BlockOwners.onArena
  cases hi : s.arenas[i]? with
  | none => exact ho
  | some slot =>
    cases slot with
    | none => exact ho
    | some a =>
      obtain ⟨before, after, hslots, hset, -⟩ := filterMap_id_set hi
      have hback : ∀ m : Mutator R ((H × List HeapEvent) × Nat),
          m.Orderly settings ((before ++ after).length + 1)
            ((before ++ after).flatMap (·.cursor.toList)) → (s.update i m).Orderly settings :=
        fun m hm => (orderly_iff (hset m.arena)).mpr hm
      have hrun := hop _ _ ⟨s.heap, a, roots, s.host, s.released⟩
        ⟨(orderly_iff hslots).mp ho, hlegal⟩
      simp only
      cases hr : op ⟨s.heap, a, roots, s.host, s.released⟩ <;>
        · simp only [hr] at hrun
          exact hback _ hrun

variable [RootSet R] {collector : Collector H}

theorem Orderly.performReported (hc : collector.OnlyReclaims) (ho : s.Orderly settings)
    (op : SharedHeapOp R) (hlegal : op.Legal s.heap) :
    (BlockOwners.performReported collector op s).state.Orderly settings := by
  cases op with
  | openArena => exact ho.openArena
  | dropArena i => exact ho.dropArena i
  | onArena i roots op =>
    exact ho.onArena op.Legal (fun _ _ => Mutator.performReported_orderly hc op) hlegal i roots

theorem Orderly.runReported (hc : collector.OnlyReclaims) (ho : s.Orderly settings)
    (ops : List (Nat × SharedHeapOp R)) (hlegal : LegalRun collector s ops) :
    (BlockOwners.runReported collector s ops).Orderly settings := by
  induction ops generalizing s with
  | nil => exact ho
  | cons op ops ih =>
    exact ih ((ho.mapAt op.1).performReported hc op.2 hlegal.1) hlegal.2

/-- The memory that arenas hand out never overlaps. In each state of a run, an arena without a block
has no cursor, and one with a block has its cursor inside it. What it returns next is aligned; if
small it lies in the block that the arena has then, if large it has a mapping of its own and the
arena stays as it is. Two ranges returned in the run are apart, unless the block or the mapping of
the earlier one was taken back in between. -/
theorem returned_apart (hc : collector.OnlyReclaims) {h : Heap}
    (hcreate : Heap.create settings = .ok h) {base : Nat} (hbase : pageSize ∣ base) (host : H)
    (ops : List (Nat × SharedHeapOp R))
    (hlegal : LegalRun collector ⟨{ h with start := base }, [], [], (host, []), 0⟩ ops) :
    let s := BlockOwners.runReported collector ⟨{ h with start := base }, [], [], (host, []), 0⟩ ops
    (∀ a ∈ s.live, ∀ c, a.cursor = some c → c.block < s.heap.blockCount ∧
      s.heap.blockStart c.block ≤ c.bump ∧ c.bump ≤ c.limit ∧ c.limit = s.heap.blockEnd c.block) ∧
    (∀ place, ∀ a ∈ s.live, ∀ (roots : R) (l : Layout) (address : Nat)
        (m : Mutator R ((H × List HeapEvent) × Nat)), l.IsPaged →
      (settings.largeSize ≤ l.size → (s.mapAt place).heap.MayMap l.size) →
      Mutator.allocate collector.reporting l
        ⟨(s.mapAt place).heap, a, roots, s.host, s.released⟩ = .ok address m →
      l.align ∣ address ∧
      (l.size < settings.largeSize → ∃ c, m.arena.cursor = some c ∧
        c.block < m.heap.blockCount ∧ m.heap.blockStart c.block ≤ address ∧
        address + l.size ≤ m.heap.blockEnd c.block) ∧
      (settings.largeSize ≤ l.size → m.arena.cursor = a.cursor ∧
        m.heap.large = ⟨address, alignUp pageSize l.size⟩ :: s.heap.large)) ∧
    ∀ later between earlier start₁ size₁ block₁ start₂ size₂ block₂,
      s.host.2 = later ++ .returned start₂ size₂ block₂ ::
        (between ++ .returned start₁ size₁ block₁ :: earlier) →
      HeapEvent.ending start₁ block₁ ∈ between ∨
        start₁ + size₁ ≤ start₂ ∨ start₂ + size₂ ≤ start₁ := by
  intro s
  have ho : s.Orderly settings := by
    refine Orderly.runReported hc ?_ ops hlegal
    exact Heap.Orderly.create hcreate hbase
  refine ⟨?_, ?_, ?_⟩
  · intro a ha c hcursor
    have hmem : c ∈ s.cursors := List.mem_flatMap.mpr ⟨a, ha, Option.mem_toList.mpr hcursor⟩
    obtain ⟨hlow, hbump, hlimit⟩ := ho.bounds c hmem
    exact ⟨ho.block_lt hmem, hlow, hbump, hlimit⟩
  · intro place a ha roots l address m hl hmay hallocate
    obtain ⟨before, after, hlive⟩ := List.append_of_mem ha
    have hview : Mutator.Orderly settings ((before ++ after).length + 1)
        ((before ++ after).flatMap (·.cursor.toList))
        (⟨(s.mapAt place).heap, a, roots, s.host, s.released⟩ : Mutator R _) :=
      (orderly_iff hlive).mp (ho.mapAt place)
    exact Mutator.allocate_lies hc hl hview hmay hallocate
  · intro later between earlier start₁ size₁ block₁ start₂ size₂ block₂ hevents
    by_cases hending : HeapEvent.ending start₁ block₁ ∈ between
    · exact Or.inl hending
    · exact Or.inr (ho.separate.apart hevents hending)

theorem returned_apart_of_two :
    let ops : List (Nat × SharedHeapOp (List Value)) := [(0, .openArena), (0, .openArena),
      (0, .onArena 0 [] (.allocate ⟨1000, 8⟩)), (0, .onArena 1 [] (.allocate ⟨16, 64⟩)),
      (65536, .onArena 0 [] (.allocate ⟨3000, 4096⟩)), (0, .onArena 0 [] .exchangeBlock),
      (0, .onArena 0 [] (.allocate ⟨1000, 16⟩))]
    let h : Heap := (Heap.create ⟨8192, 4096, 2048⟩).toOption.getD default
    let s : BlockOwners (Unit × List HeapEvent) := ⟨{ h with start := 16384 }, [], [], ((), []), 0⟩
    (Heap.create ⟨8192, 4096, 2048⟩ = .ok h ∧ pageSize ∣ 16384 ∧ LegalRun .releasing s ops) ∧
      (runReported .releasing s ops).host.2 =
        [.returned 16384 1000 (some 0), .released 0, .returned 65536 3000 none,
          .returned 20480 16 (some 1), .returned 16384 1000 (some 0)] ∧
      (HeapEvent.ending 16384 (some 0) ∈ [] ∨ 16384 + 1000 ≤ 20480 ∨ 20480 + 16 ≤ 16384) := by
  intro ops h s
  have hcreate : Heap.create ⟨8192, 4096, 2048⟩ = .ok h := rfl
  have hbase : pageSize ∣ 16384 := ⟨4, rfl⟩
  have hlegal : LegalRun .releasing s ops := by decide +kernel
  have hevents : (runReported .releasing s ops).host.2 =
      [.returned 16384 1000 (some 0), .released 0, .returned 65536 3000 none,
        .returned 20480 16 (some 1), .returned 16384 1000 (some 0)] := by
    decide +kernel
  obtain ⟨-, -, hapart⟩ :=
    returned_apart Collector.releasing_onlyReclaims hcreate hbase () ops hlegal
  exact ⟨⟨hcreate, hbase, hlegal⟩, hevents,
    hapart [_, _, _] [] [] 16384 1000 (some 0) 20480 16 (some 1) hevents⟩

end BlockOwners

end VmSupport
