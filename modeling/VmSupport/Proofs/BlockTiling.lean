import VmSupport.Proofs.SharedHeap

namespace VmSupport

open EStateM

namespace Heap

def blockRange (h : Heap) (b : Nat) : Set Nat := Set.Ico (h.blockStart b) (h.blockEnd b)

section Words

def startWord (h : Heap) : UInt64 := .ofNat h.start

def blockSizeWord (h : Heap) : UInt64 := .ofNat h.settings.blockSize

def blockBoundsWord (h : Heap) (b : UInt64) : UInt64 × UInt64 :=
  (h.startWord + b * h.blockSizeWord, h.startWord + b * h.blockSizeWord + h.blockSizeWord)

def containsWord (h : Heap) (a : UInt64) : Bool :=
  h.startWord ≤ a && a < h.startWord + .ofNat h.settings.heapSize

def blockOfWord (h : Heap) (a : UInt64) : UInt64 := (a - h.startWord) / h.blockSizeWord

end Words

variable {h : Heap}

theorem blockStart_succ (h : Heap) (b : Nat) : h.blockStart (b + 1) = h.blockEnd b := by
  simp only [blockStart, blockEnd, Nat.succ_mul, Nat.add_assoc]

theorem pageSize_dvd_blockStart (hvalid : h.settings.IsValid) (haligned : pageSize ∣ h.start)
    (b : Nat) : pageSize ∣ h.blockStart b :=
  Nat.dvd_add haligned (Nat.dvd_trans hvalid.pageSize_dvd (Nat.dvd_mul_left _ _))

theorem mem_blockRange_iff (hvalid : h.settings.IsValid) {a b : Nat} (ha : h.start ≤ a) :
    a ∈ h.blockRange b ↔ h.blockOf a = b := by
  have hoffset : a - h.start + h.start = a := Nat.sub_add_cancel ha
  simp only [blockRange, Set.mem_Ico, blockOf, Nat.div_eq_iff hvalid.blockSize_pos, blockEnd,
    blockStart]
  have hpos := hvalid.blockSize_pos
  omega

theorem blockOf_lt_iff (hvalid : h.settings.IsValid) {a : Nat} (ha : h.start ≤ a) :
    h.blockOf a < h.blockCount ↔ a < h.regionEnd := by
  have hcount : h.blockCount * h.settings.blockSize = h.settings.heapSize :=
    Nat.div_mul_cancel hvalid.blockSize_dvd
  rw [blockOf, Nat.div_lt_iff_lt_mul hvalid.blockSize_pos, hcount, regionEnd]
  omega

theorem start_le_of_mem {a b : Nat} (ha : a ∈ h.blockRange b) : h.start ≤ a :=
  Nat.le_trans (h.start_le_blockStart b) ha.1

theorem mem_blockRange_blockOf (hvalid : h.settings.IsValid) {a : Nat} (ha : h.contains a) :
    h.blockOf a < h.blockCount ∧ a ∈ h.blockRange (h.blockOf a) := by
  obtain ⟨hstart, hend⟩ := (h.contains_iff a).mp ha
  exact ⟨(blockOf_lt_iff hvalid hstart).mpr hend, (mem_blockRange_iff hvalid hstart).mpr rfl⟩

theorem contains_of_mem {a b : Nat} (hb : b < h.blockCount) (ha : a ∈ h.blockRange b) :
    h.contains a :=
  (h.contains_iff a).mpr
    ⟨start_le_of_mem ha, Nat.lt_of_lt_of_le ha.2 (h.blockEnd_le_regionEnd hb)⟩

theorem pairwiseDisjoint_blockRange (h : Heap) :
    (Set.Iio h.blockCount).PairwiseDisjoint h.blockRange := by
  rintro b - b' - hne
  refine Set.disjoint_left.mpr fun a ha ha' => hne ?_
  rw [← h.blockOf_of_mem ha.1 ha.2, h.blockOf_of_mem ha'.1 ha'.2]

theorem iUnion_blockRange (hvalid : h.settings.IsValid) :
    ⋃ b ∈ Set.Iio h.blockCount, h.blockRange b = Set.Ico h.start h.regionEnd := by
  ext a
  simp only [Set.mem_iUnion₂, Set.mem_Iio, Set.mem_Ico, ← contains_iff]
  constructor
  · rintro ⟨b, hb, ha⟩
    exact contains_of_mem hb ha
  · intro ha
    obtain ⟨hb, hmem⟩ := mem_blockRange_blockOf hvalid ha
    exact ⟨h.blockOf a, hb, hmem⟩

theorem contains_iff_existsUnique (hvalid : h.settings.IsValid) (a : Nat) :
    h.contains a ↔ ∃! b, b < h.blockCount ∧ a ∈ h.blockRange b := by
  constructor
  · intro ha
    refine ⟨h.blockOf a, mem_blockRange_blockOf hvalid ha, ?_⟩
    rintro b ⟨-, hb⟩
    exact (h.blockOf_of_mem hb.1 hb.2).symm
  · rintro ⟨b, ⟨hb, ha⟩, -⟩
    exact contains_of_mem hb ha

section Words

variable (hfits : h.regionEnd < 2 ^ 64)

include hfits in
theorem toNat_startWord : h.startWord.toNat = h.start := by
  simp only [regionEnd] at hfits
  exact UInt64.toNat_ofNat_of_lt' (show h.start < 2 ^ 64 by omega)

include hfits in
theorem toNat_heapEndWord :
    (h.startWord + .ofNat h.settings.heapSize).toNat = h.regionEnd := by
  rw [UInt64.toNat_add, toNat_startWord hfits]
  simp only [regionEnd, UInt64.toNat_ofNat'] at hfits ⊢
  omega

include hfits in
theorem toNat_blockSizeWord (hvalid : h.settings.IsValid) :
    h.blockSizeWord.toNat = h.settings.blockSize := by
  have hle := Nat.le_of_dvd hvalid.heapSize_pos hvalid.blockSize_dvd
  simp only [regionEnd] at hfits
  exact UInt64.toNat_ofNat_of_lt' (show h.settings.blockSize < 2 ^ 64 by omega)

include hfits in
theorem toNat_blockBoundsWord (hvalid : h.settings.IsValid) {b : UInt64}
    (hb : b.toNat < h.blockCount) :
    (h.blockBoundsWord b).1.toNat = h.blockStart b.toNat ∧
      (h.blockBoundsWord b).2.toNat = h.blockEnd b.toNat := by
  have hend := h.blockEnd_le_regionEnd hb
  simp only [blockBoundsWord, UInt64.toNat_add, UInt64.toNat_mul, toNat_startWord hfits,
    toNat_blockSizeWord hfits hvalid]
  simp only [blockEnd, blockStart] at hend ⊢
  generalize b.toNat * h.settings.blockSize = offset at hend ⊢
  omega

include hfits in
theorem containsWord_eq (a : UInt64) : h.containsWord a = h.contains a.toNat := by
  rw [Bool.eq_iff_iff, contains_iff, containsWord, Bool.and_eq_true, decide_eq_true_eq,
    decide_eq_true_eq, UInt64.le_iff_toNat_le, UInt64.lt_iff_toNat_lt, toNat_startWord hfits,
    toNat_heapEndWord hfits]

include hfits in
theorem toNat_blockOfWord (hvalid : h.settings.IsValid) {a : UInt64} (ha : h.contains a.toNat) :
    (h.blockOfWord a).toNat = h.blockOf a.toNat := by
  have hstart := ((h.contains_iff a.toNat).mp ha).1
  have hle : h.startWord ≤ a := by rwa [UInt64.le_iff_toNat_le, toNat_startWord hfits]
  rw [blockOfWord, UInt64.toNat_div, UInt64.toNat_sub_of_le _ _ hle, toNat_startWord hfits,
    toNat_blockSizeWord hfits hvalid, blockOf]

end Words

def Seats (h : Heap) (c : Cursor) : Prop := c.block < h.blockCount ∧ h.CursorBounds c

theorem SameRegion.trans {h h' h'' : Heap} (hs : h.SameRegion h') (hs' : h'.SameRegion h'') :
    h.SameRegion h'' := ⟨hs'.start.trans hs.start, hs'.settings.trans hs.settings⟩

theorem SameRegion.seats {h h' : Heap} (hs : h.SameRegion h') {c : Cursor} (hc : h.Seats c) :
    h'.Seats c := by
  obtain ⟨hblock, hlow, hbump, hlimit⟩ := hc
  have hstart : h'.blockStart c.block = h.blockStart c.block := by
    rw [blockStart, blockStart, hs.start, hs.settings]
  refine ⟨?_, hstart ▸ hlow, hbump, ?_⟩
  · rw [blockCount, hs.settings]
    exact hblock
  · rw [blockEnd, hstart, hs.settings]
    exact hlimit

theorem Releases.settings {h h' : Heap} {n : Nat} (hr : h.Releases n h') :
    h'.settings = h.settings := by
  induction hr with
  | refl h => rfl
  | aside hs _ ih => rw [ih, hs.settings]
  | release b hb _ ih => exact ih

end Heap

def Collector.KeepsRegion {H : Type} (collector : Collector H) : Prop :=
  ∀ c : Collection H, c.heap.SameRegion (collector c).state.heap

theorem Collector.none_keepsRegion {H : Type} : (Collector.none : Collector H).KeepsRegion :=
  fun _ => ⟨rfl, rfl⟩

theorem Collector.blocks_keepsRegion {H : Type} :
    (Collector.blocks : Collector H).KeepsRegion := by
  intro c
  obtain ⟨n, hreleases⟩ := Collection.OnlyReleases.reclaimUnlessShared c
  have hground := Collection.LeavesGround.reclaimUnlessShared (H := H) c.heap.start c.heap.large
  exact ⟨(hground.state ⟨rfl, fun _ h => h⟩).1, hreleases.settings⟩

namespace ReleasingCollector

variable {H : Type}

def Stays (k : ReleasingCollector H) : Prop :=
  ∀ c : Collection H, (k.run c).state.heap.start = c.heap.start

theorem Stays.keepsRegion {k : ReleasingCollector H} (hk : k.Stays) : k.tallied.KeepsRegion := by
  intro c
  obtain ⟨heap, roots, host, count⟩ := c
  have hstart := hk ⟨heap, roots, host⟩
  have hsettings := (k.releases ⟨heap, roots, host⟩).settings
  simp only [tallied, Collector.noting]
  cases hr : k.run ⟨heap, roots, host⟩ <;>
    · rw [hr] at hstart hsettings
      exact ⟨hstart, hsettings⟩

theorem blocks_stays : (blocks : ReleasingCollector H).Stays := fun c =>
  (Collector.blocks_keepsRegion c).start

end ReleasingCollector

namespace Mutator

variable {R H : Type} {h : Heap}

def Seated (h : Heap) (m : Mutator R H) : Prop :=
  h.SameRegion m.heap ∧ ∀ c, m.arena.cursor = some c → h.Seats c

variable [RootSet R] {collector : Collector H}

theorem collect_seated (hc : collector.KeepsRegion) :
    Keeps (Seated (R := R) h) (Mutator.collect collector) := by
  rintro ⟨heap, arena, roots, host⟩ ⟨hregion, hcursor⟩
  simp only [Mutator.collect]
  generalize hstart : Collection.mk (Heap.note _ _) (RootSet.toList roots) host = c
  have hnoted : h.SameRegion c.heap := hstart ▸ ⟨hregion.start, hregion.settings⟩
  have hsame := hnoted.trans (hc c)
  cases hr : collector c <;>
    · rw [hr] at hsame
      exact ⟨hsame, hcursor⟩

theorem Step.seated {m m' : Mutator R H} (hstep : Step collector m m')
    (hc : collector.KeepsRegion) (hm : m.Seated h) : m'.Seated h := by
  obtain ⟨⟨hstart, hsettings⟩, hcursor⟩ := hm
  cases hstep with
  | count => exact ⟨⟨hstart, hsettings⟩, hcursor⟩
  | note => exact ⟨⟨hstart, hsettings⟩, hcursor⟩
  | retire => exact ⟨⟨hstart, hsettings⟩, fun _ hc => nomatch hc⟩
  | take heap b rest allocated roots host hfree hb =>
    refine ⟨⟨hstart, hsettings⟩, fun c hc => ?_⟩
    cases hc
    have hsame : heap.SameRegion h := ⟨hstart.symm, hsettings.symm⟩
    exact hsame.seats ⟨hb, Nat.le_refl _, Nat.le_add_right _ _, rfl⟩
  | lose => exact ⟨⟨hstart, hsettings⟩, hcursor⟩
  | bump heap c next allocated roots host hbump hnext =>
    refine ⟨⟨hstart, hsettings⟩, fun d hd => ?_⟩
    cases hd
    obtain ⟨hblock, hlow, -, hlimit⟩ := hcursor c rfl
    exact ⟨hblock, Nat.le_trans hlow hbump, hnext, hlimit⟩
  | collect => exact (collect_seated hc).state ⟨⟨hstart, hsettings⟩, hcursor⟩

theorem Steps.seated {m m' : Mutator R H} (hsteps : Steps collector m m')
    (hc : collector.KeepsRegion) (hm : m.Seated h) : m'.Seated h := by
  induction hsteps with
  | refl => exact hm
  | tail _ hstep ih => exact hstep.seated hc ih

theorem seated_of_steps {α : Type} {op : Action R H α} (hc : collector.KeepsRegion)
    (hop : ∀ m, Keeps (Steps collector m) op) : Keeps (Seated h) op :=
  keeps_iff.mpr fun m hm => Steps.seated ((hop m).state .refl) hc hm

theorem Placed.seated {m m' : Mutator R H} {l : Layout} {address : Nat}
    (hp : Placed collector m l address m') (hc : collector.KeepsRegion) (hl : 0 < l.align)
    (hm : m.Seated h) :
    m'.Seated h ∧ l.align ∣ address ∧ ∃ c, m'.arena.cursor = some c ∧
      h.blockStart c.block ≤ address ∧ address + l.size ≤ h.blockEnd c.block := by
  obtain ⟨heap, c, allocated, total, roots, host, hsteps, hplace⟩ := hp
  obtain ⟨hregion, hcursor⟩ := hsteps.seated hc hm
  obtain ⟨hblock, hlow, -, hlimit⟩ := hcursor c rfl
  obtain ⟨-, haddress, hfits⟩ := Arena.place?_eq_some.mp hplace
  have hbump : c.bump ≤ address := haddress ▸ le_alignUp hl c.bump
  refine ⟨⟨hregion, fun d hd => ?_⟩, haddress ▸ dvd_alignUp _ _, _, rfl,
    Nat.le_trans hlow hbump, hlimit ▸ hfits⟩
  cases hd
  exact ⟨hblock, Nat.le_trans hlow (Nat.le_add_right_of_le hbump), hfits, hlimit⟩

theorem allocate_seated (hc : collector.KeepsRegion) {l : Layout} (hl : 0 < l.align) :
    Ensures (allocate collector l) (Seated (R := R) h)
      (fun address m => m.Seated h ∧ (l.size < h.settings.largeSize → l.align ∣ address ∧
        ∃ c, m.arena.cursor = some c ∧ h.blockStart c.block ≤ address ∧
          address + l.size ≤ h.blockEnd c.block))
      (Seated h) := by
  intro m hm
  have hspec := allocate_steps collector m hl m rfl
  cases hr : allocate collector l m with
  | error e m' =>
    rw [hr] at hspec
    exact Steps.seated hspec hc hm
  | ok address m' =>
    rw [hr] at hspec
    simp only [hm.1.settings] at hspec
    by_cases hlarge : h.settings.largeSize ≤ l.size
    · rw [if_pos hlarge] at hspec
      obtain ⟨-, total, hfits⟩ := hspec
      exact ⟨⟨⟨hm.1.start, hm.1.settings⟩, hm.2⟩, fun hlt => absurd hlarge (Nat.not_le.mpr hlt)⟩
    · rw [if_neg hlarge] at hspec
      obtain ⟨hseated, hlies⟩ := hspec.seated hc hl hm
      exact ⟨hseated, fun _ => hlies⟩

theorem allocateOnBlock_seated {l : Layout} (hl : 0 < l.align) :
    Keeps (Seated (R := R) (H := H) h) (allocateOnBlock l) := by
  intro m hm
  have hc : (Collector.none : Collector H).KeepsRegion := Collector.none_keepsRegion
  have hspec := allocateOnBlock_steps .none m hl m .refl
  cases hr : allocateOnBlock l m with
  | error e m' =>
    rw [hr] at hspec
    exact Steps.seated hspec hc hm
  | ok placed m' =>
    rw [hr] at hspec
    cases placed with
    | none => exact Steps.seated hspec hc hm
    | some address => exact (Placed.seated hspec hc hl hm).1

end Mutator

def ArenaOp.HasAlign : ArenaOp → Prop
  | .allocate l | .allocateOnBlock l => 0 < l.align
  | .exchangeBlock | .collect => True

def BlockOp.HasAlign {R : Type} : BlockOp R → Prop
  | .onArena _ _ op => op.HasAlign
  | _ => True

namespace BlockOwners

variable {R H : Type} {h : Heap}

def Seated (h : Heap) (s : BlockOwners H) : Prop :=
  h.SameRegion s.heap ∧ ∀ a ∈ s.live, ∀ c, a.cursor = some c → h.Seats c

theorem onHeap_seated {α : Type} {op : Heap.Action α}
    (hop : ∀ heap : Heap, heap.SameRegion (op heap).state) :
    Keeps (Seated (H := H) h) (onHeap op) := by
  refine keeps_iff.mpr fun s hs => ?_
  have hsame := hop s.heap
  simp only [onHeap]
  cases hr : op s.heap <;>
    · rw [hr] at hsame
      exact ⟨hs.1.trans hsame, hs.2⟩

theorem onArena_seated {α : Type} {op : Mutator.Action R (H × Nat) α}
    (hop : Keeps (Mutator.Seated h) op) (i : Nat) (roots : R) :
    Keeps (Seated (H := H) h) (onArena i roots op) := by
  refine keeps_iff.mpr fun s hs => ?_
  unfold onArena
  cases hi : s.arenas[i]? with
  | none => exact hs
  | some slot =>
    cases slot with
    | none => exact hs
    | some a =>
      obtain ⟨before, after, hslots, hset, -⟩ := filterMap_id_set hi
      have hlive : s.live = before ++ a :: after := hslots
      have hback : ∀ m : Mutator R (H × Nat), m.Seated h → (s.update i m).Seated h := by
        intro m hm
        refine ⟨hm.1, fun d hd => ?_⟩
        have hmem : d ∈ before ++ m.arena :: after := hset m.arena ▸ hd
        rcases List.mem_append.mp hmem with hd | hd
        · exact hs.2 d (hlive ▸ List.mem_append_left _ hd)
        · rcases List.mem_cons.mp hd with rfl | hd
          · exact hm.2
          · exact hs.2 d (hlive ▸ List.mem_append_right _ (List.mem_cons_of_mem a hd))
      have hstart : Mutator.Seated h (Mutator.mk s.heap a roots (s.host, s.released)) :=
        ⟨hs.1, hs.2 a (hlive ▸ List.mem_append_right _ List.mem_cons_self)⟩
      have hdone := hop.state hstart
      simp only
      cases hr : op ⟨s.heap, a, roots, s.host, s.released⟩ <;>
        · rw [hr] at hdone
          exact hback _ hdone

theorem openArena_seated : Keeps (Seated (H := H) h) openArena := by
  refine keeps_iff.mpr fun s hs => ⟨⟨hs.1.start, hs.1.settings⟩, fun a ha => ?_⟩
  have hlive : ({ s with heap := s.heap.openArena, arenas := s.arenas ++ [some .new] } :
      BlockOwners H).live = s.live ++ [.new] := List.filterMap_append
  rcases List.mem_append.mp (hlive ▸ ha) with ha | ha
  · exact hs.2 a ha
  · rw [List.mem_singleton.mp ha]
    exact fun _ hc => nomatch hc

theorem dropArena_seated (i : Nat) : Keeps (Seated (H := H) h) (dropArena i) := by
  intro s hs
  unfold dropArena
  cases hi : s.arenas[i]? with
  | none => exact hs
  | some slot =>
    cases slot with
    | none => exact hs
    | some a =>
      obtain ⟨before, after, hslots, -, hset⟩ := filterMap_id_set hi
      have hlive : s.live = before ++ a :: after := hslots
      refine ⟨⟨hs.1.start, hs.1.settings⟩, fun d hd => hs.2 d ?_⟩
      have hmem : d ∈ before ++ after := hset ▸ hd
      rw [hlive]
      exact List.mem_append.mpr ((List.mem_append.mp hmem).imp_right (List.mem_cons_of_mem a))

theorem request_seated : Keeps (Seated (H := H) h) request := by
  refine (onHeap_seated fun heap => ?_).bind fun b => ?_
  · simp only [Heap.requestBlock, bind, EStateM.bind, get, getThe, MonadStateOf.get, EStateM.get]
    cases heap.free <;> exact ⟨rfl, rfl⟩
  · cases b <;> exact fun _ hs => hs

theorem retire_seated (b : Nat) : Keeps (Seated (H := H) h) (retire b) := by
  refine Keeps.get.bind fun s => ?_
  by_cases hb : b ∈ s.holders
  · rw [if_pos hb]
    refine (onHeap_seated fun heap => ?_).bind fun _ _ hs => hs
    by_cases hlt : b < heap.blockCount
    · rw [Heap.retireBlock_of_lt hlt]
      exact ⟨rfl, rfl⟩
    · rw [Heap.retireBlock_of_ge (Nat.le_of_not_lt hlt)]
      exact ⟨rfl, rfl⟩
  · rw [if_neg hb]
    exact Keeps.pure ()

theorem release_seated (b : Nat) : Keeps (Seated (H := H) h) (release b) := by
  refine (onHeap_seated fun heap => ?_).bind fun _ _ hs => hs
  by_cases hb : b ∈ heap.retired
  · rw [Heap.releaseBlock_of_mem hb]
    exact ⟨rfl, rfl⟩
  · rw [Heap.releaseBlock_of_not_mem hb]
    exact ⟨rfl, rfl⟩

variable [RootSet R] {k : ReleasingCollector H}

theorem perform_seated (hk : k.Stays) {op : BlockOp R} (hop : op.HasAlign) :
    Keeps (Seated h) (perform k op) := by
  cases op with
  | openArena => exact openArena_seated
  | dropArena i => exact dropArena_seated i
  | onArena i roots op =>
    refine onArena_seated ?_ i roots
    cases op with
    | allocate l =>
      exact ((Mutator.allocate_seated hk.keepsRegion hop).mono (fun _ hm => hm) (fun _ _ hm => hm.1)
        fun _ hm => hm).bind fun _ => Keeps.pure ()
    | allocateOnBlock l =>
      exact (Mutator.allocateOnBlock_seated hop).bind fun _ => Keeps.pure ()
    | exchangeBlock =>
      exact Mutator.seated_of_steps hk.keepsRegion fun _ => Mutator.exchangeBlock_steps
    | collect => exact Mutator.collect_seated hk.keepsRegion
  | request => exact request_seated
  | retire b => exact retire_seated b
  | release b => exact release_seated b

theorem run_seated (hk : k.Stays) (ops : List (BlockOp R)) (hops : ∀ op ∈ ops, op.HasAlign)
    {s : BlockOwners H} (hs : s.Seated h) : (run k s ops).Seated h := by
  induction ops generalizing s with
  | nil => exact hs
  | cons op ops ih =>
    have hop := hops op List.mem_cons_self
    exact ih (fun op' hop' => hops op' (List.mem_cons_of_mem op hop'))
      ((perform_seated hk hop).state hs)

/-- The blocks of a region on pages tile it, page by page: no two share an address, each address of
the region is in one of them, and dividing its offset gives which. On words of 64 bits the answers
are the same, if the end of the region is one. The region stays in every run of arenas, and an
object below the large size begins and ends in one block. -/
theorem blocks_tile (hfault : h.settings.fault? = none) (haligned : pageSize ∣ h.start) :
    (∀ b < h.blockCount, Heap.blockBounds b h = .ok (h.blockStart b, h.blockEnd b) h ∧
      pageSize ∣ h.blockStart b ∧ pageSize ∣ h.blockEnd b) ∧
    (Set.Iio h.blockCount).PairwiseDisjoint h.blockRange ∧
    ⋃ b ∈ Set.Iio h.blockCount, h.blockRange b =
      Set.Ico h.start (h.start + h.settings.heapSize) ∧
    (∀ a, (h.contains a ↔ ∃! b, b < h.blockCount ∧ a ∈ h.blockRange b) ∧
      (h.contains a → h.blockOf a < h.blockCount ∧ a ∈ h.blockRange (h.blockOf a))) ∧
    (h.start + h.settings.heapSize < 2 ^ 64 →
      (∀ b : UInt64, b.toNat < h.blockCount →
        (h.blockBoundsWord b).1.toNat = h.blockStart b.toNat ∧
          (h.blockBoundsWord b).2.toNat = h.blockEnd b.toNat) ∧
      ∀ a : UInt64, h.containsWord a = h.contains a.toNat ∧
        (h.contains a.toNat → (h.blockOfWord a).toNat = h.blockOf a.toNat)) ∧
    ∀ {k : ReleasingCollector H}, k.Stays → ∀ (host : H) (ops : List (BlockOp R)),
      (∀ op ∈ ops, op.HasAlign) →
      let s := run k ⟨h, [], [], host, 0⟩ ops
      h.SameRegion s.heap ∧
      ∀ a ∈ s.live, ∀ (roots : R) (l : Layout) (address : Nat) (m : Mutator R (H × Nat)),
        0 < l.align → 0 < l.size → l.size < h.settings.largeSize →
        Mutator.allocate k.tallied l ⟨s.heap, a, roots, s.host, s.released⟩ = .ok address m →
        h.contains address ∧ h.contains (address + l.size - 1) ∧
          h.blockOf (address + l.size - 1) = h.blockOf address := by
  have hvalid := (HeapSettings.fault?_eq_none_iff h.settings).mp hfault
  refine ⟨fun b hb => ⟨Heap.blockBounds_of_lt hb, Heap.pageSize_dvd_blockStart hvalid haligned b,
      h.blockStart_succ b ▸ Heap.pageSize_dvd_blockStart hvalid haligned (b + 1)⟩,
    h.pairwiseDisjoint_blockRange, Heap.iUnion_blockRange hvalid,
    fun a => ⟨Heap.contains_iff_existsUnique hvalid a, Heap.mem_blockRange_blockOf hvalid⟩,
    fun hfits => ⟨fun b hb => Heap.toNat_blockBoundsWord hfits hvalid hb,
      fun a => ⟨Heap.containsWord_eq hfits a, Heap.toNat_blockOfWord hfits hvalid⟩⟩, ?_⟩
  intro k hk host ops hops s
  have hs : s.Seated h := run_seated hk ops hops ⟨⟨rfl, rfl⟩, fun a ha => nomatch ha⟩
  refine ⟨hs.1, fun a ha roots l address m hl hpos hsmall hallocate => ?_⟩
  have hspec := Mutator.allocate_seated hk.keepsRegion hl ⟨s.heap, a, roots, s.host, s.released⟩
    ⟨hs.1, hs.2 a ha⟩
  rw [hallocate] at hspec
  obtain ⟨hseated, hlies⟩ := hspec
  obtain ⟨-, c, hcursor, hlow, hhigh⟩ := hlies hsmall
  have hblock := (hseated.2 c hcursor).1
  have hfirst : address ∈ h.blockRange c.block := ⟨hlow, by omega⟩
  have hlast : address + l.size - 1 ∈ h.blockRange c.block := ⟨by omega, by omega⟩
  refine ⟨Heap.contains_of_mem hblock hfirst, Heap.contains_of_mem hblock hlast, ?_⟩
  rw [h.blockOf_of_mem hfirst.1 hfirst.2, h.blockOf_of_mem hlast.1 hlast.2]

theorem blocks_tile_of_two :
    let h : Heap := { (Heap.create ⟨8192, 4096, 2048⟩).toOption.getD default with start := 16384 }
    let ops : List (BlockOp (List Value)) := [.openArena, .onArena 0 [] (.allocate ⟨2047, 1⟩),
      .onArena 0 [] (.allocate ⟨2047, 1⟩)]
    let s := run .blocks ⟨h, [], [], (), 0⟩ ops
    ((h.settings.fault? = none ∧ pageSize ∣ h.start) ∧ ∃ a ∈ s.live, ∃ m,
      Mutator.allocate (R := List Value) ReleasingCollector.blocks.tallied ⟨2, 1⟩
        ⟨s.heap, a, [], s.host, s.released⟩ = .ok 20478 m) ∧
      h.contains 20479 ∧ h.blockOf 20479 = h.blockOf 20478 ∧ (∃! b, b < h.blockCount ∧
        20480 ∈ h.blockRange b) := by
  intro h ops s
  have hfault : h.settings.fault? = none := by decide
  have haligned : pageSize ∣ h.start := ⟨4, rfl⟩
  have hops : ∀ op ∈ ops, op.HasAlign := by simp [ops, BlockOp.HasAlign, ArenaOp.HasAlign]
  obtain ⟨-, -, -, hcontains, -, hobjects⟩ :=
    blocks_tile (R := List Value) (H := Unit) hfault haligned
  obtain ⟨hregion, hobject⟩ := hobjects ReleasingCollector.blocks_stays () ops hops
  have hlive : s.live = [⟨some ⟨0, 20478, 20480⟩, 4094⟩] := by decide +kernel
  have hmem : ⟨some ⟨0, 20478, 20480⟩, 4094⟩ ∈ s.live := hlive ▸ List.mem_singleton_self _
  have hsmall : ¬s.heap.settings.largeSize ≤ 2 := by
    rw [hregion.settings]
    decide
  have hallocated : ∃ m, Mutator.allocate (R := List Value) ReleasingCollector.blocks.tallied ⟨2, 1⟩
      ⟨s.heap, ⟨some ⟨0, 20478, 20480⟩, 4094⟩, [], s.host, s.released⟩ = .ok 20478 m := by
    simp only [Mutator.allocate, bind, EStateM.bind, get, getThe, MonadStateOf.get, EStateM.get,
      hsmall, ↓reduceIte]
    exact ⟨_, rfl⟩
  obtain ⟨m, hm⟩ := hallocated
  obtain ⟨-, hlast, hblock⟩ :=
    hobject _ hmem [] ⟨2, 1⟩ 20478 m (by decide) (by decide) (by decide) hm
  exact ⟨⟨⟨hfault, haligned⟩, _, hmem, m, hm⟩, hlast, hblock, (hcontains 20480).1.mp (by decide)⟩

end BlockOwners

end VmSupport
