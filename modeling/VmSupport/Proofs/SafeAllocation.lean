import VmSupport.Proofs.Placement
import VmSupport.Proofs.RootSlots

namespace VmSupport

open EStateM

/-- What an arena shares its heap with, and the extents of the objects that have to be kept. -/
structure Surroundings (R : Type) where
  arenas : Nat
  others : List Cursor
  threads : List Nat
  memory : Memory
  roots : R
  kept : Nat → Nat → Prop

structure Surroundings.Rooted {R : Type} [RootSet R] (k : Surroundings R) : Prop where
  nonempty : ∀ {start stop}, k.kept start stop → start < stop
  markable : k.arenas ≤ 1 → k.memory.Markable (RootSet.toList k.roots)
  reached : k.arenas ≤ 1 → ∀ {start stop}, k.kept start stop →
    k.memory.Reaches (RootSet.toList k.roots) start ∧ k.memory.isPinned start = false

namespace Memory

variable {m m' : Memory} {roots : List Value}

theorem Markable.congr (hm : m.Markable roots) (hread : ∀ a, m'.read a = m.read a) :
    m'.Markable roots := by
  have hheader : ∀ a, m'.header a = m.header a := by
    intro a
    rw [header, header, hread]
  refine ⟨?_, ?_, ?_, ?_⟩
  · intro a ha
    rw [isMarked, hheader]
    exact hm.unmarked (ha.congr hread)
  · intro a ha hpinned
    rw [isPinned, hheader] at hpinned
    rw [hheader]
    exact hm.leaf (ha.congr hread) hpinned
  · intro a ha
    rw [hheader]
    exact hm.typed (ha.congr hread)
  · intro a b slots ha hb hslots
    rw [hheader] at hslots
    exact hm.apart (ha.congr hread) (hb.congr hread) hslots

end Memory

namespace Mutator

variable {R H : Type} {k : Surroundings R}

def cursors (k : Surroundings R) (m : Mutator R H) : List Cursor :=
  m.arena.cursor.toList ++ k.others

structure Safe (k : Surroundings R) (m : Mutator R H) : Prop where
  regular : m.heap.Regular k.arenas (m.cursors k) k.threads
  read : ∀ a, m.heap.memory.read a = k.memory.read a
  roots_eq : m.roots = k.roots
  placed : ∀ {start stop}, k.kept start stop → m.heap.Places (m.cursors k) start stop

structure Room (k : Surroundings R) (m : Mutator R H) (start stop : Nat) : Prop where
  places : m.heap.Places (m.cursors k) start stop
  aligned : 8 ∣ start
  stop_le : stop ≤ Mapping.addressLimit
  apart : ∀ {s t}, k.kept s t → t ≤ start ∨ stop ≤ s

theorem Safe.note {heap : Heap} {arena : Arena} {roots : R} {host : H}
    (hm : Safe k ⟨heap, arena, roots, host⟩) (r : LogRecord) :
    Safe k ⟨heap.note r, arena, roots, host⟩ :=
  ⟨hm.regular.note r, hm.read, hm.roots_eq, fun hkept => hm.placed hkept⟩

theorem countBytes_keeps {P : Mutator R H → Prop} (size : Nat)
    (hP : ∀ heap cursor allocated allocated' roots host,
      P ⟨heap, ⟨cursor, allocated⟩, roots, host⟩ → P ⟨heap, ⟨cursor, allocated'⟩, roots, host⟩) :
    Keeps P (countBytes size) := by
  refine Keeps.get.bind fun m => ?_
  simp only
  split
  · rintro ⟨heap, ⟨cursor, allocated⟩, roots, host⟩ hm
    exact hP _ _ _ _ _ _ hm
  · exact Keeps.throw _

theorem retire_safe :
    Ensures (retire (R := R) (H := H)) (Safe k) (fun _ m => m.arena.cursor = none ∧ Safe k m)
      (Safe k) := by
  rintro ⟨heap, ⟨cursor, allocated⟩, roots, host⟩ hm
  cases cursor with
  | none => exact ⟨rfl, hm⟩
  | some c =>
    have hregular : heap.Regular k.arenas (c :: k.others) k.threads := hm.regular
    obtain ⟨released, haccounts⟩ := hregular.accounts
    have hlt := haccounts.divided.lt_blockCount List.mem_cons_self
    simp only [retire, bind, EStateM.bind, get, getThe, MonadStateOf.get, EStateM.get, onHeap,
      Heap.retireBlock_of_lt hlt]
    have hretired := Heap.Accounts.retire [c.block] haccounts
    refine ⟨rfl, ⟨?_, hm.read, hm.roots_eq, fun hkept => ?_⟩⟩
    · exact hregular.change ⟨rfl, rfl⟩ (fun _ h => h) ⟨released, hretired⟩
        fun d hd => hregular.cursors d (List.mem_cons_of_mem c hd)
    · apply Heap.Places.change _ ⟨rfl, rfl⟩ (fun _ _ _ h => h) (fun _ h _ _ => h)
      apply (hm.placed hkept).mono
      intro d hd
      exact Or.inl ⟨d, List.mem_cons_of_mem c hd, rfl, Nat.le_refl _⟩

variable [RootSet R] [LawfulRootSet R]

def collecting (h : Heap) : Heap :=
  Heap.note { h with stats := { h.stats with collections := h.stats.collections + 1 } }
    (.collectionRequested (h.stats.collections + 1) h.retired.length)

theorem collect_blocks_ok {heap heap' : Heap} {roots : R} {host : H} (arena : Arena)
    (hrun : Collection.reclaimUnlessShared ⟨collecting heap, RootSet.toList roots, host⟩ =
      .ok () ⟨heap', RootSet.toList roots, host⟩) :
    collect .blocks (⟨heap, arena, roots, host⟩ : Mutator R H) =
      .ok () ⟨heap', arena, roots, host⟩ := by
  have hrun' : (Collector.blocks : Collector H) ⟨collecting heap, RootSet.toList roots, host⟩ =
      .ok () ⟨heap', RootSet.toList roots, host⟩ := hrun
  unfold collecting at hrun'
  simp only [collect, hrun', LawfulRootSet.refill_toList]

theorem collect_safe (hk : k.Rooted) : Keeps (Safe (H := H) k) (collect .blocks) := by
  rintro ⟨heap, arena, roots, host⟩ hm
  have hroots : roots = k.roots := hm.roots_eq
  let cursors := arena.cursor.toList ++ k.others
  let started := collecting heap
  obtain ⟨released, haccounts⟩ := hm.regular.accounts
  have harenas : started.arenas = k.arenas := haccounts.arenas_eq
  have hmark : started.arenas ≤ 1 → started.memory.Markable (RootSet.toList roots) := by
    intro hle
    rw [hroots]
    rw [harenas] at hle
    exact (hk.markable hle).congr hm.read
  have hnodup : started.retired.Nodup := haccounts.divided.retired_nodup
  obtain ⟨h', hrun, hground, hread, hshared, hspares⟩ :=
    Collection.reclaimUnlessShared_ok hmark hnodup host
  obtain ⟨n, hreleases⟩ :=
    Collection.OnlyReleases.reclaimUnlessShared ⟨started, RootSet.toList roots, host⟩
  rw [hrun] at hreleases
  have hstarted : started.Accounts heap.settings k.arenas (cursors.map Cursor.block) released :=
    haccounts.sameBlocks ⟨rfl, rfl, rfl, rfl, rfl⟩
  have haccounts' := hstarted.releases hreleases
  have hregular : started.Regular k.arenas cursors k.threads :=
    hm.regular.change ⟨rfl, rfl⟩ (fun _ h => h) ⟨released, hstarted⟩ hm.regular.cursors
  have hlarge : h'.large ⊆ started.large := by
    by_cases hone : started.arenas ≤ 1
    · exact (hspares hone).large
    · rw [(hshared (Nat.lt_of_not_le hone)).2]
      exact fun _ h => h
  rw [collect_blocks_ok arena hrun]
  refine ⟨?_, fun a => (hread a).trans (hm.read a), hroots, ?_⟩
  · exact hregular.change hground.sameRegion hlarge ⟨_, haccounts'⟩ hregular.cursors
  · intro start stop hkept
    have hplaced : started.Places cursors start stop := hm.placed hkept
    -- alone, the collector spares what is reached; beside other arenas it takes nothing
    by_cases hone : started.arenas ≤ 1
    · obtain ⟨hreached, hunpinned⟩ := hk.reached (harenas ▸ hone) hkept
      rw [← hroots] at hreached
      have hsame : ∀ a, k.memory.read a = started.memory.read a := fun a => (hm.read a).symm
      have hunpinned' : started.memory.isPinned start = false := by
        rwa [Memory.isPinned, Memory.header, ← hsame]
      exact hplaced.spared hregular (hk.nonempty hkept) (hspares hone) (hreached.congr hsame)
        hunpinned'
    · obtain ⟨hfree, hmappings⟩ := hshared (Nat.lt_of_not_le hone)
      apply hplaced.change hground.sameRegion
      · intro b _ _ hb
        rwa [hfree] at hb
      · intro mapping hmapping _ _
        rwa [hmappings]

omit [RootSet R] [LawfulRootSet R] in
theorem takeBlock_safe {h : Heap} {b : Nat} {rest : List Nat} {allocated : Nat} {host : H}
    {roots : R} (hm : Safe k ⟨h, ⟨none, allocated⟩, roots, host⟩) (hfree : h.free = b :: rest) :
    Safe k (⟨{ h with
      free := rest
      stats := { h.stats with handedOut := h.stats.handedOut + 1 } },
      ⟨some ⟨b, h.blockStart b, h.blockEnd b⟩, allocated⟩, roots, host⟩ : Mutator R H) := by
  let c : Cursor := ⟨b, h.blockStart b, h.blockEnd b⟩
  let taken : Heap := { h with
    free := rest
    stats := { h.stats with handedOut := h.stats.handedOut + 1 } }
  have hregular : h.Regular k.arenas k.others k.threads := hm.regular
  obtain ⟨released, haccounts⟩ := hregular.accounts
  have htaken : taken.Accounts h.settings k.arenas ((c :: k.others).map Cursor.block) released :=
    haccounts.handOut hfree
  have hcursor : h.CursorFits c :=
    ⟨Nat.le_refl _, Nat.le_add_right _ _, rfl, hregular.dvd_blockStart b⟩
  have hregion : h.SameRegion taken := ⟨rfl, rfl⟩
  have hregular' : taken.Regular k.arenas (c :: k.others) k.threads := by
    apply hregular.change hregion (fun _ h => h) ⟨released, htaken⟩
    intro d hd
    rcases List.mem_cons.mp hd with rfl | hd
    · exact hcursor
    · exact hregular.cursors d hd
  refine ⟨hregular', hm.read, hm.roots_eq, fun {start stop} hkept => ?_⟩
  have hplaced : h.Places k.others start stop := hm.placed hkept
  have hplaced' : h.Places (c :: k.others) start stop := by
    apply hplaced.mono
    intro d hd
    rcases List.mem_cons.mp hd with rfl | hd
    · right
      change b ∈ h.free
      rw [hfree]
      exact List.mem_cons_self
    · exact Or.inl ⟨d, hd, rfl, Nat.le_refl _⟩
  apply hplaced'.change hregion _ (fun _ hmapping _ _ => hmapping)
  intro d _ _ hd
  rw [hfree]
  exact List.mem_cons_of_mem b hd

def withBlock (m : Mutator R H) (b : Nat) : Mutator R H :=
  { m with arena := { m.arena with cursor := some ⟨b, m.heap.blockStart b, m.heap.blockEnd b⟩ } }

omit [RootSet R] [LawfulRootSet R] in
theorem onHeap_requestBlock_safe :
    Ensures (onHeap Heap.requestBlock) (fun m : Mutator R H => m.arena.cursor = none ∧ Safe k m)
      (fun b m => m.arena.cursor = none ∧ match b with
        | none => Safe k m
        | some b => Safe k (m.withBlock b))
      (Safe k) := by
  rintro ⟨heap, ⟨cursor, allocated⟩, roots, host⟩ ⟨rfl, hm⟩
  simp only [onHeap, Heap.requestBlock, bind, EStateM.bind, get, getThe, MonadStateOf.get,
    EStateM.get]
  cases hfree : heap.free with
  | nil => exact ⟨rfl, hm⟩
  | cons b rest => exact ⟨rfl, takeBlock_safe hm hfree⟩

theorem requestBlock_safe (hk : k.Rooted) :
    Ensures (requestBlock .blocks) (fun m : Mutator R H => m.arena.cursor = none ∧ Safe k m)
      (fun b m => m.arena.cursor = none ∧ Safe k (m.withBlock b)) (Safe k) := by
  refine onHeap_requestBlock_safe.bind fun b => ?_
  cases b with
  | some b => exact Ensures.pure fun _ hm => hm
  | none =>
    have hcollect : Keeps (fun m : Mutator R H => m.arena.cursor = none ∧ Safe k m)
        (collect .blocks) := (collect_cursor .blocks none).and (collect_safe hk)
    refine (hcollect.mono (fun _ h => h) (fun _ _ h => h) fun _ h => h.2).bind fun _ => ?_
    refine onHeap_requestBlock_safe.bind fun b => ?_
    cases b with
    | some b => exact Ensures.pure fun _ hm => hm
    | none => exact fun _ hm => hm.2

theorem exchangeBlock_safe (hk : k.Rooted) : Keeps (Safe (H := H) k) (exchangeBlock .blocks) := by
  refine retire_safe.bind fun _ => (requestBlock_safe hk).bind fun b => ?_
  rintro ⟨heap, ⟨cursor, allocated⟩, roots, host⟩ ⟨rfl, hm⟩
  let c : Cursor := ⟨b, heap.blockStart b, heap.blockEnd b⟩
  have hregular : heap.Regular k.arenas (c :: k.others) k.threads := hm.regular
  obtain ⟨released, haccounts⟩ := hregular.accounts
  have hlt : b < heap.blockCount := haccounts.divided.lt_blockCount List.mem_cons_self
  simp only [bind, EStateM.bind, onHeap, Heap.blockBounds_of_lt hlt]
  have hm' : Safe k ⟨heap, ⟨some c, allocated⟩, roots, host⟩ := hm
  exact hm'.note (.arenaSwitched b)

omit [RootSet R] [LawfulRootSet R] in
theorem bump_safe {heap : Heap} {c : Cursor} {allocated : Nat} {roots : R} {host : H} {size : Nat}
    (hm : Safe k ⟨heap, ⟨some c, allocated⟩, roots, host⟩) (hfits : c.bump + size ≤ c.limit)
    (hsize : 8 ∣ size) :
    let m : Mutator R H :=
      ⟨heap, ⟨some { c with bump := c.bump + size }, allocated⟩, roots, host⟩
    Safe k m ∧ Room k m c.bump (c.bump + size) := by
  have hregular : heap.Regular k.arenas (c :: k.others) k.threads := hm.regular
  have hlimit := hregular.limit_le List.mem_cons_self
  have hend := hregular.regionEnd_le_addressLimit
  refine ⟨⟨hregular.bump hfits hsize, hm.read, hm.roots_eq, fun {start stop} hkept => ?_⟩,
    hregular.bump_places hfits, (hregular.cursors c List.mem_cons_self).aligned, by omega,
    fun {s t} hkept => ?_⟩
  · have hplaced : heap.Places (c :: k.others) start stop := hm.placed hkept
    apply hplaced.mono
    intro d hd
    left
    rcases List.mem_cons.mp hd with rfl | hd
    · exact ⟨c, List.mem_cons_self, rfl, Nat.le_add_right _ _⟩
    · exact ⟨d, List.mem_cons_of_mem c hd, rfl, Nat.le_refl _⟩
  · rcases hregular.unused List.mem_cons_self (hm.placed hkept) with hbelow | hbeyond
    · exact Or.inl hbelow
    · exact Or.inr (Nat.le_trans hfits hbeyond)

omit [RootSet R] [LawfulRootSet R] in
theorem allocateOnBlock_safe {size : Nat} (hsize : 8 ∣ size) :
    Ensures (allocateOnBlock (.ofWords size)) (Safe (H := H) k)
      (fun
        | none, m => Safe k m
        | some address, m => Safe k m ∧ Room k m address (address + size))
      (Safe k) := by
  rintro ⟨heap, ⟨cursor, allocated⟩, roots, host⟩ hm
  simp only [allocateOnBlock, bind, EStateM.bind, get, getThe, MonadStateOf.get, EStateM.get]
  cases hp : (Arena.mk cursor allocated).place? (.ofWords size) with
  | none => exact hm
  | some placed =>
    obtain ⟨c, address⟩ := placed
    obtain ⟨hcursor, haddress, hfits⟩ := Arena.place?_eq_some.mp hp
    simp only at hcursor
    subst hcursor
    have haligned : 8 ∣ c.bump := (hm.regular.cursors c List.mem_cons_self).aligned
    have hbump : c.bump = address := by
      rw [← haddress]
      exact (alignUp_of_dvd (by decide) haligned).symm
    subst hbump
    have hcount : Keeps (fun m : Mutator R H => Safe k m ∧ Room k m c.bump (c.bump + size))
        (countBytes size) :=
      countBytes_keeps size fun _ _ _ _ _ _ h =>
        ⟨⟨h.1.regular, h.1.read, h.1.roots_eq, h.1.placed⟩,
          h.2.places, h.2.aligned, h.2.stop_le, h.2.apart⟩
    have hdone : Ensures (countBytes size >>= fun _ => pure (some c.bump))
        (fun m : Mutator R H => Safe k m ∧ Room k m c.bump (c.bump + size))
        (fun
          | none, m => Safe k m
          | some address, m => Safe k m ∧ Room k m address (address + size))
        (Safe k) :=
      (hcount.mono (fun _ h => h) (fun _ _ h => h) fun _ h => h.1).bind fun _ =>
        Ensures.pure fun _ h => h
    exact hdone _ (bump_safe hm hfits hsize)

def MayMap (k : Surroundings R) (size : Nat) (m : Mutator R H) : Prop :=
  m.heap.settings.largeSize ≤ size → m.heap.MayMapBeside k.threads size

omit [RootSet R] [LawfulRootSet R] in
theorem allocateLarge_safe (size : Nat) :
    Ensures (onHeap (Heap.allocateLarge size))
      (fun m : Mutator R H => Safe k m ∧ m.heap.MayMapBeside k.threads size)
      (fun address m => Safe k m ∧ Room k m address (address + size)) (Safe k) := by
  rintro ⟨heap, arena, roots, host⟩ ⟨hm, hmap⟩
  have hregular : heap.Regular k.arenas (arena.cursor.toList ++ k.others) k.threads := hm.regular
  have hmap' : heap.MayMapBeside k.threads size := hmap
  simp only [onHeap, Heap.allocateLarge, bind, EStateM.bind, get, getThe, MonadStateOf.get,
    EStateM.get]
  by_cases hfits : Mapping.FitsAt heap.nextMapping (alignUp pageSize size)
  · have hle : size ≤ alignUp pageSize size := le_alignUp (by decide) size
    simp only [hfits, ↓reduceIte]
    refine ⟨⟨hregular.addMapping hmap' _, hm.read, hm.roots_eq,
      fun {start stop} hkept => ?_⟩, Or.inr ⟨_, List.mem_cons_self, rfl, Nat.add_le_add_left hle _⟩,
      Nat.dvd_trans ⟨512, rfl⟩ hmap'.aligned,
      Nat.le_trans (Nat.add_le_add_left hle _) hfits.2,
      fun {s t} hkept => ?_⟩
    · rcases hm.placed hkept with hblock | ⟨mapping, hmapping, hlies⟩
      · exact Or.inl hblock
      · exact Or.inr ⟨mapping, List.mem_cons_of_mem _ hmapping, hlies⟩
    · rcases (hm.placed hkept).apart_mapping hmap'.toMayMap with hbelow | habove
      · exact Or.inl hbelow
      · exact Or.inr (Nat.le_trans (Nat.add_le_add_left hle _) habove)
  · simp only [hfits, ↓reduceIte]
    exact hm

theorem allocate_safe (hk : k.Rooted) {size : Nat} (hsize : 8 ∣ size) :
    Ensures (allocate .blocks (.ofWords size)) (fun m : Mutator R H => Safe k m ∧ MayMap k size m)
      (fun address m => Safe k m ∧ Room k m address (address + size)) (Safe k) := by
  have hcount : Ensures (countBytes size)
      (fun m : Mutator R H => Safe k m ∧ m.heap.MayMapBeside k.threads size)
      (fun _ m => Safe k m ∧ m.heap.MayMapBeside k.threads size) (Safe k) :=
    (countBytes_keeps size fun _ _ _ _ _ _ h =>
      ⟨⟨h.1.regular, h.1.read, h.1.roots_eq, h.1.placed⟩, h.2⟩).mono (fun _ h => h)
      (fun _ _ h => h) fun _ h => h.1
  have hmove := exchangeBlock_safe (H := H) hk
  have hget : Ensures (get : Action R H (Mutator R H)) (fun m => Safe k m ∧ MayMap k size m)
      (fun m s => s = m ∧ Safe k m ∧ MayMap k size m) (Safe k) := fun m hm => ⟨rfl, hm⟩
  refine hget.bind fun m => ?_
  split
  · rename_i hlarge
    refine (Ensures.bind hcount fun _ => allocateLarge_safe size).restrict ?_
    rintro _ ⟨rfl, hm, hmap⟩
    exact ⟨hm, hmap hlarge⟩
  · have hplace : Ensures (allocateOnBlock (.ofWords size))
        (fun s : Mutator R H => s = m ∧ Safe k m ∧ MayMap k size m) _ _ :=
      (allocateOnBlock_safe hsize).restrict fun s hs => hs.1 ▸ hs.2.1
    refine hplace.bind fun placed => ?_
    cases placed with
    | some address => exact Ensures.pure fun _ h => h
    | none =>
      refine Ensures.bind hmove fun _ => (allocateOnBlock_safe hsize).bind fun placed => ?_
      cases placed with
      | some address => exact Ensures.pure fun _ h => h
      | none => exact fun _ h => h

end Mutator

end VmSupport
