import VmSupport.Proofs.RestoredMemory

namespace VmSupport

open EStateM

namespace HeapSettings

def blockBytes (s : HeapSettings) (size : Nat) : Nat := if size < s.largeSize then size else 0

theorem blockBytes_of_lt {s : HeapSettings} {size : Nat} (h : size < s.largeSize) :
    s.blockBytes size = size := if_pos h

theorem blockBytes_of_le {s : HeapSettings} {size : Nat} (h : s.largeSize ≤ size) :
    s.blockBytes size = 0 := if_neg (Nat.not_lt.mpr h)

structure Affords (s : HeapSettings) (largest bytes : Nat) : Prop where
  largest_lt : largest < s.blockSize
  enough : 2 + bytes / (s.blockSize - largest) ≤ s.blockCount

theorem Affords.mono {s : HeapSettings} {largest bytes bytes' : Nat} (h : s.Affords largest bytes)
    (hle : bytes' ≤ bytes) : s.Affords largest bytes' :=
  ⟨h.largest_lt, Nat.le_trans (Nat.add_le_add_left (Nat.div_le_div_right hle) 2) h.enough⟩

end HeapSettings

namespace Heap

variable {h h' : Heap} {roots : List Value} {b : Nat}

def IsReached (h : Heap) (roots : List Value) (b : Nat) : Prop :=
  ∃ a, h.memory.Reaches roots a ∧ h.contains a ∧ h.blockOf a = b

theorem IsLive.isReached (hlive : h.IsLive roots b) : h.IsReached roots b := by
  obtain ⟨a, ha, -, hin, hblock⟩ := hlive
  exact ⟨a, ha, hin, hblock⟩

theorem IsReached.congr (hread : ∀ a, h'.memory.read a = h.memory.read a)
    (hground : h.SameGround h') (hb : h'.IsReached roots b) : h.IsReached roots b := by
  obtain ⟨a, ha, hin, hblock⟩ := hb
  refine ⟨a, ha.congr hread, ?_, ?_⟩
  · rwa [contains, hground.start, hground.settings] at hin
  · rwa [blockOf, hground.start, hground.settings] at hblock

def used (h : Heap) (arena : Arena) : Nat :=
  match arena.cursor with
  | none => 0
  | some c => c.bump - h.blockStart c.block

/-- The reached blocks are the block of the arena and some filled ones. All but the first of these
were filled with objects of these bytes, none of them larger than `largest`. -/
def IsPacked (h : Heap) (arena : Arena) (largest bytes : Nat) (reached : Nat → Prop) : Prop :=
  ∃ filled : List Nat, (∀ b, reached b → b ∈ filled ∨ b ∈ arena.blocks) ∧
    (filled ≠ [] → (filled.length - 1) * (h.settings.blockSize - largest) + h.used arena ≤ bytes)

end Heap

namespace Mutator

variable {R H : Type} [RootSet R] {m₀ m : Mutator R H} {threads : List Nat} {largest bytes : Nat}

structure Provided (threads : List Nat) (largest bytes : Nat) (m : Mutator R H) : Prop where
  regular : m.heap.Regular 1 m.arena.cursor.toList threads
  markable : m.heap.memory.Markable (RootSet.toList m.roots)
  afford : m.heap.settings.Affords largest bytes

structure Thrifty (m₀ : Mutator R H) (largest bytes : Nat) (m : Mutator R H) : Prop where
  rests : Rests m₀.heap.settings 1 [] m₀ m
  cursor : ∀ c ∈ m.arena.cursor, m.heap.CursorFits c
  packed : m.heap.IsPacked m.arena largest bytes (m₀.heap.IsReached (RootSet.toList m₀.roots))

theorem Provided.traceable (h : Provided threads largest bytes m₀) : m₀.Traceable 1 :=
  fun _ => h.markable

theorem Provided.thrifty {bytes' : Nat} (h : Provided threads largest bytes m₀)
    (hpacked : m₀.heap.IsPacked m₀.arena largest bytes'
      (m₀.heap.IsReached (RootSet.toList m₀.roots))) :
    Thrifty m₀ largest bytes' m₀ := by
  obtain ⟨released, haccounts⟩ := h.regular.accounts
  have hblocks : m₀.arena.cursor.toList.map Cursor.block = m₀.arena.blocks ++ [] := by
    unfold Arena.blocks
    cases m₀.arena.cursor <;> rfl
  rw [hblocks] at haccounts
  refine ⟨⟨fun _ => rfl, rfl, ⟨rfl, rfl, rfl⟩, released, haccounts⟩, ?_, hpacked⟩
  intro c hc
  exact h.regular.cursors c (Option.mem_toList.mpr hc)

theorem Thrifty.retire {heap : Heap} {c : Cursor} {allocated size : Nat} {roots : R} {host : H}
    (h : Thrifty m₀ largest bytes ⟨heap, ⟨some c, allocated⟩, roots, host⟩)
    (hfull : c.limit < c.bump + size) (hsize : size ≤ largest) :
    Thrifty m₀ largest bytes
      ⟨{ heap with retired := heap.retired ++ [c.block] }, ⟨none, allocated⟩, roots, host⟩ := by
  obtain ⟨⟨hread, hroots, hground, released, haccounts⟩, hcursor, filled, hreached, hbytes⟩ := h
  refine ⟨⟨hread, hroots, ⟨hground.settings, hground.start, hground.nextMapping⟩, released,
    Heap.Accounts.retire [c.block] haccounts⟩, fun d hd => (by cases hd), c.block :: filled,
    fun b hb => ?_, fun _ => ?_⟩
  · left
    rcases hreached b hb with hb | hb
    · exact List.mem_cons_of_mem _ hb
    · rw [List.mem_singleton.mp hb]
      exact List.mem_cons_self
  · -- the block that is retired is full, unless it is the first one
    have hused : heap.settings.blockSize - largest ≤ c.bump - heap.blockStart c.block := by
      have hlimit : c.limit = heap.blockStart c.block + heap.settings.blockSize :=
        (hcursor c rfl).limit_eq
      omega
    change (filled.length + 1 - 1) * (heap.settings.blockSize - largest) + 0 ≤ bytes
    rw [Nat.add_sub_cancel, Nat.add_zero]
    cases filled with
    | nil => exact Nat.le_trans (Nat.le_of_eq (Nat.zero_mul _)) (Nat.zero_le _)
    | cons b rest =>
      have hbytes' : (rest.length + 1 - 1) * (heap.settings.blockSize - largest) +
          (c.bump - heap.blockStart c.block) ≤ bytes := hbytes (List.cons_ne_nil b rest)
      rw [Nat.add_sub_cancel] at hbytes'
      rw [List.length_cons, Nat.succ_mul]
      omega

theorem Thrifty.take {heap : Heap} {b : Nat} {rest : List Nat} {allocated : Nat} {roots : R}
    {host : H} (h : Thrifty m₀ largest bytes ⟨heap, ⟨none, allocated⟩, roots, host⟩)
    (hstart : ∀ b, 8 ∣ heap.blockStart b) (hfree : heap.free = b :: rest) :
    Thrifty m₀ largest bytes
      (Mutator.withBlock ⟨heap.handOut rest, ⟨none, allocated⟩, roots, host⟩ b) := by
  obtain ⟨⟨hread, hroots, hground, released, haccounts⟩, -, filled, hreached, hbytes⟩ := h
  refine ⟨⟨hread, hroots, ⟨hground.settings, hground.start, hground.nextMapping⟩, released,
    haccounts.handOut hfree⟩, fun d hd => ?_, filled, fun b' hb' => ?_, fun hne => ?_⟩
  · cases hd
    exact ⟨Nat.le_refl _, Nat.le_add_right _ _, rfl, hstart b⟩
  · exact Or.inl ((hreached b' hb').resolve_right List.not_mem_nil)
  · have hused : (heap.handOut rest).used ⟨some ⟨b, heap.blockStart b, heap.blockEnd b⟩,
        allocated⟩ = 0 := Nat.sub_self _
    exact Nat.le_trans (Nat.le_of_eq (congrArg _ hused)) (hbytes hne)

theorem Thrifty.bump {heap : Heap} {c : Cursor} {allocated total size : Nat} {roots : R} {host : H}
    (h : Thrifty m₀ largest bytes ⟨heap, ⟨some c, allocated⟩, roots, host⟩) (hsize : 8 ∣ size)
    (hfits : c.bump + size ≤ c.limit) :
    Thrifty m₀ largest (bytes + size)
      ⟨heap, ⟨some { c with bump := c.bump + size }, total⟩, roots, host⟩ := by
  obtain ⟨⟨hread, hroots, hground, hreleased⟩, hcursor, filled, hreached, hbytes⟩ := h
  obtain ⟨hstart, hbump, hlimit, haligned⟩ := hcursor c rfl
  refine ⟨⟨hread, hroots, hground, hreleased⟩, fun d hd => ?_, filled, hreached, fun hne => ?_⟩
  · cases hd
    exact ⟨Nat.le_add_right_of_le hstart, hfits, hlimit, Nat.dvd_add haligned hsize⟩
  · have hbytes' : (filled.length - 1) * (heap.settings.blockSize - largest) +
        (c.bump - heap.blockStart c.block) ≤ bytes := hbytes hne
    change (filled.length - 1) * (heap.settings.blockSize - largest) +
      (c.bump + size - heap.blockStart c.block) ≤ bytes + size
    omega

theorem Thrifty.note {heap : Heap} {arena : Arena} {roots : R} {host : H}
    (h : Thrifty m₀ largest bytes ⟨heap, arena, roots, host⟩) (r : LogRecord) :
    Thrifty m₀ largest bytes ⟨heap.note r, arena, roots, host⟩ := by
  obtain ⟨⟨hread, hroots, hground, released, haccounts⟩, hcursor, hpacked⟩ := h
  refine ⟨⟨hread, hroots, ⟨hground.settings, hground.start, hground.nextMapping⟩, released,
    haccounts.sameBlocks ⟨rfl, rfl, rfl, rfl, rfl⟩⟩, fun c hc => ?_, hpacked⟩
  obtain ⟨hstart, hbump, hlimit, haligned⟩ := hcursor c hc
  exact ⟨hstart, hbump, hlimit, haligned⟩

theorem Thrifty.exists_unreached (h : Thrifty m₀ largest bytes m) (hcursor : m.arena.cursor = none)
    (hafford : m.heap.settings.Affords largest bytes) :
    ∃ b < m.heap.blockCount, ¬m₀.heap.IsReached (RootSet.toList m₀.roots) b := by
  obtain ⟨filled, hreached, hbytes⟩ := h.packed
  have hpos : 0 < m.heap.settings.blockSize - largest := Nat.sub_pos_of_lt hafford.largest_lt
  have henough : 2 + bytes / (m.heap.settings.blockSize - largest) ≤ m.heap.blockCount :=
    hafford.enough
  have hshort : filled.length < m.heap.blockCount := by
    by_cases hnil : filled = []
    · rw [hnil, List.length_nil]
      exact Nat.lt_of_lt_of_le (Nat.succ_pos 1) (Nat.le_trans (Nat.le_add_right 2 _) henough)
    · have hle := Nat.le_trans (Nat.le_add_right _ _) (hbytes hnil)
      have hcount := (Nat.le_div_iff_mul_le hpos).mpr hle
      omega
  have hmissing : ¬List.range m.heap.blockCount ⊆ filled := by
    intro hsub
    have hle := (List.nodup_range.subperm hsub).length_le
    rw [List.length_range] at hle
    omega
  obtain ⟨b, hb, hnot⟩ : ∃ b ∈ List.range m.heap.blockCount, b ∉ filled := by
    by_contra hnone
    apply hmissing
    intro b hb
    by_contra hnot
    exact hnone ⟨b, hb, hnot⟩
  refine ⟨b, List.mem_range.mp hb, fun hreach => ?_⟩
  rcases hreached b hreach with hmem | hmem
  · exact hnot hmem
  · unfold Arena.blocks at hmem
    rw [hcursor] at hmem
    exact List.not_mem_nil hmem

variable [LawfulRootSet R]

theorem collect_thrifty (hp : Provided threads largest bytes m₀) :
    Yields (Mutator.collect .blocks)
      (fun m => m.heap.free = [] ∧ m.arena.cursor = none ∧ Thrifty m₀ largest bytes m)
      (fun _ m => m.heap.free ≠ [] ∧ m.arena.cursor = none ∧ Thrifty m₀ largest bytes m)
      (fun _ => False) := by
  rintro m ⟨hfree, hcursor, hm⟩
  obtain ⟨m', hrun, hrests, harena, hspares⟩ := hm.rests.collect hp.traceable
  have hspare := hspares (Nat.le_refl 1)
  have hground := hm.rests.ground
  have hafford : m.heap.settings.Affords largest bytes := hground.settings ▸ hp.afford
  obtain ⟨b, hb, hunreached⟩ := hm.exists_unreached hcursor hafford
  rw [hrun]
  refine ⟨?_, harena ▸ hcursor, hrests, ?_, ?_⟩
  · -- all blocks are retired, and this one is released
    obtain ⟨released, haccounts⟩ := hm.rests.accounts
    rw [Arena.blocks, hcursor] at haccounts
    have hretired : b ∈ m.heap.retired := (haccounts.divided.mem_retired_iff hfree).mpr hb
    have hdead : ¬m.heap.IsLive (RootSet.toList m.roots) b := by
      intro hlive
      apply hunreached
      rw [hm.rests.roots_eq] at hlive
      exact hlive.isReached.congr hm.rests.read hground
    intro hnil
    have hmem := (hspare.free b).mpr (Or.inr ⟨hretired, hdead⟩)
    rw [hnil] at hmem
    exact List.not_mem_nil hmem
  · rw [harena, hcursor]
    exact fun c hc => (by cases hc)
  · obtain ⟨filled, hreached, hbytes⟩ := hm.packed
    refine ⟨filled, ?_, ?_⟩
    · rwa [harena]
    · intro hne
      have hle := hbytes hne
      rwa [harena, Heap.used, hcursor, hspare.ground.settings, ← hcursor] at *

omit [RootSet R] [LawfulRootSet R] in
theorem onHeap_requestBlock (m : Mutator R H) :
    onHeap Heap.requestBlock m = match m.heap.free with
      | [] => .ok none m
      | b :: rest => .ok (some b) { m with heap := m.heap.handOut rest } := by
  simp only [onHeap, Heap.requestBlock, bind, EStateM.bind, get, getThe, MonadStateOf.get,
    EStateM.get]
  cases m.heap.free <;> rfl

omit [LawfulRootSet R] in
theorem requestBlock_of_free {collector : Collector H} {b : Nat} {rest : List Nat}
    (hfree : m.heap.free = b :: rest) :
    requestBlock collector m = .ok b { m with heap := m.heap.handOut rest } := by
  have hfirst := onHeap_requestBlock m
  rw [hfree] at hfirst
  exact bind_of_ok hfirst

omit [LawfulRootSet R] in
theorem Thrifty.withBlock (hp : Provided threads largest bytes m₀) {bytes' b : Nat}
    {rest : List Nat} (hcursor : m.arena.cursor = none) (hm : Thrifty m₀ largest bytes' m)
    (hfree : m.heap.free = b :: rest) :
    Thrifty m₀ largest bytes' (Mutator.withBlock { m with heap := m.heap.handOut rest } b) := by
  obtain ⟨heap, ⟨cursor, allocated⟩, roots, host⟩ := m
  simp only at hcursor
  subst hcursor
  refine hm.take (fun b => ?_) hfree
  rw [Heap.blockStart, hm.rests.ground.start, hm.rests.ground.settings]
  exact hp.regular.dvd_blockStart b

theorem requestBlock_thrifty (hp : Provided threads largest bytes m₀) :
    Yields (requestBlock .blocks)
      (fun m => m.arena.cursor = none ∧ Thrifty m₀ largest bytes m)
      (fun b m => m.arena.cursor = none ∧ Thrifty m₀ largest bytes (m.withBlock b))
      (fun _ => False) := by
  rintro m ⟨hcursor, hm⟩
  cases hfree : m.heap.free with
  | cons b rest =>
    rw [requestBlock_of_free hfree]
    exact ⟨hcursor, hm.withBlock hp hcursor hfree⟩
  | nil =>
    have hfirst := onHeap_requestBlock m
    rw [hfree] at hfirst
    unfold requestBlock
    rw [bind_of_ok hfirst]
    refine (collect_thrifty hp).bind (fun _ => ?_) m ⟨hfree, hcursor, hm⟩
    -- after the collection some block is free
    rintro m' ⟨hsome, hcursor', hm'⟩
    obtain ⟨b, rest, hfree'⟩ := List.exists_cons_of_ne_nil hsome
    have hsecond := onHeap_requestBlock m'
    rw [hfree'] at hsecond
    rw [bind_of_ok hsecond]
    exact ⟨hcursor', hm'.withBlock hp hcursor' hfree'⟩

omit [LawfulRootSet R] in
theorem retire_thrifty {size : Nat} (hsize : size ≤ largest) :
    Yields retire
      (fun m => Thrifty m₀ largest bytes m ∧ ∀ c ∈ m.arena.cursor, c.limit < c.bump + size)
      (fun _ m => m.arena.cursor = none ∧ Thrifty m₀ largest bytes m) (fun _ => False) := by
  rintro ⟨heap, ⟨cursor, allocated⟩, roots, host⟩ ⟨hm, hfull⟩
  cases cursor with
  | none => exact ⟨rfl, hm⟩
  | some c =>
    obtain ⟨released, haccounts⟩ := hm.rests.accounts
    have hlt : c.block < heap.blockCount := haccounts.divided.lt_blockCount List.mem_cons_self
    simp only [retire, bind, EStateM.bind, get, getThe, MonadStateOf.get, EStateM.get, onHeap,
      Heap.retireBlock_of_lt hlt]
    exact ⟨rfl, hm.retire (hfull c rfl) hsize⟩

theorem exchangeBlock_thrifty (hp : Provided threads largest bytes m₀) {size : Nat}
    (hsize : size ≤ largest) :
    Yields (exchangeBlock .blocks)
      (fun m => Thrifty m₀ largest bytes m ∧ ∀ c ∈ m.arena.cursor, c.limit < c.bump + size)
      (fun _ m => Thrifty m₀ largest bytes m ∧ ∃ c ∈ m.arena.cursor, c.bump + size ≤ c.limit)
      (fun _ => False) := by
  refine (retire_thrifty hsize).bind fun _ => (requestBlock_thrifty hp).bind fun b => ?_
  rintro ⟨heap, ⟨cursor, allocated⟩, roots, host⟩ ⟨rfl, hm⟩
  obtain ⟨released, haccounts⟩ := hm.rests.accounts
  have hlt : b < heap.blockCount := haccounts.divided.lt_blockCount List.mem_cons_self
  simp only [bind, EStateM.bind, onHeap, Heap.blockBounds_of_lt hlt]
  refine ⟨hm.note (.arenaSwitched b), _, rfl, ?_⟩
  have hlargest := hp.afford.largest_lt
  rw [← hm.rests.ground.settings] at hlargest
  have hfits : size ≤ heap.settings.blockSize := Nat.le_of_lt (Nat.lt_of_le_of_lt hsize hlargest)
  exact Nat.add_le_add_left hfits _

omit [RootSet R] [LawfulRootSet R] in
theorem countBytes_yields (size : Nat) (heap : Heap) (cursor : Option Cursor) (allocated : Nat)
    (roots : R) (host : H) :
    Yields (countBytes size) (· = ⟨heap, ⟨cursor, allocated⟩, roots, host⟩)
      (fun _ m => m = ⟨heap, ⟨cursor, allocated + size⟩, roots, host⟩) (· = .additionOverflow) := by
  rintro _ rfl
  rw [countBytes_eq]
  by_cases hlt : allocated + size < 1 <<< 64
  · rw [if_pos hlt]
  · rw [if_neg hlt]

omit [LawfulRootSet R] in
theorem allocateOnBlock_thrifty {size : Nat} (hsize : 8 ∣ size) (hpos : 0 < size) :
    Yields (allocateOnBlock (.ofWords size))
      (fun m => Thrifty m₀ largest bytes m ∧ ∃ c ∈ m.arena.cursor, c.bump + size ≤ c.limit)
      (fun a m => ∃ address, a = some address ∧ Thrifty m₀ largest (bytes + size) m ∧
        m.heap.blockOf address ∈ m.arena.blocks)
      (· = .additionOverflow) := by
  rintro ⟨heap, ⟨cursor, allocated⟩, roots, host⟩ ⟨hm, c, rfl, hfits⟩
  obtain ⟨hstart, hbump, hlimit, haligned⟩ := hm.cursor c rfl
  have haddress : alignUp 8 c.bump = c.bump := alignUp_of_dvd (by decide) haligned
  have hplace : (Arena.mk (some c) allocated).place? (.ofWords size) = some (c, c.bump) :=
    Arena.place?_eq_some.mpr ⟨rfl, haddress, hfits⟩
  simp only [allocateOnBlock, bind, EStateM.bind, get, getThe, MonadStateOf.get, EStateM.get, hplace]
  refine (countBytes_yields size _ _ _ _ _).bind (fun _ => Yields.pure ?_) _ rfl
  rintro _ rfl
  refine ⟨c.bump, rfl, hm.bump hsize hfits, ?_⟩
  rw [heap.blockOf_of_mem hstart (hlimit ▸ Nat.lt_of_lt_of_le (Nat.lt_add_of_pos_right hpos) hfits)]
  exact List.mem_cons_self

omit [RootSet R] [LawfulRootSet R] in
theorem allocateOnBlock_of_place?_eq_none {l : Layout} (hplace : m.arena.place? l = none) :
    allocateOnBlock l m = .ok none m := by
  simp only [allocateOnBlock, bind, EStateM.bind, get, getThe, MonadStateOf.get, EStateM.get, hplace]
  rfl

omit [RootSet R] [LawfulRootSet R] in
theorem allocateOnBlock_of_full {size : Nat} (hcursor : ∀ c ∈ m.arena.cursor, 8 ∣ c.bump)
    (hfull : ¬∃ c ∈ m.arena.cursor, c.bump + size ≤ c.limit) :
    allocateOnBlock (.ofWords size) m = .ok none m := by
  apply allocateOnBlock_of_place?_eq_none
  apply Arena.place?_eq_none.mpr
  intro c hc
  have haligned : alignUp 8 c.bump = c.bump := alignUp_of_dvd (by decide) (hcursor c hc)
  change c.limit < alignUp 8 c.bump + size
  rw [haligned]
  exact Nat.lt_of_not_le fun hfits => hfull ⟨c, hc, hfits⟩

theorem allocateSmall_thrifty (hp : Provided threads largest bytes m₀) {size : Nat}
    (hdvd : 8 ∣ size) (hpos : 0 < size) (hsize : size ≤ largest) :
    Yields (do
        match ← allocateOnBlock (.ofWords size) with
        | some address => return address
        | none =>
          exchangeBlock .blocks
          match ← allocateOnBlock (.ofWords size) with
          | some address => return address
          | none => throw (.freshBlockTooSmall size))
      (Thrifty m₀ largest bytes)
      (fun address m => Thrifty m₀ largest (bytes + size) m ∧
        m.heap.blockOf address ∈ m.arena.blocks)
      (· = .additionOverflow) := by
  intro m hm
  by_cases hroom : ∃ c ∈ m.arena.cursor, c.bump + size ≤ c.limit
  · refine (allocateOnBlock_thrifty hdvd hpos).bind (fun placed => ?_) m ⟨hm, hroom⟩
    rintro m' ⟨address, rfl, hm'⟩
    exact hm'
  · have hcursor : ∀ c ∈ m.arena.cursor, 8 ∣ c.bump := fun c hc => (hm.cursor c hc).aligned
    rw [bind_of_ok (allocateOnBlock_of_full hcursor hroom)]
    have hfull : ∀ c ∈ m.arena.cursor, c.limit < c.bump + size := by
      intro c hc
      exact Nat.lt_of_not_le fun hfits => hroom ⟨c, hc, hfits⟩
    refine (exchangeBlock_thrifty hp hsize).of_never.bind (fun _ => ?_) m ⟨hm, hfull⟩
    refine (allocateOnBlock_thrifty hdvd hpos).bind fun placed => ?_
    rintro m' ⟨address, rfl, hm'⟩
    exact hm'

omit [RootSet R] [LawfulRootSet R] in
theorem allocateMapped_thrifty {size : Nat} (hmap : m₀.heap.MayMap size) (hpos : 0 < size)
    (hlarge : m₀.heap.settings.largeSize ≤ size) {reached : Nat → Prop}
    (hpacked : m₀.heap.IsPacked m₀.arena largest bytes reached) :
    Yields (countBytes size >>= fun _ => onHeap (Heap.allocateLarge size)) (· = m₀)
      (fun address m => m₀.heap.SameRegion m.heap ∧
        m.heap.IsPacked m.arena largest bytes reached ∧
        (m.heap.contains address → m.heap.blockOf address ∈ m.arena.blocks))
      (fun f => f = .additionOverflow ∨
        m₀.heap.settings.largeSize ≤ size ∧ f = .largeObjectNotMapped size) := by
  obtain ⟨heap, ⟨cursor, allocated⟩, roots, host⟩ := m₀
  refine Yields.bind ((countBytes_yields size heap cursor allocated roots host).mono
    (fun _ h => h) (fun _ _ h => h) fun _ => Or.inl) fun _ => ?_
  rintro _ rfl
  rw [onHeap_allocateLarge]
  by_cases hfits : Mapping.FitsAt heap.nextMapping (alignUp pageSize size)
  · rw [if_pos hfits]
    refine ⟨⟨rfl, rfl⟩, hpacked, fun hin => ?_⟩
    -- mappings lie beside the blocks
    have hoff : heap.nextMapping + alignUp pageSize size ≤ heap.start ∨
        heap.regionEnd ≤ heap.nextMapping := hmap.off_region
    have hle : size ≤ alignUp pageSize size := le_alignUp (by decide) size
    have hin' : heap.start ≤ heap.nextMapping ∧ heap.nextMapping < heap.regionEnd :=
      (heap.contains_iff _).mp hin
    omega
  · rw [if_neg hfits]
    exact Or.inr ⟨hlarge, rfl⟩

theorem allocate_thrifty (hp : Provided threads largest bytes m₀) {bytes' size : Nat}
    (hle : bytes' ≤ bytes)
    (hpacked : m₀.heap.IsPacked m₀.arena largest bytes'
      (m₀.heap.IsReached (RootSet.toList m₀.roots)))
    (hdvd : 8 ∣ size) (hpos : 0 < size)
    (hsize : size < m₀.heap.settings.largeSize → size ≤ largest)
    (hmap : m₀.heap.settings.largeSize ≤ size → m₀.heap.MayMap size) :
    Yields (allocate .blocks (.ofWords size)) (· = m₀)
      (fun address m => m₀.heap.SameRegion m.heap ∧
        m.heap.IsPacked m.arena largest
          (bytes' + m₀.heap.settings.blockBytes size)
          (m₀.heap.IsReached (RootSet.toList m₀.roots)) ∧
        (m.heap.contains address → m.heap.blockOf address ∈ m.arena.blocks))
      (fun f => f = .additionOverflow ∨
        m₀.heap.settings.largeSize ≤ size ∧ f = .largeObjectNotMapped size) := by
  refine Yields.get_bind fun m => ?_
  rintro m ⟨rfl, rfl⟩
  have hlayout : (Layout.ofWords size).size = size := rfl
  rw [hlayout]
  by_cases hlarge : m.heap.settings.largeSize ≤ size
  · rw [if_pos hlarge, HeapSettings.blockBytes_of_le hlarge]
    exact allocateMapped_thrifty (hmap hlarge) hpos hlarge hpacked m rfl
  · have hlt := Nat.lt_of_not_le hlarge
    rw [if_neg hlarge, HeapSettings.blockBytes_of_lt hlt]
    have hp' : Provided threads largest bytes' m := ⟨hp.regular, hp.markable, hp.afford.mono hle⟩
    refine (allocateSmall_thrifty hp' hdvd hpos (hsize hlt)).mono (fun _ h => h) ?_
      (fun _ => Or.inl) m (hp'.thrifty hpacked)
    exact fun address m' hm' => ⟨hm'.1.rests.ground.sameRegion, hm'.1.packed, fun _ => hm'.2⟩

end Mutator

end VmSupport
