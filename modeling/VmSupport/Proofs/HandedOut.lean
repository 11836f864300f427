import VmSupport.Proofs.ArenaSteps
import VmSupport.Proofs.Placement

namespace VmSupport

inductive HeapEvent
  | returned (start size : Nat) (block : Option Nat)
  | released (block : Nat)
  | unmapped (start : Nat)
  deriving DecidableEq

namespace HeapEvent

def ending (start : Nat) : Option Nat → HeapEvent
  | some b => .released b
  | none => .unmapped start

/-- Of events with the last one first: the range was returned and not taken back since. -/
def Standing (events : List HeapEvent) (start size : Nat) (block : Option Nat) : Prop :=
  ∃ recent older, events = recent ++ .returned start size block :: older ∧
    ending start block ∉ recent

def Separate : List HeapEvent → Prop
  | [] => True
  | .returned start size _ :: older =>
    (∀ {s n block}, Standing older s n block → s + n ≤ start ∨ start + size ≤ s) ∧ Separate older
  | .released _ :: older | .unmapped _ :: older => Separate older

variable {events : List HeapEvent} {start size : Nat} {block : Option Nat}

theorem not_standing_nil : ¬Standing [] start size block := by
  rintro ⟨recent, older, heq, -⟩
  cases recent <;> cases heq

theorem standing_cons {e : HeapEvent} (h : Standing (e :: events) start size block) :
    e = .returned start size block ∨
      Standing events start size block ∧ e ≠ ending start block := by
  obtain ⟨recent, older, heq, hending⟩ := h
  cases recent with
  | nil =>
    cases heq
    exact Or.inl rfl
  | cons e' recent =>
    cases heq
    right
    obtain ⟨hne, hrecent⟩ := not_or.mp (mt List.mem_cons.mpr hending)
    exact ⟨⟨recent, older, rfl, hrecent⟩, Ne.symm hne⟩

theorem standing_append {endings : List HeapEvent}
    (hendings : ∀ e ∈ endings, ∀ start size block, e ≠ .returned start size block)
    (h : Standing (endings ++ events) start size block) :
    Standing events start size block ∧ ending start block ∉ endings := by
  induction endings with
  | nil => exact ⟨h, List.not_mem_nil⟩
  | cons e endings ih =>
    rcases standing_cons h with heq | ⟨hstanding, hne⟩
    · exact absurd heq (hendings e List.mem_cons_self _ _ _)
    · obtain ⟨hstanding, hmem⟩ := ih (fun e he => hendings e (List.mem_cons_of_mem _ he)) hstanding
      exact ⟨hstanding, mt List.mem_cons.mp (not_or.mpr ⟨Ne.symm hne, hmem⟩)⟩

theorem Separate.append {endings : List HeapEvent}
    (hendings : ∀ e ∈ endings, ∀ start size block, e ≠ .returned start size block)
    (h : Separate events) : Separate (endings ++ events) := by
  induction endings with
  | nil => exact h
  | cons e endings ih =>
    have hrest := ih fun e he => hendings e (List.mem_cons_of_mem _ he)
    cases e with
    | returned start size block => exact absurd rfl (hendings _ List.mem_cons_self _ _ _)
    | released b => exact hrest
    | unmapped start => exact hrest

theorem Separate.apart {recent between older : List HeapEvent} {start' size' : Nat}
    {block' : Option Nat} (h : Separate events)
    (heq : events = recent ++ .returned start' size' block' ::
      (between ++ .returned start size block :: older))
    (hending : ending start block ∉ between) :
    start + size ≤ start' ∨ start' + size' ≤ start := by
  induction recent generalizing events with
  | nil =>
    subst heq
    exact h.1 ⟨between, older, rfl, hending⟩
  | cons e recent ih =>
    subst heq
    have hrest : Separate (recent ++ .returned start' size' block' ::
        (between ++ .returned start size block :: older)) := by
      cases e with
      | returned => exact h.2
      | released => exact h
      | unmapped => exact h
    exact ih hrest rfl

end HeapEvent

namespace Heap

open HeapEvent

def endings (h h' : Heap) : List HeapEvent :=
  (h'.free.filter (· ∉ h.free)).map .released ++
    (h.large.filter (· ∉ h'.large)).map fun mapping => .unmapped mapping.start

structure Reclaims (h h' : Heap) : Prop where
  releases : ∃ n, h.Releases n h'
  start : h'.start = h.start
  large : h'.large ⊆ h.large

structure CursorBounds (h : Heap) (c : Cursor) : Prop where
  start_le : h.blockStart c.block ≤ c.bump
  bump_le : c.bump ≤ c.limit
  limit_eq : c.limit = h.blockEnd c.block

def Holds (h : Heap) (cursors : List Cursor) (start stop : Nat) : Option Nat → Prop
  | some b => b < h.blockCount ∧ b ∉ h.free ∧ h.blockStart b ≤ start ∧ stop ≤ h.blockEnd b ∧
    ∀ c ∈ cursors, c.block = b → stop ≤ c.bump
  | none => ∃ mapping ∈ h.large, mapping.start = start ∧ stop ≤ mapping.start + mapping.size

structure Orderly (h : Heap) (settings : HeapSettings) (arenas : Nat) (cursors : List Cursor)
    (events : List HeapEvent) : Prop where
  valid : settings.IsValid
  aligned : pageSize ∣ h.start
  accounts : ∃ released, h.Accounts settings arenas (cursors.map Cursor.block) released
  bounds : ∀ c ∈ cursors, h.CursorBounds c
  off_region : ∀ mapping ∈ h.large,
    mapping.start + mapping.size ≤ h.start ∨ h.regionEnd ≤ mapping.start
  held : ∀ {start size block}, Standing events start size block →
    h.Holds cursors start (start + size) block
  separate : Separate events

theorem Holds.change {h h' : Heap} {cursors cursors' : List Cursor} {start stop : Nat}
    {block : Option Nat} (hh : h.Holds cursors start stop block)
    (hsettings : h'.settings = h.settings) (hstart : h'.start = h.start)
    (hfree : ∀ b, block = some b → b ∈ h'.free → b ∈ h.free)
    (hlarge : ∀ mapping ∈ h.large, block = none → mapping.start = start → mapping ∈ h'.large)
    (hcursors : ∀ c' ∈ cursors', (∃ c ∈ cursors, c.block = c'.block ∧ c.bump ≤ c'.bump) ∨
      c'.block ∈ h.free) : h'.Holds cursors' start stop block := by
  cases block with
  | none =>
    obtain ⟨mapping, hmapping, heq, hstop⟩ := hh
    exact ⟨mapping, hlarge mapping hmapping rfl heq, heq, hstop⟩
  | some b =>
    obtain ⟨hb, hnot, hlow, hhigh, hbelow⟩ := hh
    have hblock : h'.blockStart b = h.blockStart b := by
      rw [blockStart, blockStart, hstart, hsettings]
    refine ⟨?_, fun hmem => hnot (hfree b rfl hmem), hblock ▸ hlow, ?_, ?_⟩
    · rw [blockCount, hsettings]
      exact hb
    · rw [blockEnd, hblock, hsettings]
      exact hhigh
    · rintro c' hc' rfl
      rcases hcursors c' hc' with ⟨c, hc, hsame, hbump⟩ | hmem
      · exact Nat.le_trans (hbelow c hc hsame) hbump
      · exact absurd hmem hnot

theorem Holds.apart_mapping {h : Heap} {cursors : List Cursor} {start stop size : Nat}
    {block : Option Nat} (hh : h.Holds cursors start stop block) (hmay : h.MayMap size) :
    stop ≤ h.nextMapping ∨ h.nextMapping + alignUp pageSize size ≤ start := by
  cases block with
  | none =>
    obtain ⟨mapping, hmapping, rfl, hstop⟩ := hh
    rcases hmay.apart mapping hmapping with hbelow | habove
    · exact Or.inr hbelow
    · exact Or.inl (Nat.le_trans hstop habove)
  | some b =>
    obtain ⟨hb, -, hlow, hhigh, -⟩ := hh
    have hstart := h.start_le_blockStart b
    have hend := h.blockEnd_le_regionEnd hb
    rcases hmay.off_region with hbelow | habove
    · exact Or.inr (by omega)
    · exact Or.inl (by omega)

namespace Orderly

variable {h h' : Heap} {settings : HeapSettings} {arenas arenas' : Nat}
  {cursors cursors' others : List Cursor} {c : Cursor} {events events' : List HeapEvent}

theorem settings_eq (ho : h.Orderly settings arenas cursors events) : h.settings = settings :=
  ho.accounts.elim fun _ ha => ha.settings_eq

theorem change (ho : h.Orderly settings arenas cursors events) (hstart : h'.start = h.start)
    (hlarge : h'.large ⊆ h.large)
    (haccounts : ∃ released, h'.Accounts settings arenas' (cursors'.map Cursor.block) released)
    (hbounds : ∀ c ∈ cursors', h.CursorBounds c)
    (hheld : ∀ {start size block}, Standing events' start size block →
      h'.Holds cursors' start (start + size) block)
    (hseparate : Separate events') : h'.Orderly settings arenas' cursors' events' := by
  have hsettings : h'.settings = h.settings := by
    obtain ⟨released, ha⟩ := haccounts
    rw [ha.settings_eq, ho.settings_eq]
  have hblock : ∀ b, h'.blockStart b = h.blockStart b := by
    intro b
    rw [blockStart, blockStart, hstart, hsettings]
  refine ⟨ho.valid, by rw [hstart]; exact ho.aligned, haccounts, ?_, ?_, hheld, hseparate⟩
  · intro c hc
    obtain ⟨hlow, hbump, hlimit⟩ := hbounds c hc
    refine ⟨by rw [hblock]; exact hlow, hbump, ?_⟩
    rw [blockEnd, hblock, hsettings]
    exact hlimit
  · intro mapping hmapping
    rw [regionEnd, hstart, hsettings]
    exact ho.off_region mapping (hlarge hmapping)

theorem keep (ho : h.Orderly settings arenas cursors events) (hstart : h'.start = h.start)
    (hlarge : h'.large = h.large) (hfree : h'.free ⊆ h.free)
    (haccounts : ∃ released, h'.Accounts settings arenas' (cursors'.map Cursor.block) released)
    (hbounds : ∀ c ∈ cursors', h.CursorBounds c)
    (hcursors : ∀ c' ∈ cursors', (∃ c ∈ cursors, c.block = c'.block ∧ c.bump ≤ c'.bump) ∨
      c'.block ∈ h.free) : h'.Orderly settings arenas' cursors' events := by
  have hsettings : h'.settings = h.settings := by
    obtain ⟨released, ha⟩ := haccounts
    rw [ha.settings_eq, ho.settings_eq]
  refine ho.change hstart (hlarge ▸ List.Subset.refl _) haccounts hbounds (fun hstanding => ?_)
    ho.separate
  exact (ho.held hstanding).change hsettings hstart (fun b _ hb => hfree hb)
    (fun mapping hmapping _ _ => hlarge ▸ hmapping) hcursors

theorem sameBlocks (ho : h.Orderly settings arenas cursors events) (hs : h.SameBlocks h')
    (hstart : h'.start = h.start) (hlarge : h'.large = h.large) :
    h'.Orderly settings arenas cursors events := by
  obtain ⟨released, ha⟩ := ho.accounts
  exact ho.keep hstart hlarge (hs.free ▸ List.Subset.refl _) ⟨released, ha.sameBlocks hs⟩ ho.bounds
    fun c hc => Or.inl ⟨c, hc, rfl, Nat.le_refl _⟩

theorem note (ho : h.Orderly settings arenas cursors events) (r : LogRecord) :
    (h.note r).Orderly settings arenas cursors events :=
  ho.sameBlocks ⟨rfl, rfl, rfl, rfl, rfl⟩ rfl rfl

theorem perm (ho : h.Orderly settings arenas cursors events) (hp : cursors'.Perm cursors) :
    h.Orderly settings arenas cursors' events := by
  obtain ⟨released, ha⟩ := ho.accounts
  exact ho.keep rfl rfl (List.Subset.refl _) ⟨released, ha.perm (hp.map Cursor.block)⟩
    (fun c hc => ho.bounds c (hp.mem_iff.mp hc))
    fun c hc => Or.inl ⟨c, hp.mem_iff.mp hc, rfl, Nat.le_refl _⟩

theorem retire (ho : h.Orderly settings arenas (c :: others) events) :
    Heap.Orderly { h with retired := h.retired ++ [c.block] } settings arenas others events := by
  obtain ⟨released, ha⟩ := ho.accounts
  exact ho.keep rfl rfl (List.Subset.refl _) ⟨released, ha.retire [c.block]⟩
    (fun d hd => ho.bounds d (List.mem_cons_of_mem c hd))
    fun d hd => Or.inl ⟨d, List.mem_cons_of_mem c hd, rfl, Nat.le_refl _⟩

theorem take {b : Nat} {rest : List Nat} (ho : h.Orderly settings arenas others events)
    (hfree : h.free = b :: rest) :
    (h.handOut rest).Orderly settings arenas (h.freshCursor b :: others) events := by
  obtain ⟨released, ha⟩ := ho.accounts
  refine ho.keep rfl rfl (hfree ▸ List.subset_cons_self b rest) ⟨released, ha.handOut hfree⟩ ?_ ?_
  · intro d hd
    rcases List.mem_cons.mp hd with rfl | hd
    · exact ⟨Nat.le_refl _, Nat.le_add_right _ _, rfl⟩
    · exact ho.bounds d hd
  · intro d hd
    rcases List.mem_cons.mp hd with rfl | hd
    · exact Or.inr (hfree ▸ List.mem_cons_self)
    · exact Or.inl ⟨d, hd, rfl, Nat.le_refl _⟩

theorem bump {next : Nat} (ho : h.Orderly settings arenas (c :: others) events)
    (hbump : c.bump ≤ next) (hnext : next ≤ c.limit) :
    h.Orderly settings arenas ({ c with bump := next } :: others) events := by
  obtain ⟨hlow, -, hlimit⟩ := ho.bounds c List.mem_cons_self
  refine ho.keep rfl rfl (List.Subset.refl _) ho.accounts ?_ ?_
  · intro d hd
    rcases List.mem_cons.mp hd with rfl | hd
    · exact ⟨Nat.le_trans hlow hbump, hnext, hlimit⟩
    · exact ho.bounds d (List.mem_cons_of_mem c hd)
  · intro d hd
    left
    rcases List.mem_cons.mp hd with rfl | hd
    · exact ⟨c, List.mem_cons_self, rfl, hbump⟩
    · exact ⟨d, List.mem_cons_of_mem c hd, rfl, Nat.le_refl _⟩

theorem openArena (ho : h.Orderly settings arenas cursors events) :
    h.openArena.Orderly settings (arenas + 1) cursors events := by
  obtain ⟨released, ha⟩ := ho.accounts
  exact ho.keep rfl rfl (List.Subset.refl _) ⟨released, ha.openArena⟩ ho.bounds
    fun c hc => Or.inl ⟨c, hc, rfl, Nat.le_refl _⟩

theorem closeArena {a : Arena}
    (ho : h.Orderly settings (arenas + 1) (a.cursor.toList ++ others) events) :
    (h.closeArena a).Orderly settings arenas others events := by
  obtain ⟨released, ha⟩ := ho.accounts
  have hblocks : (a.cursor.toList ++ others).map Cursor.block =
      a.blocks ++ others.map Cursor.block := by
    rw [List.map_append, Arena.blocks]
    cases a.cursor <;> rfl
  rw [hblocks] at ha
  exact ho.keep rfl rfl (List.Subset.refl _) ⟨released, ha.closeArena⟩
    (fun d hd => ho.bounds d (List.mem_append_right _ hd))
    fun d hd => Or.inl ⟨d, List.mem_append_right _ hd, rfl, Nat.le_refl _⟩

theorem reclaim (ho : h.Orderly settings arenas cursors events) (hr : h.Reclaims h') :
    h'.Orderly settings arenas cursors (h.endings h' ++ events) := by
  obtain ⟨released, ha⟩ := ho.accounts
  obtain ⟨n, hreleases⟩ := hr.releases
  have ha' := ha.releases hreleases
  have hendings : ∀ e ∈ h.endings h', ∀ start size block, e ≠ .returned start size block := by
    intro e he start size block
    simp only [endings, List.mem_append, List.mem_map] at he
    rcases he with ⟨b, -, rfl⟩ | ⟨mapping, -, rfl⟩ <;> exact HeapEvent.noConfusion
  refine ho.change hr.start hr.large ⟨_, ha'⟩ ho.bounds (fun hstanding => ?_)
    (ho.separate.append hendings)
  obtain ⟨hstanding, hending⟩ := standing_append hendings hstanding
  -- what was taken back in this collection has an event that ends it
  refine (ho.held hstanding).change (by rw [ha'.settings_eq, ho.settings_eq]) hr.start ?_ ?_
    fun c hc => Or.inl ⟨c, hc, rfl, Nat.le_refl _⟩
  · rintro b rfl hb
    by_contra hnot
    apply hending
    simpa [endings, HeapEvent.ending] using ⟨hb, hnot⟩
  · rintro mapping hmapping rfl rfl
    by_contra hnot
    apply hending
    simp only [endings, HeapEvent.ending, List.mem_append, List.mem_map, List.mem_filter]
    exact Or.inr ⟨mapping, ⟨hmapping, by simpa using hnot⟩, rfl⟩

theorem lt_blockCount (ho : h.Orderly settings arenas cursors events) {b : Nat} (hb : b ∈ h.free) :
    b < h.blockCount := by
  obtain ⟨released, ha⟩ := ho.accounts
  exact ha.divided.lt_of_mem_free hb

theorem block_lt (ho : h.Orderly settings arenas cursors events) (hc : c ∈ cursors) :
    c.block < h.blockCount := by
  obtain ⟨released, ha⟩ := ho.accounts
  exact ha.divided.lt_blockCount (List.mem_map.mpr ⟨c, hc, rfl⟩)

theorem not_free (ho : h.Orderly settings arenas cursors events) (hc : c ∈ cursors) :
    c.block ∉ h.free := by
  obtain ⟨released, ha⟩ := ho.accounts
  exact ha.divided.not_mem_free (List.mem_map.mpr ⟨c, hc, rfl⟩)

theorem block_ne (ho : h.Orderly settings arenas (c :: others) events) {d : Cursor}
    (hd : d ∈ others) : d.block ≠ c.block := by
  obtain ⟨released, ha⟩ := ho.accounts
  have hheld := List.nodup_cons.mp ha.divided.held_nodup
  intro heq
  exact hheld.1 (heq ▸ List.mem_map.mpr ⟨d, hd, rfl⟩)

theorem apart_cursor (ho : h.Orderly settings arenas cursors events) (hc : c ∈ cursors)
    {start stop : Nat} {block : Option Nat} (hh : h.Holds cursors start stop block) :
    stop ≤ c.bump ∨ c.limit ≤ start := by
  obtain ⟨hlow, -, hlimit⟩ := ho.bounds c hc
  cases block with
  | none =>
    obtain ⟨mapping, hmapping, rfl, hstop⟩ := hh
    have hstart := h.start_le_blockStart c.block
    have hend := h.blockEnd_le_regionEnd (ho.block_lt hc)
    rcases ho.off_region mapping hmapping with hbelow | habove
    · exact Or.inl (by omega)
    · exact Or.inr (by omega)
  | some b =>
    obtain ⟨-, -, hstart, hstop, hbelow⟩ := hh
    rcases Nat.lt_trichotomy b c.block with hlt | heq | hgt
    · have hle := h.blockEnd_le_blockStart hlt
      exact Or.inl (by omega)
    · exact Or.inl (hbelow c hc heq.symm)
    · have hle := h.blockEnd_le_blockStart hgt
      exact Or.inr (by omega)

theorem placed {address size : Nat} (ho : h.Orderly settings arenas (c :: others) events)
    (hbump : c.bump ≤ address) (hlimit : address + size ≤ c.limit) :
    h.Orderly settings arenas ({ c with bump := address + size } :: others)
      (.returned address size (some c.block) :: events) := by
  have ho' := ho.bump (Nat.le_add_right_of_le hbump) hlimit
  obtain ⟨hlow, -, hend⟩ := ho.bounds c List.mem_cons_self
  refine ho'.change rfl (List.Subset.refl _) ho'.accounts ho'.bounds (fun hstanding => ?_)
    ⟨fun hstanding => ?_, ho.separate⟩
  · rcases standing_cons hstanding with heq | ⟨hstanding, -⟩
    · cases heq
      refine ⟨ho.block_lt List.mem_cons_self, ho.not_free List.mem_cons_self,
        Nat.le_trans hlow hbump, hend ▸ hlimit, fun d hd hblock => ?_⟩
      rcases List.mem_cons.mp hd with rfl | hd
      · exact Nat.le_refl _
      · exact absurd hblock (ho.block_ne hd)
    · exact ho'.held hstanding
  · rcases ho.apart_cursor List.mem_cons_self (ho.held hstanding) with hbelow | hbeyond
    · exact Or.inl (Nat.le_trans hbelow hbump)
    · exact Or.inr (Nat.le_trans hlimit hbeyond)

theorem mapped (ho : h.Orderly settings arenas cursors events) {size : Nat}
    (hmay : h.MayMap size) :
    (h.withLarge size).Orderly settings arenas cursors
      (.returned h.nextMapping size none :: events) := by
  obtain ⟨released, ha⟩ := ho.accounts
  have ha' : (h.withLarge size).Accounts settings arenas (cursors.map Cursor.block) released :=
    ha.sameBlocks ⟨rfl, rfl, rfl, rfl, rfl⟩
  have hsize : size ≤ alignUp pageSize size := le_alignUp (by decide) size
  refine ⟨ho.valid, ho.aligned, ⟨released, ha'⟩,
    fun c hc => ⟨(ho.bounds c hc).start_le, (ho.bounds c hc).bump_le, (ho.bounds c hc).limit_eq⟩,
    ?_, fun hstanding => ?_, fun hstanding => ?_, ho.separate⟩
  · intro mapping hmapping
    rcases List.mem_cons.mp hmapping with rfl | hmapping
    · exact hmay.off_region
    · exact ho.off_region mapping hmapping
  · rcases standing_cons hstanding with heq | ⟨hstanding, -⟩
    · cases heq
      exact ⟨_, List.mem_cons_self, rfl, Nat.add_le_add_left hsize _⟩
    · refine (ho.held hstanding).change rfl rfl (fun _ _ hb => hb)
        (fun mapping hmapping _ _ => List.mem_cons_of_mem _ hmapping)
        fun c hc => Or.inl ⟨c, hc, rfl, Nat.le_refl _⟩
  · rcases (ho.held hstanding).apart_mapping hmay with hbelow | habove
    · exact Or.inl hbelow
    · exact Or.inr (Nat.le_trans (Nat.add_le_add_left hsize _) habove)

theorem create (hcreate : Heap.create settings = .ok h) {base : Nat} (hbase : pageSize ∣ base) :
    Heap.Orderly { h with start := base } settings 0 [] [] := by
  have ha := Heap.Accounts.create hcreate
  obtain ⟨hvalid, -, rfl⟩ := create_eq_ok hcreate
  exact ⟨hvalid, hbase, ⟨0, ha.sameBlocks ⟨rfl, rfl, rfl, rfl, rfl⟩⟩,
    fun c hc => absurd hc List.not_mem_nil, fun mapping hmapping => absurd hmapping List.not_mem_nil,
    fun hstanding => absurd hstanding not_standing_nil, trivial⟩

end Orderly

end Heap

end VmSupport
