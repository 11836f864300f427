import VmSupport.Builtin
import VmSupport.Proofs.Reclaiming

/-!
Where objects lie. The operating system chooses where the blocks and the mappings go, but they never
meet; cursors move forward in the block of their arena; and so memory that is handed out meets
nothing that has to be kept.
-/

namespace VmSupport

/-- Where the operating system may map the blocks: whole pages clear of the builtins, and never the
first one. -/
structure HeapSettings.MayStartAt (s : HeapSettings) (base : Nat) : Prop where
  aligned : pageSize ∣ base
  pos : 0 < base
  le_limit : base + s.heapSize ≤ Mapping.addressLimit
  off_builtins : ∀ id < Builtin.table.length,
    base + s.heapSize ≤ Builtin.address id ∨ Builtin.address id < base

theorem HeapSettings.MayStartAt.pageSize_le {s : HeapSettings} {base : Nat}
    (h : s.MayStartAt base) : pageSize ≤ base := Nat.le_of_dvd h.pos h.aligned

namespace Heap

def regionEnd (h : Heap) : Nat := h.start + h.settings.heapSize

structure SameRegion (h h' : Heap) : Prop where
  start : h'.start = h.start
  settings : h'.settings = h.settings

theorem SameGround.sameRegion {h h' : Heap} (hg : h.SameGround h') : h.SameRegion h' :=
  ⟨hg.start, hg.settings⟩

/-- Memory that the operating system may map next: whole pages, clear of all that is mapped. -/
structure MayMap (h : Heap) (size : Nat) : Prop where
  aligned : pageSize ∣ h.nextMapping
  off_region : h.nextMapping + alignUp pageSize size ≤ h.start ∨ h.regionEnd ≤ h.nextMapping
  apart : ∀ mapping ∈ h.large, h.nextMapping + alignUp pageSize size ≤ mapping.start ∨
    mapping.start + mapping.size ≤ h.nextMapping

instance (h : Heap) (size : Nat) : Decidable (h.MayMap size) :=
  decidable_of_iff (pageSize ∣ h.nextMapping ∧
      (h.nextMapping + alignUp pageSize size ≤ h.start ∨ h.regionEnd ≤ h.nextMapping) ∧
      ∀ mapping ∈ h.large, h.nextMapping + alignUp pageSize size ≤ mapping.start ∨
        mapping.start + mapping.size ≤ h.nextMapping)
    ⟨fun ⟨haligned, hregion, hapart⟩ => ⟨haligned, hregion, hapart⟩,
      fun h => ⟨h.aligned, h.off_region, h.apart⟩⟩

structure MayMapBeside (h : Heap) (threads : List Nat) (size : Nat) : Prop
    extends h.MayMap size where
  pos : 0 < h.nextMapping
  off_threads : ∀ t ∈ threads,
    h.nextMapping + alignUp pageSize size ≤ t ∨ t + pageSize ≤ h.nextMapping
  off_builtins : ∀ id < Builtin.table.length,
    h.nextMapping + alignUp pageSize size ≤ Builtin.address id ∨ Builtin.address id < h.nextMapping

structure Outlying (h : Heap) (start size : Nat) : Prop where
  aligned : pageSize ∣ start
  pos : 0 < start
  off_region : start + size ≤ h.start ∨ h.regionEnd ≤ start
  off_builtins : ∀ id < Builtin.table.length,
    start + size ≤ Builtin.address id ∨ Builtin.address id < start

theorem MayMapBeside.outlying {h : Heap} {threads : List Nat} {size : Nat}
    (hmap : h.MayMapBeside threads size) :
    h.Outlying h.nextMapping (alignUp pageSize size) :=
  ⟨hmap.aligned, hmap.pos, hmap.off_region, hmap.off_builtins⟩

theorem Outlying.congr {h h' : Heap} {start size : Nat} (ho : h.Outlying start size)
    (hs : h.SameRegion h') : h'.Outlying start size := by
  refine ⟨ho.aligned, ho.pos, ?_, ho.off_builtins⟩
  rw [regionEnd, hs.start, hs.settings]
  exact ho.off_region

structure CursorFits (h : Heap) (c : Cursor) : Prop where
  start_le : h.blockStart c.block ≤ c.bump
  bump_le : c.bump ≤ c.limit
  limit_eq : c.limit = h.blockEnd c.block
  aligned : 8 ∣ c.bump

structure Regular (h : Heap) (arenas : Nat) (cursors : List Cursor) (threads : List Nat) :
    Prop where
  valid : h.settings.IsValid
  founded : h.settings.MayStartAt h.start
  accounts : ∃ released, h.Accounts h.settings arenas (cursors.map Cursor.block) released
  cursors : ∀ c ∈ cursors, h.CursorFits c
  large : ∀ mapping ∈ h.large, h.Outlying mapping.start mapping.size
  threads : ∀ t ∈ threads, h.Outlying t pageSize ∧
    ∀ mapping ∈ h.large, mapping.start + mapping.size ≤ t ∨ t + pageSize ≤ mapping.start

/-- The memory from `start` to `stop` is in use: part of a block that is not free, below the cursor
if the block has one, or the front of a mapping. -/
def Places (h : Heap) (cursors : List Cursor) (start stop : Nat) : Prop :=
  (∃ b, b < h.blockCount ∧ b ∉ h.free ∧ h.blockStart b ≤ start ∧ stop ≤ h.blockEnd b ∧
    ∀ c ∈ cursors, c.block = b → stop ≤ c.bump) ∨
  ∃ mapping ∈ h.large, mapping.start = start ∧ stop ≤ mapping.start + mapping.size

theorem blockEnd_le_blockStart (h : Heap) {b b' : Nat} (hlt : b < b') :
    h.blockEnd b ≤ h.blockStart b' := by
  have hmul : (b + 1) * h.settings.blockSize ≤ b' * h.settings.blockSize :=
    Nat.mul_le_mul_right _ hlt
  rw [Nat.succ_mul] at hmul
  simp only [blockEnd, blockStart]
  omega

theorem blockEnd_le_regionEnd (h : Heap) {b : Nat} (hb : b < h.blockCount) :
    h.blockEnd b ≤ h.regionEnd := by
  have hmul : (b + 1) * h.settings.blockSize ≤ h.blockCount * h.settings.blockSize :=
    Nat.mul_le_mul_right _ hb
  have hcount : h.blockCount * h.settings.blockSize ≤ h.settings.heapSize :=
    Nat.div_mul_le_self h.settings.heapSize h.settings.blockSize
  rw [Nat.succ_mul] at hmul
  simp only [blockEnd, blockStart, regionEnd]
  omega

theorem contains_iff (h : Heap) (a : Nat) :
    h.contains a = true ↔ h.start ≤ a ∧ a < h.regionEnd := by
  simp only [contains, regionEnd, Bool.and_eq_true, decide_eq_true_eq]

theorem start_le_blockStart (h : Heap) (b : Nat) : h.start ≤ h.blockStart b := Nat.le_add_right _ _

theorem blockOf_of_mem (h : Heap) {b a : Nat} (hstart : h.blockStart b ≤ a)
    (hstop : a < h.blockEnd b) :
    h.blockOf a = b := by
  simp only [blockStart] at hstart
  simp only [blockEnd, blockStart] at hstop
  apply Nat.div_eq_of_lt_le
  · omega
  · rw [Nat.succ_mul]
    omega

namespace Regular

variable {h h' : Heap} {arenas : Nat} {cursors : List Cursor} {threads : List Nat}

theorem dvd_blockStart (hr : h.Regular arenas cursors threads) (b : Nat) : 8 ∣ h.blockStart b := by
  have hpage : 8 ∣ pageSize := ⟨512, rfl⟩
  have hblock : 8 ∣ h.settings.blockSize := Nat.dvd_trans hpage hr.valid.pageSize_dvd
  have hstart : 8 ∣ h.start := Nat.dvd_trans hpage hr.founded.aligned
  exact Nat.dvd_add hstart (Nat.dvd_trans hblock (Nat.dvd_mul_left _ _))

theorem regionEnd_le_addressLimit (hr : h.Regular arenas cursors threads) :
    h.regionEnd ≤ Mapping.addressLimit := hr.founded.le_limit

theorem change {arenas' : Nat} {cursors' : List Cursor} (hr : h.Regular arenas cursors threads)
    (hs : h.SameRegion h') (hlarge : h'.large ⊆ h.large)
    (haccounts : ∃ released, h'.Accounts h.settings arenas' (cursors'.map Cursor.block) released)
    (hcursors : ∀ c ∈ cursors', h.CursorFits c) : h'.Regular arenas' cursors' threads := by
  have hstart : ∀ b, h'.blockStart b = h.blockStart b := by
    intro b
    rw [blockStart, blockStart, hs.start, hs.settings]
  have hstop : ∀ b, h'.blockEnd b = h.blockEnd b := by
    intro b
    rw [blockEnd, blockEnd, hstart, hs.settings]
  refine ⟨by rw [hs.settings]; exact hr.valid, by rw [hs.start, hs.settings]; exact hr.founded,
    by rw [hs.settings]; exact haccounts, ?_,
    fun mapping hmapping => (hr.large mapping (hlarge hmapping)).congr hs, ?_⟩
  · intro c hc
    obtain ⟨hbump, hlimit, heq, haligned⟩ := hcursors c hc
    exact ⟨by rw [hstart]; exact hbump, hlimit, by rw [hstop]; exact heq, haligned⟩
  · intro t ht
    obtain ⟨hpage, hmappings⟩ := hr.threads t ht
    exact ⟨hpage.congr hs, fun mapping hmapping => hmappings mapping (hlarge hmapping)⟩

theorem note (hr : h.Regular arenas cursors threads) (r : LogRecord) :
    (h.note r).Regular arenas cursors threads := by
  obtain ⟨released, haccounts⟩ := hr.accounts
  exact hr.change ⟨rfl, rfl⟩ (fun _ h => h)
    ⟨released, haccounts.sameBlocks ⟨rfl, rfl, rfl, rfl, rfl⟩⟩ hr.cursors

theorem withMemory (hr : h.Regular arenas cursors threads) (memory : Memory) :
    Heap.Regular { h with memory } arenas cursors threads := by
  obtain ⟨released, haccounts⟩ := hr.accounts
  exact hr.change ⟨rfl, rfl⟩ (fun _ h => h)
    ⟨released, haccounts.sameBlocks ⟨rfl, rfl, rfl, rfl, rfl⟩⟩ hr.cursors

theorem mapAt (hr : h.Regular arenas cursors threads) (place : Nat) :
    Heap.Regular { h with nextMapping := place } arenas cursors threads := by
  obtain ⟨released, haccounts⟩ := hr.accounts
  exact hr.change ⟨rfl, rfl⟩ (fun _ h => h)
    ⟨released, haccounts.sameBlocks ⟨rfl, rfl, rfl, rfl, rfl⟩⟩ hr.cursors

end Regular

theorem create_eq_ok {settings : HeapSettings} {h : Heap}
    (hcreate : Heap.create settings = .ok h) :
    settings.IsValid ∧ Mapping.IsFeasible settings.heapSize ∧ h = {
      settings
      start := Mapping.firstAddress
      free := List.range settings.blockCount
      retired := []
      large := []
      arenas := 0
      stats := {}
      nextMapping := Mapping.firstAddress + settings.heapSize + pageSize
      memory := .empty
      log := [.heapMapped settings.blockCount settings.blockSize] } := by
  unfold Heap.create at hcreate
  split at hcreate
  · contradiction
  · rename_i hfault
    split at hcreate
    · rename_i hfeasible
      cases hcreate
      exact ⟨(HeapSettings.fault?_eq_none_iff settings).mp hfault, hfeasible, rfl⟩
    · contradiction

theorem builtin_lt_firstAddress {id : Nat} (hid : id < Builtin.table.length) :
    Builtin.address id < Mapping.firstAddress := by
  have hcount : id < 5 := hid
  unfold Builtin.address Mapping.firstAddress
  omega

theorem mayStartAt_of_create {settings : HeapSettings} {h : Heap}
    (hcreate : Heap.create settings = .ok h) : settings.MayStartAt Mapping.firstAddress := by
  obtain ⟨-, ⟨-, hlt⟩, -⟩ := create_eq_ok hcreate
  refine ⟨⟨0x7f0000001, rfl⟩, by decide, ?_, fun id hid => Or.inr (builtin_lt_firstAddress hid)⟩
  simp only [Mapping.firstAddress, Mapping.sizeLimit, Mapping.addressLimit] at hlt ⊢
  omega

namespace Places

variable {h : Heap} {arenas : Nat} {cursors : List Cursor} {threads : List Nat} {start stop : Nat}

theorem pageSize_le (hp : h.Places cursors start stop) (hr : h.Regular arenas cursors threads) :
    pageSize ≤ start := by
  rcases hp with ⟨b, -, -, hstart, -⟩ | ⟨mapping, hm, rfl, -⟩
  · exact Nat.le_trans hr.founded.pageSize_le (Nat.le_trans (h.start_le_blockStart b) hstart)
  · obtain ⟨haligned, hpos, -, -⟩ := hr.large mapping hm
    exact Nat.le_of_dvd hpos haligned

theorem start_cases (hp : h.Places cursors start stop) (hr : h.Regular arenas cursors threads)
    (hlt : start < stop) : h.contains start ∨ pageSize ∣ start := by
  rcases hp with ⟨b, hb, -, hstart, hstop, -⟩ | ⟨mapping, hm, rfl, -⟩
  · exact Or.inl ((h.contains_iff start).mpr ⟨Nat.le_trans (h.start_le_blockStart b) hstart,
      Nat.lt_of_lt_of_le hlt (Nat.le_trans hstop (h.blockEnd_le_regionEnd hb))⟩)
  · exact Or.inr (hr.large mapping hm).aligned

theorem builtin_apart (hp : h.Places cursors start stop) (hr : h.Regular arenas cursors threads)
    {id : Nat} (hid : id < Builtin.table.length) :
    stop ≤ Builtin.address id ∨ Builtin.address id < start := by
  rcases hp with ⟨b, hb, -, hstart, hstop, -⟩ | ⟨mapping, hm, rfl, hstop⟩
  · have hlow := h.start_le_blockStart b
    have hend := h.blockEnd_le_regionEnd hb
    have hoff := hr.founded.off_builtins id hid
    unfold regionEnd at hend
    omega
  · have hoff := (hr.large mapping hm).off_builtins id hid
    omega

theorem thread_apart (hp : h.Places cursors start stop) (hr : h.Regular arenas cursors threads)
    {t : Nat} (ht : t ∈ threads) : stop ≤ t ∨ t + pageSize ≤ start := by
  obtain ⟨hpage, hmappings⟩ := hr.threads t ht
  rcases hp with ⟨b, hb, -, hstart, hstop, -⟩ | ⟨mapping, hm, rfl, hstop⟩
  · have hlow := h.start_le_blockStart b
    have hend := h.blockEnd_le_regionEnd hb
    have hoff := hpage.off_region
    omega
  · have hoff := hmappings mapping hm
    omega

theorem apart_mapping (hp : h.Places cursors start stop) {size : Nat} (hmap : h.MayMap size) :
    stop ≤ h.nextMapping ∨ h.nextMapping + alignUp pageSize size ≤ start := by
  rcases hp with ⟨b, hb, -, hstart, hstop, -⟩ | ⟨mapping, hm, rfl, hstop⟩
  · have hlow := h.start_le_blockStart b
    have hend := h.blockEnd_le_regionEnd hb
    have hoff := hmap.off_region
    omega
  · have hoff := hmap.apart mapping hm
    omega

theorem change {h' : Heap} (hp : h.Places cursors start stop) (hs : h.SameRegion h')
    (hfree : ∀ b, h.blockStart b ≤ start → stop ≤ h.blockEnd b → b ∈ h'.free → b ∈ h.free)
    (hlarge : ∀ mapping ∈ h.large, mapping.start = start → stop ≤ mapping.start + mapping.size →
      mapping ∈ h'.large) :
    h'.Places cursors start stop := by
  rcases hp with ⟨b, hb, hnot, hstart, hstop, hcursors⟩ | ⟨mapping, hm, heq, hstop⟩
  · refine Or.inl ⟨b, ?_, fun hmem => hnot (hfree b hstart hstop hmem), ?_, ?_, hcursors⟩
    · rw [blockCount, hs.settings]
      exact hb
    · rw [blockStart, hs.start, hs.settings]
      exact hstart
    · rw [blockEnd, blockStart, hs.start, hs.settings]
      exact hstop
  · exact Or.inr ⟨mapping, hlarge mapping hm heq hstop, heq, hstop⟩

theorem not_contains (hr : h.Regular arenas cursors threads) {mapping : Mapping}
    (hm : mapping ∈ h.large) (hpos : 0 < mapping.size) : h.contains mapping.start = false := by
  apply Bool.eq_false_iff.mpr
  intro hin
  have hin' := (h.contains_iff _).mp hin
  have hoff := (hr.large mapping hm).off_region
  omega

theorem spared {h' : Heap} {roots : List Value} (hp : h.Places cursors start stop)
    (hr : h.Regular arenas cursors threads) (hlt : start < stop) (hspares : h.Spares roots h')
    (hreached : h.memory.Reaches roots start) (hunpinned : h.memory.isPinned start = false) :
    h'.Places cursors start stop := by
  apply hp.change hspares.ground.sameRegion
  · intro b hstart hstop hfree
    rcases (hspares.free b).mp hfree with hfree | ⟨hb, hdead⟩
    · exact hfree
    · obtain ⟨released, haccounts⟩ := hr.accounts
      have hlt' : b < h.blockCount := List.mem_range.mp (haccounts.divided.mem_iff.mp
        (List.mem_append_left _ (List.mem_append_right _ hb)))
      have hmem : start < h.blockEnd b := Nat.lt_of_lt_of_le hlt hstop
      have hin : h.contains start := (h.contains_iff start).mpr
        ⟨Nat.le_trans (h.start_le_blockStart b) hstart,
          Nat.lt_of_lt_of_le hmem (h.blockEnd_le_regionEnd hlt')⟩
      exact absurd ⟨start, hreached, hunpinned, hin, h.blockOf_of_mem hstart hmem⟩ hdead
  · rintro mapping hm rfl hstop
    exact hspares.spared mapping hm hreached hunpinned (not_contains hr hm (by omega))

theorem mono {cursors' : List Cursor} (hp : h.Places cursors start stop)
    (hcursors : ∀ c' ∈ cursors', (∃ c ∈ cursors, c.block = c'.block ∧ c.bump ≤ c'.bump) ∨
      c'.block ∈ h.free) : h.Places cursors' start stop := by
  rcases hp with ⟨b, hb, hnot, hstart, hstop, hbelow⟩ | hlarge
  · refine Or.inl ⟨b, hb, hnot, hstart, hstop, ?_⟩
    rintro c' hc' rfl
    rcases hcursors c' hc' with ⟨c, hc, hblock, hbump⟩ | hfree
    · exact Nat.le_trans (hbelow c hc hblock) hbump
    · exact absurd hfree hnot
  · exact Or.inr hlarge

end Places

namespace Regular

variable {h : Heap} {arenas : Nat} {cursors : List Cursor} {threads : List Nat} {c : Cursor}

theorem not_free (hr : h.Regular arenas cursors threads) (hc : c ∈ cursors) : c.block ∉ h.free := by
  obtain ⟨released, haccounts⟩ := hr.accounts
  exact haccounts.divided.not_mem_free (List.mem_map.mpr ⟨c, hc, rfl⟩)

theorem block_ne (hr : h.Regular arenas (c :: cursors) threads) {d : Cursor} (hd : d ∈ cursors) :
    d.block ≠ c.block := by
  obtain ⟨released, haccounts⟩ := hr.accounts
  have hheld := List.nodup_cons.mp haccounts.divided.held_nodup
  intro heq
  apply hheld.1
  rw [← heq]
  exact List.mem_map.mpr ⟨d, hd, rfl⟩

theorem block_lt (hr : h.Regular arenas cursors threads) (hc : c ∈ cursors) :
    c.block < h.blockCount := by
  obtain ⟨released, haccounts⟩ := hr.accounts
  exact haccounts.divided.lt_blockCount (List.mem_map.mpr ⟨c, hc, rfl⟩)

theorem limit_le (hr : h.Regular arenas cursors threads) (hc : c ∈ cursors) :
    c.limit ≤ h.regionEnd := by
  rw [(hr.cursors c hc).limit_eq]
  exact h.blockEnd_le_regionEnd (hr.block_lt hc)

theorem unused (hr : h.Regular arenas cursors threads) (hc : c ∈ cursors) {start stop : Nat}
    (hp : h.Places cursors start stop) : stop ≤ c.bump ∨ c.limit ≤ start := by
  have hfits := hr.cursors c hc
  rcases hp with ⟨b, hb, -, hstart, hstop, hbelow⟩ | ⟨mapping, hm, rfl, hstop⟩
  · rcases Nat.lt_trichotomy b c.block with hlt | heq | hgt
    · have hle := h.blockEnd_le_blockStart hlt
      have hbump := hfits.start_le
      exact Or.inl (by omega)
    · exact Or.inl (hbelow c hc heq.symm)
    · have hle := h.blockEnd_le_blockStart hgt
      have hlimit := hfits.limit_eq
      exact Or.inr (by omega)
  · have hlow := h.start_le_blockStart c.block
    have hlimit := hr.limit_le hc
    have hbump := hfits.start_le
    have hoff := (hr.large mapping hm).off_region
    omega

theorem bump (hr : h.Regular arenas (c :: cursors) threads) {size : Nat}
    (hfits : c.bump + size ≤ c.limit) (hsize : 8 ∣ size) :
    h.Regular arenas ({ c with bump := c.bump + size } :: cursors) threads := by
  obtain ⟨hstart, -, hlimit, haligned⟩ := hr.cursors c List.mem_cons_self
  have haccounts : ∃ released, h.Accounts h.settings arenas
      (({ c with bump := c.bump + size } :: cursors).map Cursor.block) released := hr.accounts
  apply hr.change ⟨rfl, rfl⟩ (fun _ h => h) haccounts
  intro d hd
  rcases List.mem_cons.mp hd with rfl | hd
  · exact ⟨Nat.le_add_right_of_le hstart, hfits, hlimit, Nat.dvd_add haligned hsize⟩
  · exact hr.cursors d (List.mem_cons_of_mem c hd)

theorem bump_places (hr : h.Regular arenas (c :: cursors) threads) {size : Nat}
    (hfits : c.bump + size ≤ c.limit) :
    h.Places ({ c with bump := c.bump + size } :: cursors) c.bump (c.bump + size) := by
  obtain ⟨hstart, -, hlimit, -⟩ := hr.cursors c List.mem_cons_self
  refine Or.inl ⟨c.block, hr.block_lt List.mem_cons_self, hr.not_free List.mem_cons_self, hstart,
    by omega, ?_⟩
  intro d hd hblock
  rcases List.mem_cons.mp hd with rfl | hd
  · exact Nat.le_refl _
  · exact absurd hblock (hr.block_ne hd)

theorem addMapping (hr : h.Regular arenas cursors threads) {size : Nat}
    (hmap : h.MayMapBeside threads size) (r : LogRecord) :
    Heap.Regular { h with
      large := ⟨h.nextMapping, alignUp pageSize size⟩ :: h.large
      nextMapping := h.nextMapping + alignUp pageSize size
      stats := { h.stats with largeAllocations := h.stats.largeAllocations + 1 }
      log := r :: h.log } arenas cursors threads := by
  obtain ⟨released, haccounts⟩ := hr.accounts
  have hs : h.SameRegion { h with
      large := ⟨h.nextMapping, alignUp pageSize size⟩ :: h.large
      nextMapping := h.nextMapping + alignUp pageSize size
      stats := { h.stats with largeAllocations := h.stats.largeAllocations + 1 }
      log := r :: h.log } := ⟨rfl, rfl⟩
  refine ⟨hr.valid, hr.founded, ⟨released, haccounts.sameBlocks ⟨rfl, rfl, rfl, rfl, rfl⟩⟩,
    fun c hc => ⟨(hr.cursors c hc).start_le, (hr.cursors c hc).bump_le, (hr.cursors c hc).limit_eq,
      (hr.cursors c hc).aligned⟩, ?_, ?_⟩
  · intro mapping hmapping
    rcases List.mem_cons.mp hmapping with rfl | hmapping
    · exact hmap.outlying.congr hs
    · exact (hr.large mapping hmapping).congr hs
  · intro t ht
    obtain ⟨hpage, hmappings⟩ := hr.threads t ht
    refine ⟨hpage.congr hs, fun mapping hmapping => ?_⟩
    rcases List.mem_cons.mp hmapping with rfl | hmapping
    · exact hmap.off_threads t ht
    · exact hmappings mapping hmapping

theorem openArena (hr : h.Regular arenas cursors threads) (hmap : h.MayMapBeside threads pageSize)
    (words : List UInt64) (r : LogRecord) :
    ((h.openArena.placePinned words).2.note r).Regular (arenas + 1) cursors
      (h.nextMapping :: threads) := by
  obtain ⟨released, haccounts⟩ := hr.accounts
  have hs : h.SameRegion ((h.openArena.placePinned words).2.note r) := ⟨rfl, rfl⟩
  have hpage : alignUp pageSize pageSize = pageSize := rfl
  refine ⟨hr.valid, hr.founded,
    ⟨released, haccounts.openArena.sameBlocks ⟨rfl, rfl, rfl, rfl, rfl⟩⟩,
    fun c hc => ⟨(hr.cursors c hc).start_le, (hr.cursors c hc).bump_le, (hr.cursors c hc).limit_eq,
      (hr.cursors c hc).aligned⟩, fun mapping hmapping => (hr.large mapping hmapping).congr hs, ?_⟩
  intro t ht
  rcases List.mem_cons.mp ht with rfl | ht
  · have houtlying := hmap.outlying
    rw [hpage] at houtlying
    refine ⟨houtlying.congr hs, fun mapping hmapping => ?_⟩
    have hoff := hmap.apart mapping hmapping
    rw [hpage] at hoff
    exact hoff.symm
  · obtain ⟨houtlying, hmappings⟩ := hr.threads t ht
    exact ⟨houtlying.congr hs, hmappings⟩

theorem closeArena {a : Arena} (hr : h.Regular (arenas + 1) (a.cursor.toList ++ cursors) threads) :
    (h.closeArena a).Regular arenas cursors threads := by
  obtain ⟨released, haccounts⟩ := hr.accounts
  have hblocks : (a.cursor.toList ++ cursors).map Cursor.block =
      a.blocks ++ cursors.map Cursor.block := by
    rw [List.map_append, Arena.blocks]
    cases a.cursor <;> rfl
  rw [hblocks] at haccounts
  have hs : h.SameRegion (h.closeArena a) := ⟨rfl, rfl⟩
  apply hr.change hs (fun _ h => h) ⟨released, haccounts.closeArena⟩
  intro c hc
  exact hr.cursors c (List.mem_append_right _ hc)

theorem perm {cursors' : List Cursor} (hr : h.Regular arenas cursors threads)
    (hperm : cursors'.Perm cursors) : h.Regular arenas cursors' threads := by
  obtain ⟨released, haccounts⟩ := hr.accounts
  have hblocks := haccounts.perm (hperm.map Cursor.block)
  apply hr.change ⟨rfl, rfl⟩ (fun _ h => h) ⟨released, hblocks⟩
  intro c hc
  exact hr.cursors c (hperm.mem_iff.mp hc)

theorem create {settings : HeapSettings} {base : Nat} (hcreate : Heap.create settings = .ok h)
    (hbase : settings.MayStartAt base) : Heap.Regular { h with start := base } 0 [] [] := by
  have haccounts := Heap.Accounts.create hcreate
  obtain ⟨hvalid, -, rfl⟩ := create_eq_ok hcreate
  exact ⟨hvalid, hbase, ⟨0, haccounts.sameBlocks ⟨rfl, rfl, rfl, rfl, rfl⟩⟩,
    fun c hc => absurd hc List.not_mem_nil, fun mapping hm => absurd hm List.not_mem_nil,
    fun t ht => absurd ht List.not_mem_nil⟩

end Regular

/-- All that is mapped ends before the place of the next mapping. -/
structure Follows (h : Heap) (threads : List Nat) : Prop where
  aligned : pageSize ∣ h.nextMapping
  regionEnd_le : h.regionEnd ≤ h.nextMapping
  large : ∀ mapping ∈ h.large, mapping.start + mapping.size ≤ h.nextMapping
  threads : ∀ t ∈ threads, t + pageSize ≤ h.nextMapping
  builtins : ∀ id < Builtin.table.length, Builtin.address id < h.nextMapping

namespace Follows

variable {h h' : Heap} {threads : List Nat}

theorem mayMapBeside (hf : h.Follows threads) (size : Nat) : h.MayMapBeside threads size :=
  ⟨⟨hf.aligned, Or.inr hf.regionEnd_le, fun mapping hm => Or.inr (hf.large mapping hm)⟩,
    Nat.zero_lt_of_lt (hf.builtins 0 (by decide)), fun t ht => Or.inr (hf.threads t ht),
    fun id hid => Or.inr (hf.builtins id hid)⟩

theorem change (hf : h.Follows threads) (hs : h.SameRegion h') (hlarge : h'.large ⊆ h.large)
    (hle : h.nextMapping ≤ h'.nextMapping) (haligned : pageSize ∣ h'.nextMapping) :
    h'.Follows threads := by
  refine ⟨haligned, ?_, fun mapping hm => Nat.le_trans (hf.large mapping (hlarge hm)) hle,
    fun t ht => Nat.le_trans (hf.threads t ht) hle,
    fun id hid => Nat.lt_of_lt_of_le (hf.builtins id hid) hle⟩
  rw [regionEnd, hs.start, hs.settings]
  exact Nat.le_trans hf.regionEnd_le hle

theorem openArena (hf : h.Follows threads) (words : List UInt64) (r : LogRecord) :
    ((h.openArena.placePinned words).2.note r).Follows (h.nextMapping :: threads) := by
  have hrest : ((h.openArena.placePinned words).2.note r).Follows threads :=
    hf.change ⟨rfl, rfl⟩ (fun _ hm => hm) (Nat.le_add_right _ _)
      (Nat.dvd_add hf.aligned (Nat.dvd_refl _))
  refine ⟨hrest.aligned, hrest.regionEnd_le, hrest.large, fun t ht => ?_, hrest.builtins⟩
  rcases List.mem_cons.mp ht with rfl | ht
  · exact Nat.le_refl _
  · exact hrest.threads t ht

theorem create {settings : HeapSettings} (hcreate : Heap.create settings = .ok h) :
    h.Follows [] := by
  obtain ⟨hvalid, -, rfl⟩ := create_eq_ok hcreate
  have hpage : pageSize ∣ settings.heapSize :=
    Nat.dvd_trans hvalid.pageSize_dvd hvalid.blockSize_dvd
  have hfirst : pageSize ∣ Mapping.firstAddress := ⟨0x7f0000001, rfl⟩
  refine ⟨Nat.dvd_add (Nat.dvd_add hfirst hpage) (Nat.dvd_refl _), Nat.le_add_right _ _,
    fun mapping hm => absurd hm List.not_mem_nil, fun t ht => absurd ht List.not_mem_nil,
    fun id hid => ?_⟩
  have hlt := builtin_lt_firstAddress hid
  change _ < Mapping.firstAddress + settings.heapSize + pageSize
  omega

end Follows

end Heap

end VmSupport
