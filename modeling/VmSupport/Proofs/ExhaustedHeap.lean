import VmSupport.Proofs.ExactReclaiming
import VmSupport.Proofs.Inventory
import VmSupport.Proofs.SharedHeap
import VmSupport.Proofs.ThriftyAllocation
import VmSupport.Proofs.TracedPayload

namespace VmSupport

open EStateM

namespace Heap

/-- All that these values reach is tagged by its layout: the type in the header of an object is one
whose slots lie in the words of this object, and no two objects share a word. Objects outside of the
blocks may be pinned. -/
structure Tagged (h : Heap) (roots : List Value) (words : Nat → Nat) : Prop where
  object : ∀ {a}, h.memory.Reaches roots a → h.memory.isPinned a = false →
    IsObject (h.memory.readAll a (words a))
  pinned : ∀ {a}, h.memory.Reaches roots a → h.memory.isPinned a = true →
    (h.memory.header a).IsOutside ∧ h.contains a = false
  apart : ∀ {a b}, h.memory.Reaches roots a → h.memory.Reaches roots b → a < b →
    a + 8 * words a ≤ b

def IsFull (h : Heap) (roots : List Value) : Prop := ∀ b < h.blockCount, h.IsReached roots b

namespace Tagged

variable {h : Heap} {roots : List Value} {words : Nat → Nat} {a b : Nat}

theorem header_eq (ht : h.Tagged roots words) (ha : h.memory.Reaches roots a)
    (hunpinned : h.memory.isPinned a = false) :
    headerOf (h.memory.readAll a (words a)) = h.memory.header a := by
  have hpos := (ht.object ha hunpinned).nonempty
  rw [Memory.length_readAll] at hpos
  exact Memory.headerOf_readAll _ a hpos

theorem slots (ht : h.Tagged roots words) (ha : h.memory.Reaches roots a) :
    ∃ slots, Memory.slots? (h.memory.header a) a = some slots ∧
      ∀ slot ∈ slots, a < slot ∧ slot < a + 8 * words a := by
  cases hpinned : h.memory.isPinned a with
  | true =>
    exact ⟨[], (ht.pinned ha hpinned).1.slots?_eq a, fun _ hslot => absurd hslot List.not_mem_nil⟩
  | false =>
    obtain ⟨type, htype, hslots⟩ := (ht.object ha hpinned).typed
    rw [ht.header_eq ha hpinned] at htype hslots
    refine ⟨_, by rw [Memory.slots?, htype, Option.map_some], fun slot hslot => ?_⟩
    obtain ⟨i, hpos, hi, rfl⟩ := hslots hslot
    rw [Memory.length_readAll] at hi
    omega

theorem markable (ht : h.Tagged roots words) : h.memory.Markable roots := by
  refine ⟨?_, ?_, ?_, ?_⟩
  · intro a ha
    cases hpinned : h.memory.isPinned a with
    | true => exact (ht.pinned ha hpinned).1.unmarked
    | false =>
      rw [Memory.isMarked, ← ht.header_eq ha hpinned]
      exact (ht.object ha hpinned).unmarked
  · intro a ha hpinned
    exact (ht.pinned ha hpinned).1.slots?_eq a
  · intro a ha
    obtain ⟨slots, hslots, -⟩ := ht.slots ha
    exact ⟨slots, hslots⟩
  · intro a b slots ha hb hslots hmem
    obtain ⟨slots', hslots', hwithin⟩ := ht.slots ha
    rw [hslots] at hslots'
    cases hslots'
    obtain ⟨hlow, hhigh⟩ := hwithin b hmem
    exact absurd (ht.apart ha hb hlow) (Nat.not_le.mpr hhigh)

theorem isOccupied_iff (ht : h.Tagged roots words) :
    h.IsOccupied roots b ↔ h.IsReached roots b := by
  constructor
  · rintro ⟨a, ha, -, hin, hblock⟩
    exact ⟨a, ha.reaches, hin, hblock⟩
  · rintro ⟨a, ha, hin, hblock⟩
    refine ⟨a, ht.markable.encounters_iff.mpr ha, ?_, hin, hblock⟩
    cases hpinned : h.memory.isPinned a with
    | false => rfl
    | true =>
      rw [(ht.pinned ha hpinned).2] at hin
      contradiction

end Tagged

theorem sameSite_releaseBlock (b : Nat) (h : Heap) : h.SameSite (releaseBlock b h).state := by
  by_cases hb : b ∈ h.retired
  · rw [releaseBlock_of_mem hb]
    exact ⟨rfl, rfl⟩
  · rw [releaseBlock_of_not_mem hb]
    exact ⟨rfl, rfl⟩

end Heap

namespace Mutator

variable {R H : Type} {settings : HeapSettings} {l : Layout} {m : Mutator R H}

/-- The allocation succeeds, or the count of bytes is at its limit; up to then there were `n`
collections. -/
def Served (total n : Nat) : Result Fault (Mutator R H) Nat → Prop
  | .ok _ m => m.heap.stats.collections = n
  | .error f m => f = .additionOverflow ∧ 1 <<< 64 ≤ total ∧ m.heap.stats.collections = n

theorem Served.outcome {total n : Nat} {r : Result Fault (Mutator R H) Nat} (h : Served total n r) :
    (∀ m', r ≠ .error .noBlockAfterCollection m') ∧
      (∀ f m', r = .error f m' → f = .additionOverflow ∧ 1 <<< 64 ≤ total) ∧
      r.state.heap.stats.collections = n := by
  cases r with
  | ok address m => exact ⟨fun _ heq => (by cases heq), fun _ _ heq => (by cases heq), h⟩
  | error f m =>
    obtain ⟨rfl, htotal, hcount⟩ := h
    refine ⟨fun _ heq => (by cases heq), fun f m' heq => ?_, hcount⟩
    cases heq
    exact ⟨rfl, htotal⟩

theorem served_of_place? {c : Cursor} {address : Nat}
    (hplace : m.arena.place? l = some (c, address)) (otherwise : Action R H Nat) :
    Served (m.arena.allocated + l.size) m.heap.stats.collections
      ((do
        match ← allocateOnBlock l with
        | some address => return address
        | none => otherwise) m) := by
  simp only [allocateOnBlock, countBytes, bind, EStateM.bind, get, getThe, MonadStateOf.get,
    EStateM.get, hplace, modify, modifyGet, MonadStateOf.modifyGet, EStateM.modifyGet]
  by_cases hlt : m.arena.allocated + l.size < 1 <<< 64
  · simp only [hlt, ↓reduceIte]
    rfl
  · simp only [hlt, ↓reduceIte]
    exact ⟨rfl, Nat.le_of_not_lt hlt, rfl⟩

structure Alone (settings : HeapSettings) (m : Mutator R H) : Prop where
  valid : settings.IsValid
  aligned : pageSize ∣ m.heap.start
  accounts : ∃ released, m.heap.Accounts settings 1 m.arena.blocks released

def retired (m : Mutator R H) : Mutator R H :=
  { m with
    heap := { m.heap with retired := m.heap.retired ++ m.arena.blocks }
    arena := ⟨none, m.arena.allocated⟩ }

theorem Alone.retire_eq (hm : m.Alone settings) : retire m = .ok () m.retired := by
  obtain ⟨heap, ⟨cursor, allocated⟩, roots, host⟩ := m
  obtain ⟨released, haccounts⟩ := hm.accounts
  cases cursor with
  | none =>
    simp only [retired, Arena.blocks, Option.map_none, Option.toList_none, List.append_nil]
    rfl
  | some c =>
    have hlt : c.block < heap.blockCount := haccounts.divided.lt_blockCount List.mem_cons_self
    simp only [retire, bind, EStateM.bind, get, getThe, MonadStateOf.get, EStateM.get, onHeap,
      Heap.retireBlock_of_lt hlt]
    rfl

theorem Alone.retired (hm : m.Alone settings) : m.retired.Alone settings := by
  obtain ⟨released, haccounts⟩ := hm.accounts
  rw [← List.append_nil m.arena.blocks] at haccounts
  exact ⟨hm.valid, hm.aligned, released, haccounts.retire m.arena.blocks⟩

def switched (m : Mutator R H) (b : Nat) : Mutator R H :=
  { m with
    heap := m.heap.note (.arenaSwitched b)
    arena := { m.arena with cursor := some (m.heap.freshCursor b) } }

theorem place?_switched (hvalid : settings.IsValid) (hsettings : m.heap.settings = settings)
    (haligned : pageSize ∣ m.heap.start) (hl : l.IsPaged) (hsmall : l.size < settings.largeSize)
    (b : Nat) :
    (m.switched b).arena.place? l = some (m.heap.freshCursor b, m.heap.blockStart b) := by
  refine Arena.place?_eq_some.mpr ⟨rfl, ?_, ?_⟩
  · have hblock : pageSize ∣ b * m.heap.settings.blockSize :=
      Nat.dvd_trans (hsettings ▸ hvalid.pageSize_dvd) (Nat.dvd_mul_left _ _)
    have hstart : pageSize ∣ m.heap.blockStart b := Nat.dvd_add haligned hblock
    exact alignUp_of_dvd hl.align_pos (Nat.dvd_trans hl.align_dvd hstart)
  · have hsize : l.size ≤ m.heap.settings.blockSize := by
      rw [hsettings]
      exact Nat.le_trans (Nat.le_of_lt hsmall) hvalid.largeSize_le
    exact Nat.add_le_add_left hsize _

variable [RootSet R] {collector : Collector H}

theorem requestBlock_of_none (hfree : m.heap.free = []) {m' : Mutator R H}
    (hcollect : collect collector m = .ok () m') :
    requestBlock collector m = match m'.heap.free with
      | [] => .error .noBlockAfterCollection m'
      | b :: rest => .ok b { m' with heap := m'.heap.handOut rest } := by
  have hfirst := onHeap_requestBlock m
  have hsecond := onHeap_requestBlock m'
  rw [hfree] at hfirst
  refine (bind_of_ok hfirst).trans ((bind_of_ok hcollect).trans ?_)
  cases hfree' : m'.heap.free with
  | nil =>
    rw [hfree'] at hsecond
    exact bind_of_ok hsecond
  | cons b rest =>
    rw [hfree'] at hsecond
    exact bind_of_ok hsecond

theorem exchangeBlock_of_request {b : Nat} {m₁ m₂ : Mutator R H} (hretire : retire m = .ok () m₁)
    (hrequest : requestBlock collector m₁ = .ok b m₂) (hb : b < m₂.heap.blockCount) :
    exchangeBlock collector m = .ok () (m₂.switched b) := by
  refine (bind_of_ok hretire).trans ((bind_of_ok hrequest).trans ?_)
  simp only [bind, EStateM.bind, onHeap, Heap.blockBounds_of_lt hb]
  rfl

theorem allocate_of_small (hsmall : l.size < m.heap.settings.largeSize) :
    allocate collector l m =
      (do
        match ← allocateOnBlock l with
        | some address => return address
        | none =>
          exchangeBlock collector
          match ← allocateOnBlock l with
          | some address => return address
          | none => throw (Fault.freshBlockTooSmall l.size)) m :=
  congrFun (if_neg (Nat.not_le.mpr hsmall)) m

theorem allocate_of_place?_eq_none (hsmall : l.size < m.heap.settings.largeSize)
    (hplace : m.arena.place? l = none) :
    allocate collector l m =
      (do
        exchangeBlock collector
        match ← allocateOnBlock l with
        | some address => return address
        | none => throw (Fault.freshBlockTooSmall l.size)) m :=
  (allocate_of_small hsmall).trans (bind_of_ok (allocateOnBlock_of_place?_eq_none hplace))

theorem Alone.served_of_request {b : Nat} {heap : Heap} (hm : m.Alone settings) (hl : l.IsPaged)
    (hsmall : l.size < settings.largeSize) (hplace : m.arena.place? l = none)
    (hsettings : heap.settings = settings) (hstart : heap.start = m.heap.start)
    (hb : b < settings.blockCount)
    (hrequest : requestBlock collector m.retired = .ok b { m.retired with heap }) :
    Served (m.arena.allocated + l.size) heap.stats.collections (allocate collector l m) := by
  obtain ⟨released, haccounts⟩ := hm.accounts
  have hlt : b < heap.blockCount := by
    rwa [Heap.blockCount, hsettings]
  have hexchange := exchangeBlock_of_request hm.retire_eq hrequest hlt
  have hroom : (Mutator.switched { m.retired with heap } b).arena.place? l =
      some (heap.freshCursor b, heap.blockStart b) :=
    place?_switched hm.valid hsettings (hstart ▸ hm.aligned) hl hsmall b
  rw [allocate_of_place?_eq_none (haccounts.settings_eq ▸ hsmall) hplace, bind_of_ok hexchange]
  exact served_of_place? hroom _

theorem Alone.refused_of_request {f : Fault} {m' : Mutator R H} (hm : m.Alone settings)
    (hsmall : l.size < settings.largeSize) (hplace : m.arena.place? l = none)
    (hrequest : requestBlock collector m.retired = .error f m') :
    allocate collector l m = .error f m' := by
  obtain ⟨released, haccounts⟩ := hm.accounts
  have hexchange : exchangeBlock collector m = .error f m' :=
    (bind_of_ok hm.retire_eq).trans (bind_of_error hrequest)
  rw [allocate_of_place?_eq_none (haccounts.settings_eq ▸ hsmall) hplace, bind_of_error hexchange]

theorem Alone.served (collector : Collector H) (hm : m.Alone settings) (hl : l.IsPaged)
    (hsmall : l.size < settings.largeSize)
    (hroom : ¬(m.arena.place? l = none ∧ m.heap.free = [])) :
    Served (m.arena.allocated + l.size) m.heap.stats.collections (allocate collector l m) := by
  obtain ⟨released, haccounts⟩ := hm.accounts
  cases hplace : m.arena.place? l with
  | some placed =>
    rw [allocate_of_small (haccounts.settings_eq ▸ hsmall)]
    exact served_of_place? hplace _
  | none =>
    cases hfree : m.heap.free with
    | nil => exact absurd ⟨hplace, hfree⟩ hroom
    | cons b rest =>
      have hlt := haccounts.divided.lt_of_mem_free (hfree ▸ List.mem_cons_self)
      rw [Heap.blockCount, haccounts.settings_eq] at hlt
      have hsettings : (m.retired.heap.handOut rest).settings = settings := haccounts.settings_eq
      have hrequest : requestBlock collector m.retired =
          .ok b { m.retired with heap := m.retired.heap.handOut rest } :=
        requestBlock_of_free hfree
      have hserved := hm.served_of_request hl hsmall hplace hsettings rfl hlt hrequest
      exact hserved

variable [LawfulRootSet R] {words : Nat → Nat}

theorem Alone.collect (hm : m.Alone settings) (hcursor : m.arena.cursor = none)
    (ht : m.heap.Tagged (RootSet.toList m.roots) words) (hfree : m.heap.free = []) :
    ∃ heap, Mutator.collect .blocks m = .ok () { m with heap } ∧ heap.settings = settings ∧
      heap.start = m.heap.start ∧ heap.stats.collections = m.heap.stats.collections + 1 ∧
      ∀ b, b ∈ heap.free ↔
        b < m.heap.blockCount ∧ ¬m.heap.IsReached (RootSet.toList m.roots) b := by
  obtain ⟨h, ⟨cursor, allocated⟩, roots, host⟩ := m
  obtain ⟨released, haccounts⟩ := hm.accounts
  simp only at hcursor hfree
  subst hcursor
  obtain ⟨heap, hrun, hreclaims⟩ := Collector.blocks_reclaims
    (c := ⟨collecting h, RootSet.toList roots, host⟩) ht.markable.traversable
    haccounts.divided.retired_nodup haccounts.arenas_eq
  obtain ⟨⟨memory, log, hframe⟩, -, ⟨dead, -, hdead, hfreed, -⟩, -⟩ := hreclaims
  refine ⟨heap, collect_blocks_ok _ hrun, ?_, ?_, ?_, fun b => ?_⟩
  · rw [hframe]
    exact haccounts.settings_eq
  · rw [hframe]
    rfl
  · rw [hframe]
    rfl
  · have hfreed' : heap.free = dead ++ h.free := hfreed
    rw [hfreed', hfree, List.append_nil, hdead]
    exact and_congr (haccounts.divided.mem_retired_iff hfree) (not_congr ht.isOccupied_iff)

theorem Alone.requestBlock_retired (hm : m.Alone settings)
    (ht : m.heap.Tagged (RootSet.toList m.roots) words) (hfree : m.heap.free = []) :
    ∃ heap, heap.settings = settings ∧ heap.start = m.heap.start ∧
      heap.stats.collections = m.heap.stats.collections + 1 ∧
      (m.heap.IsFull (RootSet.toList m.roots) →
        requestBlock .blocks m.retired = .error .noBlockAfterCollection { m.retired with heap }) ∧
      (¬m.heap.IsFull (RootSet.toList m.roots) → ∃ b < m.heap.blockCount,
        requestBlock .blocks m.retired = .ok b { m.retired with heap }) := by
  have ht' : m.retired.heap.Tagged (RootSet.toList m.retired.roots) words :=
    ⟨ht.object, ht.pinned, ht.apart⟩
  obtain ⟨heap, hcollect, hsettings, hstart, hcount, hspared⟩ := hm.retired.collect rfl ht' hfree
  have hrequest := requestBlock_of_none (m := m.retired) hfree hcollect
  cases hempty : heap.free with
  | nil =>
    have hfull : m.heap.IsFull (RootSet.toList m.roots) := by
      intro b hb
      by_contra hnot
      have hmem := (hspared b).mpr ⟨hb, hnot⟩
      rw [hempty] at hmem
      exact List.not_mem_nil hmem
    refine ⟨heap, hsettings, hstart, hcount, fun _ => ?_, fun hnot => absurd hfull hnot⟩
    rw [hrequest]
    simp only [hempty]
  | cons b rest =>
    obtain ⟨hb, hnot⟩ := (hspared b).mp (hempty ▸ List.mem_cons_self)
    refine ⟨heap.handOut rest, hsettings, hstart, hcount,
      fun hfull => absurd (hfull b hb) hnot, fun _ => ⟨b, hb, ?_⟩⟩
    rw [hrequest]
    simp only [hempty]

theorem Alone.served_after_collection (hm : m.Alone settings)
    (ht : m.heap.Tagged (RootSet.toList m.roots) words) (hl : l.IsPaged)
    (hsmall : l.size < settings.largeSize) (hplace : m.arena.place? l = none)
    (hfree : m.heap.free = []) :
    (m.heap.IsFull (RootSet.toList m.roots) → ∃ m',
      allocate .blocks l m = .error .noBlockAfterCollection m' ∧
        m'.heap.stats.collections = m.heap.stats.collections + 1) ∧
    (¬m.heap.IsFull (RootSet.toList m.roots) →
      Served (m.arena.allocated + l.size) (m.heap.stats.collections + 1)
        (allocate .blocks l m)) := by
  obtain ⟨heap, hsettings, hstart, hcount, hrefused, hgranted⟩ := hm.requestBlock_retired ht hfree
  constructor
  · exact fun hfull => ⟨_, hm.refused_of_request hsmall hplace (hrefused hfull), hcount⟩
  · intro hnot
    obtain ⟨released, haccounts⟩ := hm.accounts
    obtain ⟨b, hb, hrequest⟩ := hgranted hnot
    rw [Heap.blockCount, haccounts.settings_eq] at hb
    rw [← hcount]
    exact hm.served_of_request hl hsmall hplace hsettings hstart hb hrequest

end Mutator

namespace BlockOwners

/-- The states of a heap with the block collector. All that own blocks act in any order, mutators
write what they like, and the operating system chooses where it maps memory. -/
inductive Reachable {H : Type} (R : Type) [RootSet R] (settings : HeapSettings) (base : Nat) :
    BlockOwners H → Prop
  | create {h : Heap} (host : H) (hcreate : Heap.create settings = .ok h) :
    Reachable R settings base ⟨{ h with start := base }, [], [], host, 0⟩
  | perform {s : BlockOwners H} (op : BlockOp R) (hs : Reachable R settings base s) :
    Reachable R settings base (BlockOwners.perform .blocks op s).state
  | write {s : BlockOwners H} (memory : Memory) (hs : Reachable R settings base s) :
    Reachable R settings base { s with heap := { s.heap with memory } }
  | mapAt {s : BlockOwners H} (place : Nat) (hs : Reachable R settings base s) :
    Reachable R settings base (s.mapAt place)

variable {R H : Type} [RootSet R] {settings : HeapSettings} {base : Nat} {s : BlockOwners H}

theorem collect_start : Keeps (fun m : Mutator R (H × Nat) => m.heap.start = base)
    (Mutator.collect ReleasingCollector.blocks.tallied) := by
  rintro ⟨heap, arena, roots, host, count⟩ hstart
  have hreclaims := (Collector.blocks_onlyReclaims
    ⟨Mutator.collecting heap, RootSet.toList roots, host⟩).start
  have hrun : (ReleasingCollector.blocks.run : Collector H) = Collector.blocks := rfl
  simp only [Mutator.collecting] at hreclaims
  simp only [Mutator.collect, ReleasingCollector.tallied, Collector.noting, hrun]
  cases hc : Collector.blocks (Collection.mk (Heap.note _ _) (RootSet.toList roots) host) <;>
    · rw [hc] at hreclaims
      exact hreclaims.trans hstart

theorem performArena_start (op : ArenaOp) :
    Keeps (·.heap.start = base) (performArena (R := R) (H := H) .blocks op) := by
  let Q : Nat → Memory → R → H × Nat → Prop := fun start _ _ _ => start = base
  cases op with
  | allocate l =>
    exact Keeps.bind (Mutator.Carries.allocate (Q := Q) (fun _ h => h) collect_start l)
      fun _ => Keeps.pure ()
  | allocateOnBlock l =>
    exact Keeps.bind (Mutator.Carries.allocateOnBlock (Q := Q) (fun _ h => h) l)
      fun _ => Keeps.pure ()
  | exchangeBlock => exact Mutator.Carries.exchangeBlock (Q := Q) (fun _ h => h) collect_start
  | collect => exact collect_start

theorem onHeap_start {α : Type} {op : Heap.Action α} (hop : ∀ h : Heap, h.SameSite (op h).state) :
    Keeps (·.heap.start = base) (onHeap op : Action H α) := by
  intro s hs
  have hsite := (hop s.heap).1
  simp only [onHeap]
  cases hr : op s.heap <;>
    · rw [hr] at hsite
      exact hsite.trans hs

theorem perform_start (op : BlockOp R) :
    Keeps (·.heap.start = base) (perform (H := H) .blocks op) := by
  cases op with
  | openArena => exact fun s hs => hs
  | dropArena i =>
    intro s hs
    simp only [perform, dropArena]
    rcases s.arenas[i]? with - | - | a <;> exact hs
  | onArena i roots op =>
    intro s hs
    simp only [perform, onArena]
    rcases s.arenas[i]? with - | - | a
    · exact hs
    · exact hs
    · have hop := performArena_start (R := R) op ⟨s.heap, a, roots, s.host, s.released⟩ hs
      simp only
      cases hr : performArena .blocks op ⟨s.heap, a, roots, s.host, s.released⟩ <;>
        · rw [hr] at hop
          exact hop
  | request =>
    refine (onHeap_start Heap.sameSite_requestBlock).bind fun b => ?_
    cases b with
    | some b => exact fun s hs => hs
    | none => exact Keeps.pure ()
  | retire b =>
    refine Keeps.get.bind fun s => ?_
    split
    · exact (onHeap_start (Heap.sameSite_retireBlock b)).bind fun _ _ hs => hs
    · exact Keeps.pure ()
  | release b => exact (onHeap_start (Heap.sameSite_releaseBlock b)).bind fun _ _ hs => hs

namespace Reachable

theorem run (hs : Reachable R settings base s) (ops : List (BlockOp R)) :
    Reachable R settings base (BlockOwners.run .blocks s ops) := by
  induction ops generalizing s with
  | nil => exact hs
  | cons op ops ih => exact ih (hs.perform op)

theorem founded (hs : Reachable R settings base s) (hbase : pageSize ∣ base) :
    settings.IsValid ∧ s.heap.start = base ∧ Accounted settings s := by
  induction hs with
  | create host hcreate =>
    refine ⟨(Heap.Orderly.create hcreate hbase).valid, rfl, ?_⟩
    exact (Heap.Accounts.create hcreate).sameBlocks ⟨rfl, rfl, rfl, rfl, rfl⟩
  | perform op _ ih =>
    obtain ⟨hvalid, hstart, haccounted⟩ := ih
    exact ⟨hvalid, (perform_start op).state hstart, (perform_accounted .blocks op).state haccounted⟩
  | write memory _ ih =>
    obtain ⟨hvalid, hstart, haccounted⟩ := ih
    exact ⟨hvalid, hstart, Heap.Accounts.sameBlocks haccounted ⟨rfl, rfl, rfl, rfl, rfl⟩⟩
  | mapAt place _ ih =>
    obtain ⟨hvalid, hstart, haccounted⟩ := ih
    exact ⟨hvalid, hstart, Heap.Accounts.sameBlocks haccounted ⟨rfl, rfl, rfl, rfl, rfl⟩⟩

theorem alone (hs : Reachable R settings base s) (hbase : pageSize ∣ base) {a : Arena}
    (hlive : s.live = [a]) (hholders : s.holders = []) (roots : R) :
    (Mutator.mk s.heap a roots s.host).Alone settings := by
  obtain ⟨hvalid, hstart, haccounted⟩ := hs.founded hbase
  unfold Accounted at haccounted
  rw [hlive, hholders, List.flatMap_singleton, List.append_nil] at haccounted
  exact ⟨hvalid, hstart ▸ hbase, s.released, haccounted⟩

end Reachable

/-- An arena that is alone on its heap runs out of memory exactly if the layout does not fit its
block, no block is free and the roots reach an object in every block, its own included. Otherwise it
returns an address, unless the count of bytes overflows; a new block is never too small. It collects
once if its block has no room and no block is free, and not at all if not. -/
theorem out_of_memory_iff_full [LawfulRootSet R] (hs : Reachable R settings base s)
    (hbase : pageSize ∣ base) {a : Arena} (hlive : s.live = [a]) (hholders : s.holders = [])
    {roots : R} {words : Nat → Nat} (ht : s.heap.Tagged (RootSet.toList roots) words) {l : Layout}
    (hl : l.IsPaged) (hsmall : l.size < settings.largeSize) :
    let r := Mutator.allocate .blocks l ⟨s.heap, a, roots, s.host⟩
    let needy := (∀ c ∈ a.cursor, c.limit < alignUp l.align c.bump + l.size) ∧ s.heap.free = []
    ((∃ m, r = .error .noBlockAfterCollection m) ↔
      needy ∧ ∀ b < settings.blockCount, s.heap.IsReached (RootSet.toList roots) b) ∧
    (∀ f m, r = .error f m → f = .noBlockAfterCollection ∨
      f = .additionOverflow ∧ 1 <<< 64 ≤ a.allocated + l.size) ∧
    (needy → r.state.heap.stats.collections = s.heap.stats.collections + 1) ∧
    (¬needy → r.state.heap.stats.collections = s.heap.stats.collections) := by
  intro r needy
  have hm := hs.alone hbase hlive hholders roots
  have hneedy : needy ↔ a.place? l = none ∧ s.heap.free = [] :=
    and_congr_left fun _ => Arena.place?_eq_none.symm
  have hfull : (∀ b < settings.blockCount, s.heap.IsReached (RootSet.toList roots) b) ↔
      s.heap.IsFull (RootSet.toList roots) := by
    obtain ⟨released, haccounts⟩ := hm.accounts
    rw [Heap.IsFull, Heap.blockCount, haccounts.settings_eq]
  rw [hneedy, hfull]
  by_cases hroom : a.place? l = none ∧ s.heap.free = []
  · obtain ⟨hrefused, hgranted⟩ := hm.served_after_collection ht hl hsmall hroom.1 hroom.2
    by_cases hreached : s.heap.IsFull (RootSet.toList roots)
    · obtain ⟨m, hr, hcount⟩ := hrefused hreached
      have hr' : r = .error .noBlockAfterCollection m := hr
      rw [hr']
      refine ⟨⟨fun _ => ⟨hroom, hreached⟩, fun _ => ⟨m, rfl⟩⟩, fun f m' heq => ?_, fun _ => hcount,
        fun hnot => absurd hroom hnot⟩
      cases heq
      exact Or.inl rfl
    · obtain ⟨hnever, hfault, hcount⟩ := (hgranted hreached).outcome
      exact ⟨⟨fun h => absurd h (not_exists.mpr hnever), fun h => absurd h.2 hreached⟩,
        fun f m heq => Or.inr (hfault f m heq), fun _ => hcount, fun hnot => absurd hroom hnot⟩
  · obtain ⟨hnever, hfault, hcount⟩ := (hm.served .blocks hl hsmall hroom).outcome
    exact ⟨⟨fun h => absurd h (not_exists.mpr hnever), fun h => absurd h.1 hroom⟩,
      fun f m heq => Or.inr (hfault f m heq), fun h => absurd h hroom, fun _ => hcount⟩

theorem out_of_memory_iff_full_of_two :
    let h : Heap := (Heap.create ⟨8192, 4096, 2048⟩).toOption.getD default
    let filled : BlockOwners Unit := run (R := List Value) .blocks
      ⟨{ h with start := 16384 }, [], [], (), 0⟩
      [.openArena, .onArena 0 [] (.allocate ⟨2000, 8⟩), .onArena 0 [] (.allocate ⟨2000, 8⟩),
        .onArena 0 [] (.allocate ⟨2000, 8⟩), .onArena 0 [] (.allocate ⟨2000, 8⟩)]
    let memory := (Memory.empty.writeAll 16384
      (ObjectImage.cell .pair (.reference 20480) .nil)).writeAll 20480
        (ObjectImage.cell .pair (.fixnum 1) .nil)
    let s : BlockOwners Unit := { filled with heap := { filled.heap with memory } }
    let a : Arena := ⟨some ⟨1, 24480, 24576⟩, 8000⟩
    let roots := [Value.reference 16384]
    s.live = [a] ∧ s.heap.stats.collections = 0 ∧
      ∃ m, Mutator.allocate .blocks ⟨1000, 8⟩ ⟨s.heap, a, roots, ()⟩ =
        .error .noBlockAfterCollection m ∧ m.heap.stats.collections = 1 := by
  intro h filled memory s a roots
  have hcreate : Heap.create ⟨8192, 4096, 2048⟩ = .ok h := rfl
  have hfilled : Reachable (List Value) ⟨8192, 4096, 2048⟩ 16384 filled :=
    (Reachable.create () hcreate).run _
  have hs : Reachable (List Value) ⟨8192, 4096, 2048⟩ 16384 s := hfilled.write memory
  have hlive : s.live = [a] := by decide +kernel
  have hholders : s.holders = [] := by decide +kernel
  have hcount : s.heap.stats.collections = 0 := by decide +kernel
  let images := [(20480, ObjectImage.cell .pair (.fixnum 1) .nil),
    (16384, ObjectImage.cell .pair (.reference 20480) .nil)]
  have hclosed : Memory.IsClosed images [16384, 20480] roots := by decide +kernel
  have hreached : ∀ b, memory.Reaches roots b → b = 16384 ∨ b = 20480 :=
    fun b hb => List.mem_pair.mp (hclosed.mem_of_reaches hb)
  have hedges : memory.edges? 16384 = some [.reference 20480, .nil] :=
    (Memory.edges?_ofImages images 16384).trans (by decide +kernel)
  have hpinned : ∀ b, memory.isPinned b = (Memory.headerAt images b).hasFlag .pinned :=
    Memory.isPinned_ofImages images
  have hunpinned : ∀ b, memory.Reaches roots b → memory.isPinned b = false := by
    intro b hb
    rw [hpinned]
    rcases hreached b hb with rfl | rfl <;> decide +kernel
  have hfirst : memory.readAll 16384 3 = ObjectImage.cell .pair (.reference 20480) .nil :=
    (Memory.readAll_ofImages images 16384 3).trans (by decide +kernel)
  have hsecond : memory.readAll 20480 3 = ObjectImage.cell .pair (.fixnum 1) .nil :=
    (Memory.readAll_ofImages images 20480 3).trans (by decide +kernel)
  have ht : s.heap.Tagged roots fun _ => 3 := by
    refine ⟨?_, ?_, ?_⟩
    · intro b hb _
      change IsObject (memory.readAll b 3)
      rcases hreached b hb with rfl | rfl
      · rw [hfirst]
        exact ObjectImage.isObject_cell (Or.inl rfl) _ _
      · rw [hsecond]
        exact ObjectImage.isObject_cell (Or.inl rfl) _ _
    · exact fun hb hpinned => absurd ((hunpinned _ hb).symm.trans hpinned) Bool.false_ne_true
    · intro b c hb hc hlt
      rcases hreached b hb with rfl | rfl <;> rcases hreached c hc with rfl | rfl <;> omega
  have hroot : memory.Reaches roots 16384 :=
    .root (v := .reference 16384) List.mem_cons_self rfl
  have hbehind : memory.Reaches roots 20480 :=
    .edge (v := .reference 20480) hroot hedges List.mem_cons_self rfl
  have hfull : ∀ b < 2, s.heap.IsReached roots b := by
    intro b hb
    have hblocks : s.heap.contains 16384 ∧ s.heap.blockOf 16384 = 0 ∧
        s.heap.contains 20480 ∧ s.heap.blockOf 20480 = 1 := by decide +kernel
    obtain ⟨hin, hblock, hin', hblock'⟩ := hblocks
    have hcases : b = 0 ∨ b = 1 := by omega
    rcases hcases with rfl | rfl
    · exact ⟨16384, hroot, hin, hblock⟩
    · exact ⟨20480, hbehind, hin', hblock'⟩
  obtain ⟨hiff, -, hcollected, -⟩ := out_of_memory_iff_full hs ⟨4, rfl⟩ hlive hholders ht
    (by decide : (⟨1000, 8⟩ : Layout).IsPaged) (by decide)
  have hneedy : (∀ c ∈ a.cursor, c.limit < alignUp 8 c.bump + 1000) ∧ s.heap.free = [] := by
    decide +kernel
  obtain ⟨m, hm⟩ := hiff.mpr ⟨hneedy, hfull⟩
  have hone := hcollected hneedy
  rw [hm, hcount] at hone
  exact ⟨hlive, hcount, m, hm, hone⟩

end BlockOwners

end VmSupport
