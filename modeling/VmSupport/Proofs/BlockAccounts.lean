import Mathlib.Data.List.Perm.Basic
import VmSupport.Heap.BlockCollector
import VmSupport.Proofs.Outcome
import VmSupport.Proofs.Record

namespace VmSupport

open EStateM

theorem filterMap_id_set {α : Type} {slots : List (Option α)} {i : Nat} {a : α}
    (h : slots[i]? = some (some a)) :
    ∃ before after, slots.filterMap id = before ++ a :: after ∧
      (∀ a', (slots.set i (some a')).filterMap id = before ++ a' :: after) ∧
      (slots.set i none).filterMap id = before ++ after := by
  obtain ⟨hi, hget⟩ := List.getElem?_eq_some_iff.mp h
  have hset : ∀ slot, (slots.set i slot).filterMap id =
      (slots.take i).filterMap id ++ (slot :: slots.drop (i + 1)).filterMap id := by
    intro slot
    rw [List.set_eq_take_append_cons_drop, if_pos hi, List.filterMap_append]
  have hself := hset slots[i]
  rw [List.set_getElem_self, hget] at hself
  exact ⟨_, _, hself, fun a' => hset (some a'), hset none⟩

theorem flatMap_middle_perm {α β : Type} (f : α → List β) (before after : List α) (a : α) :
    ((before ++ a :: after).flatMap f).Perm (f a ++ (before ++ after).flatMap f) := by
  simp only [List.flatMap_append, List.flatMap_cons]
  exact List.perm_append_comm_assoc _ _ _

namespace Heap

theorem eraseSwap_perm {b : Nat} {bs : List Nat} (h : b ∈ bs) : (b :: eraseSwap b bs).Perm bs := by
  induction bs with
  | nil => exact absurd h List.not_mem_nil
  | cons a as ih =>
    unfold eraseSwap
    split
    · rename_i hab
      subst hab
      refine List.Perm.cons a ?_
      cases hz : as.getLast? with
      | none => rw [List.getLast?_eq_none_iff.mp hz]
      | some z =>
        obtain ⟨as', rfl⟩ := List.getLast?_eq_some_iff.mp hz
        simp only [List.dropLast_concat]
        exact (List.perm_append_singleton z as').symm
    · rename_i hab
      have hb : b ∈ as := (List.mem_cons.mp h).resolve_left (Ne.symm hab)
      exact (List.Perm.swap a b _).trans (List.Perm.cons a (ih hb))

def IsDivided (h : Heap) (held : List Nat) : Prop :=
  (h.free ++ h.retired ++ held).Perm (List.range h.blockCount)

theorem IsDivided.nodup {h : Heap} {held : List Nat} (hd : h.IsDivided held) :
    (h.free ++ h.retired ++ held).Nodup :=
  (List.Perm.nodup_iff hd).mpr List.nodup_range

theorem IsDivided.lt_blockCount {h : Heap} {held : List Nat} (hd : h.IsDivided held) {b : Nat}
    (hb : b ∈ held) : b < h.blockCount :=
  List.mem_range.mp (hd.mem_iff.mp (List.mem_append_right _ hb))

theorem IsDivided.lt_of_mem_free {h : Heap} {held : List Nat} (hd : h.IsDivided held) {b : Nat}
    (hb : b ∈ h.free) : b < h.blockCount :=
  List.mem_range.mp (hd.mem_iff.mp (List.mem_append_left _ (List.mem_append_left _ hb)))

theorem IsDivided.not_mem_free {h : Heap} {held : List Nat} (hd : h.IsDivided held) {b : Nat}
    (hb : b ∈ held) : b ∉ h.free := by
  intro hfree
  exact (List.nodup_append.mp hd.nodup).2.2 b (List.mem_append_left _ hfree) b hb rfl

theorem IsDivided.retired_nodup {h : Heap} {held : List Nat} (hd : h.IsDivided held) :
    h.retired.Nodup :=
  (List.nodup_append.mp (List.nodup_append.mp hd.nodup).1).2.1

theorem IsDivided.mem_retired_iff {h : Heap} (hd : h.IsDivided []) (hfree : h.free = []) {b : Nat} :
    b ∈ h.retired ↔ b < h.blockCount := by
  have hmem := List.Perm.mem_iff hd (a := b)
  rwa [hfree, List.nil_append, List.append_nil, List.mem_range] at hmem

theorem IsDivided.held_nodup {h : Heap} {held : List Nat} (hd : h.IsDivided held) : held.Nodup :=
  (List.nodup_append.mp hd.nodup).2.1

theorem IsDivided.length_free_le {h : Heap} {held : List Nat} (hd : h.IsDivided held) :
    h.free.length ≤ h.blockCount := by
  have hlength := List.Perm.length_eq hd
  simp only [List.length_append, List.length_range] at hlength
  omega

structure SameBlocks (h h' : Heap) : Prop where
  settings : h'.settings = h.settings
  free : h'.free = h.free
  retired : h'.retired = h.retired
  arenas : h'.arenas = h.arenas
  handedOut : h'.stats.handedOut = h.stats.handedOut

theorem IsDivided.sameBlocks {h h' : Heap} {held : List Nat} (hd : h.IsDivided held)
    (hs : SameBlocks h h') : h'.IsDivided held := by
  unfold IsDivided blockCount
  rw [hs.free, hs.retired, hs.settings]
  exact hd

theorem releaseBlock_of_mem {h : Heap} {b : Nat} (hb : b ∈ h.retired) :
    releaseBlock b h =
      .ok () { h with retired := eraseSwap b h.retired, free := b :: h.free } := by
  simp only [releaseBlock, bind, EStateM.bind, get, getThe, MonadStateOf.get, EStateM.get, hb,
    ↓reduceIte]
  rfl

theorem releaseBlock_of_not_mem {h : Heap} {b : Nat} (hb : b ∉ h.retired) :
    releaseBlock b h = .error (.releaseOfUnretired b) h := by
  simp only [releaseBlock, bind, EStateM.bind, get, getThe, MonadStateOf.get, EStateM.get, hb,
    ↓reduceIte]
  rfl

theorem retireBlock_of_lt {h : Heap} {b : Nat} (hb : b < h.blockCount) :
    retireBlock b h = .ok () { h with retired := h.retired ++ [b] } := by
  simp only [retireBlock, bind, EStateM.bind, get, getThe, MonadStateOf.get, EStateM.get, hb,
    ↓reduceIte]
  rfl

theorem blockBounds_of_lt {h : Heap} {b : Nat} (hb : b < h.blockCount) :
    blockBounds b h = .ok (h.blockStart b, h.blockEnd b) h := by
  simp only [blockBounds, bind, EStateM.bind, get, getThe, MonadStateOf.get, EStateM.get, hb,
    ↓reduceIte]
  rfl

inductive Releases : Heap → Nat → Heap → Prop
  | refl (h : Heap) : Releases h 0 h
  | aside {h h' h'' : Heap} {n : Nat} (hs : SameBlocks h h') (hr : Releases h' n h'') :
      Releases h n h''
  | release {h h'' : Heap} {n : Nat} (b : Nat) (hb : b ∈ h.retired)
      (hr : Releases { h with retired := eraseSwap b h.retired, free := b :: h.free } n h'') :
      Releases h (n + 1) h''

theorem Releases.of_sameBlocks {h h' : Heap} (hs : SameBlocks h h') : Releases h 0 h' :=
  Releases.aside hs (Releases.refl h')

theorem Releases.trans {h h' h'' : Heap} {m n : Nat} (hm : Releases h m h')
    (hn : Releases h' n h'') : Releases h (m + n) h'' := by
  induction hm with
  | refl h => rwa [Nat.zero_add]
  | aside hs _ ih => exact Releases.aside hs (ih hn)
  | release b hb _ ih =>
    rw [Nat.succ_add]
    exact Releases.release b hb (ih hn)

theorem Releases.length_free {h h' : Heap} {n : Nat} (hr : Releases h n h') :
    h'.free.length = h.free.length + n := by
  induction hr with
  | refl h => rfl
  | aside hs _ ih => rw [ih, hs.free]
  | release b hb _ ih =>
    rw [ih]
    simp only [List.length_cons]
    omega

/-- The books are right: `held` are the blocks that somebody holds, and `released` is the number of
releases so far. -/
structure Accounts (h : Heap) (settings : HeapSettings) (arenas : Nat) (held : List Nat)
    (released : Nat) : Prop where
  settings_eq : h.settings = settings
  arenas_eq : h.arenas = arenas
  divided : h.IsDivided held
  handedOut_eq : h.stats.handedOut + h.free.length = settings.blockCount + released

namespace Accounts

variable {h h' : Heap} {settings : HeapSettings} {arenas released : Nat} {held held' : List Nat}

theorem perm (ha : h.Accounts settings arenas held released) (hp : held'.Perm held) :
    h.Accounts settings arenas held' released :=
  ⟨ha.settings_eq, ha.arenas_eq, (hp.append_left _).trans ha.divided, ha.handedOut_eq⟩

theorem sameBlocks (ha : h.Accounts settings arenas held released) (hs : SameBlocks h h') :
    h'.Accounts settings arenas held released :=
  ⟨by rw [hs.settings, ha.settings_eq], by rw [hs.arenas, ha.arenas_eq], ha.divided.sameBlocks hs,
    by rw [hs.handedOut, hs.free, ha.handedOut_eq]⟩

theorem handOut {b : Nat} {rest : List Nat} (ha : h.Accounts settings arenas held released)
    (hfree : h.free = b :: rest) :
    Heap.Accounts { h with
      free := rest
      stats := { h.stats with handedOut := h.stats.handedOut + 1 } }
      settings arenas (b :: held) released := by
  obtain ⟨hsettings, harenas, hdivided, hcount⟩ := ha
  refine ⟨hsettings, harenas, ?_, ?_⟩
  · unfold IsDivided at hdivided ⊢
    rw [hfree] at hdivided
    refine List.Perm.trans ?_ hdivided
    simp only [List.append_assoc, List.cons_append]
    rw [← List.append_assoc, ← List.append_assoc]
    exact List.perm_middle
  · simp only [hfree, List.length_cons] at hcount ⊢
    omega

theorem retire (bs : List Nat) (ha : h.Accounts settings arenas (bs ++ held) released) :
    Heap.Accounts { h with retired := h.retired ++ bs } settings arenas held released := by
  obtain ⟨hsettings, harenas, hdivided, hcount⟩ := ha
  refine ⟨hsettings, harenas, ?_, hcount⟩
  unfold IsDivided at hdivided ⊢
  simp only [List.append_assoc] at hdivided ⊢
  exact hdivided

theorem release {b : Nat} (ha : h.Accounts settings arenas held released) (hb : b ∈ h.retired) :
    Heap.Accounts { h with retired := eraseSwap b h.retired, free := b :: h.free } settings arenas
      held (released + 1) := by
  obtain ⟨hsettings, harenas, hdivided, hcount⟩ := ha
  refine ⟨hsettings, harenas, ?_, ?_⟩
  · unfold IsDivided at hdivided ⊢
    refine List.Perm.trans (List.Perm.append_right held ?_) hdivided
    refine List.Perm.trans ?_ (List.Perm.append_left h.free (eraseSwap_perm hb))
    simp only [List.cons_append]
    exact List.perm_middle.symm
  · simp only [List.length_cons]
    omega

theorem releases {n : Nat} (hr : Releases h n h') (ha : h.Accounts settings arenas held released) :
    h'.Accounts settings arenas held (released + n) := by
  induction hr generalizing released with
  | refl h => exact ha
  | aside hs _ ih => exact ih (ha.sameBlocks hs)
  | @release h h'' n b hb _ ih =>
    rw [Nat.add_comm n, ← Nat.add_assoc]
    exact ih (ha.release hb)

end Accounts

end Heap

/-- A collector that moves blocks only by releasing retired ones, and how many it releases. It may
fail at any point, so what holds for all of these collectors holds throughout a collection. -/
structure ReleasingCollector (H : Type) where
  run : Collector H
  released : Collection H → Nat
  releases : ∀ c : Collection H, c.heap.Releases (released c) (run c).state.heap

namespace ReleasingCollector

variable {H : Type}

def tallied (k : ReleasingCollector H) : Collector (H × Nat) :=
  k.run.noting fun c n => n + k.released c

theorem tallied_releases (k : ReleasingCollector H) (c : Collection (H × Nat)) :
    ∃ n, c.heap.Releases n (k.tallied c).state.heap ∧
      (k.tallied c).state.host.2 = c.host.2 + n := by
  obtain ⟨heap, roots, host, count⟩ := c
  have hr := k.releases ⟨heap, roots, host⟩
  refine ⟨k.released ⟨heap, roots, host⟩, ?_⟩
  simp only [tallied, Collector.noting]
  cases hk : k.run ⟨heap, roots, host⟩ <;>
    · rw [hk] at hr
      exact ⟨hr, rfl⟩

def ofReleases (run : Collector H)
    (h : ∀ c : Collection H, ∃ n, c.heap.Releases n (run c).state.heap) :
    ReleasingCollector H where
  run
  released c := (run c).state.heap.free.length - c.heap.free.length
  releases c := by
    obtain ⟨n, hr⟩ := h c
    rwa [hr.length_free, Nat.add_sub_cancel_left]

end ReleasingCollector

namespace Collection

variable {H α β : Type}

def OnlyReleases (op : Action H α) : Prop :=
  ∀ c : Collection H, ∃ n, c.heap.Releases n (op c).state.heap

theorem onlyReleases_iff {op : Action H α} : OnlyReleases op ↔
    ∀ h : Heap, Keeps (fun c : Collection H => ∃ n, h.Releases n c.heap) op := by
  constructor
  · intro hop h
    apply keeps_iff.mpr
    rintro c ⟨m, hm⟩
    obtain ⟨n, hn⟩ := hop c
    exact ⟨m + n, hm.trans hn⟩
  · exact fun hop c => (hop c.heap).state ⟨0, .refl c.heap⟩

theorem OnlyReleases.bind {op : Action H α} {f : α → Action H β} (h : OnlyReleases op)
    (hf : ∀ a, OnlyReleases (f a)) : OnlyReleases (op >>= f) :=
  onlyReleases_iff.mpr fun heap =>
    (onlyReleases_iff.mp h heap).bind fun a => onlyReleases_iff.mp (hf a) heap

theorem OnlyReleases.pure (a : α) : OnlyReleases (pure a : Action H α) :=
  fun c => ⟨0, .refl c.heap⟩

theorem OnlyReleases.get : OnlyReleases (get : Action H (Collection H)) :=
  fun c => ⟨0, .refl c.heap⟩

theorem OnlyReleases.note (r : LogRecord) : OnlyReleases (note r : Action H Unit) :=
  fun _ => ⟨0, .of_sameBlocks ⟨rfl, rfl, rfl, rfl, rfl⟩⟩

theorem OnlyReleases.onHeap {op : Heap.Action α}
    (h : ∀ heap : Heap, ∃ n, heap.Releases n (op heap).state) :
    OnlyReleases (onHeap op : Action H α) := by
  rintro ⟨heap, roots, host⟩
  obtain ⟨n, hr⟩ := h heap
  simp only [Collection.onHeap]
  cases hop : op heap <;>
    · rw [hop] at hr
      exact ⟨n, hr⟩

theorem onMemory_sameBlocks (op : EStateM Fault Memory α) (h : Heap) :
    h.SameBlocks (Heap.onMemory op h).state := by
  simp only [Heap.onMemory]
  cases op h.memory <;> exact ⟨rfl, rfl, rfl, rfl, rfl⟩

theorem OnlyReleases.releaseBlock (b : Nat) :
    OnlyReleases (Collection.onHeap (Heap.releaseBlock b) : Action H Unit) := by
  refine OnlyReleases.onHeap fun h => ?_
  by_cases hb : b ∈ h.retired
  · rw [Heap.releaseBlock_of_mem hb]
    exact ⟨1, .release b hb (.refl _)⟩
  · rw [Heap.releaseBlock_of_not_mem hb]
    exact ⟨0, .refl h⟩

theorem OnlyReleases.releaseDead (isLive : Nat → Bool) (bs : List Nat) :
    OnlyReleases (releaseDead isLive bs : Action H Nat) :=
  onlyReleases_iff.mpr fun h =>
    keeps_releaseDead (fun b => onlyReleases_iff.mp (OnlyReleases.releaseBlock b) h) isLive bs

theorem OnlyReleases.reclaimUnlessShared : OnlyReleases (reclaimUnlessShared : Action H Unit) := by
  refine onlyReleases_iff.mpr fun h => keeps_reclaimUnlessShared ?_ ?_ ?_ ?_
  · intro α op
    exact onlyReleases_iff.mp (OnlyReleases.onHeap fun heap =>
      ⟨0, .of_sameBlocks (onMemory_sameBlocks op heap)⟩) h
  · exact fun b => onlyReleases_iff.mp (OnlyReleases.releaseBlock b) h
  · exact fun isLive => onlyReleases_iff.mp (OnlyReleases.onHeap fun heap =>
      ⟨0, .of_sameBlocks ⟨rfl, rfl, rfl, rfl, rfl⟩⟩) h
  · exact fun r => onlyReleases_iff.mp (OnlyReleases.note r) h

end Collection

namespace ReleasingCollector

variable {H : Type}

def blocks : ReleasingCollector H := ofReleases .blocks Collection.OnlyReleases.reclaimUnlessShared

end ReleasingCollector

def Arena.blocks (a : Arena) : List Nat := (a.cursor.map Cursor.block).toList

namespace Heap.Accounts

variable {h : Heap} {settings : HeapSettings} {arenas released : Nat} {held : List Nat}

theorem openArena (ha : h.Accounts settings arenas held released) :
    h.openArena.Accounts settings (arenas + 1) held released :=
  ⟨ha.settings_eq, congrArg (· + 1) ha.arenas_eq, ha.divided, ha.handedOut_eq⟩

theorem closeArena {a : Arena} (ha : h.Accounts settings (arenas + 1) (a.blocks ++ held) released) :
    (h.closeArena a).Accounts settings arenas held released := by
  obtain ⟨hsettings, -, hdivided, hcount⟩ := ha.retire a.blocks
  refine ⟨hsettings, ?_, hdivided, hcount⟩
  simp only [Heap.closeArena, ha.arenas_eq, Nat.add_sub_cancel]

theorem create (hcreate : Heap.create settings = .ok h) : h.Accounts settings 0 [] 0 := by
  unfold Heap.create at hcreate
  split at hcreate
  · contradiction
  split at hcreate
  · cases hcreate
    refine ⟨rfl, rfl, ?_, ?_⟩
    · simp only [Heap.IsDivided, List.append_nil]
      exact List.Perm.refl _
    · simp
  · contradiction

end Heap.Accounts

theorem Arena.place?_eq_some {a : Arena} {l : Layout} {c : Cursor} {address : Nat} :
    a.place? l = some (c, address) ↔
      a.cursor = some c ∧ alignUp l.align c.bump = address ∧ address + l.size ≤ c.limit := by
  unfold Arena.place?
  cases a.cursor with
  | none => simp
  | some d =>
    simp only [Option.ite_none_right_eq_some, Option.some.injEq, Prod.mk.injEq]
    constructor
    · rintro ⟨hfits, rfl, rfl⟩
      exact ⟨rfl, rfl, hfits⟩
    · rintro ⟨rfl, rfl, hfits⟩
      exact ⟨hfits, rfl, rfl⟩

theorem Arena.place?_eq_none {a : Arena} {l : Layout} :
    a.place? l = none ↔ ∀ c ∈ a.cursor, c.limit < alignUp l.align c.bump + l.size := by
  unfold Arena.place?
  cases a.cursor with
  | none => simp
  | some c => simp

namespace Mutator

variable {R H : Type}

def Accounted (settings : HeapSettings) (arenas : Nat) (others : List Nat)
    (m : Mutator R (H × Nat)) : Prop :=
  m.heap.Accounts settings arenas (m.arena.blocks ++ others) m.host.2

variable {settings : HeapSettings} {arenas : Nat} {others : List Nat}

theorem onHeap_accounted {α : Type} {op : Heap.Action α}
    (h : ∀ heap, Heap.SameBlocks heap (op heap).state) :
    Keeps (Accounted (R := R) (H := H) settings arenas others) (onHeap op) := by
  rintro ⟨heap, arena, roots, host⟩ ha
  have hs := h heap
  simp only [onHeap]
  cases hop : op heap <;>
    · rw [hop] at hs
      exact Heap.Accounts.sameBlocks ha hs

theorem allocateLarge_sameBlocks (size : Nat) (h : Heap) :
    Heap.SameBlocks h (Heap.allocateLarge size h).state := by
  simp only [Heap.allocateLarge, bind, EStateM.bind, get, getThe, MonadStateOf.get, EStateM.get]
  split <;> exact ⟨rfl, rfl, rfl, rfl, rfl⟩

theorem countBytes_accounted (size : Nat) :
    Keeps (Accounted (R := R) (H := H) settings arenas others) (countBytes size) := by
  refine Keeps.get.bind fun m => ?_
  simp only
  split
  · exact fun _ ha => ha
  · exact Keeps.throw _

theorem allocateOnBlock_accounted (l : Layout) :
    Keeps (Accounted (R := R) (H := H) settings arenas others) (allocateOnBlock l) := by
  intro m ha
  simp only [allocateOnBlock, bind, EStateM.bind, get, getThe, MonadStateOf.get, EStateM.get]
  cases hp : m.arena.place? l with
  | none => exact ha
  | some placed =>
    obtain ⟨c, address⟩ := placed
    obtain ⟨hcursor, -, -⟩ := Arena.place?_eq_some.mp hp
    have hcount : Keeps (Accounted (R := R) (H := H) settings arenas others)
        (countBytes l.size >>= fun _ => pure (some address)) :=
      (countBytes_accounted l.size).bind fun _ => Keeps.pure (some address)
    refine hcount { m with arena := { m.arena with
      cursor := some { c with bump := address + l.size } } } ?_
    simp only [Accounted, Arena.blocks, hcursor] at ha ⊢
    exact ha

theorem retire_accounted :
    Ensures (retire (R := R) (H := H × Nat)) (Accounted settings arenas others)
      (fun _ m => m.arena.cursor = none ∧ Accounted settings arenas others m)
      (Accounted settings arenas others) := by
  rintro ⟨heap, ⟨cursor, allocated⟩, roots, host⟩ ha
  cases cursor with
  | none => exact ⟨rfl, ha⟩
  | some c =>
    have ha' : heap.Accounts settings arenas (c.block :: others) host.2 := ha
    have hlt := ha'.divided.lt_blockCount List.mem_cons_self
    simp only [retire, bind, EStateM.bind, get, getThe, MonadStateOf.get, EStateM.get, onHeap,
      Heap.retireBlock_of_lt hlt]
    exact ⟨rfl, Heap.Accounts.retire [c.block] ha'⟩

theorem onHeap_requestBlock_accounted :
    Ensures (onHeap Heap.requestBlock)
      (fun m => m.arena.cursor = none ∧ Accounted (R := R) (H := H) settings arenas others m)
      (fun b m => m.arena.cursor = none ∧ Accounted settings arenas (b.toList ++ others) m)
      (Accounted settings arenas others) := by
  rintro ⟨heap, arena, roots, host⟩ ⟨hcursor, ha⟩
  simp only at hcursor
  simp only [onHeap, Heap.requestBlock, bind, EStateM.bind, get, getThe, MonadStateOf.get,
    EStateM.get]
  cases hfree : heap.free with
  | nil => exact ⟨hcursor, ha⟩
  | cons b rest =>
    refine ⟨hcursor, ?_⟩
    simp only [Accounted, Arena.blocks, hcursor] at ha ⊢
    exact ha.handOut hfree

variable [RootSet R]

theorem collect_arena (P : Arena → Prop) (collector : Collector H) :
    Keeps (fun m => P m.arena) (collect (R := R) collector) := by
  rintro ⟨heap, arena, roots, host⟩ hm
  simp only [collect]
  generalize collector _ = r
  cases r <;> exact hm

theorem collect_cursor (collector : Collector H) (cursor : Option Cursor) :
    Keeps (·.arena.cursor = cursor) (collect (R := R) collector) :=
  collect_arena (·.cursor = cursor) collector

variable (k : ReleasingCollector H)

theorem collect_accounted :
    Keeps (Accounted (R := R) settings arenas others) (collect k.tallied) := by
  rintro ⟨heap, arena, roots, host⟩ ha
  simp only [collect]
  generalize hc : Collection.mk (Heap.note _ _) (RootSet.toList roots) host = c
  obtain ⟨n, hr, hn⟩ := k.tallied_releases c
  have hc' : c.heap.Accounts settings arenas (arena.blocks ++ others) c.host.2 := by
    rw [← hc]
    exact Heap.Accounts.sameBlocks ha ⟨rfl, rfl, rfl, rfl, rfl⟩
  have hr' := hc'.releases hr
  rw [← hn] at hr'
  cases hk : k.tallied c <;>
    · rw [hk] at hr'
      exact hr'

theorem requestBlock_accounted :
    Ensures (requestBlock k.tallied)
      (fun m => m.arena.cursor = none ∧ Accounted (R := R) settings arenas others m)
      (fun b m => m.arena.cursor = none ∧ Accounted settings arenas (b :: others) m)
      (Accounted settings arenas others) := by
  refine onHeap_requestBlock_accounted.bind fun b => ?_
  cases b with
  | some b => exact Ensures.pure fun _ hm => hm
  | none =>
    have hcollect : Keeps (fun m => m.arena.cursor = none ∧
        Accounted (R := R) settings arenas others m) (collect k.tallied) :=
      (collect_cursor k.tallied none).and (collect_accounted k)
    refine (hcollect.mono (fun _ h => h) (fun _ _ h => h) fun _ h => h.2).bind fun _ => ?_
    refine onHeap_requestBlock_accounted.bind fun b => ?_
    cases b with
    | some b => exact Ensures.pure fun _ hm => hm
    | none => exact fun _ hm => hm.2

theorem exchangeBlock_accounted :
    Keeps (Accounted (R := R) settings arenas others) (exchangeBlock k.tallied) := by
  refine retire_accounted.bind fun _ => (requestBlock_accounted k).bind fun b => ?_
  rintro ⟨heap, arena, roots, host⟩ ⟨hcursor, ha⟩
  simp only at hcursor
  simp only [Accounted, Arena.blocks, hcursor] at ha
  have hlt : b < heap.blockCount := ha.divided.lt_blockCount List.mem_cons_self
  simp only [bind, EStateM.bind, onHeap, Heap.blockBounds_of_lt hlt]
  exact ha.sameBlocks ⟨rfl, rfl, rfl, rfl, rfl⟩

theorem allocate_accounted (l : Layout) :
    Keeps (Accounted (R := R) settings arenas others) (allocate k.tallied l) := by
  refine Keeps.get.bind fun m => ?_
  split
  · exact (countBytes_accounted _).bind fun _ => onHeap_accounted (allocateLarge_sameBlocks _)
  · refine (allocateOnBlock_accounted l).bind fun a => ?_
    cases a with
    | some a => exact Keeps.pure a
    | none =>
      refine (exchangeBlock_accounted k).bind fun _ =>
        (allocateOnBlock_accounted l).bind fun a => ?_
      cases a with
      | some a => exact Keeps.pure a
      | none => exact Keeps.throw _

end Mutator

end VmSupport
