import Mathlib.Logic.Relation
import VmSupport.Proofs.BlockAccounts

namespace VmSupport

open EStateM Relation

namespace Heap

def handOut (h : Heap) (rest : List Nat) : Heap :=
  { h with free := rest, stats := { h.stats with handedOut := h.stats.handedOut + 1 } }

def withLarge (h : Heap) (size : Nat) : Heap :=
  { h with
    large := ⟨h.nextMapping, alignUp pageSize size⟩ :: h.large
    nextMapping := h.nextMapping + alignUp pageSize size
    stats := { h.stats with largeAllocations := h.stats.largeAllocations + 1 }
    log := .largeObject size :: h.log }

def freshCursor (h : Heap) (b : Nat) : Cursor := ⟨b, h.blockStart b, h.blockEnd b⟩

theorem retireBlock_of_ge {h : Heap} {b : Nat} (hb : h.blockCount ≤ b) :
    retireBlock b h = .error .retiredBlockOutOfRange h := by
  simp only [retireBlock, bind, EStateM.bind, get, getThe, MonadStateOf.get, EStateM.get,
    Nat.not_lt.mpr hb, ↓reduceIte]
  rfl

theorem blockBounds_of_ge {h : Heap} {b : Nat} (hb : h.blockCount ≤ b) :
    blockBounds b h = .error (.blockOutOfRange b) h := by
  simp only [blockBounds, bind, EStateM.bind, get, getThe, MonadStateOf.get, EStateM.get,
    Nat.not_lt.mpr hb, ↓reduceIte]
  rfl

end Heap

namespace Mutator

variable {R H : Type} [RootSet R]

inductive Step (collector : Collector H) : Mutator R H → Mutator R H → Prop
  | count (heap : Heap) (cursor : Option Cursor) (allocated total : Nat) (roots : R) (host : H) :
    Step collector ⟨heap, ⟨cursor, allocated⟩, roots, host⟩ ⟨heap, ⟨cursor, total⟩, roots, host⟩
  | note (heap : Heap) (arena : Arena) (roots : R) (host : H) (r : LogRecord) :
    Step collector ⟨heap, arena, roots, host⟩ ⟨heap.note r, arena, roots, host⟩
  | retire (heap : Heap) (c : Cursor) (allocated : Nat) (roots : R) (host : H) :
    Step collector ⟨heap, ⟨some c, allocated⟩, roots, host⟩
      ⟨{ heap with retired := heap.retired ++ [c.block] }, ⟨none, allocated⟩, roots, host⟩
  | take (heap : Heap) (b : Nat) (rest : List Nat) (allocated : Nat) (roots : R) (host : H)
    (hfree : heap.free = b :: rest) (hb : b < heap.blockCount) :
    Step collector ⟨heap, ⟨none, allocated⟩, roots, host⟩
      ⟨heap.handOut rest, ⟨some (heap.freshCursor b), allocated⟩, roots, host⟩
  | lose (heap : Heap) (b : Nat) (rest : List Nat) (arena : Arena) (roots : R) (host : H)
    (hfree : heap.free = b :: rest) (hb : heap.blockCount ≤ b) :
    Step collector ⟨heap, arena, roots, host⟩ ⟨heap.handOut rest, arena, roots, host⟩
  | bump (heap : Heap) (c : Cursor) (next : Nat) (allocated : Nat) (roots : R) (host : H)
    (hbump : c.bump ≤ next) (hnext : next ≤ c.limit) :
    Step collector ⟨heap, ⟨some c, allocated⟩, roots, host⟩
      ⟨heap, ⟨some { c with bump := next }, allocated⟩, roots, host⟩
  | collect (m : Mutator R H) : Step collector m (Mutator.collect collector m).state

abbrev Steps (collector : Collector H) : Mutator R H → Mutator R H → Prop :=
  ReflTransGen (Step collector)

inductive Placed (collector : Collector H) (m : Mutator R H) (l : Layout) (address : Nat) :
    Mutator R H → Prop
  | mk (heap : Heap) (c : Cursor) (allocated total : Nat) (roots : R) (host : H)
    (hsteps : Steps collector m ⟨heap, ⟨some c, allocated⟩, roots, host⟩)
    (hplace : (Arena.mk (some c) allocated).place? l = some (c, address)) :
    Placed collector m l address
      ⟨heap, ⟨some { c with bump := address + l.size }, total⟩, roots, host⟩

inductive Mapped (m : Mutator R H) (l : Layout) : Mutator R H → Prop
  | mk (total : Nat) (hfits : Mapping.FitsAt m.heap.nextMapping (alignUp pageSize l.size)) :
    Mapped m l ⟨m.heap.withLarge l.size, ⟨m.arena.cursor, total⟩, m.roots, m.host⟩

variable {collector : Collector H} {m₀ : Mutator R H}

omit [RootSet R] in
theorem countBytes_eq (size : Nat) (m : Mutator R H) : countBytes size m =
    if m.arena.allocated + size < 1 <<< 64 then
      .ok () { m with arena := { m.arena with allocated := m.arena.allocated + size } }
    else .error .additionOverflow m := by
  simp only [countBytes, bind, EStateM.bind, get, getThe, MonadStateOf.get, EStateM.get]
  split <;> rfl

omit [RootSet R] in
theorem countBytes_ensures (size : Nat) (heap : Heap) (cursor : Option Cursor) (allocated : Nat)
    (roots : R) (host : H) :
    Ensures (countBytes size) (· = ⟨heap, ⟨cursor, allocated⟩, roots, host⟩)
      (fun _ m => m = ⟨heap, ⟨cursor, allocated + size⟩, roots, host⟩)
      (· = ⟨heap, ⟨cursor, allocated⟩, roots, host⟩) := by
  rintro _ rfl
  rw [countBytes_eq]
  by_cases hlt : allocated + size < 1 <<< 64
  · rw [if_pos hlt]
  · rw [if_neg hlt]

theorem allocateOnBlock_steps (collector : Collector H) (m₀ : Mutator R H) {l : Layout}
    (hl : 0 < l.align) :
    Ensures (allocateOnBlock l) (Steps collector m₀)
      (fun
        | none, m => Steps collector m₀ m
        | some address, m => Placed collector m₀ l address m)
      (Steps collector m₀) := by
  rintro ⟨heap, ⟨cursor, allocated⟩, roots, host⟩ hm
  simp only [allocateOnBlock, bind, EStateM.bind, get, getThe, MonadStateOf.get, EStateM.get]
  cases hp : (Arena.mk cursor allocated).place? l with
  | none => exact hm
  | some placed =>
    obtain ⟨c, address⟩ := placed
    obtain ⟨hcursor, haddress, hlimit⟩ := Arena.place?_eq_some.mp hp
    simp only at hcursor
    subst hcursor
    have hdone : Ensures (countBytes l.size >>= fun _ => pure (some address))
        (· = ⟨heap, ⟨some { c with bump := address + l.size }, allocated⟩, roots, host⟩)
        (fun
          | none, m => Steps collector m₀ m
          | some address, m => Placed collector m₀ l address m)
        (Steps collector m₀) := by
      refine Ensures.bind ((countBytes_ensures l.size _ _ _ _ _).mono (fun _ h => h)
        (fun _ _ h => h) ?_) fun _ => Ensures.pure ?_
      · rintro _ rfl
        have hbump : c.bump ≤ address := haddress ▸ le_alignUp hl c.bump
        exact hm.tail (.bump heap c _ allocated roots host (Nat.le_add_right_of_le hbump) hlimit)
      · rintro _ rfl
        exact .mk heap c allocated _ roots host hm hp
    exact hdone _ rfl

theorem retire_steps :
    Ensures retire (Steps collector m₀)
      (fun _ m => m.arena.cursor = none ∧ Steps collector m₀ m) (Steps collector m₀) := by
  rintro ⟨heap, ⟨cursor, allocated⟩, roots, host⟩ hm
  cases cursor with
  | none => exact ⟨rfl, hm⟩
  | some c =>
    simp only [retire, bind, EStateM.bind, get, getThe, MonadStateOf.get, EStateM.get, onHeap]
    by_cases hb : c.block < heap.blockCount
    · rw [Heap.retireBlock_of_lt hb]
      exact ⟨rfl, hm.tail (.retire heap c allocated roots host)⟩
    · rw [Heap.retireBlock_of_ge (Nat.le_of_not_lt hb)]
      exact hm

theorem collect_steps : Keeps (Steps collector m₀) (Mutator.collect collector) := by
  intro m hm
  have hstep := hm.tail (.collect m)
  cases hc : Mutator.collect collector m <;> rwa [hc] at hstep

inductive Requested (collector : Collector H) (m : Mutator R H) (b : Nat) : Mutator R H → Prop
  | mk (heap : Heap) (rest : List Nat) (allocated : Nat) (roots : R) (host : H)
    (hsteps : Steps collector m ⟨heap, ⟨none, allocated⟩, roots, host⟩)
    (hfree : heap.free = b :: rest) :
    Requested collector m b ⟨heap.handOut rest, ⟨none, allocated⟩, roots, host⟩

theorem onHeap_requestBlock_steps :
    Ensures (onHeap Heap.requestBlock)
      (fun m => m.arena.cursor = none ∧ Steps collector m₀ m)
      (fun
        | none, m => m.arena.cursor = none ∧ Steps collector m₀ m
        | some b, m => Requested collector m₀ b m)
      (Steps collector m₀) := by
  rintro ⟨heap, ⟨cursor, allocated⟩, roots, host⟩ ⟨hcursor, hm⟩
  simp only at hcursor
  subst hcursor
  simp only [onHeap, Heap.requestBlock, bind, EStateM.bind, get, getThe, MonadStateOf.get,
    EStateM.get]
  cases hfree : heap.free with
  | nil => exact ⟨rfl, hm⟩
  | cons b rest => exact .mk heap rest allocated roots host hm hfree

theorem requestBlock_steps :
    Ensures (requestBlock collector) (fun m => m.arena.cursor = none ∧ Steps collector m₀ m)
      (Requested collector m₀) (Steps collector m₀) := by
  refine onHeap_requestBlock_steps.bind fun b => ?_
  cases b with
  | some b => exact Ensures.pure fun _ hm => hm
  | none =>
    have hcollect : Keeps (fun m : Mutator R H => m.arena.cursor = none ∧ Steps collector m₀ m)
        (Mutator.collect collector) := (collect_cursor collector none).and collect_steps
    refine (hcollect.mono (fun _ h => h) (fun _ _ h => h) fun _ h => h.2).bind fun _ => ?_
    refine onHeap_requestBlock_steps.bind fun b => ?_
    cases b with
    | some b => exact Ensures.pure fun _ hm => hm
    | none => exact fun _ hm => hm.2

theorem exchangeBlock_steps : Keeps (Steps collector m₀) (exchangeBlock collector) := by
  refine retire_steps.bind fun _ => requestBlock_steps.bind fun b => ?_
  rintro _ ⟨heap, rest, allocated, roots, host, hsteps, hfree⟩
  simp only [bind, EStateM.bind, onHeap]
  have hcount : (heap.handOut rest).blockCount = heap.blockCount := rfl
  by_cases hb : b < heap.blockCount
  · rw [Heap.blockBounds_of_lt (hcount ▸ hb)]
    exact (hsteps.tail (.take heap b rest allocated roots host hfree hb)).tail
      (.note _ _ roots host (.arenaSwitched b))
  · rw [Heap.blockBounds_of_ge (hcount ▸ Nat.le_of_not_lt hb)]
    exact hsteps.tail (.lose heap b rest _ roots host hfree (Nat.le_of_not_lt hb))

omit [RootSet R] in
theorem onHeap_allocateLarge (size : Nat) (m : Mutator R H) :
    onHeap (Heap.allocateLarge size) m =
      if Mapping.FitsAt m.heap.nextMapping (alignUp pageSize size) then
        .ok m.heap.nextMapping { m with heap := m.heap.withLarge size }
      else .error (.largeObjectNotMapped size) m := by
  simp only [onHeap, Heap.allocateLarge, bind, EStateM.bind, get, getThe, MonadStateOf.get,
    EStateM.get]
  by_cases hfits : Mapping.FitsAt m.heap.nextMapping (alignUp pageSize size)
  · simp only [hfits, ↓reduceIte]
    rfl
  · simp only [hfits, ↓reduceIte]
    rfl

theorem allocateMapped_ensures (l : Layout) :
    Ensures (countBytes l.size >>= fun _ => onHeap (Heap.allocateLarge l.size)) (· = m₀)
      (fun address m => address = m₀.heap.nextMapping ∧ Mapped m₀ l m) (Steps collector m₀) := by
  obtain ⟨heap, ⟨cursor, allocated⟩, roots, host⟩ := m₀
  refine Ensures.bind ((countBytes_ensures l.size heap cursor allocated roots host).mono
    (fun _ h => h) (fun _ _ h => h) fun _ h => h ▸ .refl) fun _ => ?_
  rintro _ rfl
  rw [onHeap_allocateLarge]
  by_cases hfits : Mapping.FitsAt heap.nextMapping (alignUp pageSize l.size)
  · rw [if_pos hfits]
    exact ⟨rfl, .mk _ hfits⟩
  · rw [if_neg hfits]
    exact ReflTransGen.single (.count heap cursor allocated _ roots host)

theorem allocate_ensures_of_lt {l : Layout} {P : Mutator R H → Prop}
    {post : Nat → Mutator R H → Prop}
    (hblock : Ensures (allocateOnBlock l) P
      (fun
        | none, m => P m
        | some address, m => post address m) P)
    (hexchange : Keeps P (exchangeBlock collector)) :
    Ensures (allocate collector l) (fun m => P m ∧ l.size < m.heap.settings.largeSize) post P := by
  have hget : Ensures (get : Action R H (Mutator R H))
      (fun m => P m ∧ l.size < m.heap.settings.largeSize)
      (fun m s => l.size < m.heap.settings.largeSize ∧ P s) P := fun _ hm => ⟨hm.2, hm.1⟩
  refine hget.bind fun m => ?_
  rintro s ⟨hsmall, hs⟩
  simp only [Nat.not_le.mpr hsmall, ↓reduceIte]
  refine (hblock.bind fun placed => ?_) s hs
  cases placed with
  | some address => exact Ensures.pure fun _ hm => hm
  | none =>
    refine Ensures.bind hexchange fun _ => hblock.bind fun placed => ?_
    cases placed with
    | some address => exact Ensures.pure fun _ hm => hm
    | none => exact fun _ hm => hm

theorem allocate_eq_of_le {l : Layout} {m : Mutator R H}
    (hlarge : m.heap.settings.largeSize ≤ l.size) : allocate collector l m =
      (countBytes l.size >>= fun _ => onHeap (Heap.allocateLarge l.size)) m := by
  simp only [allocate, bind, EStateM.bind, get, getThe, MonadStateOf.get, EStateM.get, hlarge,
    ↓reduceIte]

theorem allocate_steps (collector : Collector H) (m₀ : Mutator R H) {l : Layout}
    (hl : 0 < l.align) :
    Ensures (allocate collector l) (· = m₀)
      (fun address m =>
        if m₀.heap.settings.largeSize ≤ l.size then
          address = m₀.heap.nextMapping ∧ Mapped m₀ l m
        else Placed collector m₀ l address m)
      (Steps collector m₀) := by
  rintro m rfl
  by_cases hlarge : m.heap.settings.largeSize ≤ l.size
  · simp only [hlarge, ↓reduceIte]
    rw [allocate_eq_of_le hlarge]
    exact allocateMapped_ensures l m rfl
  · simp only [hlarge, ↓reduceIte]
    exact allocate_ensures_of_lt (allocateOnBlock_steps collector m hl) exchangeBlock_steps m
      ⟨.refl, Nat.not_le.mp hlarge⟩

end Mutator

end VmSupport
