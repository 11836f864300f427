import VmSupport.Proofs.BlockAccounts
import VmSupport.Proofs.Marking

namespace VmSupport

open EStateM

namespace Heap

structure SameGround (h h' : Heap) : Prop where
  settings : h'.settings = h.settings
  start : h'.start = h.start
  nextMapping : h'.nextMapping = h.nextMapping

def IsLive (h : Heap) (roots : List Value) (b : Nat) : Prop :=
  ∃ a, h.memory.Reaches roots a ∧ h.memory.isPinned a = false ∧ h.contains a ∧ h.blockOf a = b

def IsOccupied (h : Heap) (roots : List Value) (b : Nat) : Prop :=
  ∃ a, h.memory.Encounters roots a ∧ h.memory.isPinned a = false ∧ h.contains a ∧ h.blockOf a = b

/-- Exactly the retired blocks and the mappings that marking does not come upon are given back, and
nothing else changes. -/
structure ReclaimsExactly (h : Heap) (roots : List Value) (h' : Heap) : Prop where
  frame : ∃ memory log, h' = { h with
    free := h'.free, retired := h'.retired, large := h'.large, memory, log }
  read : ∀ a, h'.memory.read a = h.memory.read a
  blocks : ∃ dead : List Nat, dead.Nodup ∧
    (∀ b, b ∈ dead ↔ b ∈ h.retired ∧ ¬h.IsOccupied roots b) ∧
    h'.free = dead ++ h.free ∧ h.retired.Perm (dead ++ h'.retired)
  large : ∃ keeps : Nat → Bool, h'.large = h.large.filter (fun mapping => keeps mapping.start) ∧
    ∀ a, keeps a ↔ h.memory.Encounters roots a ∧ h.memory.isPinned a = false ∧
      h.contains a = false

structure Spares (h : Heap) (roots : List Value) (h' : Heap) : Prop where
  ground : SameGround h h'
  read : ∀ a, h'.memory.read a = h.memory.read a
  free : ∀ b, b ∈ h'.free ↔ b ∈ h.free ∨ b ∈ h.retired ∧ ¬h.IsLive roots b
  large : h'.large ⊆ h.large
  spared : ∀ mapping ∈ h.large, h.memory.Reaches roots mapping.start →
    h.memory.isPinned mapping.start = false → h.contains mapping.start = false → mapping ∈ h'.large

theorem mem_eraseSwap {b b' : Nat} {bs : List Nat} (hb : b ∈ bs) (hne : b' ≠ b) (hb' : b' ∈ bs) :
    b' ∈ eraseSwap b bs := by
  have hmem : b' ∈ b :: eraseSwap b bs := (eraseSwap_perm hb).mem_iff.mpr hb'
  exact (List.mem_cons.mp hmem).resolve_left hne

end Heap

namespace Collection

variable {H : Type}

theorem releaseDead_ok (isLive : Nat → Bool) {bs : List Nat} (hbs : bs.Nodup) (h : Heap)
    (hret : ∀ b ∈ bs, b ∈ h.retired) (roots : List Value) (host : H) :
    ∃ n retired, releaseDead isLive bs ⟨h, roots, host⟩ = .ok n ⟨{ h with
        free := (bs.filter fun b => !isLive b).reverse ++ h.free, retired }, roots, host⟩ ∧
      h.retired.Perm (bs.filter (fun b => !isLive b) ++ retired) := by
  induction bs generalizing h with
  | nil => exact ⟨0, h.retired, rfl, .refl _⟩
  | cons b bs ih =>
    obtain ⟨hb, hbs⟩ := List.nodup_cons.mp hbs
    by_cases hlive : isLive b = true
    · obtain ⟨n, retired, hrun, hperm⟩ := ih hbs h fun c hc => hret c (List.mem_cons_of_mem b hc)
      rw [List.filter_cons_of_neg (by rw [hlive]; decide)]
      refine ⟨n, retired, ?_, hperm⟩
      unfold releaseDead
      rw [if_pos hlive]
      exact hrun
    · have hmem : b ∈ h.retired := hret b List.mem_cons_self
      let freed : Heap := { h with retired := Heap.eraseSwap b h.retired, free := b :: h.free }
      have hret' : ∀ c ∈ bs, c ∈ freed.retired := by
        intro c hc
        apply Heap.mem_eraseSwap hmem _ (hret c (List.mem_cons_of_mem b hc))
        rintro rfl
        exact hb hc
      obtain ⟨n, retired, hrun, hperm⟩ := ih hbs freed hret'
      rw [List.filter_cons_of_pos (by rw [Bool.eq_false_iff.mpr hlive]; rfl)]
      refine ⟨n + 1, retired, ?_, (Heap.eraseSwap_perm hmem).symm.trans (hperm.cons b)⟩
      unfold releaseDead
      rw [if_neg hlive]
      simp only [bind, EStateM.bind, onHeap, Heap.releaseBlock_of_mem hmem]
      rw [hrun]
      simp only [pure, EStateM.pure, List.reverse_cons, List.append_assoc, List.singleton_append,
        freed]

theorem sweepLarge_ok (isLive : Nat → Bool) (h : Heap) :
    ∃ n, Heap.sweepLarge isLive h =
      .ok n { h with large := h.large.filter fun mapping => isLive mapping.start } := by
  simp only [Heap.sweepLarge, bind, EStateM.bind, get, getThe, MonadStateOf.get, EStateM.get,
    List.partition_eq_filter_filter]
  exact ⟨_, rfl⟩

theorem markRoots_eq (h : Heap) (roots : List Value) (host : H) :
    markRoots ⟨h, roots, host⟩ = match mark h.memory [] roots.reverse with
      | .ok traced memory => .ok traced ⟨{ h with memory }, roots, host⟩
      | .error f memory => .error f ⟨{ h with memory }, roots, host⟩ := by
  simp only [markRoots, bind, EStateM.bind, get, getThe, MonadStateOf.get, EStateM.get, onHeap,
    Heap.onMemory]
  cases mark h.memory [] roots.reverse <;> rfl

theorem markRoots_of_traversable {h : Heap} {roots : List Value}
    (hm : h.memory.Traversable roots) (host : H) :
    ∃ traced memory, markRoots ⟨h, roots, host⟩ = .ok traced ⟨{ h with memory }, roots, host⟩ ∧
      Memory.MarkedFrom h.memory memory traced ∧ ∀ a, a ∈ traced ↔
        h.memory.Encounters roots a ∧ h.memory.isPinned a = false := by
  obtain ⟨traced, memory, hmark, hmarked, htraced⟩ := Memory.mark_encountered hm
  refine ⟨traced, memory, ?_, hmarked, htraced⟩
  rw [markRoots_eq, hmark]

theorem markRoots_ok {h : Heap} {roots : List Value} (hm : h.memory.Markable roots) (host : H) :
    ∃ traced memory, markRoots ⟨h, roots, host⟩ = .ok traced ⟨{ h with memory }, roots, host⟩ ∧
      Memory.MarkedFrom h.memory memory traced ∧ ∀ a, a ∈ traced ↔
        h.memory.Reaches roots a ∧ h.memory.isPinned a = false := by
  obtain ⟨traced, memory, hmark, hmarked, htraced⟩ := markRoots_of_traversable hm.traversable host
  refine ⟨traced, memory, hmark, hmarked, fun a => ?_⟩
  rw [htraced, hm.encounters_iff]

theorem clearMarks_ok (traced : List Nat) (h : Heap) (roots : List Value) (host : H) :
    clearMarks traced ⟨h, roots, host⟩ =
      .ok () ⟨{ h with memory := traced.foldl Memory.clearMark h.memory }, roots, host⟩ := rfl

theorem contains_liveBlocks (traced : List Nat) (h : Heap) (b : Nat) :
    (Std.HashSet.ofList ((traced.filter h.contains).map h.blockOf)).contains b ↔
      ∃ a ∈ traced, h.contains a ∧ h.blockOf a = b := by
  rw [Std.HashSet.contains_ofList, List.contains_iff_mem, List.mem_map]
  simp only [List.mem_filter, and_assoc]

theorem contains_liveLarge (traced : List Nat) (h : Heap) (a : Nat) :
    (Std.HashSet.ofList (traced.filter fun a => !h.contains a)).contains a ↔
      a ∈ traced ∧ h.contains a = false := by
  rw [Std.HashSet.contains_ofList, List.contains_iff_mem, List.mem_filter, Bool.not_eq_true']

theorem reclaim_exact {h : Heap} {roots : List Value} (hm : h.memory.Traversable roots)
    (hret : h.retired.Nodup) (host : H) :
    ∃ h', reclaim ⟨h, roots, host⟩ = .ok () ⟨h', roots, host⟩ ∧ h.ReclaimsExactly roots h' := by
  obtain ⟨traced, marked, hmark, hmarked, htraced⟩ := markRoots_of_traversable hm host
  let cleared : Heap := { h with memory := traced.foldl Memory.clearMark marked }
  have hread : ∀ a, cleared.memory.read a = h.memory.read a := by
    intro a
    apply hmarked.read_clearMarks
    intro b hb
    obtain ⟨hencounters, hunpinned⟩ := (htraced b).mp hb
    exact hm.unmarked hencounters hunpinned
  let liveBlocks := Std.HashSet.ofList ((traced.filter cleared.contains).map cleared.blockOf)
  let liveLarge := Std.HashSet.ofList (traced.filter fun a => !cleared.contains a)
  obtain ⟨released, retired, hrelease, hperm⟩ :=
    releaseDead_ok liveBlocks.contains hret cleared (fun b hb => hb) roots host
  let dead := h.retired.filter fun b => !liveBlocks.contains b
  let freed : Heap := { cleared with free := dead.reverse ++ h.free, retired }
  obtain ⟨unmapped, hsweep⟩ := sweepLarge_ok liveLarge.contains freed
  let swept : Heap := { freed with
    large := h.large.filter fun mapping => liveLarge.contains mapping.start }
  refine ⟨swept.note (.collectorFinished released unmapped), ?_, ?_⟩
  · have hsweep' : onHeap (Heap.sweepLarge liveLarge.contains) ⟨freed, roots, host⟩ =
        .ok unmapped ⟨swept, roots, host⟩ := by
      simp only [onHeap, hsweep]
      rfl
    refine (bind_of_ok hmark).trans ?_
    refine (bind_of_ok (clearMarks_ok traced _ roots host)).trans ?_
    refine (bind_of_ok hrelease).trans ?_
    exact bind_of_ok hsweep'
  · refine ⟨⟨_, _, rfl⟩, hread, ⟨dead.reverse, ?_, ?_, rfl, ?_⟩, liveLarge.contains, rfl, ?_⟩
    · exact List.nodup_reverse.mpr (hret.filter _)
    · intro b
      have hlive : liveBlocks.contains b ↔ h.IsOccupied roots b := by
        rw [contains_liveBlocks traced cleared b]
        simp only [htraced, and_assoc]
        rfl
      rw [List.mem_reverse, List.mem_filter, ← hlive, Bool.not_eq_eq_eq_not, Bool.not_true,
        Bool.not_eq_true]
    · exact hperm.trans ((List.reverse_perm dead).symm.append_right retired)
    · intro a
      have hlive := contains_liveLarge traced cleared a
      rwa [htraced, and_assoc] at hlive

theorem reclaim_ok {h : Heap} {roots : List Value} (hm : h.memory.Markable roots)
    (hret : h.retired.Nodup) (host : H) :
    ∃ h', reclaim ⟨h, roots, host⟩ = .ok () ⟨h', roots, host⟩ ∧ h.Spares roots h' := by
  obtain ⟨h', hrun, hreclaims⟩ := reclaim_exact hm.traversable hret host
  obtain ⟨⟨memory, log, hframe⟩, hread, ⟨dead, -, hdead, hfree, -⟩, keeps, hlarge, hkeeps⟩ :=
    hreclaims
  refine ⟨h', hrun, ⟨?_, ?_, ?_⟩, hread, ?_, hlarge ▸ List.filter_subset_self _, ?_⟩
  · rw [hframe]
  · rw [hframe]
  · rw [hframe]
  · intro b
    rw [hfree, List.mem_append, hdead, Heap.IsOccupied]
    simp only [hm.encounters_iff]
    exact or_comm
  · intro mapping hmapping ha hunpinned hout
    rw [hlarge]
    apply List.mem_filter.mpr ⟨hmapping, _⟩
    exact (hkeeps _).mpr ⟨hm.encounters_iff.mpr ha, hunpinned, hout⟩

theorem reclaimUnlessShared_of_shared {c : Collection H} (h : 1 < c.heap.arenas) :
    reclaimUnlessShared c = note (.collectorSkipped c.heap.arenas) c := by
  simp only [reclaimUnlessShared, bind, EStateM.bind, get, getThe, MonadStateOf.get, EStateM.get,
    h, ↓reduceIte]

theorem reclaimUnlessShared_of_single {c : Collection H} (h : ¬ 1 < c.heap.arenas) :
    reclaimUnlessShared c = reclaim c := by
  simp only [reclaimUnlessShared, bind, EStateM.bind, get, getThe, MonadStateOf.get, EStateM.get,
    h, ↓reduceIte]

theorem reclaimUnlessShared_ok {h : Heap} {roots : List Value}
    (hm : h.arenas ≤ 1 → h.memory.Markable roots) (hret : h.retired.Nodup) (host : H) :
    ∃ h', reclaimUnlessShared ⟨h, roots, host⟩ = .ok () ⟨h', roots, host⟩ ∧
      Heap.SameGround h h' ∧ (∀ a, h'.memory.read a = h.memory.read a) ∧
      (1 < h.arenas → h'.free = h.free ∧ h'.large = h.large) ∧
      (h.arenas ≤ 1 → h.Spares roots h') := by
  by_cases harenas : 1 < h.arenas
  · refine ⟨h.note (.collectorSkipped h.arenas), ?_, ⟨rfl, rfl, rfl⟩, fun _ => rfl,
      fun _ => ⟨rfl, rfl⟩, fun hle => absurd harenas (Nat.not_lt.mpr hle)⟩
    exact reclaimUnlessShared_of_shared harenas
  · obtain ⟨h', hrun, hspares⟩ := reclaim_ok (hm (Nat.not_lt.mp harenas)) hret host
    refine ⟨h', ?_, hspares.ground, hspares.read, fun hlt => absurd hlt harenas, fun _ => hspares⟩
    exact (reclaimUnlessShared_of_single harenas).trans hrun

end Collection

end VmSupport
