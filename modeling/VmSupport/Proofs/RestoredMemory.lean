import VmSupport.Proofs.ArenaSteps
import VmSupport.Proofs.SafeAllocation

namespace VmSupport

open EStateM

namespace Mutator

variable {R H : Type} {settings : HeapSettings} {arenas : Nat} {others : List Nat}
  {m₀ m m' : Mutator R H}

structure Rests (settings : HeapSettings) (arenas : Nat) (others : List Nat)
    (m₀ m : Mutator R H) : Prop where
  read : ∀ a, m.heap.memory.read a = m₀.heap.memory.read a
  roots_eq : m.roots = m₀.roots
  ground : m₀.heap.SameGround m.heap
  accounts : ∃ released, m.heap.Accounts settings arenas (m.arena.blocks ++ others) released

variable [RootSet R]

def Traceable (arenas : Nat) (m : Mutator R H) : Prop :=
  arenas ≤ 1 → m.heap.memory.Markable (RootSet.toList m.roots)

variable [LawfulRootSet R]

theorem Rests.collect (hmark : m₀.Traceable arenas) (h : Rests settings arenas others m₀ m) :
    ∃ m', Mutator.collect .blocks m = .ok () m' ∧ Rests settings arenas others m₀ m' ∧
      m'.arena = m.arena ∧
      (arenas ≤ 1 → m.heap.Spares (RootSet.toList m.roots) m'.heap) := by
  obtain ⟨heap, arena, roots, host⟩ := m
  obtain ⟨released, haccounts⟩ := h.accounts
  have hroots : roots = m₀.roots := h.roots_eq
  have hstarted : (collecting heap).Accounts settings arenas (arena.blocks ++ others) released :=
    haccounts.sameBlocks ⟨rfl, rfl, rfl, rfl, rfl⟩
  have hmarkable : (collecting heap).arenas ≤ 1 →
      (collecting heap).memory.Markable (RootSet.toList roots) := by
    intro hle
    rw [hstarted.arenas_eq] at hle
    rw [hroots]
    exact (hmark hle).congr h.read
  have hnodup : (collecting heap).retired.Nodup := haccounts.divided.retired_nodup
  obtain ⟨heap', hrun, hground, hread, -, hspares⟩ :=
    Collection.reclaimUnlessShared_ok hmarkable hnodup host
  obtain ⟨n, hreleases⟩ :=
    Collection.OnlyReleases.reclaimUnlessShared ⟨collecting heap, RootSet.toList roots, host⟩
  rw [hrun] at hreleases
  refine ⟨_, collect_blocks_ok arena hrun, ⟨fun a => (hread a).trans (h.read a), hroots, ?_,
    _, hstarted.releases hreleases⟩, rfl, fun hle => ?_⟩
  · exact ⟨hground.settings.trans h.ground.settings, hground.start.trans h.ground.start,
      hground.nextMapping.trans h.ground.nextMapping⟩
  · obtain ⟨hground', hread', hfree, hlarge, hspared⟩ := hspares (hstarted.arenas_eq ▸ hle)
    exact ⟨⟨hground'.settings, hground'.start, hground'.nextMapping⟩, hread', hfree, hlarge,
      hspared⟩

theorem Step.rests (hmark : m₀.Traceable arenas) (h : Step .blocks m m')
    (hm : Rests settings arenas others m₀ m) : Rests settings arenas others m₀ m' := by
  obtain ⟨hread, hroots, hground, released, haccounts⟩ := hm
  cases h with
  | count heap cursor allocated total roots host =>
    exact ⟨hread, hroots, hground, released, haccounts⟩
  | note heap arena roots host r =>
    exact ⟨hread, hroots, ⟨hground.settings, hground.start, hground.nextMapping⟩, released,
      haccounts.sameBlocks ⟨rfl, rfl, rfl, rfl, rfl⟩⟩
  | retire heap c allocated roots host =>
    exact ⟨hread, hroots, ⟨hground.settings, hground.start, hground.nextMapping⟩, released,
      Heap.Accounts.retire [c.block] haccounts⟩
  | take heap b rest allocated roots host hfree hb =>
    exact ⟨hread, hroots, ⟨hground.settings, hground.start, hground.nextMapping⟩, released,
      haccounts.handOut hfree⟩
  | lose heap b rest arena roots host hfree hb =>
    -- no block is free that does not exist
    have hmem : b ∈ heap.free ++ heap.retired ++ (arena.blocks ++ others) := by
      rw [hfree]
      exact List.mem_append_left _ (List.mem_append_left _ List.mem_cons_self)
    have hlt := List.mem_range.mp (haccounts.divided.mem_iff.mp hmem)
    exact absurd hlt (Nat.not_lt.mpr hb)
  | bump heap c next allocated roots host hbump hnext =>
    exact ⟨hread, hroots, hground, released, haccounts⟩
  | collect m =>
    obtain ⟨m', hrun, hm', -⟩ := Rests.collect hmark ⟨hread, hroots, hground, released, haccounts⟩
    rw [hrun]
    exact hm'

theorem Steps.rests (hmark : m₀.Traceable arenas) (hm₀ : Rests settings arenas others m₀ m₀)
    (h : Steps .blocks m₀ m) : Rests settings arenas others m₀ m := by
  induction h with
  | refl => exact hm₀
  | tail _ hstep ih => exact hstep.rests hmark ih

theorem allocate_region (hmark : m₀.Traceable arenas) (hm₀ : Rests settings arenas others m₀ m₀)
    {l : Layout} (hl : 0 < l.align) :
    m₀.heap.SameRegion (allocate .blocks l m₀).state.heap := by
  have hsteps : ∀ {m}, Steps .blocks m₀ m → m₀.heap.SameRegion m.heap :=
    fun hm => (Steps.rests hmark hm₀ hm).ground.sameRegion
  have hallocate := allocate_steps .blocks m₀ hl m₀ rfl
  cases hrun : allocate .blocks l m₀ with
  | error f m =>
    rw [hrun] at hallocate
    exact hsteps hallocate
  | ok address m =>
    rw [hrun] at hallocate
    by_cases hlarge : m₀.heap.settings.largeSize ≤ l.size
    · simp only [hlarge, ↓reduceIte] at hallocate
      obtain ⟨-, total, -⟩ := hallocate
      exact ⟨rfl, rfl⟩
    · simp only [hlarge, ↓reduceIte] at hallocate
      obtain ⟨heap, c, allocated, total, roots, host, hm, -⟩ := hallocate
      have hregion := hsteps hm
      exact hregion

end Mutator

namespace Memory

theorem reaches_congr {m m' : Memory} (hread : ∀ a, m'.read a = m.read a) {roots : List Value}
    {a : Nat} : m'.Reaches roots a ↔ m.Reaches roots a :=
  ⟨fun h => h.congr hread, fun h => h.congr fun b => (hread b).symm⟩

end Memory

theorem Collection.markRoots_again {H : Type} {h h' : Heap} {roots : List Value}
    (hmark : h.memory.Markable roots) (hread : ∀ a, h'.memory.read a = h.memory.read a)
    (host host' : H) :
    ∃ traced traced' c c', markRoots ⟨h, roots, host⟩ = .ok traced c ∧
      markRoots ⟨h', roots, host'⟩ = .ok traced' c' ∧ ∀ a, a ∈ traced' ↔ a ∈ traced := by
  obtain ⟨traced, memory, hrun, -, htraced⟩ := markRoots_ok hmark host
  obtain ⟨traced', memory', hrun', -, htraced'⟩ := markRoots_ok (hmark.congr hread) host'
  refine ⟨traced, traced', _, _, hrun, hrun', fun a => ?_⟩
  rw [htraced, htraced', Memory.reaches_congr hread, Memory.isPinned, Memory.isPinned,
    Memory.header, Memory.header, hread]

end VmSupport
