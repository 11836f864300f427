import VmSupport.Proofs.ObjectWords
import VmSupport.Proofs.SafeAllocation
import VmSupport.Proofs.WrittenMemory

namespace VmSupport

open EStateM

variable {H : Type}

theorem Collector.blocks_reclaims {c : Collection H} (hm : c.heap.memory.Traversable c.roots)
    (hret : c.heap.retired.Nodup) (harenas : c.heap.arenas = 1) :
    ∃ heap, Collector.blocks c = .ok () { c with heap } ∧ c.heap.ReclaimsExactly c.roots heap := by
  obtain ⟨heap, hrun, hreclaims⟩ := Collection.reclaim_exact hm hret c.host
  have hsingle : ¬ 1 < c.heap.arenas := by omega
  exact ⟨heap, (Collection.reclaimUnlessShared_of_single hsingle).trans hrun, hreclaims⟩

namespace Memory

variable {m : Memory} {roots : List Value} {a : Nat} {h : Header} {slots : List Nat}

structure HasObject (m : Memory) (a : Nat) (h : Header) (slots : List Nat) : Prop where
  read_eq : m.read a = h.word
  slots_eq : slots? h a = some slots

end Memory

namespace Mutator

variable {R : Type} [RootSet R] [LawfulRootSet R]

/-- A collection with one arena gives back exactly the retired blocks in which no object lies that
tracing comes upon and that is not pinned, unmaps exactly the mappings at whose start there is no
such object, and changes nothing else. Where pinned objects hold no references, tracing comes upon
all that can be reached. -/
theorem collect_reclaims_exactly {m : Mutator R H}
    (hm : m.heap.memory.Traversable (RootSet.toList m.roots)) (hret : m.heap.retired.Nodup)
    (harenas : m.heap.arenas = 1)
    (hlarge : ∀ mapping ∈ m.heap.large, m.heap.contains mapping.start = false) :
    let h := m.heap
    let roots := RootSet.toList m.roots
    ∃ (dead retired : List Nat) (large : List Mapping) (memory : Memory) (log : List LogRecord),
      collect .blocks m = .ok () { m with heap := { h with
        free := dead ++ h.free, retired, large, memory, log
        stats := { h.stats with collections := h.stats.collections + 1 } } } ∧
      (∀ a, memory.read a = h.memory.read a) ∧
      dead.Nodup ∧ h.retired.Perm (dead ++ retired) ∧
      (∀ b, b ∈ dead ↔ b ∈ h.retired ∧ ¬ h.IsOccupied roots b) ∧
      large.Sublist h.large ∧
      (∀ mapping ∈ h.large, mapping ∈ large ↔
        h.memory.Encounters roots mapping.start ∧ h.memory.isPinned mapping.start = false) ∧
      ((∀ a vs, h.memory.Reaches roots a → h.memory.isPinned a = true →
        h.memory.edges? a = some vs → ∀ v ∈ vs, v.isReference = false) →
        ∀ a, h.memory.Encounters roots a ↔ h.memory.Reaches roots a) := by
  obtain ⟨h, arena, roots, host⟩ := m
  obtain ⟨h', hrun, hreclaims⟩ := Collector.blocks_reclaims
    (c := ⟨collecting h, RootSet.toList roots, host⟩) hm hret harenas
  obtain ⟨⟨memory, log, hframe⟩, hread, hblocks, keeps, hkept, hkeeps⟩ := hreclaims
  obtain ⟨dead, hnodup, hdead, hfree, hperm⟩ := hblocks
  rw [hframe] at hread
  refine ⟨dead, h'.retired, h'.large, memory, log, ?_, hread, hnodup, hperm, hdead,
    hkept ▸ List.filter_sublist, ?_, ?_⟩
  · rw [collect_blocks_ok arena hrun, hframe, hfree]
    rfl
  · intro mapping hmapping
    have hout := hlarge mapping hmapping
    rw [hkept]
    constructor
    · intro hmem
      obtain ⟨hencounters, hunpinned, -⟩ := (hkeeps _).mp (List.mem_filter.mp hmem).2
      exact ⟨hencounters, hunpinned⟩
    · rintro ⟨hencounters, hunpinned⟩
      exact List.mem_filter.mpr ⟨hmapping, (hkeeps _).mpr ⟨hencounters, hunpinned, hout⟩⟩
  · exact fun hleaf a => Memory.encounters_iff hleaf

theorem collect_reclaims_exactly_cycle :
    let memory := (Memory.empty.writeAll 8192
      (ObjectImage.cell .pair (.reference 131072) (.reference 8192))).writeAll 131072
        [(Header.withLength .vector 1).word, (Value.reference 8192).raw]
    let h : Heap := { (default : Heap) with
      settings := ⟨12288, 4096, 2048⟩, start := 4096, retired := [2, 1], arenas := 1, memory
      large := [⟨139264, 4096⟩, ⟨131072, 4096⟩] }
    let m : Mutator (List Value) Unit := ⟨h, ⟨some ⟨0, 4096, 8192⟩, 0⟩, [.reference 8192], ()⟩
    h.memory.Traversable m.roots ∧ ∃ m', collect .blocks m = .ok () m' ∧
      m'.arena = m.arena ∧ 1 ∈ m'.heap.retired ∧ 2 ∉ m'.heap.retired ∧ 2 ∈ m'.heap.free ∧
      ⟨131072, 4096⟩ ∈ m'.heap.large ∧ ⟨139264, 4096⟩ ∉ m'.heap.large := by
  intro memory h m
  let images := [(131072, [(Header.withLength .vector 1).word, (Value.reference 8192).raw]),
    (8192, ObjectImage.cell .pair (.reference 131072) (.reference 8192))]
  have hclosed : Memory.IsClosed images [131072, 8192] m.roots := by decide +kernel
  have hm : h.memory.Traversable m.roots := hclosed.traversable
  have hreached : ∀ a, memory.Reaches m.roots a → a = 131072 ∨ a = 8192 :=
    fun a ha => List.mem_pair.mp (hclosed.mem_of_reaches ha)
  have hflags : ∀ a ∈ [131072, 8192], (Memory.headerAt images a).hasFlag .pinned = false := by
    decide +kernel
  have hunpinned : ∀ a ∈ [131072, 8192], memory.isPinned a = false :=
    fun a ha => (Memory.isPinned_ofImages images a).trans (hflags a ha)
  have hedges : memory.edges? 8192 = some [.reference 131072, .reference 8192] :=
    (Memory.edges?_ofImages images 8192).trans (by decide +kernel)
  have hroot : memory.Encounters m.roots 8192 :=
    .root (v := .reference 8192) List.mem_cons_self rfl
  have hvector : memory.Encounters m.roots 131072 :=
    .edge (v := .reference 131072) hroot (hunpinned _ (by decide)) hedges List.mem_cons_self rfl
  have hretired : m.heap.retired.Nodup := by decide
  have hlarge : ∀ mapping ∈ m.heap.large, m.heap.contains mapping.start = false := by decide
  obtain ⟨dead, retired, large, memory', log, hrun, -, -, hperm, hdead, -, hkept, -⟩ :=
    collect_reclaims_exactly (m := m) hm hretired rfl hlarge
  have hkeptBlock : 1 ∉ dead := fun hmem =>
    ((hdead 1).mp hmem).2 ⟨8192, hroot, hunpinned _ (by decide), by decide, by decide⟩
  have hdeadBlock : 2 ∈ dead := by
    refine (hdead 2).mpr ⟨by decide, ?_⟩
    rintro ⟨a, ha, -, hin, hblock⟩
    rcases hreached a ha.reaches with rfl | rfl
    · exact absurd hin (by decide)
    · exact absurd hblock (by decide)
  refine ⟨hm, _, hrun, rfl, ?_, ?_, List.mem_append_left _ hdeadBlock, ?_, ?_⟩
  · exact (List.mem_append.mp (hperm.mem_iff.mp (by decide))).resolve_left hkeptBlock
  · exact fun hmem => List.disjoint_of_nodup_append (hperm.nodup_iff.mp hretired) hdeadBlock hmem
  · exact (hkept _ (by decide)).mpr ⟨hvector, hunpinned _ (by decide)⟩
  · intro hmem
    have hstart := ((hkept ⟨139264, 4096⟩ (by decide)).mp hmem).1
    exact absurd (hreached _ hstart.reaches) (by decide)

end Mutator

theorem Collector.blocks_stop_at_pinned :
    let memory := (Memory.empty.writeAll 4096
      (ObjectImage.fields (.pinned .pair) [.reference 8192, .nil])).writeAll 8192
        (ObjectImage.cell .pair (.fixnum 1) (.fixnum 2))
    let h : Heap := { (default : Heap) with
      settings := ⟨12288, 4096, 2048⟩, start := 4096, free := [2], retired := [1], arenas := 1
      memory }
    let roots := [Value.reference 4096]
    memory.HasObject 4096 (.pinned .pair) [4104, 4112] ∧
      memory.HasObject 8192 (.new .pair) [8200, 8208] ∧
      (∀ a, memory.Reaches roots a ↔ a = 4096 ∨ a = 8192) ∧ memory.isPinned 8192 = false ∧
      h.contains 8192 ∧ h.blockOf 8192 = 1 ∧
      ∃ heap, Collector.blocks ⟨h, roots, ()⟩ = .ok () ⟨heap, roots, ()⟩ ∧
        1 ∉ heap.retired ∧ 1 ∈ heap.free := by
  intro memory h roots
  let images := [(8192, ObjectImage.cell .pair (.fixnum 1) (.fixnum 2)),
    (4096, ObjectImage.fields (.pinned .pair) [.reference 8192, .nil])]
  have hclosed : Memory.IsClosed images [8192, 4096] roots := by decide +kernel
  have hreached : ∀ a, memory.Reaches roots a → a = 8192 ∨ a = 4096 :=
    fun a ha => List.mem_pair.mp (hclosed.mem_of_reaches ha)
  have hobject : ∀ a, memory.read a = Memory.wordAt images a := Memory.read_ofImages images
  have hedges : memory.edges? 4096 = some [.reference 8192, .nil] :=
    (Memory.edges?_ofImages images 4096).trans (by decide +kernel)
  have hroot : memory.Reaches roots 4096 := .root (v := .reference 4096) List.mem_cons_self rfl
  have hbehind : memory.Reaches roots 8192 :=
    .edge (v := .reference 8192) hroot hedges List.mem_cons_self rfl
  have hpinned : memory.isPinned 4096 = true :=
    (Memory.isPinned_ofImages images 4096).trans (by decide +kernel)
  have hunpinned : memory.isPinned 8192 = false :=
    (Memory.isPinned_ofImages images 8192).trans (by decide +kernel)
  have hstop : ∀ a, memory.Encounters roots a → a = 4096 := by
    intro a ha
    induction ha with
    | root hv _ =>
      cases List.mem_singleton.mp hv
      rfl
    | edge _ hfree _ _ _ ih =>
      rw [ih, hpinned] at hfree
      contradiction
  obtain ⟨heap, hrun, hreclaims⟩ := Collector.blocks_reclaims (c := ⟨h, roots, ()⟩)
    hclosed.traversable (by decide : [1].Nodup) rfl
  obtain ⟨dead, -, hdead, hfree, hperm⟩ := hreclaims.blocks
  have hmem : 1 ∈ dead := by
    refine (hdead 1).mpr ⟨List.mem_cons_self, ?_⟩
    rintro ⟨a, ha, hnot, -⟩
    change memory.isPinned a = false at hnot
    rw [hstop a ha, hpinned] at hnot
    contradiction
  refine ⟨⟨hobject 4096, rfl⟩, ⟨hobject 8192, rfl⟩, fun a => ⟨fun ha => (hreached a ha).symm, ?_⟩,
    hunpinned, by decide, by decide, heap, hrun, ?_, ?_⟩
  · rintro (rfl | rfl)
    · exact hroot
    · exact hbehind
  · have hnodup := hperm.nodup_iff.mp (by decide : [1].Nodup)
    exact fun hretired => List.disjoint_of_nodup_append hnodup hmem hretired
  · rw [hfree]
    exact List.mem_append_left _ hmem

end VmSupport
