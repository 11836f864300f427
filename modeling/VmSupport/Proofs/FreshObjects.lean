import VmSupport.Proofs.ArenaSteps
import VmSupport.Proofs.KeptValues
import VmSupport.Proofs.ObjectBytes
import VmSupport.Proofs.TracedPayload

namespace VmSupport

open EStateM

namespace Memory

variable {m₀ m m' : Memory} {traced traced' : List Nat} {work : List Value}

theorem MarkedFrom.mark (h : MarkedFrom m₀ m traced)
    (hunmarked : ∀ a ∈ traced, m₀.isMarked a = false)
    (hmark : mark m traced work = .ok traced' m') :
    MarkedFrom m₀ m' traced' ∧ ∀ a ∈ traced', m₀.isMarked a = false := by
  induction m, traced, work using mark.induct with
  | case1 m traced =>
    rw [VmSupport.mark] at hmark
    cases hmark
    exact ⟨h, hunmarked⟩
  | case2 m traced v work href ih =>
    rw [VmSupport.mark, if_pos href] at hmark
    exact ih h hunmarked hmark
  | case3 m traced v work href hpinned ih =>
    rw [VmSupport.mark, if_neg href, if_pos hpinned] at hmark
    exact ih h hunmarked hmark
  | case4 m traced v work href hpinned hmarked ih =>
    rw [VmSupport.mark, if_neg href, if_neg hpinned, if_pos hmarked] at hmark
    exact ih h hunmarked hmark
  | case5 m traced v work href hpinned hmarked marked hedges =>
    have hnone : (m.setMark v.address).edges? v.address = none := hedges
    rw [VmSupport.mark, if_neg href, if_neg hpinned, if_neg hmarked] at hmark
    simp only [hnone] at hmark
    contradiction
  | case6 m traced v work href hpinned hmarked marked edges hedges ih =>
    have hsome : (m.setMark v.address).edges? v.address = some edges := hedges
    rw [VmSupport.mark, if_neg href, if_neg hpinned, if_neg hmarked] at hmark
    simp only [hsome] at hmark
    have hheader := h v.address
    have hnew : v.address ∉ traced := h.not_mem_of_unmarked (eq_false_of_ne_true hmarked)
    rw [if_neg hnew] at hheader
    refine ih (h.setMark hnew) (fun a ha => ?_) hmark
    rcases List.mem_cons.mp ha with rfl | ha
    · rw [isMarked, ← hheader]
      exact Bool.eq_false_iff.mpr hmarked
    · exact hunmarked a ha

theorem read_clearMarks_mark (hmark : mark m [] work = .ok traced m') (b : Nat) :
    (traced.foldl clearMark m').read b = m.read b := by
  have hstart : MarkedFrom m m [] := fun _ => rfl
  obtain ⟨hmarked, hunmarked⟩ :=
    hstart.mark (fun a ha => absurd ha List.not_mem_nil) hmark
  exact hmarked.read_clearMarks hunmarked b

end Memory

def Collector.KeepsMemory {H : Type} (collector : Collector H) : Prop :=
  ∀ c c', collector c = .ok () c' → ∀ b, c'.heap.memory.read b = c.heap.memory.read b

theorem Collector.none_keepsMemory {H : Type} : (Collector.none : Collector H).KeepsMemory := by
  intro c c' h b
  cases h
  rfl

namespace Heap

theorem memory_releaseBlock (b : Nat) (h : Heap) : (releaseBlock b h).state.memory = h.memory := by
  by_cases hb : b ∈ h.retired
  · rw [releaseBlock_of_mem hb]
    rfl
  · rw [releaseBlock_of_not_mem hb]
    rfl

theorem memory_sweepLarge (isLive : Nat → Bool) (h : Heap) :
    (sweepLarge isLive h).state.memory = h.memory := by
  obtain ⟨n, hsweep⟩ := Collection.sweepLarge_ok isLive h
  rw [hsweep]
  rfl

end Heap

namespace Collection

variable {H : Type} {c c'' : Collection H}

theorem keeps_memory {α : Type} {op : Heap.Action α}
    (hop : ∀ heap, (op heap).state.memory = heap.memory) (memory : Memory) :
    Keeps (fun c : Collection H => c.heap.memory = memory) (onHeap op) := by
  rintro ⟨heap, roots, host⟩ rfl
  have hmemory := hop heap
  simp only [onHeap]
  cases hresult : op heap <;>
    · rw [hresult] at hmemory
      exact hmemory

theorem read_reclaim (h : reclaim c = .ok () c') (b : Nat) :
    c'.heap.memory.read b = c.heap.memory.read b := by
  obtain ⟨heap, roots, host⟩ := c
  have hroots := markRoots_eq heap roots host
  cases hmark : mark heap.memory [] roots.reverse with
  | error f marked =>
    rw [hmark] at hroots
    rw [reclaim, bind_of_error hroots] at h
    contradiction
  | ok traced marked =>
    rw [hmark] at hroots
    rw [reclaim, bind_of_ok hroots, bind_of_ok (clearMarks_ok _ _ _ _)] at h
    let cleared := traced.foldl Memory.clearMark marked
    have hmemory : c'.heap.memory = cleared := by
      refine Keeps.of_ok (P := fun c : Collection H => c.heap.memory = cleared) ?_ rfl h
      refine Keeps.get.bind fun c => ?_
      refine (keeps_releaseDead (fun b => ?_) _ _).bind fun released => ?_
      · exact keeps_memory (Heap.memory_releaseBlock b) cleared
      · exact (keeps_memory (Heap.memory_sweepLarge _) cleared).bind fun unmapped _ hc => hc
    rw [hmemory]
    exact Memory.read_clearMarks_mark hmark b

end Collection

theorem Collector.blocks_keepsMemory {H : Type} : (Collector.blocks : Collector H).KeepsMemory := by
  intro c c' h b
  change Collection.reclaimUnlessShared c = .ok () c' at h
  by_cases hshared : 1 < c.heap.arenas
  · rw [Collection.reclaimUnlessShared_of_shared hshared] at h
    cases h
    rfl
  · rw [Collection.reclaimUnlessShared_of_single hshared] at h
    exact Collection.read_reclaim h b

namespace Mutator

variable {R H : Type} [RootSet R] {collector : Collector H} {l : Layout} {m m' : Mutator R H}
  {a : Nat}

theorem collect_keepsMemory (hc : collector.KeepsMemory) (memory : Memory) :
    Passes (fun now _ _ => ∀ b, now.read b = memory.read b) (fun _ => True)
      (collect (R := R) collector) := by
  rintro ⟨heap, arena, roots, host⟩ hm
  simp only [collect]
  cases hresult : collector _ with
  | error f c => exact trivial
  | ok u c => exact fun b => (hc _ _ hresult b).trans (hm b)

theorem read_allocate (hc : collector.KeepsMemory) (h : allocate collector l m = .ok a m')
    (b : Nat) : m'.heap.memory.read b = m.heap.memory.read b := by
  have hallocate := Passes.allocate (fun _ _ => trivial)
    (collect_keepsMemory (R := R) hc m.heap.memory) l m fun _ => rfl
  rw [h] at hallocate
  exact hallocate b

theorem dvd_allocate (hl : 0 < l.align) (hmapping : l.align ∣ m.heap.nextMapping)
    (h : allocate collector l m = .ok a m') : l.align ∣ a := by
  have hsteps := allocate_steps collector m hl m rfl
  rw [h] at hsteps
  by_cases hlarge : m.heap.settings.largeSize ≤ l.size
  · simp only [hlarge, ↓reduceIte] at hsteps
    rw [hsteps.1]
    exact hmapping
  · simp only [hlarge, ↓reduceIte] at hsteps
    obtain ⟨heap, c, allocated, total, roots, host, -, hplace⟩ := hsteps
    obtain ⟨-, haddress, -⟩ := Arena.place?_eq_some.mp hplace
    rw [← haddress]
    exact dvd_alignUp _ _

end Mutator

namespace ObjectRequest

variable {H : Type} {env : Embedder H} {m m' : Machine H} {v : Value}

/-- What a new object is made of depends on the request alone: the memory set aside for it is
written to the last byte, whatever it held, and no byte beside it is. Only a collector, which may
run before that, could change anything else. Mappings of the operating system start at words. -/
theorem perform_fresh {r : ObjectRequest} (hshort : r.IsShort)
    (hmapping : 8 ∣ m.vm.heap.nextMapping) (h : r.perform env m = .ok v m') :
    ∃ a vs m₁, Machine.onMutator r.operands
        (Mutator.allocate env.collector (.ofWords r.size)) m = .ok (a, vs) m₁ ∧
      v = .reference a ∧ 8 ∣ a ∧ m'.vm.heap.memory.bytes a r.size = r.contents vs ∧
      (∀ b, b < a ∨ a + r.size ≤ b → m'.vm.heap.memory.byte b = m₁.vm.heap.memory.byte b) ∧
      (env.collector.KeepsRoots → vs = r.operands) ∧
      (env.collector.KeepsMemory → ∀ b, b < a ∨ a + r.size ≤ b →
        m'.vm.heap.memory.byte b = m.vm.heap.memory.byte b) := by
  rw [r.perform_eq env] at h
  obtain ⟨a, vs, m₁, hop, hv, hlength, hkept, hmemory⟩ := Machine.allocateObject_eq_ok h
  obtain ⟨x, hallocate, hheap, -⟩ := Machine.onMutator_eq_ok hop
  have haligned : 8 ∣ a := Mutator.dvd_allocate (Nat.succ_pos 7) hmapping hallocate
  have hsize : r.size = 8 * (r.imageOf vs).length := by
    rw [r.length_imageOf hlength, (r.length_image_iff).mpr hshort.fits]
  have houtside : ∀ b, b < a ∨ a + r.size ≤ b →
      m'.vm.heap.memory.byte b = m₁.vm.heap.memory.byte b := by
    intro b hb
    rw [hmemory]
    rw [hsize] at hb
    exact Memory.byte_writeAll_of_outside _ haligned hb
  refine ⟨a, vs, m₁, hop, hv, haligned, ?_, houtside, hkept, fun hc b hb => ?_⟩
  · rw [hmemory, hsize, Memory.bytes_writeAll _ haligned, unpackWords_imageOf hshort]
  · rw [houtside b hb]
    apply Memory.byte_congr
    rw [← hheap]
    exact Mutator.read_allocate hc hallocate _

def used : Machine Unit :=
  ⟨⟨⟨⟨4096, 4096, 4096⟩, Mapping.firstAddress, [0], [], [], 1, {}, Mapping.firstAddress + 8192,
      Memory.empty.writeAll Mapping.firstAddress (List.replicate 6 (2 ^ 64 - 1)), []⟩,
    .empty, .empty, #[], 16⟩, ⟨0, .new, #[], #[], #[]⟩, ()⟩

theorem perform_fresh_reused : ∃ a m',
    (words .vector 2).perform ⟨.blocks, Embedder.refuse, 0⟩ used = .ok (.reference a) m' ∧
      m'.vm.heap.memory.bytes a 24 = [35, 0, 0, 0, 2, 0, 0, 0] ++ List.replicate 16 0 ∧
      ∀ b, b < a ∨ a + 24 ≤ b →
        m'.vm.heap.memory.byte b = used.vm.heap.memory.byte b := by
  obtain ⟨v, m', hperform⟩ : ∃ v m', (words .vector 2).perform
      ⟨.blocks, Embedder.refuse, 0⟩ used = .ok v m' := ⟨_, _, rfl⟩
  have hmapping : 8 ∣ used.vm.heap.nextMapping := ⟨(0x7f0000001000 + 8192) / 8, rfl⟩
  obtain ⟨a, vs, m₁, -, rfl, -, hbytes, -, -, houtside⟩ :=
    perform_fresh (r := words .vector 2) trivial hmapping hperform
  exact ⟨a, m', hperform, hbytes, houtside Collector.blocks_keepsMemory⟩

end ObjectRequest

end VmSupport
