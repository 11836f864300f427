import VmSupport.Proofs.FreshObjects
import VmSupport.Proofs.Relocation
import VmSupport.Proofs.WindOperands

namespace VmSupport

open EStateM

variable {H : Type}

namespace Collection

structure Holds (roots : List Value) (memory : Memory) (n : Nat) (c : Collection H) : Prop where
  roots : c.roots = roots
  memory : c.heap.memory = memory
  collections : c.heap.stats.collections = n

theorem releaseDead_holds {roots : List Value} {memory : Memory} {n : Nat} (isLive : Nat → Bool)
    (bs : List Nat) :
    Keeps (Holds roots memory n) (releaseDead isLive bs : Action H Nat) := by
  apply keeps_releaseDead
  rintro b ⟨heap, roots', host⟩ ⟨hroots, hmemory, hcollections⟩
  by_cases hb : b ∈ heap.retired
  · simp only [onHeap, Heap.releaseBlock_of_mem hb]
    exact ⟨hroots, hmemory, hcollections⟩
  · simp only [onHeap, Heap.releaseBlock_of_not_mem hb]
    exact ⟨hroots, hmemory, hcollections⟩

end Collection

namespace Collector

/-- Where the collector succeeds, `f v` stands in the place of each root `v`; memory holds what it
held, and no collection was counted. -/
structure Forwards (collector : Collector H) (f : Value → Value) : Prop where
  roots : collector.Rewrites fun _ => f
  memory : collector.KeepsMemory
  collections : ∀ c c', collector c = .ok () c' →
    c'.heap.stats.collections = c.heap.stats.collections

def forwarding (f : Value → Value) (isLive : Collection H → Nat → Bool) :
    Collection.Action H Unit := do
  modify fun c : Collection H => { c with roots := c.roots.map f }
  let c ← get
  let _ ← Collection.releaseDead (isLive c) c.heap.retired

theorem forwarding_holds {f : Value → Value} {isLive : Collection H → Nat → Bool}
    {c c' : Collection H} (h : forwarding f isLive c = .ok () c') :
    c'.Holds (c.roots.map f) c.heap.memory c.heap.stats.collections := by
  have hrelease : Keeps (Collection.Holds (c.roots.map f) c.heap.memory c.heap.stats.collections)
      (do
        let c ← get
        let _ ← Collection.releaseDead (isLive c) c.heap.retired
        pure () : Collection.Action H Unit) :=
    Keeps.get.bind fun _ => (Collection.releaseDead_holds _ _).bind fun _ => Keeps.pure ()
  have hreplaced : Collection.Holds (c.roots.map f) c.heap.memory c.heap.stats.collections
      { c with roots := c.roots.map f } := ⟨rfl, rfl, rfl⟩
  exact hrelease.of_ok hreplaced h

theorem forwarding_forwards (f : Value → Value) (isLive : Collection H → Nat → Bool) :
    Forwards (forwarding f isLive) f where
  roots c c' h := (forwarding_holds h).roots
  memory c c' h b := by rw [(forwarding_holds h).memory]
  collections c c' h := (forwarding_holds h).collections

end Collector

namespace Mutator

variable {R α : Type} {m₀ m m' : Mutator R H} {l : Layout} {a : Nat}

structure Unmoved (m₀ m : Mutator R H) : Prop where
  memory : m.heap.memory = m₀.heap.memory
  roots : m.roots = m₀.roots
  collections : m.heap.stats.collections = m₀.heap.stats.collections

theorem Unmoved.refl (m : Mutator R H) : Unmoved m m := ⟨rfl, rfl, rfl⟩

theorem unmoved_onHeap {op : Heap.Action α} (hop : ∀ h : Heap,
      (op h).state.memory = h.memory ∧ (op h).state.stats.collections = h.stats.collections) :
    Keeps (Unmoved m₀) (onHeap op) := by
  rintro ⟨heap, arena, roots, host⟩ hm
  have hheap := hop heap
  simp only [onHeap]
  cases hresult : op heap <;>
    · rw [hresult] at hheap
      exact ⟨hheap.1.trans hm.memory, hm.roots, hheap.2.trans hm.collections⟩

theorem unmoved_requestBlock : Keeps (Unmoved m₀) (onHeap Heap.requestBlock) := by
  apply unmoved_onHeap
  intro h
  simp only [Heap.requestBlock, bind, EStateM.bind, get, getThe, MonadStateOf.get, EStateM.get]
  cases h.free <;> exact ⟨rfl, rfl⟩

theorem unmoved_allocateLarge (size : Nat) :
    Keeps (Unmoved m₀) (onHeap (Heap.allocateLarge size)) := by
  apply unmoved_onHeap
  intro h
  simp only [Heap.allocateLarge, bind, EStateM.bind, get, getThe, MonadStateOf.get, EStateM.get]
  split <;> exact ⟨rfl, rfl⟩

theorem unmoved_modify {g : Mutator R H → Mutator R H} (hg : ∀ m, Unmoved m (g m)) :
    Keeps (Unmoved m₀) (modify g : Action R H Unit) :=
  fun m hm => ⟨(hg m).memory.trans hm.memory, (hg m).roots.trans hm.roots,
    (hg m).collections.trans hm.collections⟩

theorem unmoved_countBytes (size : Nat) : Keeps (Unmoved m₀) (countBytes size) := by
  refine Keeps.get.bind fun m => ?_
  simp only
  split
  · exact unmoved_modify fun _ => ⟨rfl, rfl, rfl⟩
  · exact Keeps.throw _

theorem unmoved_allocateOnBlock (l : Layout) : Keeps (Unmoved m₀) (allocateOnBlock l) := by
  refine Keeps.get.bind fun m => ?_
  split
  · exact Keeps.pure none
  · refine Keeps.bind (unmoved_modify fun _ => ⟨rfl, rfl, rfl⟩) fun _ => ?_
    exact (unmoved_countBytes _).bind fun _ => Keeps.pure _

theorem unmoved_retire : Keeps (Unmoved m₀) retire := by
  refine Keeps.get.bind fun m => ?_
  split
  · exact Keeps.pure ()
  · refine (unmoved_onHeap fun h => ?_).bind fun _ => unmoved_modify fun _ => ⟨rfl, rfl, rfl⟩
    simp only [Heap.retireBlock, bind, EStateM.bind, get, getThe, MonadStateOf.get, EStateM.get]
    split <;> exact ⟨rfl, rfl⟩

variable [RootSet R] {collector : Collector H}

inductive Collected (collector : Collector H) (m₀ m : Mutator R H) : Prop
  | never (h : Unmoved m₀ m)
  | once {m₁ m₂ : Mutator R H} (before : Unmoved m₀ m₁)
    (hcollect : collect collector m₁ = .ok () m₂) (after : Unmoved m₂ m)

theorem Collected.keeps {op : Action R H α} (h : ∀ m₀, Keeps (Unmoved m₀) op) :
    Keeps (Collected collector m₀) op := by
  rw [keeps_iff]
  intro m hm
  cases hm with
  | never hm => exact .never ((h m₀).state hm)
  | once before hcollect after => exact .once before hcollect ((h _).state after)

theorem collect_collected : Ensures (collect collector) (Unmoved m₀)
    (fun _ => Collected collector m₀) (fun _ => True) := by
  intro m hm
  cases hresult : collect collector m with
  | ok u m' => exact .once hm hresult (.refl m')
  | error f m' => trivial

theorem requestBlock_collected : Ensures (requestBlock collector) (Unmoved m₀)
    (fun _ => Collected collector m₀) (fun _ => True) := by
  refine unmoved_requestBlock.success.bind fun b => ?_
  cases b with
  | some b => exact Ensures.pure fun _ hm => .never hm
  | none =>
    refine collect_collected.bind fun _ => ?_
    refine (Collected.keeps fun _ => unmoved_requestBlock).success.bind fun b => ?_
    cases b with
    | some b => exact Ensures.pure fun _ hm => hm
    | none => exact fun _ _ => trivial

theorem exchangeBlock_collected : Ensures (exchangeBlock collector) (Unmoved m₀)
    (fun _ => Collected collector m₀) (fun _ => True) := by
  refine unmoved_retire.success.bind fun _ => requestBlock_collected.bind fun b => ?_
  refine (Collected.keeps fun m => ?_).success
  refine (unmoved_onHeap fun h => ?_).bind fun bounds => ?_
  · simp only [Heap.blockBounds, bind, EStateM.bind, get, getThe, MonadStateOf.get, EStateM.get]
    split <;> exact ⟨rfl, rfl⟩
  · exact Keeps.bind (unmoved_modify fun _ => ⟨rfl, rfl, rfl⟩) fun _ =>
      unmoved_modify fun _ => ⟨rfl, rfl, rfl⟩

theorem allocate_collected (h : allocate collector l m = .ok a m') : Collected collector m m' := by
  have hallocate : Ensures (allocate collector l) (Unmoved m) (fun _ => Collected collector m)
      (fun _ => True) := by
    refine Keeps.get.success.bind fun s => ?_
    split
    · refine (unmoved_countBytes l.size).success.bind fun _ => ?_
      exact (unmoved_allocateLarge l.size).mono (fun _ h => h) (fun _ _ h => .never h)
        fun _ _ => trivial
    · refine (unmoved_allocateOnBlock l).success.bind fun placed => ?_
      cases placed with
      | some address => exact Ensures.pure fun _ hm => .never hm
      | none =>
        refine exchangeBlock_collected.bind fun _ => ?_
        refine (Collected.keeps fun _ => unmoved_allocateOnBlock l).success.bind fun placed => ?_
        cases placed with
        | some address => exact Ensures.pure fun _ hm => hm
        | none => exact fun _ _ => trivial
  have hm := hallocate m (.refl m)
  rwa [h] at hm

section Forwards

variable {f : Value → Value} {m m' : Mutator ContextRoots H}

theorem collect_forwards (hc : collector.Forwards f) (h : collect collector m = .ok () m') :
    m'.roots = m.roots.map f ∧ (∀ b, m'.heap.memory.read b = m.heap.memory.read b) ∧
      m'.heap.stats.collections = m.heap.stats.collections + 1 := by
  obtain ⟨heap, arena, roots, host⟩ := m
  simp only [collect] at h
  generalize hstart : Collection.mk (Heap.note _ _) (RootSet.toList roots) host = c at h
  cases hresult : collector c with
  | error e c' =>
    rw [hresult] at h
    cases h
  | ok u c' =>
    rw [hresult] at h
    cases h
    have hroots := hc.roots c c' hresult
    have hmemory := hc.memory c c' hresult
    have hcount := hc.collections c c' hresult
    rw [← hstart] at hroots hmemory hcount
    refine ⟨?_, hmemory, hcount⟩
    rw [hroots]
    exact roots.refill_map f

theorem allocate_forwards (hc : collector.Forwards f) (h : allocate collector l m = .ok a m') :
    (∀ b, m'.heap.memory.read b = m.heap.memory.read b) ∧
      (m'.roots = m.roots ∧ m'.heap.stats.collections = m.heap.stats.collections ∨
        m'.roots = m.roots.map f ∧
          m'.heap.stats.collections = m.heap.stats.collections + 1) := by
  cases allocate_collected h with
  | never h =>
    exact ⟨fun b => by rw [h.memory], Or.inl ⟨h.roots, h.collections⟩⟩
  | once before hcollect after =>
    obtain ⟨hroots, hread, hcount⟩ := collect_forwards hc hcollect
    refine ⟨fun b => ?_, Or.inr ⟨?_, ?_⟩⟩
    · rw [after.memory, hread, before.memory]
    · rw [after.roots, hroots, before.roots]
    · rw [after.collections, hcount, before.collections]

end Forwards

end Mutator

namespace Machine

variable {env : Embedder H} {f : Value → Value} {type : ObjectType} {word₀ word₁ v : Value}
  {m m' : Machine H}

/-- A new cell is at a word, has the header of its type and holds what now stands in the root slots
of its operands: the operands themselves, or their images if a collection came first. Nothing beside
the cell is written. Mappings of the operating system start at words. -/
theorem allocateCell_coherent (hc : env.collector.Forwards f)
    (hmapping : 8 ∣ m.vm.heap.nextMapping) (h : allocateCell env type word₀ word₁ m = .ok v m') :
    ∃ a w₀ w₁, v = .reference a ∧ v.isReference ∧ 8 ∣ a ∧
      m'.vm.heap.memory.readAll a 3 = ObjectImage.cell type w₀ w₁ ∧
      m'.vm.heap.memory.header a = ⟨type.code * 8 + 3, .none, 0, 0⟩ ∧
      m'.vm.heap.memory.read (a + 8) = w₀.raw ∧ m'.vm.heap.memory.read (a + 16) = w₁.raw ∧
      (∀ i : Nat, m.context.stack[i]? = some word₀ → m'.context.stack[i]? = some w₀) ∧
      (∀ i : Nat, m.context.stack[i]? = some word₁ → m'.context.stack[i]? = some w₁) ∧
      (m'.vm.heap.stats.collections = m.vm.heap.stats.collections ∧
          m'.roots [w₀, w₁] = m.roots [word₀, word₁] ∨
        m'.vm.heap.stats.collections = m.vm.heap.stats.collections + 1 ∧
          m'.roots [w₀, w₁] = (m.roots [word₀, word₁]).map f) ∧
      ∀ b, b ∉ [a, a + 8, a + 16] → m'.vm.heap.memory.read b = m.vm.heap.memory.read b := by
  obtain ⟨a, vs, m₁, hop, rfl, rfl⟩ := allocateObject_eq_ok_writeWords h
  obtain ⟨w₀, w₁, rfl⟩ := List.length_eq_two.mp (onMutator_allocate_pending hop).1
  have hallocate := onMutator_eq_ok_mutator hop
  have haligned : 8 ∣ a := Mutator.dvd_allocate (Nat.succ_pos 7) hmapping hallocate
  obtain ⟨hread, hroots⟩ := Mutator.allocate_forwards hc hallocate
  have hslots : ∃ g : Value → Value, w₀ = g word₀ ∧ w₁ = g word₁ ∧
      m₁.context.stack = m.context.stack.map g := by
    rcases hroots with ⟨hroots, -⟩ | ⟨hroots, -⟩
    · have hpending : [w₀, w₁] = [word₀, word₁] := congrArg ContextRoots.pending hroots
      obtain ⟨rfl, rfl⟩ := by simpa using hpending
      exact ⟨id, rfl, rfl, (congrArg ContextRoots.stack hroots).trans (Array.map_id _).symm⟩
    · have hpending : [w₀, w₁] = [f word₀, f word₁] := congrArg ContextRoots.pending hroots
      obtain ⟨rfl, rfl⟩ := by simpa using hpending
      exact ⟨f, rfl, rfl, congrArg ContextRoots.stack hroots⟩
  obtain ⟨g, rfl, rfl, hstack⟩ := hslots
  have hslot : ∀ (i : Nat) (word : Value), m.context.stack[i]? = some word →
      m₁.context.stack[i]? = some (g word) := by
    intro i word hword
    rw [hstack, Array.getElem?_map, hword, Option.map_some]
  let ws := ObjectImage.cell type (g word₀) (g word₁)
  have hone : 1 < 3 := by decide
  have htwo : 2 < 3 := by decide
  have hfirst : (m₁.vm.heap.memory.writeAll a ws).read (a + 8) = (g word₀).raw :=
    Memory.read_writeAll m₁.vm.heap.memory a ws hone
  have hsecond : (m₁.vm.heap.memory.writeAll a ws).read (a + 16) = (g word₁).raw :=
    Memory.read_writeAll m₁.vm.heap.memory a ws htwo
  refine ⟨a, _, _, rfl, Value.isReference_reference haligned, haligned,
    Memory.readAll_writeAll _ a ws, Memory.header_writeAll _ a (.new type) _, hfirst, hsecond,
    fun i => hslot i word₀, fun i => hslot i word₁, hroots.imp And.symm And.symm, fun b hb => ?_⟩
  refine (Memory.read_writeAll_of_ne _ _ fun i hi hb' => hb ?_).trans (hread b)
  have hi : i < 3 := hi
  simp only [List.mem_cons, List.not_mem_nil, or_false]
  omega

def filled : Machine Unit :=
  ⟨⟨⟨⟨4096, 4096, 4096⟩, Mapping.firstAddress, [], [], [], 1, {}, Mapping.firstAddress + 8192,
      .empty, []⟩, .empty, .empty, #[], 16⟩,
    ⟨0, ⟨some ⟨0, Mapping.firstAddress + 4096, Mapping.firstAddress + 4096⟩, 4096⟩,
      #[.fixnum 2, .fixnum 1], #[], #[]⟩, ()⟩

theorem allocateCell_coherent_filled :
    let f : Value → Value := fun v => .fixnum (v.integer + 10)
    let env : Embedder Unit := ⟨Collector.forwarding f fun _ _ => false, Embedder.refuse, 0⟩
    env.collector.Forwards f ∧ 8 ∣ filled.vm.heap.nextMapping ∧ ∃ v m' a,
      allocateCell env .pair (.fixnum 1) (.fixnum 2) filled = .ok v m' ∧ v = .reference a ∧
        m'.vm.heap.memory.readAll a 3 = ObjectImage.cell .pair (.fixnum 11) (.fixnum 12) ∧
        m'.vm.heap.memory.read (a + 8) = (Value.fixnum 11).raw ∧
        m'.vm.heap.memory.read (a + 16) = (Value.fixnum 12).raw ∧
        m'.context.stack[0]? = some (.fixnum 12) ∧ m'.context.stack[1]? = some (.fixnum 11) := by
  intro f env
  have hc : env.collector.Forwards f := Collector.forwarding_forwards f _
  have hmapping : 8 ∣ filled.vm.heap.nextMapping := ⟨(0x7f0000001000 + 8192) / 8, rfl⟩
  obtain ⟨v, m', hrun, hcount⟩ : ∃ v m',
      allocateCell env .pair (.fixnum 1) (.fixnum 2) filled = .ok v m' ∧
        m'.vm.heap.stats.collections = 1 := ⟨_, _, rfl, rfl⟩
  obtain ⟨a, w₀, w₁, hv, -, -, hcell, -, hcar, hcdr, hsecond, hfirst, hroots, -⟩ :=
    allocateCell_coherent hc hmapping hrun
  rcases hroots with ⟨hnone, -⟩ | ⟨-, hroots⟩
  · rw [hcount] at hnone
    exact absurd hnone (by decide)
  · have hpending : [w₀, w₁] = [f (.fixnum 1), f (.fixnum 2)] :=
      congrArg ContextRoots.pending hroots
    obtain ⟨rfl, rfl⟩ : w₀ = .fixnum 11 ∧ w₁ = .fixnum 12 := by
      have himages : f (.fixnum 1) = .fixnum 11 ∧ f (.fixnum 2) = .fixnum 12 := by decide
      simpa [himages] using hpending
    exact ⟨hc, hmapping, v, m', a, hrun, hv, hcell, hcar, hcdr, hfirst 0 rfl, hsecond 1 rfl⟩

end Machine

end VmSupport
