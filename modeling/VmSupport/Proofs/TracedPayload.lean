import Mathlib.Data.List.Basic
import VmSupport.Heap.Marking
import VmSupport.Machine.Allocation
import VmSupport.Proofs.KeptValues
import VmSupport.Proofs.ObjectWords
import VmSupport.Proofs.RootSlots

/-!
What a tracer visits in an object that was just allocated. Allocation lays an object out by the kind
of the request, tracing goes by the type in the header; the two agree for some types only.
-/

namespace VmSupport

open EStateM

namespace ObjectType

def IsCell (type : ObjectType) : Prop := type = pair ∨ type = cell

def IsBlock (type : ObjectType) : Prop := type = words ∨ type = vector

def tracedWords (type : ObjectType) (length : UInt32) : Nat :=
  match type with
  | pair | cell => 2
  | words | vector => length.toNat
  | flonum | str | builtin | thread => 0

theorem tracedWords_eq_two_iff (type : ObjectType) : type.tracedWords 0 = 2 ↔ type.IsCell := by
  cases type <;> simp [tracedWords, IsCell]

theorem tracedWords_eq_iff (type : ObjectType) (n : UInt32) :
    type.tracedWords n = n.toNat ↔
      type.IsBlock ∨ type.IsCell ∧ n = 2 ∨ ¬type.IsBlock ∧ ¬type.IsCell ∧ n = 0 := by
  have htwo : 2 = n.toNat ↔ n = 2 := by
    rw [← UInt32.toNat_inj]
    exact eq_comm
  have hzero : 0 = n.toNat ↔ n = 0 := by
    rw [← UInt32.toNat_inj]
    exact eq_comm
  cases type <;> simp [tracedWords, IsBlock, IsCell, htwo, hzero]

theorem tracedWords_le_iff (type : ObjectType) (n : UInt32) :
    type.tracedWords n ≤ n.toNat ↔ ¬(type.IsCell ∧ n.toNat < 2) := by
  rw [not_and, Nat.not_lt]
  cases type <;> simp [tracedWords, IsCell]

end ObjectType

def payloadSlots (a n : Nat) : List Nat := (List.range n).map fun i => a + 8 + 8 * i

theorem payloadSlots_inj {a n k : Nat} : payloadSlots a n = payloadSlots a k ↔ n = k := by
  constructor
  · intro h
    simpa [payloadSlots] using congrArg List.length h
  · rintro rfl
    rfl

theorem payloadSlots_within_iff {a n k : Nat} :
    (∀ slot ∈ payloadSlots a n, slot + 8 ≤ a + 8 + 8 * k) ↔ n ≤ k := by
  constructor
  · intro h
    apply Nat.le_of_not_lt
    intro hlt
    have hlast : a + 8 + 8 * k ∈ payloadSlots a n :=
      List.mem_map.mpr ⟨k, List.mem_range.mpr hlt, rfl⟩
    have hle := h _ hlast
    omega
  · intro hle slot hslot
    obtain ⟨i, hi, rfl⟩ := List.mem_map.mp hslot
    have hlt := List.mem_range.mp hi
    omega

namespace Memory

variable {m : Memory} {a : Nat} {type : ObjectType} {length : UInt32}

theorem edgeSlots_eq (type : ObjectType) (length : UInt32) (a : Nat) :
    edgeSlots type length a = payloadSlots a (type.tracedWords length) := by
  cases type <;> rfl

def Traces (m : Memory) (a n : Nat) : Prop := slots? (m.header a) a = some (payloadSlots a n)

def TracesBelow (m : Memory) (a stop : Nat) : Prop :=
  ∀ slots, slots? (m.header a) a = some slots → ∀ slot ∈ slots, slot + 8 ≤ stop

theorem slots?_of_header (h : m.header a = .withLength type length) :
    slots? (m.header a) a = some (payloadSlots a (type.tracedWords length)) := by
  rw [h, slots?, Header.type?_withLength, Option.map_some, edgeSlots_eq]
  rfl

theorem traces_iff (h : m.header a = .withLength type length) (n : Nat) :
    m.Traces a n ↔ type.tracedWords length = n := by
  rw [Traces, slots?_of_header h, Option.some_inj, payloadSlots_inj]

theorem tracesBelow_iff (h : m.header a = .withLength type length) (n : Nat) :
    m.TracesBelow a (a + (8 + 8 * n)) ↔ type.tracedWords length ≤ n := by
  rw [TracesBelow, slots?_of_header h, ← payloadSlots_within_iff (a := a), Nat.add_assoc]
  simp only [Option.some.injEq, forall_eq']

theorem Traces.edges?_eq {n : Nat} (h : m.Traces a n) :
    m.edges? a = some ((payloadSlots a n).map fun slot => ⟨m.read slot⟩) := by
  rw [Memory.edges?_eq, h, Option.map_some]

def storeAll (m : Memory) (a : Nat) : List (Nat × Value) → Memory
  | [] => m
  | (i, v) :: writes => (m.writeAll (a + 8 + 8 * i) [v.raw]).storeAll a writes

theorem header_storeAll (m : Memory) (a : Nat) (writes : List (Nat × Value)) :
    (m.storeAll a writes).header a = m.header a := by
  induction writes generalizing m with
  | nil => rfl
  | cons write writes ih =>
    obtain ⟨i, v⟩ := write
    have hne : a + 8 + 8 * i ≠ a := by omega
    rw [storeAll, ih, header, header, writeAll, writeAll, read_write_of_ne m v.raw hne]

/-- Every collection that marks the object at `a` also marks what these values refer to, pinned
objects excepted. -/
def KeepsAlive (m : Memory) (a : Nat) (vs : List Value) : Prop :=
  ∀ roots traced marked, m.Markable roots → mark m [] roots.reverse = .ok traced marked →
    a ∈ traced → ∀ v ∈ vs, v.isReference → m.isPinned v.address = false → v.address ∈ traced

theorem keepsAlive_of_edges {vs : List Value} (h : m.edges? a = some vs) : m.KeepsAlive a vs := by
  intro roots traced marked hm hmark ha v hv href hunpinned
  obtain ⟨traced', marked', hmark', -, htraced⟩ := mark_reached hm
  rw [hmark] at hmark'
  cases hmark'
  rw [htraced] at ha ⊢
  exact ⟨Reaches.edge ha.1 h hv href, hunpinned⟩

theorem edges?_of_cell {w₀ w₁ : Value} (htype : type.IsCell)
    (h : m.readAll a 3 = ObjectImage.cell type w₀ w₁) : m.edges? a = some [w₀, w₁] := by
  have hread := (readAll_eq_iff m a (ObjectImage.cell type w₀ w₁)).mp h
  have hheader : m.header a = .withLength type 0 := by
    have hfirst := hread 0 (by simp [ObjectImage.cell, ObjectImage.fields])
    rw [Nat.mul_zero, Nat.add_zero] at hfirst
    rw [header, hfirst]
    exact Header.ofWord_word _
  have htraces : m.Traces a 2 := (traces_iff hheader 2).mpr (type.tracedWords_eq_two_iff.mpr htype)
  have hfirst : m.read (a + 8 + 8 * 0) = w₀.raw :=
    hread 1 (by simp [ObjectImage.cell, ObjectImage.fields])
  have hsecond : m.read (a + 8 + 8 * 1) = w₁.raw := by
    rw [Nat.add_assoc]
    exact hread 2 (by simp [ObjectImage.cell, ObjectImage.fields])
  rw [htraces.edges?_eq]
  change some [Value.mk (m.read (a + 8 + 8 * 0)), Value.mk (m.read (a + 8 + 8 * 1))] = _
  rw [hfirst, hsecond]

end Memory

theorem length_refillList (olds vs : List Value) : (refillList olds vs).1.length = olds.length := by
  induction olds generalizing vs with
  | nil => rfl
  | cons old olds ih =>
    cases vs with
    | nil => rfl
    | cons v vs => exact congrArg (· + 1) (ih vs)

namespace Mutator

variable {H : Type}

theorem collect_keepsPending (collector : Collector H) (n : Nat) :
    KeepsHeld (fun (r : ContextRoots) (_ : H) => r.pending.length = n) (collect collector) := by
  rintro ⟨heap, arena, roots, host⟩ hn
  simp only [collect]
  generalize collector _ = r
  cases r <;> exact (length_refillList roots.pending _).trans hn

theorem collect_keepsRoots {R : Type} [RootSet R] [LawfulRootSet R] {collector : Collector H}
    (h : collector.KeepsRoots) (roots : R) :
    KeepsHeld (fun r (_ : H) => r = roots) (collect collector) := by
  rintro ⟨heap, arena, roots', host⟩ rfl
  simp only [collect]
  generalize hc : Collection.mk (Heap.note _ _) (RootSet.toList roots') host = c
  have hroots : (collector c).state.roots = RootSet.toList roots' := by
    rw [h c, ← hc]
  cases hr : collector c <;>
    · rw [hr] at hroots
      simp only [Result.state] at hroots
      simp only [hroots, LawfulRootSet.refill_toList]

end Mutator

namespace Machine

variable {H : Type} {env : Embedder H} {m m' : Machine H} {v : Value}

theorem onMutator_allocate_pending {l : Layout} {pending pending' : List Value} {a : Nat}
    (h : onMutator pending (Mutator.allocate env.collector l) m = .ok (a, pending') m') :
    pending'.length = pending.length ∧ (env.collector.KeepsRoots → pending' = pending) := by
  obtain ⟨x, hallocate, -, rfl⟩ := onMutator_eq_ok h
  have hlength := Mutator.KeepsHeld.allocate
    (Mutator.collect_keepsPending env.collector pending.length) l
  refine ⟨Keeps.of_ok hlength rfl hallocate, fun hc => ?_⟩
  have hkept := Mutator.KeepsHeld.allocate
    (Mutator.collect_keepsRoots hc (m.mutator pending).roots) l
  exact congrArg ContextRoots.pending (Keeps.of_ok hkept rfl hallocate)

theorem allocateObject_eq_ok_writeWords {size : Nat} {pending : List Value}
    {image : List Value → List UInt64} (h : allocateObject env size pending image m = .ok v m') :
    ∃ a vs m₁,
      onMutator pending (Mutator.allocate env.collector (.ofWords size)) m = .ok (a, vs) m₁ ∧
      v = .reference a ∧ m' = (writeWords a (image vs) m₁).state := by
  unfold allocateObject at h
  cases hop : onMutator pending (Mutator.allocate env.collector (.ofWords size)) m with
  | error e m₁ =>
    rw [bind_of_error hop] at h
    contradiction
  | ok result m₁ =>
    obtain ⟨a, vs⟩ := result
    rw [bind_of_ok hop] at h
    cases h
    exact ⟨a, vs, m₁, rfl, rfl, rfl⟩

theorem allocateObject_eq_ok {size : Nat} {pending : List Value} {image : List Value → List UInt64}
    (h : allocateObject env size pending image m = .ok v m') :
    ∃ a vs m₁,
      onMutator pending (Mutator.allocate env.collector (.ofWords size)) m = .ok (a, vs) m₁ ∧
      v = .reference a ∧ vs.length = pending.length ∧ (env.collector.KeepsRoots → vs = pending) ∧
      m'.vm.heap.memory = m₁.vm.heap.memory.writeAll a (image vs) := by
  obtain ⟨a, vs, m₁, hop, hv, rfl⟩ := allocateObject_eq_ok_writeWords h
  obtain ⟨hlength, hkept⟩ := onMutator_allocate_pending hop
  exact ⟨a, vs, m₁, hop, hv, hlength, hkept, rfl⟩

theorem allocateCell_eq_ok {type : ObjectType} {car cdr : Value}
    (h : allocateCell env type car cdr m = .ok v m') :
    ∃ a w₀ w₁, v = .reference a ∧ (env.collector.KeepsRoots → w₀ = car ∧ w₁ = cdr) ∧
      m'.vm.heap.memory.readAll a 3 = ObjectImage.cell type w₀ w₁ ∧
      m'.vm.heap.memory.header a = .withLength type 0 := by
  obtain ⟨a, vs, m₁, -, hv, hlength, hkept, hmemory⟩ := allocateObject_eq_ok h
  obtain ⟨w₀, w₁, rfl⟩ := List.length_eq_two.mp hlength
  refine ⟨a, w₀, w₁, hv, fun hc => by simpa using hkept hc, ?_, ?_⟩
  · rw [hmemory]
    exact Memory.readAll_writeAll _ a (ObjectImage.cell type w₀ w₁)
  · rw [hmemory]
    exact Memory.header_writeAll _ a _ _

theorem header_allocateWords {type : ObjectType} {n : UInt32}
    (h : allocateWords env type n m = .ok v m') :
    ∃ a, v = .reference a ∧ m'.vm.heap.memory.header a = .withLength type n := by
  obtain ⟨a, vs, m₁, -, hv, -, -, hmemory⟩ := allocateObject_eq_ok h
  refine ⟨a, hv, ?_⟩
  rw [hmemory]
  exact Memory.header_writeAll _ a _ _

/-- Two words are traced in a new cell exactly if its type is one of cells; then every collection
that keeps the cell keeps what it holds. In a new block, whatever is written to it, exactly its
words are traced if its type is one of blocks, and otherwise only for the length that the type
happens to stand for. A tracer looks beyond a block exactly if it takes it for a cell and it is
shorter than one. -/
theorem traces_payload_iff (env : Embedder H) (type : ObjectType) (car cdr : Value) (n : UInt32)
    (m : Machine H) :
    (∀ v m', allocateCell env type car cdr m = .ok v m' →
      ∃ a w₀ w₁, v = .reference a ∧ (env.collector.KeepsRoots → w₀ = car ∧ w₁ = cdr) ∧
        m'.vm.heap.memory.readAll a 3 = ObjectImage.cell type w₀ w₁ ∧
        (m'.vm.heap.memory.Traces a 2 ↔ type.IsCell) ∧
        (type.IsCell → ∀ later : Memory, later.readAll a 3 = ObjectImage.cell type w₀ w₁ →
          later.KeepsAlive a [w₀, w₁])) ∧
    ∀ v m', allocateWords env type n m = .ok v m' →
      ∃ a, v = .reference a ∧ ∀ writes,
        let memory := m'.vm.heap.memory.storeAll a writes
        (memory.Traces a n.toNat ↔
          type.IsBlock ∨ type.IsCell ∧ n = 2 ∨ ¬type.IsBlock ∧ ¬type.IsCell ∧ n = 0) ∧
        (memory.TracesBelow a (a + ObjectImage.wordsSize n) ↔ ¬(type.IsCell ∧ n.toNat < 2)) := by
  constructor
  · intro v m' h
    obtain ⟨a, w₀, w₁, hv, hkept, hread, hheader⟩ := allocateCell_eq_ok h
    refine ⟨a, w₀, w₁, hv, hkept, hread, ?_, ?_⟩
    · exact (Memory.traces_iff hheader 2).trans type.tracedWords_eq_two_iff
    · intro htype later hlater
      exact Memory.keepsAlive_of_edges (Memory.edges?_of_cell htype hlater)
  · intro v m' h
    obtain ⟨a, hv, hheader⟩ := header_allocateWords h
    refine ⟨a, hv, fun writes => ?_⟩
    have hstored : (m'.vm.heap.memory.storeAll a writes).header a = .withLength type n :=
      (Memory.header_storeAll _ a writes).trans hheader
    exact ⟨(Memory.traces_iff hstored _).trans (type.tracedWords_eq_iff n),
      (Memory.tracesBelow_iff hstored _).trans (type.tracedWords_le_iff n)⟩

def small : Machine Unit :=
  ⟨⟨(Heap.create ⟨8192, 4096, 4096⟩).toOption.getD default, .empty, .empty, #[], 16⟩,
    ⟨0, .new, #[], #[], #[]⟩, ()⟩

def smallEmbedder : Embedder Unit := ⟨.none, Embedder.refuse, 0⟩

theorem traces_payload_iff_pair : ∃ v m' v' m'' a a',
    allocateCell smallEmbedder .pair (.fixnum 1) .nil small = .ok v m' ∧ v = .reference a ∧
      m'.vm.heap.memory.Traces a 2 ∧
      allocateWords smallEmbedder .vector 3 m' = .ok v' m'' ∧ v' = .reference a' ∧
      (m''.vm.heap.memory.storeAll a' [(1, .nil)]).Traces a' 3 := by
  obtain ⟨v, m', hcell, v', m'', hwords⟩ : ∃ v m',
      allocateCell smallEmbedder .pair (.fixnum 1) .nil small = .ok v m' ∧
      ∃ v' m'', allocateWords smallEmbedder .vector 3 m' = .ok v' m'' := ⟨_, _, rfl, _, _, rfl⟩
  obtain ⟨a, -, -, ha, -, -, htraces, -⟩ :=
    (traces_payload_iff smallEmbedder .pair (.fixnum 1) .nil 0 small).1 v m' hcell
  obtain ⟨a', ha', hblock⟩ :=
    (traces_payload_iff smallEmbedder .vector .nil .nil 3 m').2 v' m'' hwords
  exact ⟨v, m', v', m'', a, a', hcell, ha, htraces.mpr (Or.inl rfl), hwords, ha',
    (hblock [(1, .nil)]).1.mpr (Or.inl (Or.inr rfl))⟩

theorem cell_of_words_untraced : ∃ v m' v' m'' a a',
    allocateCell smallEmbedder .words (.fixnum 1) (.fixnum 2) small = .ok v m' ∧
      v = .reference a ∧
      m'.vm.heap.memory.readAll a 3 = ObjectImage.cell .words (.fixnum 1) (.fixnum 2) ∧
      m'.vm.heap.memory.edges? a = some [] ∧
      allocateWords smallEmbedder .pair 0 m' = .ok v' m'' ∧ v' = .reference a' ∧
      ¬m''.vm.heap.memory.TracesBelow a' (a' + ObjectImage.wordsSize 0) := by
  obtain ⟨v, m', hcell, v', m'', hwords⟩ : ∃ v m',
      allocateCell smallEmbedder .words (.fixnum 1) (.fixnum 2) small = .ok v m' ∧
      ∃ v' m'', allocateWords smallEmbedder .pair 0 m' = .ok v' m'' := ⟨_, _, rfl, _, _, rfl⟩
  obtain ⟨a, w₀, w₁, ha, hkept, hread, hheader⟩ := allocateCell_eq_ok hcell
  obtain ⟨rfl, rfl⟩ := hkept Collector.none_keepsRoots
  have htraces : m'.vm.heap.memory.Traces a 0 := (Memory.traces_iff hheader 0).mpr rfl
  obtain ⟨a', ha', hheader'⟩ := header_allocateWords hwords
  refine ⟨v, m', v', m'', a, a', hcell, ha, hread, htraces.edges?_eq, hwords, ha', ?_⟩
  intro hbelow
  exact absurd ((Memory.tracesBelow_iff hheader' 0).mp hbelow) (by decide)

end Machine

end VmSupport
