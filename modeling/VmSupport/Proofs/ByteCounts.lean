import VmSupport.Proofs.ArenaSteps
import VmSupport.Proofs.BlockOwnership

namespace VmSupport

open EStateM

namespace ArenaOp

def size : ArenaOp → Nat
  | allocate l | allocateOnBlock l => l.size
  | exchangeBlock | collect => 0

def isLarge (settings : HeapSettings) : ArenaOp → Bool
  | allocate l => settings.largeSize ≤ l.size
  | allocateOnBlock _ | exchangeBlock | collect => false

end ArenaOp

structure Receipt where
  op : ArenaOp
  isLarge : Bool
  outcome : Except Fault (Option Nat)

namespace Receipt

def returned : Receipt → Nat
  | ⟨op, _, .ok (some _)⟩ => op.size
  | ⟨_, _, .ok none⟩ | ⟨_, _, .error _⟩ => 0

/-- The bytes of an object that got no mapping. With small objects it is the collector that fails
like this. -/
def refused : Receipt → Nat
  | ⟨op, true, .error (.largeObjectNotMapped _)⟩ => op.size
  | _ => 0

end Receipt

/-- An operation of an arena with the roots it is given. Before it, others may have used the heap
and the collector. -/
structure Turn (R H : Type) where
  others : Heap × H → Heap × H
  roots : R
  op : ArenaOp

namespace Mutator

variable {R H : Type}

def awaited (t : Turn R H) (m : Mutator R H) : Mutator R H :=
  let (heap, host) := t.others (m.heap, m.host)
  ⟨heap, m.arena, t.roots, host⟩

variable [RootSet R] (collector : Collector H)

def serve : ArenaOp → Action R H (Option Nat)
  | .allocate l => do
    let address ← allocate collector l
    return some address
  | .allocateOnBlock l => allocateOnBlock l
  | .exchangeBlock => do
    exchangeBlock collector
    return none
  | .collect => do
    collect collector
    return none

def receipt (op : ArenaOp) (m : Mutator R H) : Receipt where
  op
  isLarge := op.isLarge m.heap.settings
  outcome :=
    match serve collector op m with
    | .ok address _ => .ok address
    | .error f _ => .error f

def serveAll (m : Mutator R H) : List (Turn R H) → List Receipt × Mutator R H
  | [] => ([], m)
  | t :: ts =>
    let (receipts, last) := serveAll (serve collector t.op (m.awaited t)).state ts
    (receipt collector t.op (m.awaited t) :: receipts, last)

end Mutator

namespace Mutator

variable {R H : Type} {α : Type} {l : Layout} {a : Nat}

theorem onHeap_allocated (op : Heap.Action α) :
    Keeps (·.arena.allocated = a) (onHeap op : Action R H α) := by
  rintro ⟨heap, arena, roots, host⟩ hm
  simp only [onHeap]
  cases op heap <;> exact hm

theorem retire_allocated : Keeps (·.arena.allocated = a) (retire : Action R H Unit) := by
  refine Keeps.get.bind fun m => ?_
  split
  · exact Keeps.pure ()
  · exact (onHeap_allocated _).bind fun _ _ hm => hm

theorem countBytes_allocated (size : Nat) :
    Ensures (countBytes size : Action R H Unit) (·.arena.allocated = a)
      (fun _ m => m.arena.allocated = a + size) (·.arena.allocated = a) := by
  rintro m rfl
  rw [countBytes_eq]
  by_cases hlt : m.arena.allocated + size < 1 <<< 64
  · rw [if_pos hlt]
  · rw [if_neg hlt]

theorem allocateOnBlock_allocated (l : Layout) :
    Ensures (allocateOnBlock l : Action R H (Option Nat)) (·.arena.allocated = a)
      (fun address m => m.arena.allocated = a + address.elim 0 fun _ => l.size)
      (·.arena.allocated = a) := by
  have hget : Keeps (·.arena.allocated = a) (get : Action R H (Mutator R H)) := Keeps.get
  refine Ensures.bind hget fun m => ?_
  split
  · exact Ensures.pure fun _ hm => hm
  · have hmodify : ∀ cursor : Cursor, Keeps (·.arena.allocated = a) (modify fun m : Mutator R H =>
        { m with arena := { m.arena with cursor := some cursor } } : Action R H PUnit) :=
      fun _ _ hm => hm
    refine Ensures.bind (hmodify _) fun _ => (countBytes_allocated l.size).bind fun _ => ?_
    exact Ensures.pure fun _ hm => hm

variable [RootSet R] (collector : Collector H)

theorem collect_allocated :
    Keeps (·.arena.allocated = a) (collect collector : Action R H Unit) :=
  collect_arena (·.allocated = a) collector

theorem requestBlock_allocated :
    Keeps (·.arena.allocated = a) (requestBlock collector : Action R H Nat) := by
  refine (onHeap_allocated _).bind fun b => ?_
  split
  · exact Keeps.pure _
  · refine (collect_allocated collector).bind fun _ => (onHeap_allocated _).bind fun b => ?_
    split
    · exact Keeps.pure _
    · exact Keeps.throw _

theorem exchangeBlock_allocated :
    Keeps (·.arena.allocated = a) (exchangeBlock collector : Action R H Unit) := by
  refine retire_allocated.bind fun _ => (requestBlock_allocated collector).bind fun b => ?_
  exact (onHeap_allocated _).bind fun _ _ hm => hm

theorem allocate_allocated (l : Layout) :
    Ensures (allocate collector l : Action R H Nat)
      (fun m => m.arena.allocated = a ∧ l.size < m.heap.settings.largeSize)
      (fun _ m => m.arena.allocated = a + l.size) (·.arena.allocated = a) := by
  refine allocate_ensures_of_lt ((allocateOnBlock_allocated l).mono (fun _ hm => hm) ?_
    fun _ hm => hm) (exchangeBlock_allocated collector)
  intro placed m hm
  cases placed <;> exact hm

theorem allocate_eq_of_large {m : Mutator R H} (hlarge : m.heap.settings.largeSize ≤ l.size) :
    allocate collector l m =
      if m.arena.allocated + l.size < 1 <<< 64 then
        onHeap (Heap.allocateLarge l.size)
          { m with arena := { m.arena with allocated := m.arena.allocated + l.size } }
      else .error .additionOverflow m := by
  have hcount := countBytes_eq l.size m
  rw [allocate_eq_of_le hlarge]
  by_cases hlt : m.arena.allocated + l.size < 1 <<< 64
  · rw [if_pos hlt] at hcount ⊢
    exact bind_of_ok hcount
  · rw [if_neg hlt] at hcount ⊢
    exact bind_of_error hcount

theorem serve_ensures (op : ArenaOp) :
    Ensures (serve collector op : Action R H (Option Nat))
      (fun m => m.arena.allocated = a ∧ op.isLarge m.heap.settings = false)
      (fun address m => m.arena.allocated = a + address.elim 0 fun _ => op.size)
      (·.arena.allocated = a) := by
  cases op with
  | allocate l =>
    refine Ensures.bind ((allocate_allocated collector l).restrict fun m hm => ?_) fun _ =>
      Ensures.pure fun _ hm => hm
    exact ⟨hm.1, Nat.not_le.mp (of_decide_eq_false hm.2)⟩
  | allocateOnBlock l => exact (allocateOnBlock_allocated l).restrict fun _ hm => hm.1
  | exchangeBlock =>
    exact Ensures.bind (Ensures.restrict (exchangeBlock_allocated collector) fun _ hm => hm.1)
      fun _ => Ensures.pure fun _ hm => hm
  | collect =>
    exact Ensures.bind (Ensures.restrict (collect_allocated collector) fun _ hm => hm.1)
      fun _ => Ensures.pure fun _ hm => hm

theorem serve_large {m : Mutator R H} (hlarge : m.heap.settings.largeSize ≤ l.size) :
    let counted := { m with
      arena := { m.arena with allocated := m.arena.allocated + l.size } }
    serve collector (.allocate l) m = .error .additionOverflow m ∨
      serve collector (.allocate l) m = .error (.largeObjectNotMapped l.size) counted ∨
      serve collector (.allocate l) m =
        .ok (some m.heap.nextMapping) { counted with heap := m.heap.withLarge l.size } := by
  have hallocate := allocate_eq_of_large collector hlarge
  by_cases hlt : m.arena.allocated + l.size < 1 <<< 64
  · rw [if_pos hlt, onHeap_allocateLarge] at hallocate
    by_cases hfits : Mapping.FitsAt m.heap.nextMapping (alignUp pageSize l.size)
    · rw [if_pos hfits] at hallocate
      exact Or.inr (Or.inr (bind_of_ok hallocate))
    · rw [if_neg hfits] at hallocate
      exact Or.inr (Or.inl (bind_of_error hallocate))
  · rw [if_neg hlt] at hallocate
    exact Or.inl (bind_of_error hallocate)

variable {collector} {m m' : Mutator R H} {op : ArenaOp}

theorem receipt_of_ok {address : Option Nat} (h : serve collector op m = .ok address m') :
    receipt collector op m = ⟨op, op.isLarge m.heap.settings, .ok address⟩ := by
  rw [receipt, h]

theorem receipt_of_error {f : Fault} (h : serve collector op m = .error f m') :
    receipt collector op m = ⟨op, op.isLarge m.heap.settings, .error f⟩ := by
  rw [receipt, h]

variable (collector)

theorem serve_allocated (op : ArenaOp) (m : Mutator R H) :
    (serve collector op m).state.arena.allocated = m.arena.allocated +
      (receipt collector op m).returned + (receipt collector op m).refused := by
  cases hlarge : op.isLarge m.heap.settings with
  | false =>
    have hspec := serve_ensures collector op m ⟨rfl, hlarge⟩
    cases hserve : serve collector op m with
    | ok address m' =>
      rw [hserve] at hspec
      rw [receipt_of_ok hserve, hlarge]
      cases address <;> exact hspec
    | error f m' =>
      rw [hserve] at hspec
      rw [receipt_of_error hserve, hlarge]
      exact hspec
  | true =>
    cases op with
    | allocate l =>
      rcases serve_large collector (of_decide_eq_true hlarge) with hserve | hserve | hserve
      · rw [receipt_of_error hserve, hlarge, hserve]
        rfl
      · rw [receipt_of_error hserve, hlarge, hserve]
        exact congrArg (· + l.size) (Nat.add_zero _).symm
      · rw [receipt_of_ok hserve, hlarge, hserve]
        rfl
    | allocateOnBlock _ => cases hlarge
    | exchangeBlock => cases hlarge
    | collect => cases hlarge

theorem serveAll_allocated (turns : List (Turn R H)) (m : Mutator R H) :
    (serveAll collector m turns).2.arena.allocated = m.arena.allocated +
      ((serveAll collector m turns).1.map Receipt.returned).sum +
      ((serveAll collector m turns).1.map Receipt.refused).sum := by
  induction turns generalizing m with
  | nil => rfl
  | cons t turns ih =>
    have hstep := serve_allocated collector t.op (m.awaited t)
    have hrest := ih (serve collector t.op (m.awaited t)).state
    have hawaited : (m.awaited t).arena = m.arena := rfl
    rw [hawaited] at hstep
    simp only [serveAll, List.map_cons, List.sum_cons]
    omega

/-- After any turns the count is the sum over the memory that was returned and over the large
objects that got no mapping. It counts these although nothing was handed out for them. -/
theorem allocated_eq_returned_add_refused (heap : Heap) (roots : R) (host : H)
    (turns : List (Turn R H)) :
    let (receipts, m) := serveAll collector ⟨heap, .new, roots, host⟩ turns
    m.arena.allocated = (receipts.map Receipt.returned).sum + (receipts.map Receipt.refused).sum ∧
      (m.arena.allocated = (receipts.map Receipt.returned).sum ↔
        ∀ r ∈ receipts, r.refused = 0) := by
  have hcount := serveAll_allocated collector turns ⟨heap, .new, roots, host⟩
  have hnew : Arena.new.allocated = 0 := rfl
  simp only [hnew, Nat.zero_add] at hcount
  refine ⟨hcount, ?_⟩
  rw [hcount, Nat.add_eq_left, List.sum_eq_zero_iff]
  exact List.forall_mem_map

theorem refused_mapping_counted : ∃ h, Heap.create ⟨16384, 4096, 2048⟩ = .ok h ∧
    let (receipts, m) := serveAll (R := List Value) Collector.none ⟨h, .new, [], ()⟩
      [⟨id, [], .allocate ⟨2 ^ 47, 8⟩⟩]
    m.arena.allocated = 2 ^ 47 ∧ (receipts.map Receipt.returned).sum = 0 :=
  ⟨_, rfl, rfl, rfl⟩

end Mutator

end VmSupport
