import VmSupport.Heap.BlockCollector
import VmSupport.Machine.Allocation
import VmSupport.Proofs.Outcome

namespace VmSupport

open EStateM

class LawfulRootSet (R : Type) [RootSet R] : Prop where
  refill_toList : ∀ r : R, RootSet.refill r (RootSet.toList r) = r

theorem refillList_self (vs : List Value) : (refillList vs vs).1 = vs := by
  simpa using congrArg Prod.fst (refillList_append vs vs [] rfl)

instance : LawfulRootSet (List Value) where
  refill_toList := refillList_self

namespace Winder

def map (f : Value → Value) : Winder → Winder
  | fluid id previous value => fluid id (f previous) (f value)
  | wind entry exit => wind (f entry) (f exit)

@[simp] theorem map_id : Winder.map id = id := by
  funext w
  cases w <;> rfl

@[simp] theorem length_values (w : Winder) : w.values.length = 2 := by cases w <;> rfl

end Winder

theorem refillSlots_map (f : Value → Value) (slots : List (Option Value)) (rest : List Value) :
    refillSlots slots ((slots.filterMap id).map f ++ rest) = (slots.map (Option.map f), rest) := by
  induction slots with
  | nil => rfl
  | cons slot slots ih =>
    cases slot with
    | none =>
      change refillSlots (none :: slots) ((slots.filterMap id).map f ++ rest) = _
      rw [refillSlots, ih]
      rfl
    | some v =>
      change refillSlots (some v :: slots) (f v :: ((slots.filterMap id).map f ++ rest)) = _
      rw [refillSlots, ih]
      rfl

theorem refillWinders_map (f : Value → Value) (winders : List Winder) (rest : List Value) :
    refillWinders winders ((winders.flatMap Winder.values).map f ++ rest) =
      (winders.map (Winder.map f), rest) := by
  induction winders with
  | nil => simp [refillWinders]
  | cons w winders ih => cases w <;> simp [refillWinders, Winder.values, Winder.map, ih]

namespace ContextRoots

def map (f : Value → Value) (r : ContextRoots) : ContextRoots :=
  ⟨r.pending.map f, r.stack.map f, r.slots.map (Option.map f), r.winders.map (Winder.map f),
    r.defaults.map f⟩

theorem refill_map (f : Value → Value) (r : ContextRoots) :
    RootSet.refill r ((RootSet.toList r).map f) = r.map f := by
  obtain ⟨pending, stack, slots, winders, defaults⟩ := r
  have hdefaults : refillList defaults.toList (defaults.toList.map f) =
      (defaults.toList.map f, []) := by
    simpa using refillList_append defaults.toList (defaults.toList.map f) [] (by simp)
  simp only [RootSet.toList, RootSet.refill, List.map_append, List.append_assoc]
  rw [refillList_append _ (pending.map f) _ (by simp)]
  simp only
  rw [refillList_append _ (stack.toList.map f) _ (by simp)]
  simp only
  rw [refillSlots_map]
  simp only
  rw [refillWinders_map]
  simp only [hdefaults, map, ← List.map_toArray, Array.toArray_toList]

end ContextRoots

instance : LawfulRootSet ContextRoots where
  refill_toList r := by simpa [ContextRoots.map] using r.refill_map id

def Collector.KeepsRoots {H : Type} (collector : Collector H) : Prop :=
  ∀ c, (collector c).state.roots = c.roots

theorem Collector.none_keepsRoots {H : Type} : (Collector.none : Collector H).KeepsRoots :=
  fun _ => rfl

namespace Collection

variable {H α : Type}

theorem keeps_releaseDead {P : Collection H → Prop}
    (h : ∀ b, Keeps P (onHeap (Heap.releaseBlock b))) (isLive : Nat → Bool) (bs : List Nat) :
    Keeps P (releaseDead isLive bs) := by
  induction bs with
  | nil => exact Keeps.pure 0
  | cons b bs ih =>
    unfold releaseDead
    split
    · exact ih
    · exact (h b).bind fun _ => ih.bind fun n => Keeps.pure (n + 1)

theorem keeps_reclaimUnlessShared {P : Collection H → Prop}
    (hmemory : ∀ {α : Type} (op : EStateM Fault Memory α), Keeps P (onHeap (Heap.onMemory op)))
    (hrelease : ∀ b, Keeps P (onHeap (Heap.releaseBlock b)))
    (hsweep : ∀ isLive, Keeps P (onHeap (Heap.sweepLarge isLive)))
    (hnote : ∀ r, Keeps P (note r)) : Keeps P (reclaimUnlessShared : Action H Unit) := by
  refine Keeps.get.bind fun c => ?_
  simp only
  split
  · exact hnote _
  refine Keeps.bind (Keeps.get.bind fun _ => hmemory _) fun traced => ?_
  refine Keeps.bind (hmemory _) fun _ => Keeps.get.bind fun c => ?_
  refine (keeps_releaseDead hrelease _ _).bind fun released => ?_
  exact (hsweep _).bind fun unmapped => hnote _

def LeavesRoots (op : Action H α) : Prop := ∀ roots, Keeps (·.roots = roots) op

theorem LeavesRoots.onHeap (op : Heap.Action α) : LeavesRoots (onHeap op : Action H α) := by
  intro roots c hc
  obtain ⟨heap, roots', host⟩ := c
  simp only [Collection.onHeap]
  cases op heap <;> exact hc

theorem LeavesRoots.note (r : LogRecord) : LeavesRoots (note r : Action H Unit) := fun _ _ hc => hc

end Collection

theorem Collector.blocks_keepsRoots {H : Type} : (Collector.blocks : Collector H).KeepsRoots := by
  intro c
  have h : Collection.LeavesRoots (Collector.blocks : Collector H) := by
    intro roots
    apply Collection.keeps_reclaimUnlessShared
    · exact fun op => Collection.LeavesRoots.onHeap _ roots
    · exact fun b => Collection.LeavesRoots.onHeap _ roots
    · exact fun isLive => Collection.LeavesRoots.onHeap _ roots
    · exact fun r => Collection.LeavesRoots.note r roots
  exact (h c.roots).state rfl

namespace Heap

def SameSite (h h' : Heap) : Prop := h'.start = h.start ∧ h'.memory = h.memory

theorem sameSite_retireBlock (b : Nat) (h : Heap) : h.SameSite (retireBlock b h).state := by
  simp only [retireBlock, bind, EStateM.bind, get, getThe, MonadStateOf.get, EStateM.get]
  split <;> exact ⟨rfl, rfl⟩

theorem sameSite_requestBlock (h : Heap) : h.SameSite (requestBlock h).state := by
  simp only [requestBlock, bind, EStateM.bind, get, getThe, MonadStateOf.get, EStateM.get]
  cases h.free <;> exact ⟨rfl, rfl⟩

theorem sameSite_blockBounds (b : Nat) (h : Heap) : h.SameSite (blockBounds b h).state := by
  simp only [blockBounds, bind, EStateM.bind, get, getThe, MonadStateOf.get, EStateM.get]
  split <;> exact ⟨rfl, rfl⟩

theorem sameSite_allocateLarge (size : Nat) (h : Heap) :
    h.SameSite (allocateLarge size h).state := by
  simp only [allocateLarge, bind, EStateM.bind, get, getThe, MonadStateOf.get, EStateM.get]
  split <;> exact ⟨rfl, rfl⟩

end Heap

namespace Mutator

variable {R H α : Type}

def Carries (Q : Nat → Memory → R → H → Prop) (fail : Mutator R H → Prop) (op : Action R H α) :
    Prop :=
  Ensures op (fun m => Q m.heap.start m.heap.memory m.roots m.host)
    (fun _ m => Q m.heap.start m.heap.memory m.roots m.host) fail

namespace Carries

variable {Q : Nat → Memory → R → H → Prop} {fail : Mutator R H → Prop}
  (hfail : ∀ m, Q m.heap.start m.heap.memory m.roots m.host → fail m)

theorem bind {β : Type} {op : Action R H α} {f : α → Action R H β} (h : Carries Q fail op)
    (hf : ∀ a, Carries Q fail (f a)) : Carries Q fail (op >>= f) := Ensures.bind h hf

theorem pure (a : α) : Carries Q fail (pure a : Action R H α) := fun _ hm => hm

theorem get : Carries Q fail (get : Action R H (Mutator R H)) := fun _ hm => hm

include hfail

theorem throw (f : Fault) : Carries Q fail (throw f : Action R H α) := hfail

theorem onHeap {op : Heap.Action α} (hop : ∀ heap : Heap, heap.SameSite (op heap).state) :
    Carries Q fail (onHeap op : Action R H α) := by
  rintro ⟨heap, arena, roots, host⟩ hm
  have hsite := hop heap
  simp only [Mutator.onHeap]
  cases hresult : op heap with
  | ok a heap' =>
    rw [hresult, Result.state_ok] at hsite
    change Q heap'.start heap'.memory roots host
    rw [hsite.1, hsite.2]
    exact hm
  | error f heap' =>
    rw [hresult, Result.state_error] at hsite
    apply hfail
    change Q heap'.start heap'.memory roots host
    rw [hsite.1, hsite.2]
    exact hm

theorem countBytes (size : Nat) : Carries Q fail (countBytes size : Action R H Unit) := by
  refine get.bind fun m => ?_
  simp only
  split
  · exact fun _ hm => hm
  · exact throw hfail _

theorem allocateOnBlock (l : Layout) :
    Carries Q fail (allocateOnBlock l : Action R H (Option Nat)) := by
  refine get.bind fun m => ?_
  split
  · exact pure none
  · refine Carries.bind (fun _ hm => hm) fun _ => ?_
    exact (countBytes hfail _).bind fun _ => pure _

theorem retire : Carries Q fail (retire : Action R H Unit) := by
  refine get.bind fun m => ?_
  split
  · exact pure ()
  · exact (onHeap hfail (Heap.sameSite_retireBlock _)).bind fun _ _ hm => hm

variable [RootSet R] {collector : Collector H}

theorem requestBlock (h : Carries Q fail (collect (R := R) collector)) :
    Carries Q fail (requestBlock (R := R) collector) := by
  refine (onHeap hfail Heap.sameSite_requestBlock).bind fun b => ?_
  cases b with
  | some b => exact pure b
  | none =>
    refine h.bind fun _ => (onHeap hfail Heap.sameSite_requestBlock).bind fun b => ?_
    cases b with
    | some b => exact pure b
    | none => exact throw hfail _

theorem exchangeBlock (h : Carries Q fail (collect (R := R) collector)) :
    Carries Q fail (exchangeBlock (R := R) collector) := by
  refine (retire hfail).bind fun _ => (requestBlock hfail h).bind fun b => ?_
  exact (onHeap hfail (Heap.sameSite_blockBounds b)).bind fun bounds =>
    Carries.bind (fun _ hm => hm) fun _ _ hm => hm

theorem allocate (h : Carries Q fail (collect (R := R) collector)) (l : Layout) :
    Carries Q fail (allocate (R := R) collector l) := by
  refine get.bind fun m => ?_
  split
  · exact (countBytes hfail _).bind fun _ => onHeap hfail (Heap.sameSite_allocateLarge _)
  · refine (allocateOnBlock hfail l).bind fun a => ?_
    cases a with
    | some a => exact pure a
    | none =>
      refine (exchangeBlock hfail h).bind fun _ => (allocateOnBlock hfail l).bind fun a => ?_
      cases a with
      | some a => exact pure a
      | none => exact throw hfail _

end Carries

def Passes (Q : Memory → R → H → Prop) (fail : Mutator R H → Prop) (op : Action R H α) : Prop :=
  Ensures op (fun m => Q m.heap.memory m.roots m.host)
    (fun _ m => Q m.heap.memory m.roots m.host) fail

theorem Passes.allocate [RootSet R] {Q : Memory → R → H → Prop} {fail : Mutator R H → Prop}
    {collector : Collector H} (hfail : ∀ m, Q m.heap.memory m.roots m.host → fail m)
    (h : Passes Q fail (collect (R := R) collector)) (l : Layout) :
    Passes Q fail (allocate (R := R) collector l) :=
  Carries.allocate (Q := fun _ => Q) hfail h l

def KeepsHeld {α : Type} (Q : R → H → Prop) (op : Action R H α) : Prop :=
  Keeps (fun m => Q m.roots m.host) op

theorem KeepsHeld.allocate [RootSet R] {Q : R → H → Prop} {collector : Collector H}
    (h : KeepsHeld Q (collect (R := R) collector)) (l : Layout) :
    KeepsHeld Q (allocate (R := R) collector l) :=
  Passes.allocate (Q := fun _ => Q) (fun _ hm => hm) h l

end Mutator

end VmSupport
