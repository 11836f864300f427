import Mathlib.Data.List.Nodup
import VmSupport.Proofs.RootSlots

namespace VmSupport

inductive RootSlot
  | pending (i : Nat)
  | stack (i : Nat)
  | fluid (i : Nat)
  | winder (i j : Nat)
  | default (i : Nat)
  deriving DecidableEq

namespace ContextRoots

def get? (r : ContextRoots) : RootSlot → Option Value
  | .pending i => r.pending[i]?
  | .stack i => r.stack[i]?
  | .fluid i => r.slots[i]?.join
  | .winder i j => r.winders[i]?.bind fun w => w.values[j]?
  | .default i => r.defaults[i]?

def visits (r : ContextRoots) : List RootSlot :=
  (List.range r.pending.length).map .pending ++ (List.range r.stack.size).map .stack
    ++ ((List.range r.slots.size).filter fun i => r.slots[i]?.join.isSome).map .fluid
    ++ (List.range r.winders.size).flatMap (fun i => [.winder i 0, .winder i 1])
    ++ (List.range r.defaults.size).map .default

theorem visits_nodup (r : ContextRoots) : r.visits.Nodup := by
  have hrange : ∀ n, (List.range n).Nodup := fun n => List.nodup_range
  have hwinders : ((List.range r.winders.size).flatMap fun i =>
      [RootSlot.winder i 0, .winder i 1]).Nodup := by
    rw [List.nodup_flatMap]
    refine ⟨fun i _ => by simp, (hrange _).imp fun {i j} hne => ?_⟩
    simp [Function.onFun, Ne.symm hne]
  simp only [visits, List.append_assoc]
  refine List.Nodup.append ?pending (List.Nodup.append ?stack (List.Nodup.append ?fluids
    (List.Nodup.append hwinders ?defaults ?_) ?_) ?_) ?_
  case pending => exact (hrange _).map fun _ _ => RootSlot.pending.inj
  case stack => exact (hrange _).map fun _ _ => RootSlot.stack.inj
  case fluids => exact ((hrange _).filter _).map fun _ _ => RootSlot.fluid.inj
  case defaults => exact (hrange _).map fun _ _ => RootSlot.default.inj
  -- slots of two kinds are never the same
  all_goals
    simp only [List.disjoint_left, List.mem_append, List.mem_map, List.mem_flatMap]
    grind

theorem mem_visits (r : ContextRoots) (slot : RootSlot) :
    slot ∈ r.visits ↔ (r.get? slot).isSome := by
  cases slot with
  | pending i => simp [visits, get?]
  | stack i => simp [visits, get?]
  | fluid i =>
    have hlt : r.slots[i]?.join.isSome → i < r.slots.size := by
      intro h
      by_contra hi
      simp [Array.getElem?_eq_none (Nat.le_of_not_lt hi)] at h
    simpa [visits, get?] using hlt
  | winder i j =>
    have hmem : .winder i j ∈ r.visits ↔ i < r.winders.size ∧ j < 2 := by
      simp only [visits, List.mem_append, List.mem_map, List.mem_flatMap, List.mem_range]
      grind
    rw [hmem]
    by_cases hi : i < r.winders.size <;> simp [get?, hi]
  | default i => simp [visits, get?]

theorem map_getElem?_range {α : Type} (l : List α) :
    (List.range l.length).map (l[·]?) = l.map some := by
  apply List.ext_getElem (by simp)
  intro i hi _
  simp only [List.length_map, List.length_range] at hi
  simp [hi]

theorem map_join_filter_range {α : Type} (l : List (Option α)) :
    ((List.range l.length).filter fun i => l[i]?.join.isSome).map (fun i => l[i]?.join) =
      (l.filterMap id).map some := by
  induction l with
  | nil => rfl
  | cons a l ih =>
    rw [List.length_cons, List.range_succ_eq_map, List.filter_cons]
    cases a <;> simpa [List.filter_map, List.map_map, Function.comp_def] using ih

theorem map_visits (r : ContextRoots) : r.visits.map r.get? = (RootSet.toList r).map some := by
  have hpending : (List.range r.pending.length).map (r.get? ∘ .pending) = r.pending.map some :=
    map_getElem?_range r.pending
  have hstack : (List.range r.stack.size).map (r.get? ∘ .stack) = r.stack.toList.map some := by
    simpa [Function.comp_def, get?] using map_getElem?_range r.stack.toList
  have hslots : ((List.range r.slots.size).filter fun i => r.slots[i]?.join.isSome).map
      (r.get? ∘ .fluid) = (r.slots.toList.filterMap id).map some := by
    simpa [Function.comp_def, get?] using map_join_filter_range r.slots.toList
  have hwinders : (List.range r.winders.size).flatMap
      (fun i => [r.get? (.winder i 0), r.get? (.winder i 1)]) =
      (r.winders.toList.flatMap Winder.values).map some := by
    have hvalues : ∀ w : Winder, [w.values[0]?, w.values[1]?] = w.values.map some := by
      intro w
      cases w <;> rfl
    have hrange := congrArg (List.flatMap fun w => [w.bind fun w => w.values[0]?,
      w.bind fun w => w.values[1]?]) (map_getElem?_range r.winders.toList)
    simp only [List.flatMap_map, Option.bind_some, hvalues] at hrange
    simpa only [List.map_flatMap, get?, Array.getElem?_toList, Array.length_toList] using hrange
  have hdefaults : (List.range r.defaults.size).map (r.get? ∘ .default) =
      r.defaults.toList.map some := by
    simpa [Function.comp_def, get?] using map_getElem?_range r.defaults.toList
  simp only [visits, RootSet.toList, List.map_append, List.map_map, List.map_flatMap, List.map_cons,
    List.map_nil, hpending, hstack, hslots, hwinders, hdefaults]

end ContextRoots

end VmSupport
