import Mathlib
import VmSupport.Machine.DynamicStack

namespace VmSupport

def readSlot (fluids : FluidRegistry) (slots : Array (Option Value)) (fluid : FluidId) :
    Option Value :=
  match slots[fluid.index]? with
  | some (some v) => some v
  | _ => fluids.defaults[fluid.index]?

theorem slots_setSlot_self (c : Context) (i : Nat) (v : Value) :
    (c.setSlot i v).slots[i]? = some (some v) := by
  unfold Context.setSlot
  by_cases hi : i < c.slots.size
  · simp [hi]
  · have hsize : (c.slots ++ Array.replicate (i - c.slots.size) none).size = i := by simp; omega
    simp only [hi, ↓reduceIte]
    rw [Array.getElem?_push, if_pos hsize.symm]

theorem slots_setSlot_of_ne (c : Context) {i j : Nat} (v : Value) (h : j ≠ i) :
    (c.setSlot i v).slots[j]?.join = c.slots[j]?.join := by
  unfold Context.setSlot
  by_cases hi : i < c.slots.size
  · simp [hi, Array.getElem?_setIfInBounds_ne (Ne.symm h)]
  · have hsize : (c.slots ++ Array.replicate (i - c.slots.size) none).size = i := by simp; omega
    simp only [hi, ↓reduceIte]
    rw [Array.getElem?_push, if_neg (by omega), Array.getElem?_append]
    split
    · rfl
    · rename_i hj
      rw [Array.getElem?_eq_none (by omega : c.slots.size ≤ j), Array.getElem?_replicate]
      split <;> rfl

@[simp] theorem winders_setSlot (c : Context) (i : Nat) (v : Value) :
    (c.setSlot i v).winders = c.winders := by
  unfold Context.setSlot
  split <;> rfl

theorem size_slots_setSlot_le (c : Context) {i n : Nat} (v : Value) (hc : c.slots.size ≤ n)
    (hi : i < n) : (c.setSlot i v).slots.size ≤ n := by
  unfold Context.setSlot
  split
  · simpa using hc
  · simp
    omega

theorem readSlot_eq (fluids : FluidRegistry) (slots : Array (Option Value)) (fluid : FluidId) :
    readSlot fluids slots fluid = slots[fluid.index]?.join.or fluids.defaults[fluid.index]? := by
  unfold readSlot
  split
  · rename_i v hv
    simp [hv]
  · rename_i hne
    cases hs : slots[fluid.index]? with
    | none => simp
    | some slot =>
      cases slot with
      | none => simp
      | some v => exact absurd hs (hne v)

theorem readSlot_of_lt {fluids : FluidRegistry} {fluid : FluidId} (h : fluid.index < fluids.size)
    (slots : Array (Option Value)) : ∃ v, readSlot fluids slots fluid = some v := by
  rw [readSlot_eq, Array.getElem?_eq_getElem h]
  cases slots[fluid.index]?.join with
  | none => exact ⟨_, rfl⟩
  | some v => exact ⟨v, rfl⟩

theorem readSlot_setSlot (fluids : FluidRegistry) (c : Context) (fluid : FluidId) (v : Value) :
    readSlot fluids (c.setSlot fluid.index v).slots =
      Function.update (readSlot fluids c.slots) fluid (some v) := by
  funext g
  by_cases hg : g = fluid
  · subst hg
    rw [Function.update_self, readSlot_eq, slots_setSlot_self]
    rfl
  · have hne : g.index ≠ fluid.index := by
      rintro h
      exact hg (by cases g; cases fluid; simp_all)
    rw [Function.update_of_ne hg, readSlot_eq, readSlot_eq, slots_setSlot_of_ne c v hne]

namespace Machine

variable {H : Type}

theorem fluidRef_apply (fluid : FluidId) (m : Machine H) :
    fluidRef fluid m = match readSlot m.vm.fluids m.context.slots fluid with
      | some v => .ok v m
      | none => .error (.fault (.unknownFluid fluid.index)) m := by
  unfold Machine.fluidRef readSlot
  simp only [bind, EStateM.bind, get, getThe, MonadStateOf.get, EStateM.get]
  cases hs : m.context.slots[fluid.index]? with
  | none =>
    simp only [FluidRegistry.default]
    cases m.vm.fluids.defaults[fluid.index]? <;> rfl
  | some slot =>
    cases slot with
    | some v => rfl
    | none =>
      simp only [FluidRegistry.default]
      cases m.vm.fluids.defaults[fluid.index]? <;> rfl

theorem fluidSet_apply (fluid : FluidId) (v : Value) (m : Machine H) :
    fluidSet fluid v m =
      if fluid.index < m.context.slots.size ∨ fluid.index < m.vm.fluids.size then
        .ok () { m with context := m.context.setSlot fluid.index v }
      else .error (.fault (.unknownFluid fluid.index)) m := by
  simp only [fluidSet, bind, EStateM.bind, get, getThe, MonadStateOf.get, EStateM.get]
  split <;> rfl

theorem pushFluid_apply (fluid : FluidId) (v : Value) (m : Machine H) :
    pushFluid fluid v m = match readSlot m.vm.fluids m.context.slots fluid with
      | some previous => fluidSet fluid v { m with context := { m.context with
          winders := m.context.winders.push (.fluid fluid previous v) } }
      | none => .error (.fault (.unknownFluid fluid.index)) m := by
  simp only [pushFluid, bind, EStateM.bind, fluidRef_apply]
  cases readSlot m.vm.fluids m.context.slots fluid <;> rfl

theorem popWinder_push {m : Machine H} {ws : Array Winder} {w : Winder}
    (h : m.context.winders = ws.push w) :
    popWinder m = .ok w { m with context := { m.context with winders := ws } } := by
  simp only [popWinder, h, Array.back?_push, Array.pop_push]

end Machine

end VmSupport
