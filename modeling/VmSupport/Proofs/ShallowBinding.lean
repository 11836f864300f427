import VmSupport.Proofs.FluidCode
import VmSupport.Proofs.FluidSlots

namespace VmSupport

open EStateM

/-- From the innermost entry outwards: an entry owns what its fluid reads in the environment `env`,
and with the saved value put back the environment fits the entries below. -/
inductive Saves (base : FluidId → Option Value) :
    (FluidId → Option Value) → List Winder → List DeepEntry → Prop
  | nil : Saves base base [] []
  | fluid {env ws es} (fluid : FluidId) (previous bound v : Value) (hv : env fluid = some v)
      (h : Saves base (Function.update env fluid (some previous)) ws es) :
      Saves base env (.fluid fluid previous bound :: ws) (.fluid fluid v :: es)
  | wind {env ws es} (entry exit : Value) (h : Saves base env ws es) :
      Saves base env (.wind entry exit :: ws) (.wind entry exit :: es)

namespace Saves

variable {base env : FluidId → Option Value} {ws : List Winder} {es : List DeepEntry}

theorem length_eq (h : Saves base env ws es) : ws.length = es.length := by
  induction h with
  | nil => rfl
  | fluid _ _ _ _ _ _ ih => simp [ih]
  | wind _ _ _ ih => simp [ih]

theorem eq_find (h : Saves base env ws es) (fluid : FluidId) :
    env fluid = (DeepEntry.find? fluid es).or (base fluid) := by
  induction h with
  | nil => rfl
  | fluid g previous bound v hv _ ih =>
    by_cases hg : g = fluid
    · subst hg
      simp [DeepEntry.find?, hv]
    · rw [Function.update_of_ne (Ne.symm hg)] at ih
      simpa [DeepEntry.find?, hg] using ih
  | wind _ _ _ ih => simpa [DeepEntry.find?] using ih

theorem assign (h : Saves base env ws es) (fluid : FluidId) (v : Value) :
    match DeepEntry.assign? fluid v es with
    | some es' => Saves base (Function.update env fluid (some v)) ws es'
    | none =>
      Saves (Function.update base fluid (some v)) (Function.update env fluid (some v)) ws es := by
  induction h with
  | nil => exact Saves.nil
  | @fluid env ws es g previous bound w hw h ih =>
    by_cases hg : g = fluid
    · subst hg
      simp only [DeepEntry.assign?, ↓reduceIte]
      refine Saves.fluid g previous bound v (Function.update_self ..) ?_
      rwa [Function.update_idem]
    · have hkeep : Function.update env fluid (some v) g = some w := by
        rw [Function.update_of_ne hg, hw]
      rw [Function.update_comm hg] at ih
      simp only [DeepEntry.assign?, hg, ↓reduceIte]
      cases ha : DeepEntry.assign? fluid v es with
      | none =>
        simp only [ha] at ih
        exact Saves.fluid g previous bound w hkeep ih
      | some es' =>
        simp only [ha] at ih
        exact Saves.fluid g previous bound w hkeep ih
  | @wind env ws es entry exit h ih =>
    simp only [DeepEntry.assign?]
    cases ha : DeepEntry.assign? fluid v es with
    | none =>
      simp only [ha] at ih
      exact Saves.wind entry exit ih
    | some es' =>
      simp only [ha] at ih
      exact Saves.wind entry exit ih

theorem make (h : Saves base env ws es) {fluid : FluidId} (hnew : env fluid = none)
    (default : Value) :
    Saves (Function.update base fluid (some default)) (Function.update env fluid (some default))
      ws es := by
  induction h with
  | nil => exact Saves.nil
  | @fluid env ws es g previous bound v hv h ih =>
    have hg : g ≠ fluid := by
      rintro rfl
      simp [hv] at hnew
    refine Saves.fluid g previous bound v (by rw [Function.update_of_ne hg, hv]) ?_
    rw [Function.update_comm hg.symm]
    exact ih (by rw [Function.update_of_ne hg.symm, hnew])
  | wind entry exit _ ih => exact Saves.wind entry exit (ih hnew)

end Saves

theorem defaults_make (r : FluidRegistry) (default : Value) (fluid : FluidId) :
    (r.make default).2.defaults[fluid.index]? =
      Function.update (fun g : FluidId => r.defaults[g.index]?) ⟨r.size⟩ (some default) fluid := by
  change (r.defaults.push default)[fluid.index]? = _
  by_cases hf : fluid = ⟨r.size⟩
  · subst hf
    rw [Function.update_self]
    exact Array.getElem?_push_size
  · have hne : fluid.index ≠ r.defaults.size := by
      rintro h
      exact hf (by cases fluid; exact congrArg FluidId.mk h)
    rw [Function.update_of_ne hf, Array.getElem?_push, if_neg hne]

section Effects

variable {H : Type}

theorem DeepMachine.fluidRef_apply (fluid : FluidId) (d : DeepMachine H) :
    DeepMachine.fluidRef fluid d = match d.stack.read? fluid with
      | some v => .ok v d
      | none => .error (.fault (.unknownFluid fluid.index)) d := by
  simp only [DeepMachine.fluidRef, bind, EStateM.bind, get, getThe, MonadStateOf.get, EStateM.get]
  cases d.stack.read? fluid <;> rfl

theorem DeepMachine.fluidSet_apply (fluid : FluidId) (v : Value) (d : DeepMachine H) :
    DeepMachine.fluidSet fluid v d =
      if fluid.index < d.stack.fluids.size then .ok () { d with stack := d.stack.assign fluid v }
      else .error (.fault (.unknownFluid fluid.index)) d := by
  simp only [DeepMachine.fluidSet, bind, EStateM.bind, get, getThe, MonadStateOf.get, EStateM.get]
  split <;> rfl

theorem DeepMachine.pushFluid_apply (fluid : FluidId) (v : Value) (d : DeepMachine H) :
    DeepMachine.pushFluid fluid v d =
      if fluid.index < d.stack.fluids.size then
        .ok () { d with stack := { d.stack with entries := .fluid fluid v :: d.stack.entries } }
      else .error (.fault (.unknownFluid fluid.index)) d := by
  simp only [DeepMachine.pushFluid, bind, EStateM.bind, get, getThe, MonadStateOf.get, EStateM.get]
  split <;> rfl

end Effects

def DeepStack.base (d : DeepStack) (fluid : FluidId) : Option Value :=
  (d.top fluid).or d.fluids.defaults[fluid.index]?

structure Simulates {H : Type} (m : Machine (H × Moments)) (d : DeepMachine Moments) : Prop where
  fluids : m.vm.fluids = d.stack.fluids
  moments : m.host.2 = d.host
  slots_le : m.context.slots.size ≤ m.vm.fluids.size
  saves : Saves d.stack.base (readSlot m.vm.fluids m.context.slots)
    m.context.winders.toList.reverse d.stack.entries

namespace Simulates

variable {H : Type} {m : Machine (H × Moments)} {d : DeepMachine Moments}

theorem read (h : Simulates m d) (fluid : FluidId) :
    readSlot m.vm.fluids m.context.slots fluid = d.stack.read? fluid := by
  rw [h.saves.eq_find, DeepStack.base, DeepStack.read?, Option.or_assoc]

theorem depth_eq (h : Simulates m d) : m.context.depth = d.stack.entries.length := by
  simpa [Context.depth] using h.saves.length_eq

theorem registered_iff (h : Simulates m d) (fluid : FluidId) :
    fluid.index < d.stack.fluids.size ↔
      (readSlot m.vm.fluids m.context.slots fluid).isSome := by
  rw [readSlot_eq, ← h.fluids]
  constructor
  · intro hlt
    simp [FluidRegistry.size] at hlt
    simp [hlt]
  · intro hsome
    by_contra hge
    have hsize := h.slots_le
    simp only [FluidRegistry.size] at hge hsize
    rw [Array.getElem?_eq_none (by omega), Array.getElem?_eq_none (by omega)] at hsome
    simp at hsome

theorem setSlot (h : Simulates m d) {fluid : FluidId} (hreg : fluid.index < m.vm.fluids.size)
    (v : Value) :
    Simulates { m with context := m.context.setSlot fluid.index v }
      { d with stack := d.stack.assign fluid v } := by
  have hsize := size_slots_setSlot_le m.context v h.slots_le hreg
  have hassign := h.saves.assign fluid v
  unfold DeepStack.assign
  cases ha : DeepEntry.assign? fluid v d.stack.entries with
  | some es =>
    simp only [ha] at hassign
    refine ⟨h.fluids, h.moments, hsize, ?_⟩
    simp only [readSlot_setSlot, winders_setSlot]
    exact hassign
  | none =>
    simp only [ha] at hassign
    refine ⟨h.fluids, h.moments, hsize, ?_⟩
    have hbase : DeepStack.base
        { d.stack with top := fun g => if g = fluid then some v else d.stack.top g } =
        Function.update d.stack.base fluid (some v) := by
      funext g
      by_cases hg : g = fluid
      · subst hg
        simp [DeepStack.base]
      · simp [DeepStack.base, hg]
    simpa only [readSlot_setSlot, winders_setSlot, hbase] using hassign

theorem fluidRef (fluid : FluidId) :
    Agree (Simulates (H := H)) (Machine.fluidRef fluid) (DeepMachine.fluidRef fluid) := by
  intro m d h
  simp only [Machine.fluidRef_apply, DeepMachine.fluidRef_apply, h.read fluid]
  cases d.stack.read? fluid <;> exact ⟨rfl, h⟩

theorem fluidSet (fluid : FluidId) (v : Value) :
    Agree (Simulates (H := H)) (Machine.fluidSet fluid v) (DeepMachine.fluidSet fluid v) := by
  intro m d h
  have hsize := h.slots_le
  have hcond : (fluid.index < m.context.slots.size ∨ fluid.index < m.vm.fluids.size) ↔
      fluid.index < d.stack.fluids.size := by
    rw [← h.fluids]
    omega
  simp only [Machine.fluidSet_apply, DeepMachine.fluidSet_apply, hcond]
  by_cases hreg : fluid.index < d.stack.fluids.size
  · simp only [hreg, ↓reduceIte]
    exact ⟨rfl, h.setSlot (by rwa [h.fluids]) v⟩
  · simp only [hreg, ↓reduceIte]
    exact ⟨rfl, h⟩

theorem pushFluid (fluid : FluidId) (v : Value) :
    Agree (Simulates (H := H)) (Machine.pushFluid fluid v) (DeepMachine.pushFluid fluid v) := by
  intro m d h
  have hiff := h.registered_iff fluid
  simp only [Machine.pushFluid_apply, DeepMachine.pushFluid_apply]
  cases hr : readSlot m.vm.fluids m.context.slots fluid with
  | none =>
    simp only [hr, Option.isSome_none, Bool.false_eq_true, iff_false] at hiff
    simp only [hiff, ↓reduceIte]
    exact ⟨rfl, h⟩
  | some previous =>
    simp only [hr, Option.isSome_some, iff_true] at hiff
    have hreg : fluid.index < m.vm.fluids.size := by rwa [h.fluids]
    simp only [Machine.fluidSet_apply, hreg, or_true, ↓reduceIte, hiff]
    refine ⟨rfl, h.fluids, h.moments, size_slots_setSlot_le _ v h.slots_le hreg, ?_⟩
    simp only [readSlot_setSlot, winders_setSlot, Array.toList_push, List.reverse_append,
      List.reverse_cons, List.reverse_nil, List.nil_append, List.singleton_append]
    refine Saves.fluid fluid previous v v (Function.update_self ..) ?_
    rw [Function.update_idem, ← hr, Function.update_eq_self]
    exact h.saves

theorem unread_size (h : Simulates m d) :
    readSlot m.vm.fluids m.context.slots ⟨m.vm.fluids.size⟩ = none := by
  rw [readSlot_eq, Array.getElem?_eq_none h.slots_le]
  exact Array.getElem?_eq_none (Nat.le_refl _)

theorem top_size (h : Simulates m d) : d.stack.top ⟨m.vm.fluids.size⟩ = none := by
  have hfind := h.saves.eq_find ⟨m.vm.fluids.size⟩
  rw [h.unread_size] at hfind
  exact (Option.or_eq_none_iff.mp (Option.or_eq_none_iff.mp hfind.symm).2).1

theorem readSlot_make (h : Simulates m d) (default : Value) :
    readSlot (m.vm.fluids.make default).2 m.context.slots =
      Function.update (readSlot m.vm.fluids m.context.slots) ⟨m.vm.fluids.size⟩ (some default) := by
  funext g
  rw [readSlot_eq, defaults_make]
  by_cases hg : g = ⟨m.vm.fluids.size⟩
  · rw [hg, Function.update_self, Function.update_self, Array.getElem?_eq_none h.slots_le]
    rfl
  · rw [Function.update_of_ne hg, Function.update_of_ne hg, readSlot_eq]

theorem base_make (h : Simulates m d) (default : Value) :
    DeepStack.base { d.stack with fluids := (d.stack.fluids.make default).2 } =
      Function.update d.stack.base ⟨m.vm.fluids.size⟩ (some default) := by
  have htop := h.top_size
  rw [h.fluids] at htop ⊢
  funext g
  simp only [DeepStack.base, defaults_make]
  by_cases hg : g = ⟨d.stack.fluids.size⟩
  · rw [hg, Function.update_self, Function.update_self, htop]
    rfl
  · rw [Function.update_of_ne hg, Function.update_of_ne hg, DeepStack.base]

theorem makeFluid (default : Value) :
    Agree (Simulates (H := H)) (Machine.makeFluid default) (DeepMachine.makeFluid default) := by
  intro m d h
  have hid : (⟨m.vm.fluids.size⟩ : FluidId) = ⟨d.stack.fluids.size⟩ := by rw [h.fluids]
  refine ⟨hid, by rw [h.fluids], h.moments, ?_, ?_⟩
  · change m.context.slots.size ≤ (m.vm.fluids.defaults.push default).size
    rw [Array.size_push]
    exact Nat.le_succ_of_le h.slots_le
  · have hmake := h.saves.make h.unread_size default
    rw [← h.readSlot_make default, ← h.base_make default] at hmake
    exact hmake

end Simulates

end VmSupport
