import VmSupport.Proofs.FluidSlots
import VmSupport.Proofs.RootSlots

namespace VmSupport

variable {H J : Type}

def Collector.noting (note : Collection H → J → J) (collector : Collector H) : Collector (H × J) :=
  fun ⟨heap, roots, host, record⟩ =>
    let record := note ⟨heap, roots, host⟩ record
    match collector ⟨heap, roots, host⟩ with
    | .ok a ⟨heap, roots, host⟩ => .ok a ⟨heap, roots, host, record⟩
    | .error f ⟨heap, roots, host⟩ => .error f ⟨heap, roots, host, record⟩

def Collector.beside (collector : Collector H) : Collector (H × J) :=
  collector.noting fun _ record => record

def Machine.beside {α : Type} (op : Machine.Action H α) : Machine.Action (H × J) α :=
  fun ⟨vm, context, host, record⟩ =>
    match op ⟨vm, context, host⟩ with
    | .ok a ⟨vm, context, host⟩ => .ok a ⟨vm, context, host, record⟩
    | .error e ⟨vm, context, host⟩ => .error e ⟨vm, context, host, record⟩

theorem Collector.KeepsRoots.beside {collector : Collector H} (h : collector.KeepsRoots)
    (c : Collection (H × J)) :
    (collector.beside c).state.roots = c.roots ∧ (collector.beside c).state.host.2 = c.host.2 := by
  obtain ⟨heap, roots, host, record⟩ := c
  have hroots := h ⟨heap, roots, host⟩
  simp only [Collector.beside, Collector.noting]
  cases hc : collector ⟨heap, roots, host⟩ <;>
    simpa only [hc, EStateM.Result.state, and_true] using hroots

theorem Mutator.collect_beside_keepsHeld {R : Type} [RootSet R] [LawfulRootSet R]
    {collector : Collector H} (h : collector.KeepsRoots) (roots : R) (record : J) :
    KeepsHeld (fun r (host : H × J) => r = roots ∧ host.2 = record)
      (collect collector.beside) := by
  rintro ⟨heap, arena, roots', host⟩ ⟨rfl, hrecord⟩
  simp only at hrecord
  simp only [collect]
  generalize hs : Collection.mk (Heap.note _ _) (RootSet.toList roots') host = c
  have hc := h.beside c
  cases hr : (collector.beside c) <;>
    · simp only [hr, EStateM.Result.state] at hc
      simp only [← hs] at hc
      simp only [hc.1, LawfulRootSet.refill_toList, hc.2, hrecord, and_self]

namespace Machine

open EStateM

def unrecorded (m : Machine (H × J)) : Machine H := ⟨m.vm, m.context, m.host.1⟩

def Erases {α : Type} (op : Action (H × J) α) (op' : Action H α) : Prop :=
  Agree (fun m m' => m.unrecorded = m') op op'

namespace Erases

variable {α : Type} {env : Embedder (H × J)} {env' : Embedder H}

theorem of_apply {op : Action (H × J) α} {op' : Action H α}
    (h : ∀ m, Result.Agree (fun m m' => m.unrecorded = m') (op m) (op' m.unrecorded)) :
    Erases op op' := by
  rintro m m' rfl
  exact h m

theorem depth : Erases (J := J) (depth : Action (H × J) Nat) depth :=
  of_apply fun _ => ⟨rfl, rfl⟩

theorem note (r : LogRecord) : Erases (note r : Action (H × J) Unit) (note r) :=
  of_apply fun _ => ⟨rfl, rfl⟩

theorem popWinder : Erases (J := J) (popWinder : Action (H × J) Winder) popWinder := by
  apply of_apply
  rintro ⟨vm, context, host⟩
  simp only [Machine.popWinder, unrecorded]
  cases context.winders.back? with
  | none => exact ⟨rfl, rfl⟩
  | some w => exact ⟨rfl, rfl⟩

theorem fluidSet (fluid : FluidId) (v : Value) :
    Erases (J := J) (fluidSet fluid v : Action (H × J) Unit) (fluidSet fluid v) := by
  apply of_apply
  intro m
  rw [fluidSet_apply, fluidSet_apply]
  change Result.Agree _ _
    (if fluid.index < m.context.slots.size ∨ fluid.index < m.vm.fluids.size then _ else _)
  by_cases h : fluid.index < m.context.slots.size ∨ fluid.index < m.vm.fluids.size
  · rw [if_pos h, if_pos h]
    exact ⟨rfl, rfl⟩
  · rw [if_neg h, if_neg h]
    exact ⟨rfl, rfl⟩

theorem pop (hinvoke : ∀ v, Erases (env.invoke v) (env'.invoke v)) :
    Erases (Machine.pop env) (Machine.pop env') := by
  refine Agree.bind popWinder fun w => ?_
  cases w with
  | fluid fluid previous v => exact fluidSet fluid previous
  | wind entry exit => exact hinvoke exit

theorem popTo (hinvoke : ∀ v, Erases (env.invoke v) (env'.invoke v)) (target n : Nat) :
    Erases (Machine.popTo env target n) (Machine.popTo env' target n) := by
  induction n with
  | zero =>
    refine Agree.bind depth fun current => ?_
    split
    · exact Agree.throw _
    · exact Agree.pure ()
  | succ n ih =>
    refine Agree.bind depth fun current => ?_
    split
    · exact Agree.bind (pop hinvoke) fun _ => ih
    · exact Agree.pure ()

theorem unwindTo (hinvoke : ∀ v, Erases (env.invoke v) (env'.invoke v))
    (hallowance : env.allowance = env'.allowance) (target : Nat) :
    Erases (Machine.unwindTo env target) (Machine.unwindTo env' target) := by
  refine Agree.bind depth fun current => ?_
  rw [hallowance]
  split
  · exact Agree.bind (note _) fun _ => popTo hinvoke target _
  · exact Agree.throw _

end Erases

end Machine

end VmSupport
