import VmSupport.Proofs.ShallowBinding

namespace VmSupport

open EStateM

section Memory

variable {H J : Type}

structure SameFluids (m m' : Machine (H × J)) : Prop where
  fluids : m'.vm.fluids = m.vm.fluids
  slots : m'.context.slots = m.context.slots
  winders : m'.context.winders = m.context.winders
  record : m'.host.2 = m.host.2

namespace SameFluids

theorem onMutator {α : Type} (op : Mutator.Action ContextRoots (H × J) α)
    (h : ∀ roots record,
      Mutator.KeepsHeld (fun r (host : H × J) => r = roots ∧ host.2 = record) op)
    (pending : List Value) (m : Machine (H × J)) :
    SameFluids m (Machine.onMutator pending op m).state := by
  obtain ⟨⟨heap, keywords, ⟨defaults⟩, threads, stackSize⟩,
    ⟨number, arena, stack, slots, winders⟩, host⟩ := m
  have hop := (h ⟨pending, stack, slots, winders, defaults⟩ host.2).state
    (s := ⟨heap, arena, ⟨pending, stack, slots, winders, defaults⟩, host⟩) ⟨rfl, rfl⟩
  simp only [Machine.onMutator]
  cases hr : op ⟨heap, arena, ⟨pending, stack, slots, winders, defaults⟩, host⟩ with
  | ok a m =>
    obtain ⟨heap', arena', roots', host'⟩ := m
    simp only [hr, Result.state_ok] at hop
    obtain ⟨rfl, hrecord⟩ := hop
    exact ⟨rfl, rfl, rfl, hrecord⟩
  | error f m =>
    obtain ⟨heap', arena', roots', host'⟩ := m
    simp only [hr, Result.state_error] at hop
    obtain ⟨rfl, hrecord⟩ := hop
    exact ⟨rfl, rfl, rfl, hrecord⟩

variable {collector : Collector H} {invoke : Value → Machine.Action (H × J) Unit} {allowance : Nat}

theorem allocateObject (hc : collector.KeepsRoots) (size : Nat) (pending : List Value)
    (image : List Value → List UInt64) (m : Machine (H × J)) :
    SameFluids m
      (Machine.allocateObject ⟨collector.beside, invoke, allowance⟩ size pending image
        m).state := by
  have hsame := onMutator (Mutator.allocate collector.beside (.ofWords size))
    (fun roots record => (Mutator.collect_beside_keepsHeld hc roots record).allocate _) pending m
  simp only [Machine.allocateObject, bind, EStateM.bind]
  cases hr : Machine.onMutator pending (Mutator.allocate collector.beside (.ofWords size)) m with
  | ok a m' =>
    rw [hr] at hsame
    exact ⟨hsame.fluids, hsame.slots, hsame.winders, hsame.record⟩
  | error e m' =>
    rw [hr] at hsame
    exact hsame

theorem collect (hc : collector.KeepsRoots) (m : Machine (H × J)) :
    SameFluids m (Machine.collect ⟨collector.beside, invoke, allowance⟩ m).state := by
  have hsame := onMutator (Mutator.collect collector.beside)
    (fun roots record => Mutator.collect_beside_keepsHeld hc roots record) [] m
  simp only [Machine.collect, bind, EStateM.bind]
  cases hr : Machine.onMutator [] (Mutator.collect collector.beside) m <;>
    · rw [hr] at hsame
      exact hsame

theorem memoryStep (hc : collector.KeepsRoots) (s : MemoryStep) (m : Machine (H × J)) :
    ∃ m', Machine.memoryStep ⟨collector.beside, invoke, allowance⟩ s m = .ok () m' ∧
      SameFluids m m' := by
  cases s with
  | cell type car cdr => exact ⟨_, rfl, allocateObject hc _ _ _ m⟩
  | flonum bits => exact ⟨_, rfl, allocateObject hc _ _ _ m⟩
  | words type n => exact ⟨_, rfl, allocateObject hc _ _ _ m⟩
  | string s => exact ⟨_, rfl, allocateObject hc _ _ _ m⟩
  | collect => exact ⟨_, rfl, collect hc m⟩
  | push v => exact ⟨_, rfl, rfl, rfl, rfl, rfl⟩
  | truncate n => exact ⟨_, rfl, rfl, rfl, rfl, rfl⟩

end SameFluids

end Memory

namespace Simulates

variable {H : Type} {m m' : Machine (H × Moments)} {d : DeepMachine Moments}

theorem of_sameFluids (h : Simulates m d) (hs : SameFluids m m') : Simulates m' d := by
  obtain ⟨hfluids, hslots, hwinders, hrecord⟩ := hs
  refine ⟨by rw [hfluids, h.fluids], by rw [hrecord, h.moments], ?_, ?_⟩
  · rw [hslots, hfluids]
    exact h.slots_le
  · rw [hslots, hfluids, hwinders]
    exact h.saves

theorem depth : Agree (Simulates (H := H)) Machine.depth DeepMachine.depth :=
  fun _ _ h => ⟨h.depth_eq, h⟩

theorem note (r : LogRecord) :
    Agree (Simulates (H := H)) (Machine.note r) (pure () : DeepMachine.Action Moments Unit) :=
  fun _ _ h => ⟨rfl, h.fluids, h.moments, h.slots_le, h.saves⟩

theorem pushWind_entry (entry exit : Value) :
    Agree (Simulates (H := H)) (Machine.pushWinder (.wind entry exit))
      (DeepMachine.pushEntry (.wind entry exit)) := by
  intro m d h
  refine ⟨rfl, h.fluids, h.moments, h.slots_le, ?_⟩
  simp only [Array.toList_push, List.reverse_append, List.reverse_cons, List.reverse_nil,
    List.nil_append, List.singleton_append]
  exact Saves.wind entry exit h.saves

theorem popWinder (h : Simulates m d) :
    (Machine.popWinder m = .error (.fault .dynamicStackUnderflow) m ∧
      DeepMachine.popEntry d = .error (.fault .dynamicStackUnderflow) d) ∨
    (∃ entry exit m' d', Machine.popWinder m = .ok (.wind entry exit) m' ∧
      DeepMachine.popEntry d = .ok (.wind entry exit) d' ∧ Simulates m' d') ∨
    ∃ fluid previous bound v m' d' m'', Machine.popWinder m = .ok (.fluid fluid previous bound) m' ∧
      DeepMachine.popEntry d = .ok (.fluid fluid v) d' ∧
      Machine.fluidSet fluid previous m' = .ok () m'' ∧ Simulates m'' d' := by
  have hread := h.registered_iff
  obtain ⟨vm, ⟨number, arena, stack, slots, winders⟩, host⟩ := m
  obtain ⟨⟨entries, top, fluids⟩, record⟩ := d
  obtain ⟨hfluids, hmoments, hsize, hsaves⟩ := h
  simp only at hfluids hmoments hsize hsaves hread
  generalize henv : readSlot vm.fluids slots = env at hsaves hread
  generalize hbase : DeepStack.base _ = base at hsaves
  cases hb : winders.back? with
  | none =>
    obtain rfl := Array.back?_eq_none_iff.mp hb
    cases hsaves
    exact Or.inl ⟨rfl, rfl⟩
  | some w =>
    obtain ⟨ws, rfl⟩ := Array.back?_eq_some_iff.mp hb
    simp only [Array.toList_push, List.reverse_append, List.reverse_cons, List.reverse_nil,
      List.nil_append, List.singleton_append] at hsaves
    have hpop : Machine.popWinder ⟨vm, ⟨number, arena, stack, slots, ws.push w⟩, host⟩ =
        .ok w ⟨vm, ⟨number, arena, stack, slots, ws⟩, host⟩ := by
      simp only [Machine.popWinder, Array.back?_push, Array.pop_push]
    cases hsaves with
    | wind entry exit hsaves =>
      rw [← henv, ← hbase] at hsaves
      exact Or.inr (Or.inl ⟨entry, exit, _, _, hpop, rfl, hfluids, hmoments, hsize, hsaves⟩)
    | fluid fluid previous bound v hv hsaves =>
      have hreg : fluid.index < vm.fluids.size := by
        rw [hfluids, hread fluid, hv]
        rfl
      have hset := Machine.fluidSet_apply fluid previous
        (⟨vm, ⟨number, arena, stack, slots, ws⟩, host⟩ : Machine (H × Moments))
      rw [if_pos (Or.inr hreg)] at hset
      refine Or.inr (Or.inr ⟨fluid, previous, bound, v, _, _, _, hpop, rfl, hset, ?_⟩)
      refine ⟨hfluids, hmoments, size_slots_setSlot_le _ previous hsize hreg, ?_⟩
      simp only [readSlot_setSlot, winders_setSlot, henv]
      rw [← hbase] at hsaves
      exact hsaves

section Invoker

variable {collector : Collector H} {allowance : Nat}
  {invoke : Value → Machine.Action (H × Moments) Unit}
  {invoke' : Value → DeepMachine.Action Moments Unit}

theorem pushWind (hinvoke : ∀ v, Agree Simulates (invoke v) (invoke' v)) (entry exit : Value) :
    Agree (Simulates (H := H))
      (Machine.pushWind (shallowEmbedder collector allowance invoke) entry exit)
      (DeepMachine.pushWind invoke' entry exit) :=
  (hinvoke entry).bind fun _ => pushWind_entry entry exit

theorem pop (hinvoke : ∀ v, Agree Simulates (invoke v) (invoke' v)) :
    Agree (Simulates (H := H)) (Machine.pop (shallowEmbedder collector allowance invoke))
      (DeepMachine.pop invoke') := by
  intro m d h
  simp only [Machine.pop, DeepMachine.pop, bind, EStateM.bind]
  rcases h.popWinder with ⟨hm, hd⟩ | ⟨entry, exit, m', d', hm, hd, h'⟩ |
    ⟨fluid, previous, bound, v, m', d', m'', hm, hd, hset, h'⟩
  · simp only [hm, hd]
    exact ⟨rfl, h⟩
  · simp only [hm, hd]
    exact hinvoke exit m' d' h'
  · simp only [hm, hd, hset]
    exact ⟨rfl, h'⟩

theorem unwindFluid :
    Agree (Simulates (H := H)) Machine.unwindFluid DeepMachine.unwindFluid := by
  intro m d h
  simp only [Machine.unwindFluid, DeepMachine.unwindFluid, bind, EStateM.bind]
  rcases h.popWinder with ⟨hm, hd⟩ | ⟨entry, exit, m', d', hm, hd, h'⟩ |
    ⟨fluid, previous, bound, v, m', d', m'', hm, hd, hset, h'⟩
  · simp only [hm, hd]
    exact ⟨rfl, h⟩
  · simp only [hm, hd]
    exact ⟨rfl, h'⟩
  · simp only [hm, hd, hset]
    exact ⟨rfl, h'⟩

theorem popTo (hinvoke : ∀ v, Agree Simulates (invoke v) (invoke' v)) (target n : Nat) :
    Agree (Simulates (H := H)) (Machine.popTo (shallowEmbedder collector allowance invoke) target n)
      (DeepMachine.popTo invoke' target n) := by
  induction n with
  | zero =>
    refine depth.bind fun current => ?_
    split
    · exact Agree.throw _
    · exact Agree.pure ()
  | succ n ih =>
    refine depth.bind fun current => ?_
    split
    · exact (pop hinvoke).bind fun _ => ih
    · exact Agree.pure ()

theorem unwindTo (hinvoke : ∀ v, Agree Simulates (invoke v) (invoke' v)) (target : Nat) :
    Agree (Simulates (H := H))
      (Machine.unwindTo (shallowEmbedder collector allowance invoke) target)
      (DeepMachine.unwindTo invoke' allowance target) := by
  refine depth.bind fun current => ?_
  split
  · exact (note _).bind fun _ => popTo hinvoke target _
  · exact Agree.throw _

theorem fluidStep (hc : collector.KeepsRoots)
    (hinvoke : ∀ v, Agree Simulates (invoke v) (invoke' v)) (s : FluidStep) :
    Agree (Simulates (H := H)) (Machine.fluidStep (shallowEmbedder collector allowance invoke) s)
      (DeepMachine.fluidStep invoke' allowance s) := by
  cases s with
  | makeFluid default => exact (makeFluid default).bind fun _ => Agree.pure ()
  | fluidSet fluid v => exact fluidSet fluid v
  | pushFluid fluid v => exact pushFluid fluid v
  | pushWind entry exit => exact pushWind hinvoke entry exit
  | pop => exact pop hinvoke
  | unwindFluid => exact unwindFluid
  | unwindTo target => exact unwindTo hinvoke target
  | memory s =>
    intro m d h
    have hstep : ∃ m', Machine.memoryStep (shallowEmbedder collector allowance invoke) s m =
        .ok () m' ∧ SameFluids m m' := SameFluids.memoryStep hc s m
    obtain ⟨m', hm, hsame⟩ := hstep
    simp only [Machine.fluidStep, hm]
    exact ⟨rfl, h.of_sameFluids hsame⟩

end Invoker

section Runs

variable {collector : Collector H} {allowance : Nat}

theorem record (h : Simulates m d) (f : Moments → Moments) :
    Simulates ((FluidMachine.shallow collector allowance).record f m)
      ((FluidMachine.deep allowance).record f d) :=
  ⟨h.fluids, congrArg f h.moments, h.slots_le, h.saves⟩

theorem reads (h : Simulates m d) :
    (FluidMachine.shallow collector allowance).reads m = (FluidMachine.deep allowance).reads d := by
  have hcount : (FluidMachine.shallow collector allowance).fluidCount m =
      (FluidMachine.deep allowance).fluidCount d := congrArg FluidRegistry.size h.fluids
  simp only [FluidMachine.reads, hcount]
  refine List.map_congr_left fun i _ => ?_
  simp only [FluidMachine.shallow, FluidMachine.deep]
  rcases (fluidRef ⟨i⟩ m d h).cases with ⟨v, m', d', hm, hd, -⟩ | ⟨e, m', d', hm, hd, -⟩ <;>
    simp only [hm, hd]

theorem observe (h : Simulates m d) :
    Simulates ((FluidMachine.shallow collector allowance).observe m)
      ((FluidMachine.deep allowance).observe d) := by
  unfold FluidMachine.observe
  rw [h.reads]
  exact h.record _

theorem modify_observe :
    Agree (Simulates (H := H))
      (modify (FluidMachine.shallow collector allowance).observe :
        Machine.Action (H × Moments) Unit)
      (modify (FluidMachine.deep allowance).observe : DeepMachine.Action Moments Unit) :=
  fun _ _ h => ⟨rfl, h.observe⟩

theorem attempt {op : Machine.Action (H × Moments) Unit} {op' : DeepMachine.Action Moments Unit}
    (h : Agree Simulates op op') :
    Agree (Simulates (H := H)) (FluidMachine.attempt op) (FluidMachine.attempt op') := by
  intro m d hmd
  simp only [FluidMachine.attempt]
  rcases (h m d hmd).cases with ⟨x, m', d', hm, hd, h'⟩ | ⟨e, m', d', hm, hd, h'⟩
  · simp only [hm, hd]
    exact ⟨rfl, h'⟩
  · cases e <;> simp only [hm, hd] <;> exact ⟨rfl, h'⟩

theorem run (hc : collector.KeepsRoots) {invoke : Value → Machine.Action (H × Moments) Unit}
    {invoke' : Value → DeepMachine.Action Moments Unit}
    (hinvoke : ∀ v, Agree Simulates (invoke v) (invoke' v)) (code : FluidCode) :
    Agree (Simulates (H := H)) ((FluidMachine.shallow collector allowance).run invoke code)
      ((FluidMachine.deep allowance).run invoke' code) := by
  induction code with
  | done => exact Agree.pure ()
  | escape e => exact Agree.throw _
  | crash f => exact Agree.throw _
  | read fluid next ih => exact (fluidRef fluid).bind ih
  | step s next ih =>
    refine (attempt (fluidStep hc hinvoke s)).bind fun r => ?_
    exact modify_observe.bind fun _ => ih r

theorem invoker (hc : collector.KeepsRoots) (procedures : Nat → Value → FluidCode)
    (nesting : Nat) (v : Value) :
    Agree (Simulates (H := H))
      ((FluidMachine.shallow collector allowance).invoker procedures nesting v)
      ((FluidMachine.deep allowance).invoker procedures nesting v) := by
  -- the code of an invocation depends on how many there were, which both machines count alike
  induction nesting generalizing v with
  | zero => exact Agree.throw _
  | succ nesting ih =>
    refine modify_observe.bind fun _ => Agree.get_bind fun m d h => ?_
    have hcalls : ((FluidMachine.deep allowance).moments d).calls = m.host.2.calls := by
      rw [h.moments]
      rfl
    rw [hcalls]
    exact run hc ih (procedures m.host.2.calls v) _ _ (h.record Moments.call)

theorem runAll (hc : collector.KeepsRoots) (procedures : Nat → Value → FluidCode) (nesting : Nat)
    (codes : List FluidCode) (h : Simulates m d) :
    Simulates ((FluidMachine.shallow collector allowance).runAll procedures nesting codes m)
      ((FluidMachine.deep allowance).runAll procedures nesting codes d) := by
  induction codes generalizing m d with
  | nil => exact h
  | cons code codes ih =>
    exact ih ((run hc (invoker hc procedures nesting) code).state h).observe

end Runs

theorem fresh (vm : Vm) (number : Nat) (arena : Arena) (stack : Array Value) (host : H) :
    Simulates ⟨vm, ⟨number, arena, stack, #[], #[]⟩, host, .empty⟩ ⟨.fresh vm.fluids, .empty⟩ :=
  ⟨rfl, rfl, Nat.zero_le _, Saves.nil⟩

end Simulates

/-- Shallow binding implements deep binding: after every step of every run, and whenever an entry or
exit action starts, all fluids read the same on both machines. -/
theorem shallow_moments_eq_deep {H : Type} (collector : Collector H) (hc : collector.KeepsRoots)
    (allowance nesting : Nat) (procedures : Nat → Value → FluidCode) (codes : List FluidCode)
    (vm : Vm) (number : Nat) (arena : Arena) (stack : Array Value) (host : H) :
    ((FluidMachine.shallow collector allowance).runAll procedures nesting codes
      ⟨vm, ⟨number, arena, stack, #[], #[]⟩, host, .empty⟩).host.2 =
    ((FluidMachine.deep allowance).runAll procedures nesting codes
      ⟨.fresh vm.fluids, .empty⟩).host :=
  (Simulates.runAll hc procedures nesting codes
    (Simulates.fresh vm number arena stack host)).moments

theorem shallow_moments_eq_deep_rebound :
    (Collector.none : Collector Unit).KeepsRoots ∧
    ((FluidMachine.shallow (Collector.none : Collector Unit) 0).runAll
      (fun _ v => .step (.fluidSet ⟨0⟩ v) fun _ => .done) 1
      [.step (.pushFluid ⟨0⟩ (.fixnum 2)) fun _ =>
        .step (.pushWind (.fixnum 3) (.fixnum 4)) fun _ =>
        .step (.pushFluid ⟨0⟩ (.fixnum 5)) fun _ =>
        .step (.unwindTo 1) fun _ => .step .pop fun _ => .done]
      ⟨{ (default : Vm) with fluids := ⟨#[.fixnum 1]⟩ }, default, (), .empty⟩).host.2.seen =
    [1, 1, 4, 4, 3, 5, 3, 3, 2, 2].map fun n => [some (.fixnum n)] :=
  ⟨Collector.none_keepsRoots, by
    rw [show (default : Context) = ⟨0, default, #[], #[], #[]⟩ from rfl,
      shallow_moments_eq_deep Collector.none Collector.none_keepsRoots]
    rfl⟩

end VmSupport
