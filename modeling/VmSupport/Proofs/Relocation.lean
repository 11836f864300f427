import VmSupport.Proofs.FluidSlots
import VmSupport.Proofs.Record
import VmSupport.Proofs.RootVisits
import VmSupport.Proofs.SafeAllocation

namespace VmSupport

variable {H : Type}

namespace Collector

def Relocates (collector : Collector H) (f : Value → Value) : Prop :=
  ∀ c, ∃ heap host, collector c = .ok () ⟨heap, c.roots.map f, host⟩

def IgnoresRoots (collector : Collector H) : Prop :=
  ∀ heap host roots roots',
    (collector ⟨heap, roots, host⟩).state.heap = (collector ⟨heap, roots', host⟩).state.heap ∧
      (collector ⟨heap, roots, host⟩).state.host = (collector ⟨heap, roots', host⟩).state.host

def watched (collector : Collector H) : Collector (H × List Value) :=
  collector.noting fun c seen => seen ++ c.roots

theorem Relocates.noting_apply {collector : Collector H} {f : Value → Value} {J : Type}
    (h : collector.Relocates f) (note : Collection H → J → J) (c : Collection (H × J)) :
    collector.noting note c =
      let before : Collection H := ⟨c.heap, c.roots, c.host.1⟩
      let after := (collector before).state
      .ok () ⟨after.heap, c.roots.map f, (after.host, note before c.host.2)⟩ := by
  obtain ⟨heap, roots, host, record⟩ := c
  obtain ⟨heap', host', hc⟩ := h ⟨heap, roots, host⟩
  simp only [Collector.noting, hc, EStateM.Result.state_ok]

theorem Relocates.noting {collector : Collector H} {f : Value → Value} {J : Type}
    (h : collector.Relocates f) (note : Collection H → J → J) :
    (collector.noting note).Relocates f :=
  fun c => ⟨_, _, h.noting_apply note c⟩

end Collector

section Values

variable (f : Value → Value)

def FluidRegistry.map (r : FluidRegistry) : FluidRegistry := ⟨r.defaults.map f⟩

def Context.map (c : Context) : Context :=
  { c with
    stack := c.stack.map f
    slots := c.slots.map (Option.map f)
    winders := c.winders.map (Winder.map f) }

def BindError.map : BindError → BindError
  | wrongNumberOfArgs nargs required positional => wrongNumberOfArgs nargs required positional
  | unrecognizedKeyword keyword => unrecognizedKeyword (f keyword)
  | invalidKeyword value => invalidKeyword (f value)
  | missingKeywordValue keyword => missingKeywordValue (f keyword)

def RuntimeError.map : RuntimeError → RuntimeError
  | bind e => bind (e.map f)
  | nonLocalExit tag => nonLocalExit (f tag)
  | notApplicable procedure => notApplicable (f procedure)

def Fault.map : Fault → Fault
  | notAKeyword v => notAKeyword (f v)
  | unwindOverWind entry exit => unwindOverWind (f entry) (f exit)
  | fault => fault

def Exit.map : Exit RuntimeError → Exit RuntimeError
  | .fault e => .fault (e.map f)
  | .error e => .error (e.map f)

end Values

inductive ValueOp
  | push (v : Value)
  | fluidRef (fluid : FluidId)
  | fluidSet (fluid : FluidId) (v : Value)
  | pushFluid (fluid : FluidId) (v : Value)
  | pushWind (entry exit : Value)
  | pop
  | unwindFluid

inductive ValueEvent
  | invoked (procedure : Value)
  | read (v : Value)
  | failed (e : Exit RuntimeError)
  deriving DecidableEq

def ValueOp.map (f : Value → Value) : ValueOp → ValueOp
  | push v => push (f v)
  | fluidRef fluid => fluidRef fluid
  | fluidSet fluid v => fluidSet fluid (f v)
  | pushFluid fluid v => pushFluid fluid (f v)
  | pushWind entry exit => pushWind (f entry) (f exit)
  | pop => pop
  | unwindFluid => unwindFluid

def ValueEvent.map (f : Value → Value) : ValueEvent → ValueEvent
  | invoked procedure => invoked (f procedure)
  | read v => read (f v)
  | failed e => failed (e.map f)

namespace Machine

abbrev Recorded (H : Type) := Machine (H × List ValueEvent)

def recorded (e : ValueEvent) (m : Recorded H) : Recorded H :=
  { m with host := (m.host.1, m.host.2 ++ [e]) }

def recording (m : Machine H) : Recorded H := ⟨m.vm, m.context, (m.host, [])⟩

def recorder (collector : Collector H) (allowance : Nat) : Embedder (H × List ValueEvent) :=
  ⟨collector.beside, fun procedure => modify (recorded (.invoked procedure)), allowance⟩

def performValueOp (env : Embedder (H × List ValueEvent)) :
    ValueOp → Action (H × List ValueEvent) Unit
  | .push v => push v
  | .fluidRef fluid => do
    let v ← fluidRef fluid
    modify (recorded (.read v))
  | .fluidSet fluid v => fluidSet fluid v
  | .pushFluid fluid v => pushFluid fluid v
  | .pushWind entry exit => pushWind env entry exit
  | .pop => pop env
  | .unwindFluid => unwindFluid

def runValueOps (env : Embedder (H × List ValueEvent)) : List ValueOp → Recorded H → Recorded H
  | [], m => m
  | op :: ops, m =>
    match performValueOp env op m with
    | .ok _ m => runValueOps env ops m
    | .error e m => runValueOps env ops (m.recorded (.failed e))

def roots (pending : List Value) (m : Machine H) : ContextRoots :=
  ⟨pending, m.context.stack, m.context.slots, m.context.winders, m.vm.fluids.defaults⟩

def relocate (f : Value → Value) (heap : Heap) (host : H) (m : Machine H) : Machine H :=
  ⟨{ m.vm with heap, fluids := m.vm.fluids.map f }, m.context.map f, host⟩

def collection (pending : List Value) (m : Machine H) : Collection H :=
  ⟨Mutator.collecting m.vm.heap, RootSet.toList (m.roots pending), m.host⟩

theorem collect_relocating {collector : Collector H} {f : Value → Value}
    (h : collector.Relocates f) (heap : Heap) (arena : Arena) (roots : ContextRoots) (host : H) :
    Mutator.collect collector ⟨heap, arena, roots, host⟩ =
      let r := (collector ⟨Mutator.collecting heap, RootSet.toList roots, host⟩).state
      .ok () ⟨r.heap, arena, roots.map f, r.host⟩ := by
  obtain ⟨heap', host', hc⟩ := h ⟨Mutator.collecting heap, RootSet.toList roots, host⟩
  rw [hc]
  simp only [Mutator.collecting] at hc
  simp only [Mutator.collect, hc, EStateM.Result.state_ok, ContextRoots.refill_map]

theorem onMutator_collect {collector : Collector H} {f : Value → Value}
    (h : collector.Relocates f) (pending : List Value) (m : Machine H) :
    onMutator pending (Mutator.collect collector) m =
      let r := (collector (m.collection pending)).state
      .ok ((), pending.map f) (m.relocate f r.heap r.host) := by
  simp only [onMutator, collect_relocating h]
  rfl

section Moved

variable (f : Value → Value) (heap : Heap) (host : H)

def moved (m : Recorded H) : Recorded H :=
  m.relocate f heap (host, m.host.2.map (·.map f))

def movedResult :
    EStateM.Result (Exit RuntimeError) (Recorded H) Unit →
      EStateM.Result (Exit RuntimeError) (Recorded H) Unit
  | .ok _ m => .ok () (m.moved f heap host)
  | .error e m => .error (e.map f) (m.moved f heap host)

theorem recorded_moved (e : ValueEvent) (m : Recorded H) :
    (m.moved f heap host).recorded (e.map f) = (m.recorded e).moved f heap host := by
  simp [moved, relocate, recorded]

theorem readSlot_moved (fluid : FluidId) (m : Recorded H) :
    readSlot (m.moved f heap host).vm.fluids (m.moved f heap host).context.slots fluid =
      (readSlot m.vm.fluids m.context.slots fluid).map f := by
  simp only [readSlot_eq, moved, relocate, FluidRegistry.map, Context.map, Array.getElem?_map]
  cases m.context.slots[fluid.index]? with
  | none => simp
  | some slot => cases slot <;> simp

theorem setSlot_map (c : Context) (i : Nat) (v : Value) :
    (c.map f).setSlot i (f v) = (c.setSlot i v).map f := by
  unfold Context.setSlot Context.map
  simp only [Array.size_map]
  split <;> simp

theorem fluidSet_moved (fluid : FluidId) (v : Value) (m : Recorded H) :
    fluidSet fluid (f v) (m.moved f heap host) = movedResult f heap host (fluidSet fluid v m) := by
  rw [fluidSet_apply, fluidSet_apply]
  have hslots : (m.moved f heap host).context.slots.size = m.context.slots.size := by
    simp [moved, relocate, Context.map]
  have hfluids : (m.moved f heap host).vm.fluids.size = m.vm.fluids.size := by
    simp [moved, relocate, FluidRegistry.map, FluidRegistry.size]
  rw [hslots, hfluids]
  split
  · simp only [movedResult, moved, relocate, setSlot_map]
  · rfl

theorem pushFluid_moved (fluid : FluidId) (v : Value) (m : Recorded H) :
    pushFluid fluid (f v) (m.moved f heap host) =
      movedResult f heap host (pushFluid fluid v m) := by
  rw [pushFluid_apply, pushFluid_apply, readSlot_moved]
  cases readSlot m.vm.fluids m.context.slots fluid with
  | none => rfl
  | some previous =>
    simp only [Option.map_some]
    rw [← fluidSet_moved]
    simp [moved, relocate, Context.map, Winder.map]

theorem popWinder_moved (m : Recorded H) :
    popWinder (m.moved f heap host) = match popWinder m with
      | .ok w m => .ok (w.map f) (m.moved f heap host)
      | .error e m => .error (e.map f) (m.moved f heap host) := by
  have hback : (m.moved f heap host).context.winders.back? =
      m.context.winders.back?.map (Winder.map f) := by
    simp [moved, relocate, Context.map]
  simp only [popWinder, hback]
  cases m.context.winders.back? with
  | none => rfl
  | some w => simp [moved, relocate, Context.map]

variable (collector : Collector H) (allowance : Nat)

theorem modify_recorded_moved (e : ValueEvent) (m : Recorded H) :
    (modify (recorded (e.map f)) : Action _ Unit) (m.moved f heap host) =
      movedResult f heap host ((modify (recorded e) : Action _ Unit) m) :=
  congrArg (EStateM.Result.ok ()) (recorded_moved f heap host e m)

theorem pop_moved (m : Recorded H) :
    pop (recorder collector allowance) (m.moved f heap host) =
      movedResult f heap host (pop (recorder collector allowance) m) := by
  simp only [pop, bind, EStateM.bind, popWinder_moved]
  cases popWinder m with
  | error e m => rfl
  | ok w m =>
    cases w with
    | fluid fluid previous v => exact fluidSet_moved f heap host fluid previous m
    | wind entry exit => exact modify_recorded_moved f heap host (.invoked exit) m

theorem unwindFluid_moved (m : Recorded H) :
    unwindFluid (m.moved f heap host) = movedResult f heap host (unwindFluid m) := by
  simp only [unwindFluid, bind, EStateM.bind, popWinder_moved]
  cases popWinder m with
  | error e m => rfl
  | ok w m =>
    cases w with
    | fluid fluid previous v => exact fluidSet_moved f heap host fluid previous m
    | wind entry exit => rfl

theorem pushWind_recorder (entry exit : Value) (m : Recorded H) :
    pushWind (recorder collector allowance) entry exit m =
      pushWinder (.wind entry exit) (m.recorded (.invoked entry)) := rfl

theorem pushWinder_moved (w : Winder) (m : Recorded H) :
    pushWinder (w.map f) (m.moved f heap host) = movedResult f heap host (pushWinder w m) := by
  simp [pushWinder, modifyContext, modify, modifyGet, MonadStateOf.modifyGet, EStateM.modifyGet,
    movedResult, moved, relocate, Context.map]

theorem pushWind_moved (entry exit : Value) (m : Recorded H) :
    pushWind (recorder collector allowance) (f entry) (f exit) (m.moved f heap host) =
      movedResult f heap host (pushWind (recorder collector allowance) entry exit m) := by
  have hrecorded : (m.moved f heap host).recorded (.invoked (f entry)) =
      (m.recorded (.invoked entry)).moved f heap host :=
    recorded_moved f heap host (.invoked entry) m
  rw [pushWind_recorder, pushWind_recorder, hrecorded]
  exact pushWinder_moved f heap host (.wind entry exit) _

theorem performValueOp_moved (op : ValueOp) (m : Recorded H) :
    performValueOp (recorder collector allowance) (op.map f) (m.moved f heap host) =
      movedResult f heap host (performValueOp (recorder collector allowance) op m) := by
  cases op with
  | push v =>
    simp [performValueOp, ValueOp.map, push, modifyContext, modify, modifyGet,
      MonadStateOf.modifyGet, EStateM.modifyGet, movedResult, moved, relocate, Context.map]
  | fluidRef fluid =>
    simp only [performValueOp, ValueOp.map, bind, EStateM.bind, fluidRef_apply, readSlot_moved]
    cases readSlot m.vm.fluids m.context.slots fluid with
    | none => rfl
    | some v => exact modify_recorded_moved f heap host (.read v) m
  | fluidSet fluid v => exact fluidSet_moved f heap host fluid v m
  | pushFluid fluid v => exact pushFluid_moved f heap host fluid v m
  | pushWind entry exit => exact pushWind_moved f heap host collector allowance entry exit m
  | pop => exact pop_moved f heap host collector allowance m
  | unwindFluid => exact unwindFluid_moved f heap host m

theorem runValueOps_moved (ops : List ValueOp) (m : Recorded H) :
    runValueOps (recorder collector allowance) (ops.map (·.map f)) (m.moved f heap host) =
      (runValueOps (recorder collector allowance) ops m).moved f heap host := by
  induction ops generalizing m with
  | nil => rfl
  | cons op ops ih =>
    simp only [List.map_cons, runValueOps, performValueOp_moved]
    cases performValueOp (recorder collector allowance) op m with
    | ok _ m => exact ih m
    | error e m =>
      simp only [movedResult]
      rw [← ih, ← recorded_moved]
      rfl

theorem recording_moved_id (m : Machine H) :
    m.recording.moved id m.vm.heap m.host = m.recording := by
  simp [moved, relocate, recording, FluidRegistry.map, Context.map]

theorem runValueOps_frame (ops : List ValueOp) (m : Machine H) :
    (runValueOps (recorder collector allowance) ops m.recording).vm.heap = m.vm.heap ∧
      (runValueOps (recorder collector allowance) ops m.recording).host.1 = m.host := by
  have hops : ops.map (·.map id) = ops := by
    have hop : ∀ op : ValueOp, op.map id = op := by
      intro op
      cases op <;> rfl
    simp [hop]
  have hrun := runValueOps_moved id m.vm.heap m.host collector allowance ops m.recording
  rw [recording_moved_id, hops] at hrun
  rw [hrun]
  exact ⟨rfl, rfl⟩

end Moved

theorem collect_recorder {collector : Collector H} {f : Value → Value}
    (h : collector.Relocates f) (allowance : Nat) (m : Recorded H) :
    collect (recorder collector allowance) m =
      let c : Collection H :=
        ⟨Mutator.collecting m.vm.heap, RootSet.toList (m.roots []), m.host.1⟩
      let r := (collector c).state
      .ok () (m.relocate f r.heap (r.host, m.host.2)) := by
  have hcollect := onMutator_collect (h.noting fun _ (record : List ValueEvent) => record) [] m
  rw [h.noting_apply] at hcollect
  simp only [collect, bind, EStateM.bind, recorder, Collector.beside, hcollect]
  rfl

theorem collect_watched {collector : Collector H} {f : Value → Value} (h : collector.Relocates f)
    (pending : List Value) (m : Machine H) :
    (onMutator pending (Mutator.collect collector.watched)
      ⟨m.vm, m.context, (m.host, [])⟩).state.host.2 = RootSet.toList (m.roots pending) := by
  have hcollect := onMutator_collect (h.noting fun c seen => seen ++ c.roots) pending
    ⟨m.vm, m.context, (m.host, [])⟩
  rw [h.noting_apply] at hcollect
  rw [Collector.watched, hcollect]
  rfl

/-- A collection visits each place that holds a value of the context once and replaces the values
in all of them. To collect and then go on with the new values comes to the same as to go on and
then collect: the same values in every place, the same invocations and the same values read, up to
the replacement. Only what the collector makes of the heap may depend on when it runs; if that does
not depend on the roots, it is the same as well. -/
theorem relocation_commutes {collector : Collector H} {f : Value → Value}
    (h : collector.Relocates f) (allowance : Nat) (m : Machine H) (pending : List Value)
    (ops : List ValueOp) :
    let r := m.roots pending
    let env := recorder collector allowance
    let early := runValueOps env (ops.map (·.map f)) (collect env m.recording).state
    let late := (collect env (runValueOps env ops m.recording)).state
    (r.visits.Nodup ∧ (∀ slot, slot ∈ r.visits ↔ (r.get? slot).isSome) ∧
      (onMutator pending (Mutator.collect collector.watched)
        ⟨m.vm, m.context, (m.host, [])⟩).state.host.2.map some = r.visits.map r.get?) ∧
    (∃ heap host, onMutator pending (Mutator.collect collector) m =
      .ok ((), pending.map f) (m.relocate f heap host)) ∧
    (early.context = late.context ∧ early.vm = { late.vm with heap := early.vm.heap } ∧
      early.host.2 = late.host.2.map (·.map f)) ∧
    (collector.IgnoresRoots → early.vm.heap = late.vm.heap ∧ early.host.1 = late.host.1) := by
  intro r env early late
  let after := runValueOps env ops m.recording
  let r₁ := (collector ⟨Mutator.collecting m.vm.heap, RootSet.toList (m.roots []), m.host⟩).state
  let r₂ := (collector ⟨Mutator.collecting after.vm.heap, RootSet.toList (after.roots []),
    after.host.1⟩).state
  have hearly : early = after.moved f r₁.heap r₁.host := by
    change runValueOps env (ops.map (·.map f)) (collect env m.recording).state = _
    rw [collect_recorder h]
    exact runValueOps_moved f r₁.heap r₁.host collector allowance ops m.recording
  have hlate : late = after.relocate f r₂.heap (r₂.host, after.host.2) := by
    change (collect env after).state = _
    rw [collect_recorder h]
    rfl
  refine ⟨⟨r.visits_nodup, r.mem_visits, ?_⟩, ⟨_, _, onMutator_collect h pending m⟩, ?_, ?_⟩
  · rw [collect_watched h, r.map_visits]
  · rw [hearly, hlate]
    exact ⟨rfl, rfl, rfl⟩
  · intro hroots
    obtain ⟨hheap, hhost⟩ := runValueOps_frame collector allowance ops m
    rw [hearly, hlate]
    change r₁.heap = r₂.heap ∧ r₁.host = r₂.host
    simp only [r₁, r₂, after, env, hheap, hhost]
    exact hroots _ _ _ _

theorem relocation_commutes_shifted :
    let f : Value → Value := fun v => .reference (v.address + 4096)
    let collector : Collector Unit := fun c => .ok () ⟨c.heap, c.roots.map f, c.host⟩
    let vm : Vm := { (default : Vm) with fluids := ⟨#[.reference 8]⟩ }
    let m : Machine Unit := ⟨vm, { (default : Context) with stack := #[.reference 16] }, ()⟩
    let ops : List ValueOp := [.pushFluid ⟨0⟩ (.reference 24), .fluidSet ⟨0⟩ (.reference 32),
      .fluidRef ⟨0⟩, .pushWind (.reference 40) (.reference 48), .pop, .pop, .fluidRef ⟨0⟩, .pop]
    let env := recorder collector 0
    collector.Relocates f ∧ collector.IgnoresRoots ∧
      (m.roots [.nil]).visits.length = 3 ∧
      (runValueOps env (ops.map (·.map f)) (collect env m.recording).state).host.2 =
        [.read (.reference 4128), .invoked (.reference 4136), .invoked (.reference 4144),
          .read (.reference 4104), .failed (.fault .dynamicStackUnderflow)] := by
  intro f collector vm m ops env
  have h : collector.Relocates f := fun c => ⟨c.heap, c.host, rfl⟩
  have hrecord := (relocation_commutes h 0 m [.nil] ops).2.2.1.2.2
  refine ⟨h, fun _ _ _ _ => ⟨rfl, rfl⟩, rfl, ?_⟩
  rw [hrecord]
  decide +kernel

end Machine

end VmSupport
