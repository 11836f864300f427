import VmSupport.Proofs.FluidSlots
import VmSupport.Proofs.Outcome

namespace VmSupport

open EStateM

/-- The id in the 32 bits it is kept in. -/
def FluidId.word (fluid : FluidId) : UInt32 := .ofNat fluid.index

namespace FluidRegistry

inductive Made : FluidRegistry → FluidId → Prop
  | new (r : FluidRegistry) (default : Value) : Made (r.make default).2 (r.make default).1
  | old {r : FluidRegistry} {fluid : FluidId} (h : Made r fluid) (default : Value) :
    Made (r.make default).2 fluid

variable {r : FluidRegistry} {fluid fluid' : FluidId}

@[simp] theorem size_make (r : FluidRegistry) (default : Value) :
    (r.make default).2.size = r.size + 1 := Array.size_push default

theorem made_iff : r.Made fluid ↔ fluid.index < r.size := by
  constructor
  · intro h
    induction h with
    | new r default => exact (size_make r default).symm ▸ Nat.lt_succ_self r.size
    | old _ default ih => exact (size_make _ default).symm ▸ Nat.lt_succ_of_lt ih
  · obtain ⟨⟨defaults⟩⟩ := r
    induction defaults using List.reverseRecOn with
    | nil => exact fun hlt => absurd hlt (Nat.not_lt_zero _)
    | append_singleton defaults default ih =>
      intro hlt
      have hmake : (⟨(defaults ++ [default]).toArray⟩ : FluidRegistry) =
          (FluidRegistry.make ⟨defaults.toArray⟩ default).2 := by
        simp only [make, List.push_toArray]
      rw [hmake, size_make] at hlt
      rw [hmake]
      rcases Nat.lt_succ_iff_lt_or_eq.mp hlt with hlt | heq
      · exact .old (ih hlt) default
      · have hnew : fluid = (FluidRegistry.make ⟨defaults.toArray⟩ default).1 := by
          cases fluid
          exact congrArg FluidId.mk heq
        exact hnew ▸ .new _ default

theorem word_make (r : FluidRegistry) (default : Value) :
    (r.make default).1.word = .ofNat r.size := rfl

theorem toNat_word (hsize : r.size ≤ 2 ^ 32) (h : r.Made fluid) : fluid.word.toNat = fluid.index :=
  UInt32.toNat_ofNat_of_lt' (Nat.lt_of_lt_of_le (made_iff.mp h) hsize)

/-- In 32 bits, too, the ids of up to `2 ^ 32` fluids are told apart. -/
theorem word_inj (hsize : r.size ≤ 2 ^ 32) (h : r.Made fluid) (h' : r.Made fluid') :
    fluid.word = fluid'.word ↔ fluid = fluid' := by
  refine ⟨fun heq => ?_, congrArg FluidId.word⟩
  have hindex : fluid.index = fluid'.index := by
    rw [← toNat_word hsize h, ← toNat_word hsize h', heq]
  cases fluid
  exact congrArg FluidId.mk hindex

end FluidRegistry

theorem Context.setSlot_withWinders (c : Context) (ws : Array Winder) (i : Nat) (v : Value) :
    { c with winders := ws }.setSlot i v = { c.setSlot i v with winders := ws } := by
  unfold setSlot
  simp only
  split <;> rfl

/-- No slot of the context and no entry on its dynamic stack is for a fluid outside of the
registry, and the slots of the bound fluids are set. -/
structure Context.Registered (fluids : FluidRegistry) (c : Context) : Prop where
  size_le : c.slots.size ≤ fluids.size
  bound : ∀ fluid previous value, .fluid fluid previous value ∈ c.winders →
    fluid.index < fluids.size ∧ ∃ v, c.slots[fluid.index]? = some (some v)

namespace Context.Registered

variable {fluids fluids' : FluidRegistry} {c : Context} {fluid : FluidId} {ws : Array Winder}
  {v previous : Value}

theorem fresh (hslots : c.slots = #[]) (hwinders : c.winders = #[]) : c.Registered fluids := by
  constructor
  · rw [hslots]
    exact Nat.zero_le _
  · intro fluid previous value hmem
    rw [hwinders] at hmem
    exact absurd hmem (Array.not_mem_empty _)

theorem mono (h : c.Registered fluids) (hsize : fluids.size ≤ fluids'.size) :
    c.Registered fluids' := by
  constructor
  · exact h.size_le.trans hsize
  · intro fluid previous value hmem
    obtain ⟨hlt, hslot⟩ := h.bound fluid previous value hmem
    exact ⟨hlt.trans_le hsize, hslot⟩

theorem setSlot (h : c.Registered fluids) (hlt : fluid.index < fluids.size) (v : Value) :
    (c.setSlot fluid.index v).Registered fluids := by
  constructor
  · exact size_slots_setSlot_le c v h.size_le hlt
  · intro other previous value hmem
    rw [winders_setSlot] at hmem
    obtain ⟨hother, w, hw⟩ := h.bound other previous value hmem
    refine ⟨hother, ?_⟩
    by_cases heq : other.index = fluid.index
    · exact ⟨v, heq ▸ slots_setSlot_self c fluid.index v⟩
    · have hjoin := slots_setSlot_of_ne c v heq
      rw [hw] at hjoin
      exact ⟨w, Option.join_eq_some_iff.mp hjoin⟩

theorem push (h : c.Registered fluids) (hlt : fluid.index < fluids.size)
    (hslot : c.slots[fluid.index]? = some (some v)) (previous value : Value) :
    { c with winders := c.winders.push (.fluid fluid previous value) }.Registered fluids := by
  constructor
  · exact h.size_le
  · intro other previous' value' hmem
    rcases Array.mem_push.mp hmem with hmem | heq
    · exact h.bound other previous' value' hmem
    · cases heq
      exact ⟨hlt, v, hslot⟩

theorem withWinders (h : c.Registered fluids)
    (hws : ∀ fluid previous value, .fluid fluid previous value ∈ ws →
      .fluid fluid previous value ∈ c.winders) :
    { c with winders := ws }.Registered fluids :=
  ⟨h.size_le, fun fluid previous value hmem =>
    h.bound fluid previous value (hws fluid previous value hmem)⟩

end Context.Registered

theorem Vm.openContext_ok {vm vm' : Vm} {c : Context} (h : vm.openContext = .ok (c, vm')) :
    c.slots = #[] ∧ c.winders = #[] ∧ vm'.fluids = vm.fluids := by
  unfold openContext at h
  split at h
  · cases h
    exact ⟨rfl, rfl, rfl⟩
  · cases h

namespace Machine

variable {H : Type}

theorem keeps_depth {P : Machine H → Prop} : Keeps P (depth : Action H Nat) :=
  Keeps.get.bind fun _ => Keeps.pure _

theorem keeps_attempt {α : Type} {P : Machine H → Prop} {body : Action H α} (hbody : Keeps P body) :
    Keeps P (attempt body) := by
  intro m h
  have hafter := hbody.state h
  simp only [attempt]
  cases hresult : body m with
  | ok a m' =>
    rw [hresult] at hafter
    exact hafter
  | error e m' =>
    rw [hresult] at hafter
    cases e <;> exact hafter

/-- What the contexts of one machine do in turns. The contexts that are not running are part of the
host. Embedders' actions and bodies may be any such code, turns of other contexts included, and
every operation may end by whatever exit, with code going on from the state it left. A context
writes its own slots and entries only, so turns change between operations and not within them. -/
inductive Interleaves : Machine (H × List Context) → Machine (H × List Context) → Prop
  | refl (m : Machine (H × List Context)) : Interleaves m m
  | trans {m m' m'' : Machine (H × List Context)} (h : Interleaves m m')
    (h' : Interleaves m' m'') : Interleaves m m''
  | aside {m m' : Machine (H × List Context)} (hfluids : m'.vm.fluids = m.vm.fluids)
    (hslots : m'.context.slots = m.context.slots) (hwinders : m'.context.winders = m.context.winders)
    (hothers : m'.host.2 = m.host.2) : Interleaves m m'
  | switch {m : Machine (H × List Context)} {before after : List Context} {c : Context}
    (h : m.host.2 = before ++ c :: after) :
    Interleaves m ⟨m.vm, c, (m.host.1, before ++ m.context :: after)⟩
  | openContext {m : Machine (H × List Context)} {c : Context} {vm : Vm}
    (h : m.vm.openContext = .ok (c, vm)) :
    Interleaves m ⟨vm, m.context, (m.host.1, c :: m.host.2)⟩
  | closeContext {m : Machine (H × List Context)} {before after : List Context} {c : Context}
    (h : m.host.2 = before ++ c :: after) :
    Interleaves m ⟨m.vm.closeContext c, m.context, (m.host.1, before ++ after)⟩
  | makeFluid (default : Value) (m : Machine (H × List Context)) :
    Interleaves m (makeFluid default m).state
  | fluidSet (fluid : FluidId) (v : Value) (m : Machine (H × List Context)) :
    Interleaves m (fluidSet fluid v m).state
  | pushFluid (fluid : FluidId) (v : Value) (m : Machine (H × List Context)) :
    Interleaves m (pushFluid fluid v m).state
  | pushWind {env : Embedder (H × List Context)}
    (hinvoke : ∀ v m, Interleaves m (env.invoke v m).state) (entry exit : Value)
    (m : Machine (H × List Context)) : Interleaves m (pushWind env entry exit m).state
  | pop {env : Embedder (H × List Context)}
    (hinvoke : ∀ v m, Interleaves m (env.invoke v m).state) (m : Machine (H × List Context)) :
    Interleaves m (pop env m).state
  | unwindFluid (m : Machine (H × List Context)) : Interleaves m (unwindFluid m).state
  | unwindTo {env : Embedder (H × List Context)}
    (hinvoke : ∀ v m, Interleaves m (env.invoke v m).state) (target : Nat)
    (m : Machine (H × List Context)) : Interleaves m (unwindTo env target m).state
  | withFluid {env : Embedder (H × List Context)} {α : Type} {body : Action (H × List Context) α}
    (hinvoke : ∀ v m, Interleaves m (env.invoke v m).state)
    (hbody : ∀ m, Interleaves m (body m).state) (fluid : FluidId) (v : Value)
    (m : Machine (H × List Context)) : Interleaves m (withFluid env fluid v body m).state
  | dynamicWind {env : Embedder (H × List Context)} {α : Type} {body : Action (H × List Context) α}
    (hinvoke : ∀ v m, Interleaves m (env.invoke v m).state)
    (hbody : ∀ m, Interleaves m (body m).state) (entry exit : Value)
    (m : Machine (H × List Context)) : Interleaves m (dynamicWind env entry body exit m).state

def Registered (m : Machine (H × List Context)) : Prop :=
  ∀ c ∈ m.context :: m.host.2, c.Registered m.vm.fluids

section Steps

variable {α : Type} {m m' : Machine (H × List Context)} {env : Embedder (H × List Context)}

theorem Registered.run (h : m.Registered) (hsize : m.vm.fluids.size ≤ m'.vm.fluids.size)
    (hothers : m'.host.2 = m.host.2) (hc : m'.context.Registered m'.vm.fluids) :
    m'.Registered := by
  intro c hmem
  rcases List.mem_cons.mp hmem with rfl | hmem
  · exact hc
  · rw [hothers] at hmem
    exact (h c (List.mem_cons_of_mem _ hmem)).mono hsize

theorem Registered.context (h : m.Registered) : m.context.Registered m.vm.fluids :=
  h _ List.mem_cons_self

theorem makeFluid_registered (default : Value) :
    Keeps (Registered (H := H)) (makeFluid default) := by
  intro m h
  have hsize : m.vm.fluids.size ≤ (m.vm.fluids.make default).2.size := by
    rw [FluidRegistry.size_make]
    exact Nat.le_succ _
  exact h.run hsize rfl (h.context.mono hsize)

theorem fluidSet_of_lt {fluid : FluidId} (hlt : fluid.index < m.vm.fluids.size) (v : Value) :
    fluidSet fluid v m = .ok () { m with context := m.context.setSlot fluid.index v } := by
  rw [fluidSet_apply, if_pos (Or.inr hlt)]

theorem pushFluid_of_lt {fluid : FluidId} (hlt : fluid.index < m.vm.fluids.size) (v : Value) :
    ∃ previous, pushFluid fluid v m = .ok () { m with context :=
      { m.context.setSlot fluid.index v with
        winders := (m.context.setSlot fluid.index v).winders.push (.fluid fluid previous v) } } := by
  obtain ⟨previous, hprevious⟩ := readSlot_of_lt hlt m.context.slots
  refine ⟨previous, ?_⟩
  simp only [pushFluid_apply, hprevious, fluidSet_apply, hlt, or_true, ↓reduceIte,
    Context.setSlot_withWinders, winders_setSlot]

theorem Registered.unknown (h : m.Registered) {fluid : FluidId}
    (hle : m.vm.fluids.size ≤ fluid.index) :
    fluidRef fluid m = .error (.fault (.unknownFluid fluid.index)) m ∧
      ∀ v, fluidSet fluid v m = .error (.fault (.unknownFluid fluid.index)) m ∧
        pushFluid fluid v m = .error (.fault (.unknownFluid fluid.index)) m := by
  have hslots : m.context.slots.size ≤ fluid.index := h.context.size_le.trans hle
  have hread : readSlot m.vm.fluids m.context.slots fluid = none := by
    rw [readSlot_eq, Array.getElem?_eq_none hslots, Array.getElem?_eq_none hle]
    rfl
  refine ⟨?_, fun v => ⟨?_, ?_⟩⟩
  · rw [fluidRef_apply, hread]
  · rw [fluidSet_apply, if_neg (by omega)]
  · rw [pushFluid_apply, hread]

theorem fluidSet_registered (fluid : FluidId) (v : Value) :
    Keeps (Registered (H := H)) (fluidSet fluid v) := by
  intro m h
  by_cases hlt : fluid.index < m.vm.fluids.size
  · rw [fluidSet_of_lt hlt]
    exact h.run le_rfl rfl (h.context.setSlot hlt v)
  · rw [((h.unknown (not_lt.mp hlt)).2 v).1]
    exact h

theorem pushFluid_registered (fluid : FluidId) (v : Value) :
    Keeps (Registered (H := H)) (pushFluid fluid v) := by
  intro m h
  by_cases hlt : fluid.index < m.vm.fluids.size
  · obtain ⟨previous, hpush⟩ := pushFluid_of_lt hlt v
    rw [hpush]
    exact h.run le_rfl rfl
      ((h.context.setSlot hlt v).push hlt (slots_setSlot_self _ _ v) previous v)
  · rw [((h.unknown (not_lt.mp hlt)).2 v).2]
    exact h

theorem pushWinder_registered (entry exit : Value) :
    Keeps (Registered (H := H)) (pushWinder (.wind entry exit)) := by
  intro m h
  refine h.run le_rfl rfl (h.context.withWinders fun fluid previous value hmem => ?_)
  rcases Array.mem_push.mp hmem with hmem | heq
  · exact hmem
  · cases heq

theorem pushWind_registered (hinvoke : ∀ v, Keeps Registered (env.invoke v)) (entry exit : Value) :
    Keeps (Registered (H := H)) (pushWind env entry exit) :=
  (hinvoke entry).bind fun _ => pushWinder_registered entry exit

theorem popWinder_registered : Keeps (Registered (H := H)) popWinder := by
  intro m h
  cases hw : m.context.winders.back? with
  | none =>
    simp only [popWinder, hw]
    exact h
  | some w =>
    obtain ⟨ws, hws⟩ := Array.back?_eq_some_iff.mp hw
    rw [popWinder_push hws]
    refine h.run le_rfl rfl (h.context.withWinders fun fluid previous value hmem => ?_)
    exact hws ▸ Array.mem_push_of_mem w hmem

theorem pop_registered (hinvoke : ∀ v, Keeps Registered (env.invoke v)) :
    Keeps (Registered (H := H)) (pop env) := by
  refine popWinder_registered.bind fun w => ?_
  cases w with
  | fluid fluid previous v => exact fluidSet_registered fluid previous
  | wind entry exit => exact hinvoke exit

theorem unwindFluid_registered : Keeps (Registered (H := H)) unwindFluid := by
  refine popWinder_registered.bind fun w => ?_
  cases w with
  | fluid fluid previous v => exact fluidSet_registered fluid previous
  | wind entry exit => exact Keeps.throw _

theorem popTo_registered (hinvoke : ∀ v, Keeps Registered (env.invoke v)) (target n : Nat) :
    Keeps (Registered (H := H)) (popTo env target n) := by
  induction n with
  | zero =>
    refine keeps_depth.bind fun current => ?_
    split
    · exact Keeps.throw _
    · exact Keeps.pure ()
  | succ n ih =>
    refine keeps_depth.bind fun current => ?_
    split
    · exact (pop_registered hinvoke).bind fun _ => ih
    · exact Keeps.pure ()

theorem unwindTo_registered (hinvoke : ∀ v, Keeps Registered (env.invoke v)) (target : Nat) :
    Keeps (Registered (H := H)) (unwindTo env target) := by
  refine keeps_depth.bind fun current => ?_
  split
  · exact Keeps.bind (fun m h => h) fun _ => popTo_registered hinvoke target _
  · exact Keeps.throw _

theorem unwinding_registered (hinvoke : ∀ v, Keeps Registered (env.invoke v))
    {body : Action (H × List Context) α} (hbody : Keeps Registered body) (start : Nat) :
    Keeps (Registered (H := H)) (do
      let result ← attempt body
      unwindTo env start
      resume result) := by
  refine (keeps_attempt hbody).bind fun result => ?_
  refine (unwindTo_registered hinvoke start).bind fun _ => ?_
  cases result with
  | ok a => exact Keeps.pure a
  | error e => exact Keeps.throw _

theorem withFluid_registered (hinvoke : ∀ v, Keeps Registered (env.invoke v))
    {body : Action (H × List Context) α} (hbody : Keeps Registered body) (fluid : FluidId)
    (v : Value) : Keeps (Registered (H := H)) (withFluid env fluid v body) := by
  refine keeps_depth.bind fun start => ?_
  exact (pushFluid_registered fluid v).bind fun _ => unwinding_registered hinvoke hbody start

theorem dynamicWind_registered (hinvoke : ∀ v, Keeps Registered (env.invoke v))
    {body : Action (H × List Context) α} (hbody : Keeps Registered body) (entry exit : Value) :
    Keeps (Registered (H := H)) (dynamicWind env entry body exit) := by
  refine keeps_depth.bind fun start => ?_
  exact (pushWind_registered hinvoke entry exit).bind fun _ =>
    unwinding_registered hinvoke hbody start

end Steps

theorem Registered.interleaves {m m' : Machine (H × List Context)} (hm : m.Registered)
    (h : Interleaves m m') : m'.Registered := by
  -- over the turns, with those inside of actions and bodies as further hypotheses
  induction h with
  | refl m => exact hm
  | trans _ _ ih ih' => exact ih' (ih hm)
  | aside hfluids hslots hwinders hothers =>
    refine hm.run (hfluids ▸ le_rfl) hothers ?_
    constructor
    · rw [hslots, hfluids]
      exact hm.context.size_le
    · rw [hslots, hwinders, hfluids]
      exact hm.context.bound
  | switch h =>
    intro c hmem
    apply hm c
    rw [h]
    simp only [List.mem_cons, List.mem_append] at hmem ⊢
    tauto
  | @openContext m c vm h =>
    obtain ⟨hslots, hwinders, hfluids⟩ := Vm.openContext_ok h
    intro c' hmem
    rcases List.mem_cons.mp hmem with rfl | hmem
    · exact hfluids ▸ hm.context
    · rcases List.mem_cons.mp hmem with rfl | hmem
      · exact .fresh hslots hwinders
      · exact hfluids ▸ hm c' (List.mem_cons_of_mem _ hmem)
  | closeContext h =>
    intro c hmem
    apply hm c
    rw [h]
    simp only [List.mem_cons, List.mem_append] at hmem ⊢
    tauto
  | makeFluid default m => exact (makeFluid_registered default).state hm
  | fluidSet fluid v m => exact (fluidSet_registered fluid v).state hm
  | pushFluid fluid v m => exact (pushFluid_registered fluid v).state hm
  | pushWind _ entry exit m ih =>
    exact (pushWind_registered (fun v => keeps_iff.mpr (ih v)) entry exit).state hm
  | pop _ m ih => exact (pop_registered fun v => keeps_iff.mpr (ih v)).state hm
  | unwindFluid m => exact unwindFluid_registered.state hm
  | unwindTo _ target m ih =>
    exact (unwindTo_registered (fun v => keeps_iff.mpr (ih v)) target).state hm
  | withFluid _ _ fluid v m ih ihbody =>
    exact (withFluid_registered (fun v => keeps_iff.mpr (ih v)) (keeps_iff.mpr ihbody) fluid
      v).state hm
  | dynamicWind _ _ entry exit m ih ihbody =>
    exact (dynamicWind_registered (fun v => keeps_iff.mpr (ih v)) (keeps_iff.mpr ihbody) entry
      exit).state hm

/-- Whatever its contexts have done, the fluids of a machine are there for whichever of them runs:
those that the registry made can be read, set and bound, and their entries undone; any other is
refused before the slots or the dynamic stack have changed. -/
theorem fluids_registered {vm vm' : Vm} {c : Context} {host : H} {m : Machine (H × List Context)}
    (hopen : vm.openContext = .ok (c, vm')) (h : Interleaves ⟨vm', c, (host, [])⟩ m) :
    m.Registered ∧
      (∀ fluid, m.vm.fluids.Made fluid → (∃ v, fluidRef fluid m = .ok v m) ∧
        ∀ v, (∃ m', fluidSet fluid v m = .ok () m') ∧ ∃ m', pushFluid fluid v m = .ok () m') ∧
      (∀ fluid, ¬ m.vm.fluids.Made fluid →
        fluidRef fluid m = .error (.fault (.unknownFluid fluid.index)) m ∧
        ∀ v, fluidSet fluid v m = .error (.fault (.unknownFluid fluid.index)) m ∧
          pushFluid fluid v m = .error (.fault (.unknownFluid fluid.index)) m) ∧
      ∀ fluid previous v, m.context.winders.back? = some (.fluid fluid previous v) →
        ∃ m', unwindFluid m = .ok () m' ∧ ∀ env, pop env m = .ok () m' := by
  obtain ⟨hslots, hwinders, -⟩ := Vm.openContext_ok hopen
  have hstart : Registered ⟨vm', c, (host, [])⟩ := by
    intro c' hmem
    obtain rfl := List.mem_singleton.mp hmem
    exact .fresh hslots hwinders
  have hm := hstart.interleaves h
  refine ⟨hm, fun fluid hmade => ?_, fun fluid hunmade => ?_, ?_⟩
  · have hlt := FluidRegistry.made_iff.mp hmade
    refine ⟨?_, fun v => ⟨⟨_, fluidSet_of_lt hlt v⟩, ?_⟩⟩
    · obtain ⟨v, hv⟩ := readSlot_of_lt hlt m.context.slots
      exact ⟨v, by rw [fluidRef_apply, hv]⟩
    · obtain ⟨previous, hpush⟩ := pushFluid_of_lt hlt v
      exact ⟨_, hpush⟩
  · exact hm.unknown (not_lt.mp fun hlt => hunmade (FluidRegistry.made_iff.mpr hlt))
  · intro fluid previous v htop
    obtain ⟨ws, hws⟩ := Array.back?_eq_some_iff.mp htop
    have hmem : .fluid fluid previous v ∈ m.context.winders := hws ▸ Array.mem_push_self
    obtain ⟨hlt, -⟩ := hm.context.bound fluid previous v hmem
    have hset := fluidSet_of_lt (m := { m with context := { m.context with winders := ws } }) hlt
      previous
    exact ⟨_, (bind_of_ok (popWinder_push hws)).trans hset,
      fun env => (bind_of_ok (popWinder_push hws)).trans hset⟩

theorem fluids_registered_bound : ∃ (vm : Vm) (c : Context) (m : Machine (Unit × List Context)),
    (default : Vm).openContext = .ok (c, vm) ∧ Interleaves ⟨vm, c, ((), [])⟩ m ∧
      m.host.2.length = 1 ∧ (∃ v, fluidRef ⟨0⟩ m = .ok v m) ∧
      pushFluid ⟨1⟩ .nil m = .error (.fault (.unknownFluid 1)) m ∧
      ∃ m', unwindFluid m = .ok () m' := by
  obtain ⟨vm, c, ⟨heap, keywords, fluids, threads, stackSize⟩, c', hopen, hopen', rfl, rfl⟩ :
      ∃ (vm : Vm) (c : Context) (vm' : Vm) (c' : Context),
        (default : Vm).openContext = .ok (c, vm) ∧ vm.openContext = .ok (c', vm') ∧
        c = ⟨0, .new, #[], #[], #[]⟩ ∧ vm'.fluids = .empty := ⟨_, _, _, _, rfl, rfl, rfl, rfl⟩
  let two : Machine (Unit × List Context) :=
    ⟨⟨heap, keywords, .empty, threads, stackSize⟩, ⟨0, .new, #[], #[], #[]⟩, ((), [c'])⟩
  let made := (makeFluid (.fixnum 0) two).state
  let m := (pushFluid ⟨0⟩ (.fixnum 5) made).state
  have hruns : Interleaves ⟨vm, _, ((), [])⟩ m :=
    .trans (.openContext hopen') (.trans (.makeFluid (.fixnum 0) two)
      (.pushFluid ⟨0⟩ (.fixnum 5) made))
  obtain ⟨-, hmade, hunmade, hundo⟩ := fluids_registered hopen hruns
  refine ⟨vm, _, m, hopen, hruns, rfl, (hmade ⟨0⟩ ?_).1, ((hunmade ⟨1⟩ ?_).2 .nil).2, ?_⟩
  · exact .new .empty (.fixnum 0)
  · rw [FluidRegistry.made_iff]
    exact Nat.lt_irrefl 1
  · obtain ⟨m', hm', -⟩ := hundo ⟨0⟩ (.fixnum 0) (.fixnum 5) rfl
    exact ⟨m', hm'⟩

end Machine

end VmSupport
