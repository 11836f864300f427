import VmSupport.Proofs.KeptValues
import VmSupport.Proofs.Record
import VmSupport.Proofs.Unwinding
import VmSupport.Scenario.CollectorPlan

/-!
The operands of a wind frame while its entry action runs. Every collection of the action may move
the objects anew. It replaces the roots, and so the values on the value stack follow; the operands
that wait for the action to return are no roots, and the frame takes them as they were.
-/

namespace VmSupport

open EStateM

variable {H : Type}

abbrev Moves := List (Value → Value)

def movedBy (moves : Moves) (v : Value) : Value := moves.foldl (fun v f => f v) v

theorem movedBy_append_singleton (moves : Moves) (f : Value → Value) :
    movedBy (moves ++ [f]) = f ∘ movedBy moves := by
  funext v
  simp [movedBy, List.foldl_append]

theorem ContextRoots.map_movedBy_append (r : ContextRoots) (moves : Moves) (f : Value → Value) :
    (r.map (movedBy moves)).map f = r.map (movedBy (moves ++ [f])) := by
  have hwinder : Winder.map f ∘ Winder.map (movedBy moves) = Winder.map (f ∘ movedBy moves) := by
    funext w
    cases w <;> rfl
  have hslot : Option.map f ∘ Option.map (movedBy moves) = Option.map (f ∘ movedBy moves) :=
    Option.map_comp_map _ _
  simp only [movedBy_append_singleton, ContextRoots.map, List.map_map, Array.map_map, hwinder,
    hslot]

namespace Collector

/-- A collection replaces every root by its image, by a map that may depend on all it sees. -/
def Rewrites (collector : Collector H) (move : Collection H → Value → Value) : Prop :=
  ∀ c c', collector c = .ok () c' → c'.roots = c.roots.map (move c)

def moving (collector : Collector H) (move : Collection H → Value → Value) :
    Collector (H × Moves) :=
  collector.noting fun c moves => moves ++ [move c]

theorem Rewrites.moving {collector : Collector H} {move : Collection H → Value → Value}
    (h : collector.Rewrites move) {c c' : Collection (H × Moves)}
    (hc : collector.moving move c = .ok () c') :
    ∃ f, c'.roots = c.roots.map f ∧ c'.host.2 = c.host.2 ++ [f] := by
  obtain ⟨heap, roots, host, moves⟩ := c
  refine ⟨move ⟨heap, roots, host⟩, ?_⟩
  simp only [Collector.moving, Collector.noting] at hc
  cases hresult : collector ⟨heap, roots, host⟩ with
  | ok u after =>
    rw [hresult] at hc
    cases hc
    exact ⟨h _ after hresult, rfl⟩
  | error f after =>
    rw [hresult] at hc
    cases hc

end Collector

namespace CollectorPlan

theorem shiftAll_eq_map {n : Int} {vs ws : List Value} (h : Value.shiftAll n vs = .ok () ws) :
    ws = vs.map fun v => (v.shift n).toOption.getD v := by
  induction vs generalizing ws with
  | nil =>
    cases h
    rfl
  | cons v vs ih =>
    rw [Value.shiftAll] at h
    cases hv : v.shift n with
    | error f =>
      rw [hv] at h
      cases h
    | ok w =>
      rw [hv] at h
      cases hvs : Value.shiftAll n vs with
      | error f ws' =>
        rw [hvs] at h
        cases h
      | ok u ws' =>
        rw [hvs] at h
        cases h
        rw [List.map_cons, hv, ← ih hvs]
        rfl

theorem shiftRoots_rewrites (n : Int) :
    Collector.Rewrites (shiftRoots n : Collector H) fun _ v => (v.shift n).toOption.getD v := by
  rintro ⟨heap, roots, host⟩ after hc
  rw [shiftRoots] at hc
  cases hroots : Value.shiftAll n roots with
  | ok u roots' =>
    rw [hroots] at hc
    cases hc
    exact shiftAll_eq_map hroots
  | error f roots' =>
    rw [hroots] at hc
    cases hc

end CollectorPlan

namespace Mutator

def Follows (roots : ContextRoots) (before : Moves) (r : ContextRoots) (host : H × Moves) : Prop :=
  ∃ moves, host.2 = before ++ moves ∧ r = roots.map (movedBy moves)

theorem collect_follows {collector : Collector H} {move : Collection H → Value → Value}
    (h : collector.Rewrites move) (roots : ContextRoots) (before : Moves) :
    Passes (fun _ => Follows roots before) (fun _ => True) (collect (collector.moving move)) := by
  rintro ⟨heap, arena, r, host⟩ ⟨moves, hhost, rfl⟩
  simp only [collect]
  generalize hc :
    Collection.mk (Heap.note _ _) (RootSet.toList (roots.map (movedBy moves))) host = c
  cases hresult : collector.moving move c with
  | ok u after =>
    obtain ⟨f, hroots, hrecord⟩ := h.moving hresult
    refine ⟨moves ++ [f], ?_, ?_⟩
    · rw [← List.append_assoc, ← hhost]
      rw [← hc] at hrecord
      exact hrecord
    · rw [hroots, ← hc]
      simp only
      rw [ContextRoots.refill_map, ContextRoots.map_movedBy_append]
  | error f after => trivial

end Mutator

namespace Machine

variable {α β : Type} {m m' : Machine (H × Moves)} {n : Nat}

def Leaves (n : Nat) (op : Action (H × Moves) α) : Prop :=
  ∀ m, (op m).state.host.2 = m.host.2 ∧
    ∀ i < n, ∀ v, m.context.stack[i]? = some v → (op m).state.context.stack[i]? = some v

/-- Actions that are made of allocations, collections and whatever leaves the first `n` places of
the value stack alone. What comes next may depend on anything that was read. -/
inductive Composed (collector : Collector (H × Moves)) (n : Nat) :
    {α : Type} → Action (H × Moves) α → Prop
  | leaving {α : Type} {op : Action (H × Moves) α} (h : Leaves n op) : Composed collector n op
  | allocate (pending : List Value) (l : Layout) :
    Composed collector n (onMutator pending (Mutator.allocate collector l))
  | collect (pending : List Value) :
    Composed collector n (onMutator pending (Mutator.collect collector))
  | bind {α β : Type} {op : Action (H × Moves) α} {f : α → Action (H × Moves) β}
    (h : Composed collector n op) (hf : ∀ a, Composed collector n (f a)) :
    Composed collector n (op >>= f)
  | attempt {α : Type} {op : Action (H × Moves) α} (h : Composed collector n op) :
    Composed collector n (attempt op)

structure Carried (n : Nat) (moves : Moves) (m m' : Machine (H × Moves)) : Prop where
  record : m'.host.2 = m.host.2 ++ moves
  places : ∀ i < n, ∀ v, m.context.stack[i]? = some v →
    m'.context.stack[i]? = some (movedBy moves v)

theorem Carried.trans {moves moves' : Moves} {m₁ : Machine (H × Moves)}
    (h : Carried n moves m m₁) (h' : Carried n moves' m₁ m') :
    Carried n (moves ++ moves') m m' := by
  constructor
  · rw [h'.record, h.record, List.append_assoc]
  · intro i hi v hv
    rw [h'.places i hi _ (h.places i hi v hv), movedBy, movedBy, movedBy, List.foldl_append]

def Stops (op : Action H α) (m m' : Machine H) : Prop :=
  (∃ a, op m = .ok a m') ∨ ∃ e, op m = .error (.error e) m'

theorem Stops.state {op : Action H α} {m m' : Machine H} (h : Stops op m m') :
    (op m).state = m' := by
  rcases h with ⟨a, h⟩ | ⟨e, h⟩
  · rw [h, Result.state_ok]
  · rw [h, Result.state_error]

section Composed

variable {collector : Collector H} {move : Collection H → Value → Value}

theorem Leaves.carried {op : Action (H × Moves) α} (h : Leaves n op) (hstops : Stops op m m') :
    Carried n [] m m' := by
  obtain ⟨hrecord, hplaces⟩ := h m
  rw [hstops.state] at hrecord hplaces
  exact ⟨hrecord.trans (List.append_nil _).symm, hplaces⟩

theorem onMutator_carried {op : Mutator.Action ContextRoots (H × Moves) α}
    (hop : ∀ roots before,
      Mutator.Passes (fun _ => Mutator.Follows roots before) (fun _ => True) op)
    {pending : List Value} (hstops : Stops (onMutator pending op) m m') :
    ∃ moves, Carried n moves m m' := by
  obtain ⟨⟨heap, keywords, ⟨defaults⟩, threads, stackSize⟩,
    ⟨number, arena, stack, slots, winders⟩, host⟩ := m
  let roots : ContextRoots := ⟨pending, stack, slots, winders, defaults⟩
  have hstart : Mutator.Follows roots host.2 roots host := by
    refine ⟨[], (List.append_nil _).symm, ?_⟩
    have hid : movedBy [] = id := rfl
    rw [hid]
    simp [ContextRoots.map]
  have hend := hop roots host.2 ⟨heap, arena, roots, host⟩ hstart
  simp only [Stops, onMutator] at hstops
  cases hresult : op ⟨heap, arena, roots, host⟩ with
  | ok a after =>
    rw [hresult] at hend hstops
    obtain ⟨moves, hhost, hroots⟩ := hend
    rcases hstops with ⟨a', hok⟩ | ⟨e, herror⟩
    · cases hok
      refine ⟨moves, hhost, fun i _ v hv => ?_⟩
      have hstack := congrArg (·.stack[i]?) hroots
      simp only [ContextRoots.map, Array.getElem?_map] at hstack
      change roots.stack[i]? = some v at hv
      rw [hv] at hstack
      exact hstack
    · cases herror
  | error f after =>
    rw [hresult] at hstops
    rcases hstops with ⟨a', hok⟩ | ⟨e, herror⟩
    · cases hok
    · cases herror

theorem Composed.carried (hmove : collector.Rewrites move) {op : Action (H × Moves) α}
    (h : Composed (collector.moving move) n op) (hstops : Stops op m m') :
    ∃ moves, Carried n moves m m' := by
  induction h generalizing m m' with
  | leaving h => exact ⟨[], h.carried hstops⟩
  | allocate pending l =>
    refine onMutator_carried (fun roots before => ?_) hstops
    exact (Mutator.collect_follows hmove roots before).allocate (fun _ _ => trivial) l
  | collect pending =>
    exact onMutator_carried (fun roots before => Mutator.collect_follows hmove roots before) hstops
  | @bind _ _ op f _ _ ih ihf =>
    cases hresult : op m with
    | ok a m₁ =>
      obtain ⟨moves, hop⟩ := ih (Or.inl ⟨a, hresult⟩)
      rw [Stops, bind_of_ok hresult] at hstops
      obtain ⟨moves', hf⟩ := ihf a hstops
      exact ⟨moves ++ moves', hop.trans hf⟩
    | error e m₁ =>
      rw [Stops, bind_of_error hresult] at hstops
      rcases hstops with ⟨b, hok⟩ | ⟨e, herror⟩
      · cases hok
      · cases herror
        exact ih (Or.inr ⟨e, hresult⟩)
  | @attempt _ op _ ih =>
    apply ih
    simp only [Stops, Machine.attempt] at hstops ⊢
    cases hresult : op m with
    | ok a m₁ =>
      rw [hresult] at hstops
      rcases hstops with ⟨b, hok⟩ | ⟨e, herror⟩
      · cases hok
        exact Or.inl ⟨a, rfl⟩
      · cases herror
    | error exit m₁ =>
      rw [hresult] at hstops
      rcases hstops with ⟨b, hok⟩ | ⟨e, herror⟩
      · cases exit with
        | fault f => cases hok
        | error e =>
          cases hok
          exact Or.inr ⟨e, rfl⟩
      · cases exit <;> cases herror

end Composed

namespace Leaves

theorem pure (a : α) : Leaves n (pure a : Action (H × Moves) α) :=
  fun _ => ⟨rfl, fun _ _ _ hv => hv⟩

theorem throw (e : Exit RuntimeError) : Leaves n (throw e : Action (H × Moves) α) :=
  fun _ => ⟨rfl, fun _ _ _ hv => hv⟩

theorem get : Leaves n (get : Action (H × Moves) (Machine (H × Moves))) :=
  fun _ => ⟨rfl, fun _ _ _ hv => hv⟩

theorem modifyVm (f : Vm → Vm) : Leaves n (modifyVm f : Action (H × Moves) Unit) :=
  fun _ => ⟨rfl, fun _ _ _ hv => hv⟩

theorem modifyContext {f : Context → Context} (hf : ∀ c, (f c).stack = c.stack) :
    Leaves n (modifyContext f : Action (H × Moves) Unit) := by
  refine fun m => ⟨rfl, fun i _ v hv => ?_⟩
  change (f m.context).stack[i]? = some v
  rw [hf]
  exact hv

theorem push (v : Value) : Leaves n (push v : Action (H × Moves) Unit) := by
  refine fun m => ⟨rfl, fun i _ w hw => ?_⟩
  change (m.context.stack.push v)[i]? = some w
  obtain ⟨hlt, hget⟩ := Array.getElem?_eq_some_iff.mp hw
  rw [Array.getElem?_push_lt hlt, hget]

theorem popWinder : Leaves n (popWinder : Action (H × Moves) Winder) := by
  intro m
  simp only [Machine.popWinder]
  cases m.context.winders.back? with
  | none => exact ⟨rfl, fun _ _ _ hv => hv⟩
  | some w => exact ⟨rfl, fun _ _ _ hv => hv⟩

end Leaves

namespace Composed

variable {collector : Collector (H × Moves)} {env : Embedder (H × Moves)}
  {body : Action (H × Moves) α}
  (henv : env.collector = collector) (hinvoke : ∀ v, Composed collector n (env.invoke v))

theorem depth : Composed collector n (depth : Action (H × Moves) Nat) :=
  .bind (.leaving .get) fun _ => .leaving (.pure _)

theorem resume (r : Except RuntimeError α) :
    Composed collector n (resume r : Action (H × Moves) α) := by
  cases r with
  | ok a => exact .leaving (.pure a)
  | error e => exact .leaving (.throw _)

theorem fluidSet (fluid : FluidId) (v : Value) :
    Composed collector n (fluidSet fluid v : Action (H × Moves) Unit) := by
  refine .bind (.leaving .get) fun m => ?_
  split
  · exact .leaving (.modifyContext fun c => Context.stack_setSlot c fluid.index v)
  · exact .leaving (.throw _)

theorem fluidRef (fluid : FluidId) :
    Composed collector n (fluidRef fluid : Action (H × Moves) Value) := by
  refine .bind (.leaving .get) fun m => ?_
  split
  · exact .leaving (.pure _)
  · cases m.vm.fluids.default fluid with
    | ok v => exact .leaving (.pure v)
    | error f => exact .leaving (.throw _)

theorem pushWinder (w : Winder) :
    Composed collector n (pushWinder w : Action (H × Moves) Unit) :=
  .leaving (.modifyContext fun _ => rfl)

theorem pushFluid (fluid : FluidId) (v : Value) :
    Composed collector n (pushFluid fluid v : Action (H × Moves) Unit) :=
  (fluidRef fluid).bind fun _ => (pushWinder _).bind fun _ => fluidSet fluid v

include henv in
theorem allocateObject (size : Nat) (pending : List Value) (image : List Value → List UInt64) :
    Composed collector n (allocateObject env size pending image) := by
  subst henv
  refine (allocate pending _).bind fun r => ?_
  exact (leaving (.modifyVm _)).bind fun _ => .leaving (.pure _)

include henv in
theorem collectAll : Composed collector n (Machine.collect env) := by
  subst henv
  exact (collect []).bind fun _ => .leaving (.pure _)

include hinvoke

theorem pushWind (entry exit : Value) : Composed collector n (pushWind env entry exit) :=
  (hinvoke entry).bind fun _ => pushWinder _

theorem pop : Composed collector n (pop env) := by
  refine (leaving .popWinder).bind fun w => ?_
  cases w with
  | fluid fluid previous v => exact fluidSet fluid previous
  | wind entry exit => exact hinvoke exit

theorem popTo (target k : Nat) : Composed collector n (popTo env target k) := by
  induction k with
  | zero =>
    refine depth.bind fun current => ?_
    split
    · exact .leaving (.throw _)
    · exact .leaving (.pure ())
  | succ k ih =>
    refine depth.bind fun current => ?_
    split
    · exact (pop hinvoke).bind fun _ => ih
    · exact .leaving (.pure ())

theorem unwindTo (target : Nat) : Composed collector n (unwindTo env target) := by
  refine depth.bind fun current => ?_
  split
  · exact (leaving (.modifyVm _)).bind fun _ => popTo hinvoke target _
  · exact .leaving (.throw _)

theorem withFluid (fluid : FluidId) (v : Value) (hbody : Composed collector n body) :
    Composed collector n (withFluid env fluid v body) :=
  depth.bind fun start => (pushFluid fluid v).bind fun _ => hbody.attempt.bind fun r =>
    (unwindTo hinvoke start).bind fun _ => resume r

theorem dynamicWind (entry exit : Value) (hbody : Composed collector n body) :
    Composed collector n (dynamicWind env entry body exit) :=
  depth.bind fun start => (pushWind hinvoke entry exit).bind fun _ => hbody.attempt.bind fun r =>
    (unwindTo hinvoke start).bind fun _ => resume r

end Composed

/-- The frame takes the operands as they were passed. Places of the value stack that hold them as
well have followed every collection of the entry action, so they agree with the frame if and only
if all the moves together lead back to the operands. -/
theorem pushWind_holds_operands_unmoved {collector : Collector H}
    {move : Collection H → Value → Value} (hmove : collector.Rewrites move)
    {env : Embedder (H × Moves)} {entry exit : Value} {i j : Nat}
    (hentry : Composed (collector.moving move) n (env.invoke entry)) (hi : i < n) (hj : j < n)
    (hentryAt : m.context.stack[i]? = some entry) (hexitAt : m.context.stack[j]? = some exit)
    (hrun : Ends (pushWind env entry exit) m none m') :
    ∃ moves, m'.host.2 = m.host.2 ++ moves ∧
      m'.context.winders.back? = some (.wind entry exit) ∧
      m'.context.stack[i]? = some (movedBy moves entry) ∧
      m'.context.stack[j]? = some (movedBy moves exit) ∧
      ((∃ entry' exit', m'.context.winders.back? = some (.wind entry' exit') ∧
        m'.context.stack[i]? = some entry' ∧ m'.context.stack[j]? = some exit') ↔
        movedBy moves entry = entry ∧ movedBy moves exit = exit) := by
  rcases Ends.bind_cases hrun with ⟨u, m₁, hinvoke, hpush⟩ | ⟨e, he, -⟩
  · obtain ⟨moves, hcarried⟩ := hentry.carried hmove (Or.inl ⟨u, hinvoke⟩)
    cases hpush
    have hback : (m₁.context.winders.push (.wind entry exit)).back? = some (.wind entry exit) :=
      Array.back?_push
    have hentry' := hcarried.places i hi entry hentryAt
    have hexit' := hcarried.places j hj exit hexitAt
    refine ⟨moves, hcarried.record, hback, hentry', hexit', ?_⟩
    constructor
    · rintro ⟨entry', exit', htop, hat, hat'⟩
      cases htop.symm.trans hback
      exact ⟨Option.some.inj (hentry'.symm.trans hat), Option.some.inj (hexit'.symm.trans hat')⟩
    · rintro ⟨hentryFixed, hexitFixed⟩
      exact ⟨entry, exit, hback, hentryFixed ▸ hentry', hexitFixed ▸ hexit'⟩
  · cases he

theorem pushWind_holds_operands_unmoved_twice :
    let collector : Collector (Unit × Moves) :=
      Collector.moving (CollectorPlan.shiftRoots 10) fun _ v => (v.shift 10).toOption.getD v
    let inner : Embedder (Unit × Moves) := ⟨collector, fun _ => pure (), 0⟩
    let env : Embedder (Unit × Moves) := ⟨collector, fun _ => do
      collect inner
      push .nil
      dynamicWind inner .nil (collect inner) .nil, 0⟩
    let m : Machine (Unit × Moves) :=
      ⟨default, { (default : Context) with stack := #[.fixnum 1, .fixnum 2] }, ((), [])⟩
    Composed collector 2 (env.invoke (.fixnum 1)) ∧ ∃ m', ∃ moves : Moves,
      Ends (pushWind env (.fixnum 1) (.fixnum 2)) m none m' ∧
      m'.context.stack = #[.fixnum 21, .fixnum 22, .nil] ∧
      m'.context.winders = #[.wind (.fixnum 1) (.fixnum 2)] ∧
      m'.host.2 = moves ∧ movedBy moves (.fixnum 1) = .fixnum 21 := by
  intro collector inner env m
  have hinner : ∀ v, Composed collector 2 (inner.invoke v) := fun v => .leaving (.pure ())
  have hcollect : Composed collector 2 (collect inner) := .collectAll rfl
  have hentry : Composed collector 2 (env.invoke (.fixnum 1)) :=
    hcollect.bind fun _ => (Composed.leaving (.push .nil)).bind fun _ =>
      .dynamicWind hinner .nil .nil hcollect
  let m' := (pushWind env (.fixnum 1) (.fixnum 2) m).state
  have hrun : Ends (pushWind env (.fixnum 1) (.fixnum 2)) m none m' := by rfl
  have hstack : m'.context.stack = #[.fixnum 21, .fixnum 22, .nil] := by decide +kernel
  have hmoves := CollectorPlan.shiftRoots_rewrites (H := Unit) 10
  obtain ⟨moves, hrecord, -, hplace, -⟩ := pushWind_holds_operands_unmoved hmoves hentry
    (by decide : 0 < 2) (by decide : 1 < 2) rfl rfl hrun
  rw [hstack] at hplace
  exact ⟨hentry, m', moves, hrun, hstack, by decide +kernel, hrecord,
    Option.some.inj hplace.symm⟩

theorem wind_frame_left_behind :
    let env : Embedder Unit := ⟨CollectorPlan.shiftRoots 10,
      fun _ => collect ⟨CollectorPlan.shiftRoots 10, Embedder.refuse, 0⟩, 0⟩
    let m : Machine Unit :=
      ⟨default, { (default : Context) with stack := #[.fixnum 1, .fixnum 2] }, ()⟩
    ∃ m', Ends (pushWind env (.fixnum 1) (.fixnum 2)) m none m' ∧
      m'.context.stack = #[.fixnum 11, .fixnum 12] ∧
      ¬ ∃ entry exit, m'.context.winders.back? = some (.wind entry exit) ∧
        m'.context.stack[0]? = some entry ∧ m'.context.stack[1]? = some exit := by
  intro env m
  let m' := (pushWind env (.fixnum 1) (.fixnum 2) m).state
  have hstack : m'.context.stack = #[.fixnum 11, .fixnum 12] := by decide +kernel
  have hwinders : m'.context.winders = #[.wind (.fixnum 1) (.fixnum 2)] := by decide +kernel
  refine ⟨m', rfl, hstack, ?_⟩
  rw [hstack, hwinders]
  rintro ⟨entry, exit, hback, hentry, -⟩
  cases hback
  exact absurd hentry (by decide)

end Machine

end VmSupport
