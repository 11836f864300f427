import VmSupport.Proofs.FluidSlots
import VmSupport.Proofs.Outcome

namespace VmSupport

namespace Machine

variable {H : Type} {m m₁ m₂ : Machine H} {r r' : Option RuntimeError} {e : RuntimeError}

def outcome : Option RuntimeError → Machine H → EStateM.Result (Exit RuntimeError) (Machine H) Unit
  | none, m => .ok () m
  | some e, m => .error (.error e) m

def Ends (op : Action H Unit) (m : Machine H) (r : Option RuntimeError) (m' : Machine H) : Prop :=
  op m = outcome r m'

namespace Ends

theorem bind {op : Action H Unit} {f : Unit → Action H Unit} (h : Ends op m none m₁)
    (hf : Ends (f ()) m₁ r m₂) : Ends (op >>= f) m r m₂ := by
  have hop : op m = .ok () m₁ := h
  change EStateM.bind op f m = _
  simp only [EStateM.bind, hop]
  exact hf

theorem bind_error {op : Action H Unit} {f : Unit → Action H Unit} (h : Ends op m (some e) m₁) :
    Ends (op >>= f) m (some e) m₁ := by
  have hop : op m = .error (.error e) m₁ := h
  change EStateM.bind op f m = _
  simp only [EStateM.bind, hop]
  rfl

theorem bind_cases {α : Type} {op : Action H α} {f : α → Action H Unit}
    (h : Ends (op >>= f) m r m₂) :
    (∃ a m₁, op m = .ok a m₁ ∧ Ends (f a) m₁ r m₂) ∨
      ∃ e, r = some e ∧ op m = .error (.error e) m₂ := by
  cases hop : op m with
  | ok a m₁ =>
    rw [Ends, EStateM.bind_of_ok hop] at h
    exact Or.inl ⟨a, m₁, rfl, h⟩
  | error exit m₁ =>
    rw [Ends, EStateM.bind_of_error hop] at h
    cases r with
    | none => cases h
    | some e =>
      cases h
      exact Or.inr ⟨e, rfl, rfl⟩

theorem attempt {body : Action H Unit} (h : Ends body m r m₁) :
    attempt body m = .ok (match r with | none => .ok () | some e => .error e) m₁ := by
  have hbody : body m = outcome r m₁ := h
  cases r <;> simp only [Machine.attempt, hbody, outcome]

theorem cleanup {body undo : Action H Unit} (hbody : Ends body m r m₁)
    (hundo : Ends undo m₁ r' m₂) :
    Ends (do let result ← Machine.attempt body; undo; resume result) m (r'.or r) m₂ := by
  change EStateM.bind (Machine.attempt body) _ m = _
  simp only [EStateM.bind, hbody.attempt]
  cases r' with
  | none =>
    apply Ends.bind hundo
    cases r <;> rfl
  | some e' => exact Ends.bind_error hundo

end Ends

structure SameStack (m m' : Machine H) : Prop where
  winders : m'.context.winders = m.context.winders
  fluids_le : m.vm.fluids.size ≤ m'.vm.fluids.size

theorem SameStack.refl (m : Machine H) : SameStack m m := ⟨rfl, Nat.le_refl _⟩

theorem SameStack.trans (h : SameStack m m₁) (h' : SameStack m₁ m₂) : SameStack m m₂ :=
  ⟨h'.winders.trans h.winders, Nat.le_trans h.fluids_le h'.fluids_le⟩

inductive Scope
  | binding (fluid : FluidId) (v : Value)
  | wind (entry exit : Value)

namespace Scope

variable {α : Type} {env : Embedder H}

def enter (env : Embedder H) : Scope → Action H Unit
  | binding fluid v => pushFluid fluid v
  | wind entry exit => pushWind env entry exit

def around (env : Embedder H) (body : Action H α) : Scope → Action H α
  | binding fluid v => withFluid env fluid v body
  | wind entry exit => dynamicWind env entry body exit

theorem around_of_unwindTo {body : Action H α} {scope : Scope} {m₃ : Machine H}
    {result : Except RuntimeError α} (henter : scope.enter env m = .ok () m₁)
    (hbody : attempt body m₁ = .ok result m₂)
    (hunwind : Ends (unwindTo env m.context.depth) m₂ r m₃) :
    scope.around env body m = (r.elim (resume result) escape) m₃ := by
  have haround : scope.around env body m =
      (attempt body >>= fun result => unwindTo env m.context.depth >>= fun _ => resume result)
        m₁ := by
    cases scope <;> exact (EStateM.bind_of_ok rfl).trans (EStateM.bind_of_ok henter)
  refine haround.trans ((EStateM.bind_of_ok hbody).trans ?_)
  cases r with
  | none => exact EStateM.bind_of_ok hunwind
  | some e => exact EStateM.bind_of_error hunwind

end Scope

section Unwind

variable {env : Embedder H} {ws : Array Winder}

theorem popTo_of_depth_le {target : Nat} (h : m.context.depth ≤ target) (n : Nat) :
    popTo env target n m = .ok () m := by
  have hlt : ¬ target < m.context.depth := Nat.not_lt.mpr h
  cases n with
  | zero =>
    simp only [popTo, bind, EStateM.bind, depth, get, getThe, MonadStateOf.get, EStateM.get, pure,
      EStateM.pure, hlt, ↓reduceIte]
  | succ n =>
    simp only [popTo, bind, EStateM.bind, depth, get, getThe, MonadStateOf.get, EStateM.get, pure,
      EStateM.pure, hlt, ↓reduceIte]

theorem popTo_of_lt_depth {target n : Nat} (h : target < m.context.depth) :
    popTo env target (n + 1) m = (pop env >>= fun _ => popTo env target n) m := by
  simp only [popTo, bind, EStateM.bind, depth, get, getThe, MonadStateOf.get, EStateM.get, pure,
    EStateM.pure, h, ↓reduceIte]

theorem popTo_zero_of_lt_depth {target : Nat} (h : target < m.context.depth) :
    popTo env target 0 m = .error (.fault .allowanceSpent) m := by
  simp only [popTo, bind, EStateM.bind, depth, get, getThe, MonadStateOf.get, EStateM.get, pure,
    EStateM.pure, h, ↓reduceIte]
  rfl

theorem popTo_one {n : Nat} (hdepth : ws.size < m.context.depth) (hpop : Ends (pop env) m r m₁)
    (hws : r = none → m₁.context.winders = ws) : Ends (popTo env ws.size (n + 1)) m r m₁ := by
  have hends : Ends (pop env >>= fun _ => popTo env ws.size n) m r m₁ := by
    cases r with
    | none =>
      apply Ends.bind hpop
      have hdone : m₁.context.depth = ws.size := by rw [Context.depth, hws rfl]
      exact popTo_of_depth_le (Nat.le_of_eq hdone) n
    | some e => exact Ends.bind_error hpop
  exact (popTo_of_lt_depth hdepth).trans hends

theorem unwindTo_of_le {target : Nat} (h : target ≤ m.context.depth) :
    unwindTo env target m = popTo env target (m.context.depth - target + env.allowance)
      { m with vm := { m.vm with
        heap := m.vm.heap.note (.unwinding m.context.depth target) } } := by
  simp only [unwindTo, bind, EStateM.bind, depth, get, getThe, MonadStateOf.get, EStateM.get, pure,
    EStateM.pure, h, ↓reduceIte]
  rfl

theorem unwindTo_one (env : Embedder H) {w : Winder} (hw : m.context.winders = ws.push w) :
    ∃ m', m'.context = m.context ∧ m'.vm.fluids = m.vm.fluids ∧ m'.host = m.host ∧
      ∀ r m₁, Ends (pop env) m' r m₁ → (r = none → m₁.context.winders = ws) →
        Ends (unwindTo env ws.size) m r m₁ := by
  have hdepth : m.context.depth = ws.size + 1 := by
    rw [Context.depth, hw, Array.size_push]
  refine ⟨{ m with vm := { m.vm with
    heap := m.vm.heap.note (.unwinding m.context.depth ws.size) } }, rfl, rfl, rfl, ?_⟩
  intro r m₁ hpop hws
  have hcount : m.context.depth - ws.size + env.allowance = env.allowance + 1 := by omega
  unfold Ends
  rw [unwindTo_of_le (by omega), hcount]
  apply popTo_one _ hpop hws
  change ws.size < m.context.depth
  omega

theorem withFluid_ends (env : Embedder H) {fluid : FluidId}
    (hfluid : fluid.index < m.vm.fluids.size) (v : Value) (body : Action H Unit) :
    ∃ m₁, m₁.host = m.host ∧ m₁.vm.fluids = m.vm.fluids ∧
      ∀ r m₂, Ends body m₁ r m₂ → SameStack m₁ m₂ →
        ∃ m₃, Ends (withFluid env fluid v body) m r m₃ ∧ SameStack m m₃ ∧ m₃.host = m₂.host ∧
          readSlot m₃.vm.fluids m₃.context.slots fluid =
            readSlot m.vm.fluids m.context.slots fluid := by
  obtain ⟨previous, hprevious⟩ := readSlot_of_lt hfluid m.context.slots
  let bound : Context :=
    { m.context with winders := m.context.winders.push (.fluid fluid previous v) }
  have hpush : pushFluid fluid v m = .ok () { m with context := bound.setSlot fluid.index v } := by
    simp only [pushFluid_apply, hprevious, fluidSet_apply, hfluid, or_true, ↓reduceIte]
    rfl
  refine ⟨{ m with context := bound.setSlot fluid.index v }, rfl, rfl, ?_⟩
  intro r m₂ hbody hsame
  have hwinders : m₂.context.winders = m.context.winders.push (.fluid fluid previous v) :=
    hsame.winders.trans (winders_setSlot bound fluid.index v)
  obtain ⟨m', hcontext, hfluids, hhost, hunwind⟩ := unwindTo_one env hwinders
  have hfluid' : fluid.index < m'.vm.fluids.size := by
    rw [hfluids]
    exact Nat.lt_of_lt_of_le hfluid hsame.fluids_le
  let unbound : Context := { m'.context with winders := m.context.winders }
  have hpop : Ends (pop env) m' none
      { m' with context := unbound.setSlot fluid.index previous } := by
    rw [← hcontext] at hwinders
    unfold Ends
    simp only [pop, bind, EStateM.bind, popWinder_push hwinders, fluidSet_apply, hfluid', or_true,
      ↓reduceIte]
    rfl
  have hundo := hunwind none _ hpop fun _ => winders_setSlot _ _ _
  refine ⟨{ m' with context := unbound.setSlot fluid.index previous },
    Ends.bind hpush (Ends.cleanup hbody hundo), ⟨winders_setSlot _ _ _, ?_⟩, hhost, ?_⟩
  · change m.vm.fluids.size ≤ m'.vm.fluids.size
    rw [hfluids]
    exact hsame.fluids_le
  · rw [readSlot_setSlot, Function.update_self, hprevious]

theorem dynamicWind_refused {entry exit : Value} {body : Action H Unit}
    (hentry : Ends (env.invoke entry) m (some e) m₁) :
    Ends (dynamicWind env entry body exit) m (some e) m₁ :=
  Ends.bind_error (Ends.bind_error hentry)

theorem dynamicWind_ends {entry exit : Value} {body : Action H Unit}
    (hentry : Ends (env.invoke entry) m none m₁) (hsame : SameStack m m₁) :
    ∃ m₂, m₂.host = m₁.host ∧ m₂.vm.fluids = m₁.vm.fluids ∧
      ∀ r m₃, Ends body m₂ r m₃ → SameStack m₂ m₃ →
        ∃ m₄, m₄.host = m₃.host ∧ SameStack m m₄ ∧
          ∀ r' m₅, Ends (env.invoke exit) m₄ r' m₅ → SameStack m₄ m₅ →
            Ends (dynamicWind env entry body exit) m (r'.or r) m₅ := by
  refine ⟨{ m₁ with context := { m₁.context with
    winders := m₁.context.winders.push (.wind entry exit) } }, rfl, rfl, ?_⟩
  intro r m₃ hbody hsame₃
  have hwinders : m₃.context.winders = m.context.winders.push (.wind entry exit) := by
    rw [hsame₃.winders, hsame.winders]
  obtain ⟨m', hcontext, hfluids, hhost, hunwind⟩ := unwindTo_one env hwinders
  refine ⟨{ m' with context := { m'.context with winders := m.context.winders } }, hhost,
    ⟨rfl, ?_⟩, ?_⟩
  · change m.vm.fluids.size ≤ m'.vm.fluids.size
    rw [hfluids]
    exact Nat.le_trans hsame.fluids_le hsame₃.fluids_le
  · intro r' m₅ hexit hsame₅
    have hpop : Ends (pop env) m' r' m₅ := by
      rw [← hcontext] at hwinders
      unfold Ends
      simp only [pop, bind, EStateM.bind, popWinder_push hwinders]
      exact hexit
    have hundo := hunwind r' m₅ hpop fun _ => hsame₅.winders
    have hpush : Ends (pushWind env entry exit) m none _ := Ends.bind hentry rfl
    exact Ends.bind hpush (Ends.cleanup hbody hundo)

end Unwind

end Machine

end VmSupport
