import VmSupport.Proofs.BalancedUnwinding

namespace VmSupport

inductive Winder.Undone : Winder → List WindEvent → Option RuntimeError → Prop
  | fluid (fluid : FluidId) (previous value : Value) : Undone (.fluid fluid previous value) [] none
  | wind (entry exit : Value) (r : Option RuntimeError) :
    Undone (.wind entry exit) [.call exit r] r

/-- Entries are undone, the topmost first, until an exit action escapes; then the rest is left. -/
inductive Undoes : List Winder → List WindEvent → Option RuntimeError → List Winder → Prop
  | done : Undoes [] [] none []
  | cons {w ws ts us r rest} (h : Winder.Undone w ts none) (hws : Undoes ws us r rest) :
    Undoes (w :: ws) (ts ++ us) r rest
  | escaped {w ts e} (h : Winder.Undone w ts (some e)) (ws : List Winder) :
    Undoes (w :: ws) ts (some e) ws

namespace Undoes

variable {w : Winder} {ws rest : List Winder} {ts : List WindEvent} {r : Option RuntimeError}

theorem concat_cases (h : Undoes (ws ++ [w]) ts r rest) :
    (∃ us vs, Undoes ws us none [] ∧ w.Undone vs r ∧ ts = us ++ vs ∧ rest = []) ∨
      ∃ e rest', r = some e ∧ Undoes ws ts (some e) rest' ∧ rest = rest' ++ [w] := by
  induction ws generalizing ts r rest with
  | nil =>
    left
    cases h with
    | cons hw hnil =>
      cases hnil
      exact ⟨[], _, .done, hw, List.append_nil _, rfl⟩
    | escaped hw _ => exact ⟨[], _, .done, hw, rfl, rfl⟩
  | cons v ws ih =>
    cases h with
    | cons hv hws =>
      rcases ih hws with ⟨us, vs, hus, hw, rfl, rfl⟩ | ⟨e, rest', rfl, hrest, rfl⟩
      · exact Or.inl ⟨_, vs, .cons hv hus, hw, (List.append_assoc ..).symm, rfl⟩
      · exact Or.inr ⟨e, rest', rfl, .cons hv hrest, rfl⟩
    | escaped hv _ => exact Or.inr ⟨_, ws, rfl, .escaped hv ws, rfl⟩

end Undoes

namespace Machine

variable {H α : Type} {env : Embedder H} {m m₁ m₃ : Machine (H × List WindEvent)}

theorem pop_undone (henv : env.IsBalanced) {ws : Array Winder} {w : Winder}
    (hw : m.context.winders = ws.push w)
    (hfluid : ∀ fluid previous value, w = .fluid fluid previous value →
      fluid.index < m.vm.fluids.size) :
    ∃ ts r m', Ends (pop env.recording) m r m' ∧ w.Undone ts r ∧ m'.context.winders = ws ∧
      m.vm.fluids.size ≤ m'.vm.fluids.size ∧ m'.host.2 = m.host.2 ++ ts := by
  let popped : Machine (H × List WindEvent) :=
    { m with context := { m.context with winders := ws } }
  cases w with
  | fluid fluid previous value =>
    have hset : fluidSet fluid previous popped = .ok () { popped with
        context := popped.context.setSlot fluid.index previous } := by
      rw [fluidSet_apply, if_pos (Or.inr (hfluid fluid previous value rfl))]
    refine ⟨[], none, _, (EStateM.bind_of_ok (popWinder_push hw)).trans hset, .fluid .., ?_, le_rfl,
      (List.append_nil _).symm⟩
    exact winders_setSlot _ _ _
  | wind entry exit =>
    obtain ⟨r, m', hexit, hsame, hhost⟩ := recording_ends henv exit popped
    exact ⟨_, r, m', (EStateM.bind_of_ok (popWinder_push hw)).trans hexit, .wind entry exit r,
      hsame.winders, hsame.fluids_le, hhost⟩

theorem popTo_undoes (henv : env.IsBalanced) {below : List Winder} (ws : List Winder) {n : Nat}
    (hw : m.context.winders.toList = below ++ ws.reverse)
    (hfluids : ∀ fluid previous value, .fluid fluid previous value ∈ ws →
      fluid.index < m.vm.fluids.size) (hn : ws.length ≤ n) :
    ∃ ts r rest m', Ends (popTo env.recording below.length n) m r m' ∧ Undoes ws ts r rest ∧
      m'.context.winders.toList = below ++ rest.reverse ∧ m'.host.2 = m.host.2 ++ ts := by
  have hdepth : m.context.depth = below.length + ws.length := by
    rw [Context.depth, ← Array.length_toList, hw, List.length_append, List.length_reverse]
  induction ws generalizing m n with
  | nil =>
    refine ⟨[], none, [], m, popTo_of_depth_le (Nat.le_of_eq hdepth) n, .done, hw, ?_⟩
    exact (List.append_nil _).symm
  | cons w ws ih =>
    obtain ⟨n, rfl⟩ : ∃ k, n = k + 1 := Nat.exists_eq_add_of_le' (Nat.le_of_add_left_le hn)
    have hpush : m.context.winders = (below ++ ws.reverse).toArray.push w := by
      apply Array.toList_inj.mp
      rw [hw, List.reverse_cons, Array.toList_push, List.append_assoc]
    obtain ⟨ts, r, m₁, hpop, hundone, hwinders, hle, hhost⟩ := pop_undone henv hpush
      fun fluid previous value heq => hfluids fluid previous value (heq ▸ List.mem_cons_self)
    have hlt : below.length < m.context.depth := by
      rw [hdepth, List.length_cons]
      omega
    have hstep : popTo env.recording below.length (n + 1) m =
        (pop env.recording >>= fun _ => popTo env.recording below.length n) m :=
      popTo_of_lt_depth hlt
    cases r with
    | some e =>
      refine ⟨ts, some e, ws, m₁, hstep.trans (Ends.bind_error hpop), .escaped hundone ws, ?_,
        hhost⟩
      rw [hwinders]
    | none =>
      obtain ⟨us, r, rest, m₂, hpopTo, hundoes, hrest, hhost'⟩ := ih (m := m₁) (n := n)
        (by rw [hwinders])
        (fun fluid previous value hmem =>
          (hfluids fluid previous value (List.mem_cons_of_mem w hmem)).trans_le hle)
        (Nat.le_of_succ_le_succ hn)
        (by rw [Context.depth, hwinders, List.size_toArray, List.length_append,
          List.length_reverse])
      refine ⟨ts ++ us, r, rest, m₂, hstep.trans (Ends.bind hpop hpopTo), .cons hundone hundoes,
        hrest, ?_⟩
      rw [hhost', hhost, List.append_assoc]

theorem unwindTo_undoes (henv : env.IsBalanced) {below ws : List Winder}
    (hw : m.context.winders.toList = below ++ ws.reverse)
    (hfluids : ∀ fluid previous value, .fluid fluid previous value ∈ ws →
      fluid.index < m.vm.fluids.size) :
    ∃ ts r rest m', Ends (unwindTo env.recording below.length) m r m' ∧ Undoes ws ts r rest ∧
      m'.context.winders.toList = below ++ rest.reverse ∧ m'.host.2 = m.host.2 ++ ts := by
  have hdepth : m.context.depth = below.length + ws.length := by
    rw [Context.depth, ← Array.length_toList, hw, List.length_append, List.length_reverse]
  obtain ⟨ts, r, rest, m', hpopTo, h⟩ := popTo_undoes henv ws
    (m := { m with vm := { m.vm with
      heap := m.vm.heap.note (.unwinding m.context.depth below.length) } })
    (n := m.context.depth - below.length + env.recording.allowance) hw hfluids (by omega)
  exact ⟨ts, r, rest, m', (unwindTo_of_le (by omega)).trans hpopTo, h⟩

theorem winders_of_ends (henv : env.IsBalanced) {v : Value} {r : Option RuntimeError}
    (h : Ends (env.recording.invoke v) m r m₁) : m₁.context.winders = m.context.winders := by
  obtain ⟨r', m', hends, hsame, -⟩ := recording_ends henv v m
  have heq : outcome r m₁ = outcome r' m' := h.symm.trans hends
  cases r <;> cases r' <;> cases heq <;> exact hsame.winders

def withWind (m : Machine H) (entry exit : Value) : Machine H :=
  { m with context := { m.context with winders := m.context.winders.push (.wind entry exit) } }

/-- However the body of a wind frame ends and whatever entries it leaves above the frame: either
these are all undone, and the exit action of the frame is called once, last of all, with the dynamic
stack back as it was; or the exit action of one of them escapes, and then the frame is still there,
and its own exit action is not called. -/
theorem dynamicWind_undoes_leftover (henv : env.IsBalanced) {entry exit : Value}
    {body : Action (H × List WindEvent) α} {result : Except RuntimeError α} {left : List Winder}
    (hentry : Ends (env.recording.invoke entry) m none m₁)
    (hbody : attempt body (m₁.withWind entry exit) = .ok result m₃)
    (hleft : m₃.context.winders.toList = (m₁.withWind entry exit).context.winders.toList ++ left)
    (hfluids : ∀ fluid previous value, .fluid fluid previous value ∈ left →
      fluid.index < m₃.vm.fluids.size) :
    (∃ ts r m', dynamicWind env.recording entry body exit m = (r.elim (resume result) escape) m' ∧
      Undoes left.reverse ts none [] ∧ m'.host.2 = m₃.host.2 ++ ts ++ [.call exit r] ∧
      m'.context.winders = m.context.winders) ∨
    ∃ ts e rest m', dynamicWind env.recording entry body exit m = .error (.error e) m' ∧
      Undoes left.reverse ts (some e) rest ∧ m'.host.2 = m₃.host.2 ++ ts ∧
      m'.context.winders.toList =
        m.context.winders.toList ++ .wind entry exit :: rest.reverse := by
  have hwinders₁ := winders_of_ends henv hentry
  have hw : m₃.context.winders.toList =
      m.context.winders.toList ++ (left.reverse ++ [Winder.wind entry exit]).reverse := by
    rw [hleft, withWind, hwinders₁, Array.toList_push, List.reverse_append, List.reverse_reverse,
      List.append_assoc, List.reverse_singleton]
  obtain ⟨ts, r, rest, m', hunwind, hundoes, hrest, hhost⟩ := unwindTo_undoes henv hw
    fun fluid previous value hmem => hfluids fluid previous value (by simpa using hmem)
  have henter : (Scope.wind entry exit).enter env.recording m = .ok () (m₁.withWind entry exit) :=
    (EStateM.bind_of_ok hentry).trans rfl
  have hends := Scope.around_of_unwindTo henter hbody (Array.length_toList ▸ hunwind)
  rcases hundoes.concat_cases with ⟨us, _, hus, ⟨⟩, rfl, rfl⟩ | ⟨e, rest, rfl, hts, rfl⟩
  · refine Or.inl ⟨us, r, m', hends, hus, hhost.trans (List.append_assoc ..).symm, ?_⟩
    exact Array.toList_inj.mp (hrest.trans (List.append_nil _))
  · refine Or.inr ⟨ts, e, rest, m', hends, hts, hhost, ?_⟩
    rw [hrest, List.reverse_append, List.reverse_singleton, List.singleton_append]

def escapingOn (v : Value) (e : RuntimeError) : Embedder Unit :=
  ⟨.none, fun w => if w = v then escape e else pure (), 0⟩

theorem escapingOn_isBalanced (v : Value) (e : RuntimeError) : (escapingOn v e).IsBalanced := by
  intro w m
  by_cases hw : w = v
  · refine ⟨some e, m, ?_, SameStack.refl m⟩
    simp only [escapingOn, Ends, hw, ↓reduceIte]
    rfl
  · refine ⟨none, m, ?_, SameStack.refl m⟩
    simp only [escapingOn, Ends, hw, ↓reduceIte]
    rfl

theorem dynamicWind_undoes_leftover_escaping :
    let env : Embedder Unit := escapingOn (.fixnum 9) (.nonLocalExit (.fixnum 7))
    let body : Action (Unit × List WindEvent) Unit := do
      pushFluid ⟨0⟩ (.fixnum 5)
      pushWind env.recording (.fixnum 3) (.fixnum 4)
      escape (.nonLocalExit .nil)
    let left : List Winder := [.fluid ⟨0⟩ (.fixnum 0) (.fixnum 5), .wind (.fixnum 3) (.fixnum 4)]
    let m : Machine (Unit × List WindEvent) :=
      ⟨{ (default : Vm) with fluids := ⟨#[.fixnum 0]⟩ }, default, (), []⟩
    env.IsBalanced ∧ ∃ m₁ m₃, Ends (env.recording.invoke (.fixnum 1)) m none m₁ ∧
      attempt body (m₁.withWind (.fixnum 1) (.fixnum 2)) =
        .ok (.error (.nonLocalExit .nil)) m₃ ∧
      m₃.context.winders.toList =
        (m₁.withWind (.fixnum 1) (.fixnum 2)).context.winders.toList ++ left ∧
      (∀ fluid previous value, .fluid fluid previous value ∈ left →
        fluid.index < m₃.vm.fluids.size) ∧
      ((∃ ts r m', dynamicWind env.recording (.fixnum 1) body (.fixnum 2) m =
          (r.elim (resume (.error (.nonLocalExit .nil))) escape) m' ∧
        Undoes left.reverse ts none [] ∧ m'.host.2 = m₃.host.2 ++ ts ++ [.call (.fixnum 2) r] ∧
        m'.context.winders = #[]) ∨
      ∃ ts e rest m', dynamicWind env.recording (.fixnum 1) body (.fixnum 2) m =
          .error (.error e) m' ∧
        Undoes left.reverse ts (some e) rest ∧ m'.host.2 = m₃.host.2 ++ ts ∧
        m'.context.winders.toList = .wind (.fixnum 1) (.fixnum 2) :: rest.reverse) := by
  intro env body left m
  have henv : env.IsBalanced := escapingOn_isBalanced _ _
  let m₁ := (env.recording.invoke (.fixnum 1) m).state
  let m₃ := (attempt body (m₁.withWind (.fixnum 1) (.fixnum 2))).state
  have hentry : Ends (env.recording.invoke (.fixnum 1)) m none m₁ := by rfl
  have hbody : attempt body (m₁.withWind (.fixnum 1) (.fixnum 2)) =
      .ok (.error (.nonLocalExit .nil)) m₃ := by rfl
  have hleft : m₃.context.winders.toList =
      (m₁.withWind (.fixnum 1) (.fixnum 2)).context.winders.toList ++ left := by rfl
  have hfluids : ∀ fluid previous value, .fluid fluid previous value ∈ left →
      fluid.index < m₃.vm.fluids.size := by
    intro fluid previous value hmem
    have hsize : m₃.vm.fluids.size = 1 := by rfl
    simp only [left, List.mem_cons, Winder.fluid.injEq, reduceCtorEq, List.not_mem_nil, or_self,
      or_false] at hmem
    rw [hmem.1, hsize]
    exact Nat.zero_lt_one
  exact ⟨henv, m₁, m₃, hentry, hbody, hleft, hfluids,
    dynamicWind_undoes_leftover henv hentry hbody hleft hfluids⟩

theorem exit_left_out :
    let env : Embedder Unit := escapingOn (.fixnum 9) (.nonLocalExit (.fixnum 7))
    let body : Action (Unit × List WindEvent) Unit :=
      pushWind env.recording (.fixnum 3) (.fixnum 9)
    let m : Machine (Unit × List WindEvent) := ⟨default, default, (), []⟩
    env.IsBalanced ∧ ∃ m₁ m₃ m', Ends (env.recording.invoke (.fixnum 1)) m none m₁ ∧
      attempt body (m₁.withWind (.fixnum 1) (.fixnum 2)) = .ok (.ok ()) m₃ ∧
      m₃.context.winders.toList = (m₁.withWind (.fixnum 1) (.fixnum 2)).context.winders.toList ++
        [.wind (.fixnum 3) (.fixnum 9)] ∧
      Ends (dynamicWind env.recording (.fixnum 1) body (.fixnum 2)) m
        (some (.nonLocalExit (.fixnum 7))) m' ∧
      m'.host.2 = [.call (.fixnum 1) none, .call (.fixnum 3) none,
        .call (.fixnum 9) (some (.nonLocalExit (.fixnum 7)))] ∧
      m.context.depth = 0 ∧ m'.context.depth = 1 := by
  intro env body m
  let m₁ := (env.recording.invoke (.fixnum 1) m).state
  let m₃ := (attempt body (m₁.withWind (.fixnum 1) (.fixnum 2))).state
  exact ⟨escapingOn_isBalanced _ _, m₁, m₃, _, by rfl, by rfl, by rfl, by rfl, by rfl, rfl, by rfl⟩

end Machine

end VmSupport
