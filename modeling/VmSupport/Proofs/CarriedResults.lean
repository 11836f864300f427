import VmSupport.Proofs.WindOperands

/-!
The result of a body while the entries above are undone. The exit actions that run in between may
collect, and every collection may move objects; it replaces the roots, but the result that waits
for the unwinding to end is no root, and is passed on as the body gave it.
-/

namespace VmSupport.Machine

def carried? : Except RuntimeError Value → Option Value
  | .ok v => some v
  | .error (.nonLocalExit tag) => some tag
  | .error _ => none

variable {H : Type} {n : Nat} {m m₁ m₂ m' : Machine (H × Moves)}

/-- The result is what the body gave. A place of the value stack that held it as well has followed
every collection of the unwinding, so it still holds the result if and only if all the moves
together lead back to it. -/
theorem around_returns_result_unmoved {collector : Collector H}
    {move : Collection H → Value → Value} (hmove : collector.Rewrites move)
    {env : Embedder (H × Moves)}
    (hinvoke : ∀ v, Composed (collector.moving move) n (env.invoke v)) {scope : Scope}
    {body : Action (H × Moves) Value} {result : Except RuntimeError Value} {v : Value} {i : Nat}
    (henter : scope.enter env m = .ok () m₁) (hbody : attempt body m₁ = .ok result m₂)
    (hv : carried? result = some v) (hi : i < n) (hat : m₂.context.stack[i]? = some v)
    (hunwind : Ends (unwindTo env m.context.depth) m₂ none m') :
    ∃ moves, scope.around env body m = resume result m' ∧ m'.host.2 = m₂.host.2 ++ moves ∧
      m'.context.stack[i]? = some (movedBy moves v) ∧
      (carried? result = m'.context.stack[i]? ↔ movedBy moves v = v) := by
  have hcomposed : Composed (collector.moving move) n (unwindTo env m.context.depth) :=
    .unwindTo hinvoke _
  obtain ⟨moves, hcarried⟩ := hcomposed.carried hmove (Or.inl ⟨(), hunwind⟩)
  have hplace := hcarried.places i hi v hat
  refine ⟨moves, Scope.around_of_unwindTo henter hbody hunwind, hcarried.record, hplace, ?_⟩
  rw [hv, hplace, Option.some.injEq]
  exact eq_comm

theorem around_returns_result_unmoved_twice :
    let collector : Collector (Unit × Moves) :=
      Collector.moving (CollectorPlan.shiftRoots 10) fun _ v => (v.shift 10).toOption.getD v
    let inner : Embedder (Unit × Moves) := ⟨collector, fun _ => pure (), 0⟩
    let env : Embedder (Unit × Moves) :=
      ⟨collector, fun v => if v = .nil then pure () else collect inner, 0⟩
    let scope : Scope := .wind .nil (.fixnum 3)
    let body : Action (Unit × Moves) Value := do
      pushWind env .nil (.fixnum 4)
      escape (.nonLocalExit (.fixnum 1))
    let result : Except RuntimeError Value := .error (.nonLocalExit (.fixnum 1))
    let m : Machine (Unit × Moves) :=
      ⟨default, { (default : Context) with stack := #[.fixnum 1] }, ((), [])⟩
    (∀ v, Composed collector 1 (env.invoke v)) ∧ ∃ m₁ m₂ m', ∃ moves : Moves,
      scope.enter env m = .ok () m₁ ∧ attempt body m₁ = .ok result m₂ ∧
      m₂.context.stack[0]? = some (.fixnum 1) ∧
      Ends (unwindTo env m.context.depth) m₂ none m' ∧
      scope.around env body m = resume result m' ∧ m'.host.2 = m₂.host.2 ++ moves ∧
      movedBy moves (.fixnum 1) = .fixnum 21 ∧ m'.context.stack = #[.fixnum 21] := by
  intro collector inner env scope body result m
  have hinvoke : ∀ v, Composed collector 1 (env.invoke v) := by
    intro v
    by_cases hv : v = .nil
    · simp only [env, hv, ↓reduceIte]
      exact .leaving (.pure ())
    · simp only [env, hv, ↓reduceIte]
      exact .collectAll rfl
  let m₁ := (scope.enter env m).state
  let m₂ := (attempt body m₁).state
  let m' := (unwindTo env 0 m₂).state
  have henter : scope.enter env m = .ok () m₁ := by rfl
  have hbody : attempt body m₁ = .ok result m₂ := by rfl
  have hunwind : Ends (unwindTo env m.context.depth) m₂ none m' := by rfl
  have hat : m₂.context.stack[0]? = some (.fixnum 1) := by rfl
  have hstack : m'.context.stack = #[.fixnum 21] := by decide +kernel
  have hmoves := CollectorPlan.shiftRoots_rewrites (H := Unit) 10
  obtain ⟨moves, haround, hrecord, hplace, -⟩ := around_returns_result_unmoved hmoves hinvoke henter
    hbody rfl (by decide : 0 < 1) hat hunwind
  rw [hstack] at hplace
  exact ⟨hinvoke, m₁, m₂, m', moves, henter, hbody, hat, hunwind, haround, hrecord,
    Option.some.inj hplace.symm, hstack⟩

theorem tag_left_behind :
    let env : Embedder Unit := ⟨CollectorPlan.shiftRoots 10, fun v => if v = .fixnum 3 then
      collect ⟨CollectorPlan.shiftRoots 10, Embedder.refuse, 0⟩ else pure (), 0⟩
    let body : Action Unit Value := escape (.nonLocalExit (.fixnum 1))
    let m : Machine Unit :=
      ⟨default, { (default : Context) with stack := #[.fixnum 1] }, ()⟩
    ∃ m₁ m', pushWind env (.fixnum 2) (.fixnum 3) m = .ok () m₁ ∧
      attempt body m₁ = .ok (.error (.nonLocalExit (.fixnum 1))) m₁ ∧
      m₁.context.stack = #[.fixnum 1] ∧
      dynamicWind env (.fixnum 2) body (.fixnum 3) m =
        .error (.error (.nonLocalExit (.fixnum 1))) m' ∧
      m'.context.stack = #[.fixnum 11] := by
  intro env body m
  let m' := (dynamicWind env (.fixnum 2) body (.fixnum 3) m).state
  exact ⟨_, m', rfl, rfl, rfl, rfl, by decide +kernel⟩

end VmSupport.Machine
