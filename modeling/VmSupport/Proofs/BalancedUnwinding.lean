import VmSupport.Proofs.Record
import VmSupport.Proofs.Unwinding

namespace VmSupport

inductive WindProgram
  | done
  | fluidSet (fluid : FluidId) (v : Value)
  | fluidRef (fluid : FluidId) (next : Value → WindProgram)
  | escape (tag : Value)
  | seq (p q : WindProgram)
  | withFluid (fluid : FluidId) (v : Value) (body : WindProgram)
  | dynamicWind (entry : Value) (body : WindProgram) (exit : Value)

inductive WindEvent
  | call (procedure : Value) (escaped : Option RuntimeError)
  | escaped (e : RuntimeError)
  | rebound (fluid : FluidId) (before after : Value)

section Recording

variable {H : Type}

open Machine

def noteEvent (t : WindEvent) : Action (H × List WindEvent) Unit :=
  modify fun m => { m with host := (m.host.1, m.host.2 ++ [t]) }

def recordedInvoke (invoke : Value → Action H Unit) (v : Value) :
    Action (H × List WindEvent) Unit := do
  match ← attempt (Machine.beside (invoke v)) with
  | .ok () => noteEvent (.call v none)
  | .error e => do
    noteEvent (.call v (some e))
    escape e

def Embedder.recording (env : Embedder H) : Embedder (H × List WindEvent) :=
  ⟨env.collector.beside, recordedInvoke env.invoke, env.allowance⟩

def noteRebound (fluid : FluidId) (before : Value) : Action (H × List WindEvent) Unit := do
  let after ← Machine.fluidRef fluid
  noteEvent (.rebound fluid before after)

namespace WindProgram

def run (env : Embedder (H × List WindEvent)) : WindProgram → Action (H × List WindEvent) Unit
  | done => return
  | fluidSet fluid v => Machine.fluidSet fluid v
  | fluidRef fluid next => do
    let v ← Machine.fluidRef fluid
    run env (next v)
  | escape tag => do
    noteEvent (.escaped (.nonLocalExit tag))
    Machine.escape (.nonLocalExit tag)
  | seq p q => do
    run env p
    run env q
  | withFluid fluid v body => do
    let before ← Machine.fluidRef fluid
    let result ← attempt (Machine.withFluid env fluid v (run env body))
    noteRebound fluid before
    resume result
  | dynamicWind entry body exit => Machine.dynamicWind env entry (run env body) exit

def FluidsBelow (n : Nat) : WindProgram → Prop
  | done => True
  | fluidSet fluid _ => fluid.index < n
  | fluidRef fluid next => fluid.index < n ∧ ∀ v, FluidsBelow n (next v)
  | escape _ => True
  | seq p q => FluidsBelow n p ∧ FluidsBelow n q
  | withFluid fluid _ body => fluid.index < n ∧ FluidsBelow n body
  | dynamicWind _ body _ => FluidsBelow n body

end WindProgram

/-- Every action ends by returning or by escaping and leaves the dynamic stack as it found it.
Fluids stay registered, as there is no way to unregister one. -/
def Embedder.IsBalanced (env : Embedder H) : Prop :=
  ∀ v m, ∃ r m', Ends (env.invoke v) m r m' ∧ SameStack m m'

end Recording

/-- The traces of a program and how it ends with each of them. A wind frame whose entry action
returns has its exit call right after the calls of its body, and one whose entry action escapes has
none. -/
inductive Traces : WindProgram → List WindEvent → Option RuntimeError → Prop
  | done : Traces .done [] none
  | fluidSet (fluid : FluidId) (v : Value) : Traces (.fluidSet fluid v) [] none
  | fluidRef {next ts r} (fluid : FluidId) (v : Value) (h : Traces (next v) ts r) :
      Traces (.fluidRef fluid next) ts r
  | escape (tag : Value) :
      Traces (.escape tag) [.escaped (.nonLocalExit tag)] (some (.nonLocalExit tag))
  | seq {p q ts us r} (hp : Traces p ts none) (hq : Traces q us r) : Traces (.seq p q) (ts ++ us) r
  | seq_escaped {p q ts e} (hp : Traces p ts (some e)) : Traces (.seq p q) ts (some e)
  | withFluid {body ts r} (fluid : FluidId) (v w : Value) (h : Traces body ts r) :
      Traces (.withFluid fluid v body) (ts ++ [.rebound fluid w w]) r
  | refused {body} (entry exit : Value) (e : RuntimeError) :
      Traces (.dynamicWind entry body exit) [.call entry (some e)] (some e)
  | dynamicWind {body ts r} (entry exit : Value) (r' : Option RuntimeError) (h : Traces body ts r) :
      Traces (.dynamicWind entry body exit) (.call entry none :: ts ++ [.call exit r']) (r'.or r)

def WindEvent.escape? : WindEvent → Option RuntimeError
  | call _ r => r
  | escaped e => some e
  | rebound _ _ _ => none

def lastEscape : List WindEvent → Option RuntimeError
  | [] => none
  | t :: ts => (lastEscape ts).or t.escape?

theorem lastEscape_append (ts us : List WindEvent) :
    lastEscape (ts ++ us) = (lastEscape us).or (lastEscape ts) := by
  induction ts with
  | nil => exact (Option.or_none ..).symm
  | cons t ts ih => simp only [List.cons_append, lastEscape, ih, Option.or_assoc]

namespace Traces

variable {p : WindProgram} {ts : List WindEvent} {r : Option RuntimeError}

theorem lastEscape_eq (h : Traces p ts r) : lastEscape ts = r := by
  induction h with
  | done => rfl
  | fluidSet fluid v => rfl
  | fluidRef fluid v _ ih => exact ih
  | escape tag => rfl
  | seq _ _ ihp ihq => rw [lastEscape_append, ihp, ihq, Option.or_none]
  | seq_escaped _ ih => exact ih
  | withFluid fluid v w _ ih =>
    rw [lastEscape_append, ih]
    rfl
  | refused entry exit e => rfl
  | dynamicWind entry exit r' _ ih =>
    rw [List.cons_append, lastEscape, lastEscape_append, ih]
    exact Option.or_none ..

theorem rebound_eq (h : Traces p ts r) {fluid : FluidId} {before after : Value}
    (ht : .rebound fluid before after ∈ ts) : after = before := by
  induction h with
  | done => exact absurd ht List.not_mem_nil
  | fluidSet fluid v => exact absurd ht List.not_mem_nil
  | fluidRef fluid v _ ih => exact ih ht
  | escape tag => simp at ht
  | seq _ _ ihp ihq => exact (List.mem_append.mp ht).elim ihp ihq
  | seq_escaped _ ih => exact ih ht
  | withFluid fluid v w _ ih =>
    rcases List.mem_append.mp ht with hts | hw
    · exact ih hts
    · simp_all
  | refused entry exit e => simp at ht
  | dynamicWind entry exit r' _ ih =>
    simp only [List.cons_append, List.mem_cons, reduceCtorEq, List.mem_append, List.not_mem_nil,
      or_false, false_or] at ht
    exact ih ht

end Traces

namespace Machine

variable {H : Type} {m m₁ m' : Machine (H × List WindEvent)} {r : Option RuntimeError}

theorem noteEvent_ends (t : WindEvent) (m : Machine (H × List WindEvent)) :
    ∃ m', Ends (noteEvent t) m none m' ∧ SameStack m m' ∧ m'.host.2 = m.host.2 ++ [t] :=
  ⟨_, rfl, ⟨rfl, Nat.le_refl _⟩, rfl⟩

theorem Ends.fluidRef {fluid : FluidId} {v : Value} {f : Value → Action (H × List WindEvent) Unit}
    (hv : readSlot m.vm.fluids m.context.slots fluid = some v) (hf : Ends (f v) m r m') :
    Ends (Machine.fluidRef fluid >>= f) m r m' := by
  change EStateM.bind (Machine.fluidRef fluid) f m = _
  simp only [EStateM.bind, fluidRef_apply, hv]
  exact hf

theorem recording_ends {env : Embedder H} (henv : env.IsBalanced) (v : Value)
    (m : Machine (H × List WindEvent)) :
    ∃ r m', Ends (env.recording.invoke v) m r m' ∧ SameStack m m' ∧
      m'.host.2 = m.host.2 ++ [.call v r] := by
  obtain ⟨vm, context, host, ts⟩ := m
  obtain ⟨r, ⟨vm', context', host'⟩, hinvoke, hsame⟩ := henv v ⟨vm, context, host⟩
  have hbeside : Ends (Machine.beside (env.invoke v)) ⟨vm, context, host, ts⟩ r
      ⟨vm', context', host', ts⟩ := by
    unfold Ends at hinvoke ⊢
    cases r <;> simp only [Machine.beside, hinvoke, outcome]
  refine ⟨r, ⟨vm', context', host', ts ++ [.call v r]⟩, ?_, ⟨hsame.winders, hsame.fluids_le⟩, rfl⟩
  change EStateM.bind (attempt (Machine.beside (env.invoke v))) _ _ = _
  simp only [EStateM.bind, hbeside.attempt]
  cases r <;> rfl

end Machine

namespace WindProgram

open Machine

variable {H : Type} {env : Embedder H}

theorem run_ends (henv : env.IsBalanced) {n : Nat} (p : WindProgram) (hp : p.FluidsBelow n)
    {m : Machine (H × List WindEvent)} (hm : n ≤ m.vm.fluids.size) :
    ∃ ts r m', Ends (p.run env.recording) m r m' ∧ SameStack m m' ∧ m'.host.2 = m.host.2 ++ ts ∧
      Traces p ts r := by
  -- a part may leave other fluid values behind, so the machine it starts on has to vary
  induction p generalizing m with
  | done => exact ⟨[], none, m, rfl, SameStack.refl m, (List.append_nil _).symm, Traces.done⟩
  | fluidSet fluid v =>
    have hfluid : fluid.index < m.vm.fluids.size := Nat.lt_of_lt_of_le hp hm
    have hset : Machine.fluidSet fluid v m =
        .ok () { m with context := m.context.setSlot fluid.index v } := by
      rw [fluidSet_apply, if_pos (Or.inr hfluid)]
    refine ⟨[], none, _, hset, ⟨winders_setSlot _ _ _, Nat.le_refl _⟩, ?_, Traces.fluidSet fluid v⟩
    exact (List.append_nil _).symm
  | fluidRef fluid next ih =>
    have hfluid : fluid.index < m.vm.fluids.size := Nat.lt_of_lt_of_le hp.1 hm
    obtain ⟨v, hv⟩ := readSlot_of_lt hfluid m.context.slots
    obtain ⟨ts, r, m', hrun, hsame, hhost, htraces⟩ := ih v (hp.2 v) hm
    exact ⟨ts, r, m', Ends.fluidRef hv hrun, hsame, hhost, Traces.fluidRef fluid v htraces⟩
  | escape tag =>
    obtain ⟨m', hnote, hsame, hhost⟩ := noteEvent_ends (.escaped (.nonLocalExit tag)) m
    have hescape : Ends (Machine.escape (.nonLocalExit tag)) m' (some (.nonLocalExit tag)) m' := rfl
    exact ⟨_, _, m', Ends.bind hnote hescape, hsame, hhost, Traces.escape tag⟩
  | seq p q ihp ihq =>
    obtain ⟨ts, r, m₁, hrun, hsame, hhost, htraces⟩ := ihp hp.1 hm
    cases r with
    | some e =>
      exact ⟨ts, some e, m₁, Ends.bind_error hrun, hsame, hhost, Traces.seq_escaped htraces⟩
    | none =>
      obtain ⟨us, r', m₂, hrun', hsame', hhost', htraces'⟩ :=
        ihq hp.2 (Nat.le_trans hm hsame.fluids_le)
      refine ⟨ts ++ us, r', m₂, Ends.bind hrun hrun', hsame.trans hsame', ?_,
        Traces.seq htraces htraces'⟩
      rw [hhost', hhost, List.append_assoc]
  | withFluid fluid v body ih =>
    have hfluid : fluid.index < m.vm.fluids.size := Nat.lt_of_lt_of_le hp.1 hm
    obtain ⟨w, hw⟩ := readSlot_of_lt hfluid m.context.slots
    obtain ⟨m₁, hhost₁, hfluids₁, hwith⟩ :=
      withFluid_ends env.recording hfluid v (body.run env.recording)
    obtain ⟨ts, r, m₂, hrun, hsame₂, hhost₂, htraces⟩ := ih hp.2 (by rwa [hfluids₁])
    obtain ⟨m₃, hends, hsame₃, hhost₃, hread₃⟩ := hwith r m₂ hrun hsame₂
    obtain ⟨m₄, hnote, hsame₄, hhost₄⟩ := noteEvent_ends (.rebound fluid w w) m₃
    have hrebound : Ends (noteRebound fluid w) m₃ none m₄ := Ends.fluidRef (hread₃.trans hw) hnote
    refine ⟨ts ++ [.rebound fluid w w], r, m₄, Ends.fluidRef hw (hends.cleanup hrebound),
      hsame₃.trans hsame₄, ?_, Traces.withFluid fluid v w htraces⟩
    rw [hhost₄, hhost₃, hhost₂, hhost₁, List.append_assoc]
  | dynamicWind entry body exit ih =>
    obtain ⟨r₁, m₁, hentry, hsame₁, hhost₁⟩ := recording_ends henv entry m
    cases r₁ with
    | some e =>
      exact ⟨_, _, m₁, dynamicWind_refused hentry, hsame₁, hhost₁, Traces.refused entry exit e⟩
    | none =>
      obtain ⟨m₂, hhost₂, hfluids₂, hwind⟩ := dynamicWind_ends hentry hsame₁
      have hm₂ : n ≤ m₂.vm.fluids.size := by
        rw [hfluids₂]
        exact Nat.le_trans hm hsame₁.fluids_le
      obtain ⟨ts, r, m₃, hrun, hsame₃, hhost₃, htraces⟩ := ih hp hm₂
      obtain ⟨m₄, hhost₄, hsame₄, hexit⟩ := hwind r m₃ hrun hsame₃
      obtain ⟨r', m₅, hinvoke, hsame₅, hhost₅⟩ := recording_ends henv exit m₄
      refine ⟨.call entry none :: ts ++ [.call exit r'], r'.or r, m₅, hexit r' m₅ hinvoke hsame₅,
        hsame₄.trans hsame₅, ?_, Traces.dynamicWind entry exit r' htraces⟩
      rw [hhost₅, hhost₄, hhost₃, hhost₂, hhost₁]
      simp only [List.append_assoc, List.cons_append, List.nil_append]

/-- A program of bindings and wind frames leaves the dynamic stack as it was, whichever way it ends.
It ends with the error of the last action or body that escaped, every fluid reads after a binding
what it read before, and the invocations are those of a trace of the program. -/
theorem run_balanced (henv : env.IsBalanced) (p : WindProgram) (m : Machine (H × List WindEvent))
    (hp : p.FluidsBelow m.vm.fluids.size) :
    ∃ ts r m', Ends (p.run env.recording) m r m' ∧ m'.context.winders = m.context.winders ∧
      m'.host.2 = m.host.2 ++ ts ∧ Traces p ts r ∧ r = lastEscape ts ∧
      ∀ fluid before after, .rebound fluid before after ∈ ts → after = before := by
  obtain ⟨ts, r, m', hrun, hsame, hhost, htraces⟩ := run_ends henv p hp (Nat.le_refl _)
  exact ⟨ts, r, m', hrun, hsame.winders, hhost, htraces, htraces.lastEscape_eq.symm,
    fun _ _ _ ht => htraces.rebound_eq ht⟩

theorem run_balanced_escaping :
    let env : Embedder Unit := ⟨.none, fun v => if v.isFixnum then pure () else
      Machine.escape (.notApplicable v), 0⟩
    let p : WindProgram := .dynamicWind (.fixnum 1)
      (.withFluid ⟨0⟩ (.fixnum 2) (.seq (.fluidSet ⟨0⟩ (.fixnum 3)) (.escape .unspecified))) .nil
    let m : Machine (Unit × List WindEvent) :=
      ⟨{ (default : Vm) with fluids := ⟨#[.fixnum 0]⟩ }, default, (), []⟩
    env.IsBalanced ∧ p.FluidsBelow m.vm.fluids.size ∧
      ∃ r m', Ends (p.run env.recording) m r m' ∧ m'.context.winders = #[] ∧
        Traces p m'.host.2 r ∧ r = lastEscape m'.host.2 := by
  intro env p m
  have henv : env.IsBalanced := by
    intro v m
    by_cases hv : v.isFixnum
    · refine ⟨none, m, ?_, SameStack.refl m⟩
      simp only [env, Ends, hv, ↓reduceIte]
      rfl
    · refine ⟨some (.notApplicable v), m, ?_, SameStack.refl m⟩
      simp only [env, Ends, hv]
      rfl
  have hp : p.FluidsBelow m.vm.fluids.size := by
    simp [p, m, FluidsBelow, FluidRegistry.size]
  refine ⟨henv, hp, ?_⟩
  obtain ⟨ts, r, m', hends, hwinders, hhost, htraces, hr, -⟩ := run_balanced henv p m hp
  rw [show m.host.2 = [] from rfl, List.nil_append] at hhost
  refine ⟨r, m', hends, hwinders, ?_, ?_⟩
  · rwa [hhost]
  · rwa [hhost]

end WindProgram

end VmSupport
