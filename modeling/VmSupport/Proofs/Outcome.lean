import Mathlib
import VmSupport.Fault

namespace EStateM

variable {ε σ τ α β : Type}

def Result.state : Result ε σ α → σ
  | .ok _ s => s
  | .error _ s => s

@[simp] theorem Result.state_ok (a : α) (s : σ) : (Result.ok a s : Result ε σ α).state = s := rfl

@[simp] theorem Result.state_error (e : ε) (s : σ) :
    (Result.error e s : Result ε σ α).state = s := rfl

theorem bind_of_ok {op : EStateM ε σ α} {f : α → EStateM ε σ β} {a : α} {s s' : σ}
    (h : op s = .ok a s') : (op >>= f) s = f a s' := by
  change EStateM.bind op f s = f a s'
  simp only [EStateM.bind, h]

theorem bind_of_error {op : EStateM ε σ α} {f : α → EStateM ε σ β} {e : ε} {s s' : σ}
    (h : op s = .error e s') : (op >>= f) s = .error e s' := by
  change EStateM.bind op f s = .error e s'
  simp only [EStateM.bind, h]

/-- From every state with `pre` the action ends in a state with `post`, or fails in one with
`fail`. -/
def Ensures (op : EStateM ε σ α) (pre : σ → Prop) (post : α → σ → Prop) (fail : σ → Prop) : Prop :=
  ∀ s, pre s → match op s with
    | .ok a s' => post a s'
    | .error _ s' => fail s'

theorem Ensures.pure {pre : σ → Prop} {post : α → σ → Prop} {fail : σ → Prop} {a : α}
    (h : ∀ s, pre s → post a s) : Ensures (pure a : EStateM ε σ α) pre post fail := h

theorem Ensures.bind {op : EStateM ε σ α} {f : α → EStateM ε σ β} {pre : σ → Prop}
    {mid : α → σ → Prop} {post : β → σ → Prop} {fail : σ → Prop}
    (h : Ensures op pre mid fail) (hf : ∀ a, Ensures (f a) (mid a) post fail) :
    Ensures (op >>= f) pre post fail := by
  intro s hs
  have hmid := h s hs
  change match EStateM.bind op f s with | .ok a s' => post a s' | .error _ s' => fail s'
  cases hop : op s with
  | ok a s' =>
    simp only [hop] at hmid
    simpa only [EStateM.bind, hop] using hf a s' hmid
  | error e s' =>
    simp only [hop] at hmid
    simpa only [EStateM.bind, hop] using hmid

theorem Ensures.mono {op : EStateM ε σ α} {pre pre' : σ → Prop} {post post' : α → σ → Prop}
    {fail fail' : σ → Prop} (h : Ensures op pre post fail) (hpre : ∀ s, pre' s → pre s)
    (hpost : ∀ a s, post a s → post' a s) (hfail : ∀ s, fail s → fail' s) :
    Ensures op pre' post' fail' := by
  intro s hs
  have hop := h s (hpre s hs)
  cases hr : op s with
  | ok a s' =>
    simp only [hr] at hop
    exact hpost a s' hop
  | error e s' =>
    simp only [hr] at hop
    exact hfail s' hop

theorem Ensures.restrict {op : EStateM ε σ α} {pre pre' : σ → Prop} {post : α → σ → Prop}
    {fail : σ → Prop} (h : Ensures op pre post fail) (hpre : ∀ s, pre' s → pre s) :
    Ensures op pre' post fail := fun s hs => h s (hpre s hs)

theorem Ensures.state {op : EStateM ε σ α} {pre fail : σ → Prop}
    (h : Ensures op pre (fun _ => fail) fail) {s : σ} (hs : pre s) : fail (op s).state := by
  have hop := h s hs
  cases hr : op s <;> simpa only [hr, Result.state] using hop

def Keeps (P : σ → Prop) (op : EStateM ε σ α) : Prop := Ensures op P (fun _ => P) P

theorem keeps_iff {P : σ → Prop} {op : EStateM ε σ α} :
    Keeps P op ↔ ∀ s, P s → P (op s).state := by
  constructor
  · exact fun h s hs => Ensures.state h hs
  · intro h s hs
    have hstate := h s hs
    cases hop : op s <;>
      · rw [hop] at hstate
        exact hstate

namespace Keeps

variable {P : σ → Prop}

theorem state {op : EStateM ε σ α} (h : Keeps P op) {s : σ} (hs : P s) : P (op s).state :=
  Ensures.state h hs

theorem of_ok {op : EStateM ε σ α} (h : Keeps P op) {s s' : σ} {a : α} (hs : P s)
    (hop : op s = .ok a s') : P s' := by
  have hstate := h.state hs
  rwa [hop] at hstate

theorem bind {op : EStateM ε σ α} {f : α → EStateM ε σ β} (h : Keeps P op)
    (hf : ∀ a, Keeps P (f a)) : Keeps P (op >>= f) := Ensures.bind h hf

theorem success {op : EStateM ε σ α} (h : Keeps P op) :
    Ensures op P (fun _ => P) fun _ => True :=
  h.mono (fun _ hs => hs) (fun _ _ hs => hs) fun _ _ => trivial

theorem pure (a : α) : Keeps P (pure a : EStateM ε σ α) := fun _ hs => hs

theorem throw (e : ε) : Keeps P (throw e : EStateM ε σ α) := fun _ hs => hs

theorem get : Keeps P (get : EStateM ε σ σ) := fun _ hs => hs

theorem and {Q : σ → Prop} {op : EStateM ε σ α} (hP : Keeps P op) (hQ : Keeps Q op) :
    Keeps (fun s => P s ∧ Q s) op := by
  intro s hs
  have hPs := hP s hs.1
  have hQs := hQ s hs.2
  cases hop : op s <;>
    · simp only [hop] at hPs hQs
      exact ⟨hPs, hQs⟩

end Keeps

def Yields (op : EStateM ε σ α) (pre : σ → Prop) (post : α → σ → Prop) (err : ε → Prop) : Prop :=
  ∀ s, pre s → match op s with
    | .ok a s' => post a s'
    | .error e _ => err e

namespace Yields

variable {pre : σ → Prop} {post : α → σ → Prop} {err : ε → Prop}

theorem pure {a : α} (h : ∀ s, pre s → post a s) :
    Yields (pure a : EStateM ε σ α) pre post err := h

theorem bind {op : EStateM ε σ α} {f : α → EStateM ε σ β} {mid : α → σ → Prop}
    {post : β → σ → Prop} (h : Yields op pre mid err) (hf : ∀ a, Yields (f a) (mid a) post err) :
    Yields (op >>= f) pre post err := by
  intro s hs
  have hmid := h s hs
  cases hop : op s with
  | ok a s' =>
    rw [hop] at hmid
    rw [bind_of_ok hop]
    exact hf a s' hmid
  | error e s' =>
    rw [hop] at hmid
    rw [bind_of_error hop]
    exact hmid

theorem mono {op : EStateM ε σ α} {pre' : σ → Prop} {post' : α → σ → Prop} {err' : ε → Prop}
    (h : Yields op pre post err) (hpre : ∀ s, pre' s → pre s) (hpost : ∀ a s, post a s → post' a s)
    (herr : ∀ e, err e → err' e) : Yields op pre' post' err' := by
  intro s hs
  have hop := h s (hpre s hs)
  cases hr : op s with
  | ok a s' =>
    rw [hr] at hop
    exact hpost a s' hop
  | error e s' =>
    rw [hr] at hop
    exact herr e hop

theorem of_never {op : EStateM ε σ α} (h : Yields op pre post fun _ => False) :
    Yields op pre post err :=
  h.mono (fun _ hs => hs) (fun _ _ hs => hs) fun _ hs => hs.elim

theorem get_bind {f : σ → EStateM ε σ α}
    (h : ∀ s, Yields (f s) (fun s' => s' = s ∧ pre s) post err) :
    Yields (get >>= f) pre post err :=
  fun s hs => h s s ⟨rfl, hs⟩

end Yields

def Raises (op : EStateM ε σ α) (err : ε → Prop) : Prop :=
  Yields op (fun _ => True) (fun _ _ => True) err

namespace Raises

variable {err : ε → Prop}

theorem pure (a : α) : Raises (pure a : EStateM ε σ α) err := fun _ _ => trivial

theorem throw {e : ε} (h : err e) : Raises (throw e : EStateM ε σ α) err := fun _ _ => h

theorem get : Raises (get : EStateM ε σ σ) err := fun _ _ => trivial

theorem bind {op : EStateM ε σ α} {f : α → EStateM ε σ β} (h : Raises op err)
    (hf : ∀ a, Raises (f a) err) : Raises (op >>= f) err := Yields.bind h hf

end Raises

def Result.Agree (R : σ → τ → Prop) : Result ε σ α → Result ε τ α → Prop
  | .ok x s, .ok y t => x = y ∧ R s t
  | .error e s, .error f t => e = f ∧ R s t
  | _, _ => False

/-- On related states both actions end alike, in related states again. -/
def Agree (R : σ → τ → Prop) (a : EStateM ε σ α) (b : EStateM ε τ α) : Prop :=
  ∀ s t, R s t → Result.Agree R (a s) (b t)

variable {R : σ → τ → Prop}

theorem Result.Agree.cases {r : Result ε σ α} {r' : Result ε τ α} (h : r.Agree R r') :
    (∃ x s t, r = .ok x s ∧ r' = .ok x t ∧ R s t) ∨
      ∃ e s t, r = .error e s ∧ r' = .error e t ∧ R s t := by
  cases r with
  | ok x s =>
    cases r' with
    | ok y t => exact Or.inl ⟨x, s, t, rfl, by rw [h.1], h.2⟩
    | error f t => exact h.elim
  | error e s =>
    cases r' with
    | ok y t => exact h.elim
    | error f t => exact Or.inr ⟨e, s, t, rfl, by rw [h.1], h.2⟩

theorem Agree.state {a : EStateM ε σ α} {b : EStateM ε τ α} (h : Agree R a b) {s : σ} {t : τ}
    (hst : R s t) : R (a s).state (b t).state := by
  rcases (h s t hst).cases with ⟨x, s', t', ha, hb, hR⟩ | ⟨e, s', t', ha, hb, hR⟩ <;>
    simpa only [ha, hb, Result.state] using hR

theorem Agree.pure (x : α) : Agree R (pure x : EStateM ε σ α) (pure x) :=
  fun _ _ hst => ⟨rfl, hst⟩

theorem Agree.throw (e : ε) : Agree R (throw e : EStateM ε σ α) (throw e) :=
  fun _ _ hst => ⟨rfl, hst⟩

theorem Agree.bind {a : EStateM ε σ α} {b : EStateM ε τ α} {f : α → EStateM ε σ β}
    {g : α → EStateM ε τ β} (h : Agree R a b) (hf : ∀ x, Agree R (f x) (g x)) :
    Agree R (a >>= f) (b >>= g) := by
  intro s t hst
  change Result.Agree R (EStateM.bind a f s) (EStateM.bind b g t)
  rcases (h s t hst).cases with ⟨x, s', t', ha, hb, hR⟩ | ⟨e, s', t', ha, hb, hR⟩
  · simp only [EStateM.bind, ha, hb]
    exact hf x s' t' hR
  · simp only [EStateM.bind, ha, hb]
    exact ⟨rfl, hR⟩

theorem Agree.get_bind {f : σ → EStateM ε σ α} {g : τ → EStateM ε τ α}
    (h : ∀ s t, R s t → Result.Agree R (f s s) (g t t)) :
    Agree R (get >>= f) (get >>= g) := h

end EStateM
