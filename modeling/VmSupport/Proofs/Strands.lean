import VmSupport.Proofs.Outcome

/-!
Actions cut into parts, between which others change the state. A strand keeps to its side if what
each of its parts does stays within a guarantee, provided that what others do in between stays
within what it relies on.
-/

namespace VmSupport

open EStateM

inductive Strand (ε σ α : Type) : Type 1
  | done (a : α)
  | part {β : Type} (op : EStateM ε σ β) (next : β → Strand ε σ α)

namespace Strand

variable {ε σ α β : Type}

def bind : Strand ε σ α → (α → Strand ε σ β) → Strand ε σ β
  | done a, f => f a
  | part op next, f => part op fun b => (next b).bind f

instance : Monad (Strand ε σ) where
  pure := done
  bind := bind

def lift (op : EStateM ε σ α) : Strand ε σ α := part op done

def run : Strand ε σ α → EStateM ε σ α
  | done a => pure a
  | part op next => op >>= fun b => (next b).run

@[simp] theorem run_pure (a : α) : (pure a : Strand ε σ α).run = pure a := rfl

@[simp] theorem run_bind (t : Strand ε σ α) (f : α → Strand ε σ β) :
    (t >>= f).run = t.run >>= fun a => (f a).run := by
  induction t with
  | done a => exact (pure_bind a fun a => (f a).run).symm
  | part op next ih =>
    change (op >>= fun b => ((next b).bind f).run) = (op >>= fun b => (next b).run) >>= _
    rw [bind_assoc]
    congr 1
    funext b
    exact ih b

@[simp] theorem run_lift (op : EStateM ε σ α) : (lift op).run = op := bind_pure op

def runAmid (act : Nat → σ → σ) : Strand ε σ α → Nat → EStateM ε σ α
  | done a, _ => pure a
  | part op next, i => do
    modify (act i)
    let b ← op
    (next b).runAmid act (i + 1)

theorem runAmid_id (t : Strand ε σ α) (i : Nat) : t.runAmid (fun _ s => s) i = t.run := by
  induction t generalizing i with
  | done a => rfl
  | part op next ih =>
    change (op >>= fun b => (next b).runAmid (fun _ s => s) (i + 1)) = op >>= fun b => (next b).run
    congr 1
    funext b
    exact ih b (i + 1)

end Strand

/-- The terms on which parts of several strands follow each other: what a strand may expect of the
others, and what it owes to them. -/
structure Terms (ε σ : Type) where
  rely : σ → σ → Prop
  guarantee : σ → σ → Prop
  excuses : ε → Prop
  count : σ → Nat
  rely_refl : ∀ s, rely s s
  rely_trans : ∀ {s s' s''}, rely s s' → rely s' s'' → rely s s''
  guarantee_refl : ∀ s, guarantee s s
  guarantee_trans : ∀ {s s' s''}, guarantee s s' → guarantee s' s'' → guarantee s s''
  count_le : ∀ {s s'}, guarantee s s' → count s ≤ count s'

namespace Strand

variable {ε σ α β : Type} (terms : Terms ε σ)

/-- From `s`, and whatever the others do meanwhile, the strand keeps to the terms and ends in a
state as `post` says; `n` is how much the parts before `s` have counted. -/
def Meets (post : α → Nat → σ → Prop) : Strand ε σ α → Nat → σ → Prop
  | done a, n, s => ∀ s', terms.rely s s' → post a n s'
  | part op next, n, s => ∀ s', terms.rely s s' → match op s' with
    | .ok b s'' => terms.guarantee s' s'' ∧
        (next b).Meets post (n + (terms.count s'' - terms.count s')) s''
    | .error e _ => terms.excuses e

variable {terms} {post post' : α → Nat → σ → Prop} {t : Strand ε σ α} {n : Nat} {s s' : σ}

theorem Meets.rely (h : t.Meets terms post n s) (hs : terms.rely s s') :
    t.Meets terms post n s' := by
  cases t with
  | done a => exact fun s'' hs' => h s'' (terms.rely_trans hs hs')
  | part op next => exact fun s'' hs' => h s'' (terms.rely_trans hs hs')

theorem Meets.done {a : α} (h : (done a : Strand ε σ α).Meets terms post n s) : post a n s :=
  h s (terms.rely_refl s)

theorem Meets.mono (h : t.Meets terms post n s) (hpost : ∀ a n s, post a n s → post' a n s) :
    t.Meets terms post' n s := by
  induction t generalizing n s with
  | done a => exact fun s' hs => hpost a n s' (h s' hs)
  | part op next ih =>
    intro s' hs
    have hop := h s' hs
    cases hr : op s' with
    | ok b s'' =>
      rw [hr] at hop
      exact ⟨hop.1, ih b hop.2⟩
    | error e s'' =>
      rw [hr] at hop
      exact hop

theorem Meets.bind {f : α → Strand ε σ β} {post : β → Nat → σ → Prop}
    (h : t.Meets terms (fun a n s => (f a).Meets terms post n s) n s) :
    (t >>= f).Meets terms post n s := by
  induction t generalizing n s with
  | done a => exact h.done
  | part op next ih =>
    intro s' hs
    have hop := h s' hs
    cases hr : op s' with
    | ok b s'' =>
      rw [hr] at hop
      exact ⟨hop.1, ih b hop.2⟩
    | error e s'' =>
      rw [hr] at hop
      exact hop

theorem Meets.run (h : t.Meets terms post n s) :
    match t.run s with
    | .ok a s' => terms.guarantee s s' ∧ post a (n + (terms.count s' - terms.count s)) s'
    | .error e _ => terms.excuses e := by
  induction t generalizing n s with
  | done a =>
    refine ⟨terms.guarantee_refl s, ?_⟩
    rw [Nat.sub_self]
    exact h.done
  | part op next ih =>
    have hop := h s (terms.rely_refl s)
    cases hr : op s with
    | error e s' =>
      rw [hr] at hop
      rw [Strand.run, bind_of_error hr]
      exact hop
    | ok b s' =>
      rw [hr] at hop
      obtain ⟨hfirst, hnext⟩ := hop
      have hrest := ih b hnext
      rw [Strand.run, bind_of_ok hr]
      cases hr' : (next b).run s' with
      | error e s'' =>
        rw [hr'] at hrest
        exact hrest
      | ok a s'' =>
        rw [hr'] at hrest
        obtain ⟨hlater, hpost⟩ := hrest
        refine ⟨terms.guarantee_trans hfirst hlater, ?_⟩
        have hle := terms.count_le hfirst
        have hle' := terms.count_le hlater
        have hsum : n + (terms.count s'' - terms.count s) =
            n + (terms.count s' - terms.count s) + (terms.count s'' - terms.count s') := by omega
        rwa [hsum]

theorem Meets.runAmid {act : Nat → σ → σ} (hact : ∀ i s, terms.rely s (act i s))
    (h : t.Meets terms post n s) (i : Nat) :
    match t.runAmid act i s with
    | .ok a s' => ∃ n', post a n' s'
    | .error e _ => terms.excuses e := by
  induction t generalizing n s i with
  | done a => exact ⟨n, h.done⟩
  | part op next ih =>
    have hop := h (act i s) (hact i s)
    have hacted : Strand.runAmid act (part op next) i s =
        (op >>= fun b => (next b).runAmid act (i + 1)) (act i s) := rfl
    rw [hacted]
    cases hr : op (act i s) with
    | error e s' =>
      rw [hr] at hop
      rw [bind_of_error hr]
      exact hop
    | ok b s' =>
      rw [hr] at hop
      rw [bind_of_ok hr]
      exact ih b hop.2 (i + 1)

variable (terms) in
def Stable (P : Nat → σ → Prop) : Prop := ∀ n s s', P n s → terms.rely s s' → P n s'

variable (terms) in
structure Serves (pre : Nat → σ → Prop) (t : Strand ε σ α) (post : α → Nat → σ → Prop) : Prop where
  meets : ∀ n s, pre n s → t.Meets terms post n s

namespace Serves

variable {pre pre' : Nat → σ → Prop}

theorem pure {a : α} (hstable : Stable terms pre) (h : ∀ n s, pre n s → post a n s) :
    Serves terms pre (pure a) post :=
  ⟨fun n s hs s' hrely => h n s' (hstable n s s' hs hrely)⟩

theorem bind {f : α → Strand ε σ β} {mid : α → Nat → σ → Prop} {post : β → Nat → σ → Prop}
    (h : Serves terms pre t mid) (hf : ∀ a, Serves terms (mid a) (f a) post) :
    Serves terms pre (t >>= f) post :=
  ⟨fun n s hs => ((h.meets n s hs).mono fun a n s hmid => (hf a).meets n s hmid).bind⟩

theorem mono (h : Serves terms pre t post) (hpre : ∀ n s, pre' n s → pre n s)
    (hpost : ∀ a n s, post a n s → post' a n s) : Serves terms pre' t post' :=
  ⟨fun n s hs => (h.meets n s (hpre n s hs)).mono hpost⟩

theorem lift {op : EStateM ε σ α} (hpre : Stable terms pre) (hpost : ∀ a, Stable terms (post a))
    (hop : ∀ n s, pre n s → match op s with
      | .ok a s' => terms.guarantee s s' ∧ post a (n + (terms.count s' - terms.count s)) s'
      | .error e _ => terms.excuses e) :
    Serves terms pre (Strand.lift op) post := by
  refine ⟨fun n s hs s' hrely => ?_⟩
  have hdone := hop n s' (hpre n s s' hs hrely)
  cases hr : op s' with
  | ok a s'' =>
    rw [hr] at hdone
    exact ⟨hdone.1, fun _ hrely' => hpost a _ _ _ hdone.2 hrely'⟩
  | error e s'' =>
    rw [hr] at hdone
    exact hdone

theorem read {op : EStateM ε σ α} {f : σ → α} (hop : ∀ s, op s = .ok (f s) s)
    (hpre : Stable terms pre) (hpost : ∀ a, Stable terms (post a))
    (h : ∀ n s, pre n s → post (f s) n s) :
    Serves terms pre (Strand.lift op) post := by
  refine lift hpre hpost fun n s hs => ?_
  rw [hop]
  refine ⟨terms.guarantee_refl s, ?_⟩
  rw [Nat.sub_self]
  exact h n s hs

theorem of_exists {ι : Type} {pre : ι → Nat → σ → Prop}
    (h : ∀ i, Serves terms (pre i) t post) :
    Serves terms (fun n s => ∃ i, pre i n s) t post :=
  ⟨fun n s ⟨i, hs⟩ => (h i).meets n s hs⟩

theorem of_and {p : Prop} (h : p → Serves terms pre t post) :
    Serves terms (fun n s => p ∧ pre n s) t post :=
  ⟨fun n s ⟨hp, hs⟩ => (h hp).meets n s hs⟩

end Serves

theorem Stable.and {p : Prop} {P : Nat → σ → Prop} (h : Stable terms P) :
    Stable terms fun n s => p ∧ P n s := fun n s s' hs hrely => ⟨hs.1, h n s s' hs.2 hrely⟩

theorem Stable.exists {ι : Type} {P : ι → Nat → σ → Prop} (h : ∀ i, Stable terms (P i)) :
    Stable terms fun n s => ∃ i, P i n s := fun n s s' ⟨i, hs⟩ hrely => ⟨i, h i n s s' hs hrely⟩

end Strand

end VmSupport
