import VmSupport.Proofs.FluidSlots
import VmSupport.Proofs.MachineRuns

namespace VmSupport

open EStateM

namespace Context

variable {c : Context} {i : Nat} {v w : Value}

theorem mem_values :
    w ∈ c.values ↔ w ∈ c.stack ∨ some w ∈ c.slots ∨ ∃ e ∈ c.winders, w ∈ e.values := by
  simp [values]

theorem mem_slots_setSlot (h : some w ∈ (c.setSlot i v).slots) : w = v ∨ some w ∈ c.slots := by
  unfold setSlot at h
  split at h
  · rcases Array.mem_or_eq_of_mem_setIfInBounds h with h | h
    · exact Or.inr h
    · exact Or.inl (Option.some.inj h)
  · simpa [or_comm] using h

theorem stack_setSlot (c : Context) (i : Nat) (v : Value) : (c.setSlot i v).stack = c.stack := by
  unfold setSlot
  split <;> rfl

theorem arena_setSlot (c : Context) (i : Nat) (v : Value) : (c.setSlot i v).arena = c.arena := by
  unfold setSlot
  split <;> rfl

end Context

namespace Machine

variable {H : Type} {m m₁ m' : Machine H} {v w : Value} {pushed set : List Value}

def kept (m : Machine H) : List Value := m.context.values ++ m.vm.fluids.defaults.toList

theorem mem_kept : w ∈ m.kept ↔ w ∈ m.context.values ∨ w ∈ m.vm.fluids.defaults := by
  simp [kept]

def Aside (m : Machine H) (w : Value) : Prop :=
  some w ∈ m.context.slots ∨ (∃ e ∈ m.context.winders, w ∈ e.values) ∨ w ∈ m.vm.fluids.defaults

theorem mem_kept_iff : w ∈ m.kept ↔ w ∈ m.context.stack ∨ m.Aside w := by
  rw [mem_kept, Context.mem_values, Aside, or_assoc, or_assoc]

structure Retains (pushed set : List Value) (m m' : Machine H) : Prop where
  heap_eq : ∃ log, m'.vm.heap = { m.vm.heap with log }
  threads_eq : m'.vm.threads = m.vm.threads
  arena_eq : m'.context.arena = m.context.arena
  stack : ∀ v ∈ m'.context.stack, v ∈ pushed ∨ v ∈ m.context.stack
  aside : ∀ v, m'.Aside v → v ∈ set ∨ m.Aside v

namespace Retains

theorem refl (pushed set : List Value) (m : Machine H) : Retains pushed set m m :=
  ⟨⟨_, rfl⟩, rfl, rfl, fun _ hv => Or.inr hv, fun _ hv => Or.inr hv⟩

theorem kept (h : Retains pushed set m m') (hv : v ∈ m'.kept) : v ∈ pushed ++ set ∨ v ∈ m.kept := by
  rw [mem_kept_iff] at hv ⊢
  rcases hv with hv | hv
  · rcases h.stack v hv with hv | hv
    · exact Or.inl (List.mem_append_left _ hv)
    · exact Or.inr (Or.inl hv)
  · rcases h.aside v hv with hv | hv
    · exact Or.inl (List.mem_append_right _ hv)
    · exact Or.inr (Or.inr hv)

theorem trans {pushed₁ pushed₂ set₁ set₂ : List Value} (h₁ : Retains pushed₁ set₁ m m₁)
    (h₂ : Retains pushed₂ set₂ m₁ m') (hpushed : ∀ v ∈ pushed₁ ++ pushed₂, v ∈ pushed)
    (hset : ∀ v ∈ set₁ ++ set₂, v ∈ set ∨ m.Aside v) : Retains pushed set m m' := by
  obtain ⟨log₁, hheap₁⟩ := h₁.heap_eq
  obtain ⟨log₂, hheap₂⟩ := h₂.heap_eq
  refine ⟨⟨log₂, by rw [hheap₂, hheap₁]⟩, h₂.threads_eq.trans h₁.threads_eq,
    h₂.arena_eq.trans h₁.arena_eq, ?_, ?_⟩
  · intro v hv
    rcases h₂.stack v hv with hv | hv
    · exact Or.inl (hpushed v (List.mem_append_right _ hv))
    · rcases h₁.stack v hv with hv | hv
      · exact Or.inl (hpushed v (List.mem_append_left _ hv))
      · exact Or.inr hv
  · intro v hv
    rcases h₂.aside v hv with hv | hv
    · exact hset v (List.mem_append_right _ hv)
    · rcases h₁.aside v hv with hv | hv
      · exact hset v (List.mem_append_left _ hv)
      · exact Or.inr hv

theorem push (m : Machine H) (v : Value) : Retains [v] [] m (Machine.push v m).state := by
  refine ⟨⟨_, rfl⟩, rfl, rfl, fun w hw => ?_, fun _ hw => Or.inr hw⟩
  rcases Array.mem_push.mp hw with hw | rfl
  · exact Or.inr hw
  · exact Or.inl List.mem_cons_self

theorem withStack (m : Machine H) {stack : Array Value}
    (h : ∀ v ∈ stack, v ∈ pushed ∨ v ∈ m.context.stack) :
    Retains pushed [] m { m with context := { m.context with stack } } :=
  ⟨⟨_, rfl⟩, rfl, rfl, h, fun _ hw => Or.inr hw⟩

theorem truncate (m : Machine H) (n : Nat) :
    Retains [] [] m
      (Machine.modifyContext (fun c => { c with stack := c.stack.take n }) m).state := by
  apply withStack
  intro w hw
  right
  rw [Array.take_eq_extract] at hw
  obtain ⟨j, hj, hget⟩ := Array.mem_extract_iff_getElem.mp hw
  rw [← hget]
  exact Array.getElem_mem _

theorem setSlot (m : Machine H) (i : Nat) (v : Value) :
    Retains [] [v] m (Machine.modifyContext (fun c => c.setSlot i v) m).state := by
  refine ⟨⟨_, rfl⟩, rfl, Context.arena_setSlot _ _ _, fun w hw => ?_, ?_⟩
  · have hw' : w ∈ (m.context.setSlot i v).stack := hw
    rw [Context.stack_setSlot] at hw'
    exact Or.inr hw'
  · rintro w (hw | ⟨e, he, hw⟩ | hw)
    · rcases Context.mem_slots_setSlot hw with rfl | hw
      · exact Or.inl List.mem_cons_self
      · exact Or.inr (Or.inl hw)
    · have he' : e ∈ (m.context.setSlot i v).winders := he
      rw [winders_setSlot] at he'
      exact Or.inr (Or.inr (Or.inl ⟨e, he', hw⟩))
    · exact Or.inr (Or.inr (Or.inr hw))

theorem fluidSet (m : Machine H) (fluid : FluidId) (v : Value) :
    Retains [] [v] m (Machine.fluidSet fluid v m).state := by
  rw [fluidSet_apply]
  split
  · exact setSlot m fluid.index v
  · exact refl [] [v] m

theorem pushWinder (m : Machine H) (w : Winder) :
    Retains [] w.values m (Machine.pushWinder w m).state := by
  refine ⟨⟨_, rfl⟩, rfl, rfl, fun _ hv => Or.inr hv, ?_⟩
  rintro v (hv | ⟨e, he, hv⟩ | hv)
  · exact Or.inr (Or.inl hv)
  · rcases Array.mem_push.mp he with he | rfl
    · exact Or.inr (Or.inr (Or.inl ⟨e, he, hv⟩))
    · exact Or.inl hv
  · exact Or.inr (Or.inr (Or.inr hv))

theorem aside_of_readSlot {fluid : FluidId}
    (h : readSlot m.vm.fluids m.context.slots fluid = some v) : m.Aside v := by
  unfold readSlot at h
  split at h
  · rename_i w hw
    cases h
    exact Or.inl (Array.mem_of_getElem? hw)
  · exact Or.inr (Or.inr (Array.mem_of_getElem? h))

theorem pushFluid (m : Machine H) (fluid : FluidId) (v : Value) :
    Retains [] [v] m (Machine.pushFluid fluid v m).state := by
  rw [pushFluid_apply]
  cases hread : readSlot m.vm.fluids m.context.slots fluid with
  | none => exact refl [] [v] m
  | some previous =>
    apply (pushWinder m (.fluid fluid previous v)).trans (fluidSet _ fluid v)
    · exact fun w hw => hw
    · intro w hw
      simp only [Winder.values, List.mem_append, List.mem_cons, List.not_mem_nil, or_false] at hw ⊢
      rcases hw with (rfl | rfl) | rfl
      · exact Or.inr (aside_of_readSlot hread)
      · exact Or.inl rfl
      · exact Or.inl rfl

theorem makeFluid (m : Machine H) (v : Value) :
    Retains [] [v] m (Machine.makeFluid v m).state := by
  refine ⟨⟨_, rfl⟩, rfl, rfl, fun _ hw => Or.inr hw, ?_⟩
  rintro w (hw | hw | hw)
  · exact Or.inr (Or.inl hw)
  · exact Or.inr (Or.inr (Or.inl hw))
  · rcases Array.mem_push.mp hw with hw | rfl
    · exact Or.inr (Or.inr (Or.inr hw))
    · exact Or.inl List.mem_cons_self

theorem intern (m : Machine H) (name : String) : Retains [] [] m (Machine.intern name m).state :=
  ⟨⟨_, rfl⟩, rfl, rfl, fun _ hw => Or.inr hw, fun _ hw => Or.inr hw⟩

theorem note (m : Machine H) (r : LogRecord) : Retains [] [] m (Machine.note r m).state :=
  ⟨⟨_, rfl⟩, rfl, rfl, fun _ hw => Or.inr hw, fun _ hw => Or.inr hw⟩

end Retains

def Quiet {α : Type} (pushed set : List Value) (op : Action H α) : Prop :=
  ∀ m, Retains pushed set m (op m).state

namespace Quiet

variable {α β : Type}

theorem bind {op : Action H α} {f : α → Action H β} (h : Quiet pushed set op)
    (hf : ∀ a, Quiet pushed set (f a)) : Quiet pushed set (op >>= f) := by
  intro m
  have hm := h m
  cases hop : op m with
  | ok a m₁ =>
    rw [hop] at hm
    rw [bind_of_ok hop]
    exact hm.trans (hf a m₁) (fun v hv => by simpa using hv) fun v hv => Or.inl (by simpa using hv)
  | error e m₁ =>
    rw [hop] at hm
    rw [bind_of_error hop]
    exact hm

theorem mono {pushed' set' : List Value} {op : Action H α} (h : Quiet pushed set op)
    (hpushed : pushed ⊆ pushed') (hset : set ⊆ set') : Quiet pushed' set' op := by
  intro m
  apply (h m).trans (Retains.refl [] [] _)
  · intro v hv
    rw [List.append_nil] at hv
    exact hpushed hv
  · intro v hv
    rw [List.append_nil] at hv
    exact Or.inl (hset hv)

end Quiet

variable {env : Embedder H}

theorem Quiet.resume {α : Type} (ending : Except RuntimeError α) :
    Quiet pushed set (Machine.resume ending : Action H α) := by
  intro m
  cases ending <;> exact Retains.refl pushed set m

namespace Retains

theorem pushWind (henv : ∀ v, Quiet [] [] (env.invoke v)) (m : Machine H) (entry exit : Value) :
    Retains [] [entry, exit] m (Machine.pushWind env entry exit m).state := by
  have hpush : Quiet [] [entry, exit] (Machine.pushWind env entry exit) :=
    ((henv entry).mono (fun _ h => h) (List.nil_subset _)).bind fun _ m =>
      pushWinder m (.wind entry exit)
  exact hpush m

theorem pop (henv : ∀ v, Quiet [] [] (env.invoke v)) (m : Machine H) :
    Retains [] [] m (Machine.pop env m).state := by
  cases hw : m.context.winders.back? with
  | none =>
    have hrun : Machine.pop env m = .error (.fault .dynamicStackUnderflow) m := by
      apply bind_of_error
      simp only [popWinder, hw]
    rw [hrun]
    exact refl [] [] m
  | some w =>
    have hmem : w ∈ m.context.winders := Array.mem_of_back? hw
    let popped : Machine H :=
      (Machine.modifyContext (fun c => { c with winders := c.winders.pop }) m).state
    have hpopped : Retains [] [] m popped := by
      refine ⟨⟨_, rfl⟩, rfl, rfl, fun _ hv => Or.inr hv, ?_⟩
      rintro v (hv | ⟨e, he, hv⟩ | hv)
      · exact Or.inr (Or.inl hv)
      · have he' : e ∈ m.context.winders.pop := he
        rw [← Array.mem_toList_iff, Array.toList_pop] at he'
        have he'' := Array.mem_toList_iff.mp (List.dropLast_subset _ he')
        exact Or.inr (Or.inr (Or.inl ⟨e, he'', hv⟩))
      · exact Or.inr (Or.inr (Or.inr hv))
    have hrun : Machine.popWinder m = .ok w popped := by
      simp only [popWinder, hw]
      rfl
    unfold Machine.pop
    rw [bind_of_ok hrun]
    cases w with
    | fluid fluid previous v =>
      apply hpopped.trans (fluidSet popped fluid previous) (fun _ hv => hv)
      intro u hu
      right
      rw [List.nil_append, List.mem_singleton] at hu
      rw [hu]
      exact Or.inr (Or.inl ⟨_, hmem, List.mem_cons_self⟩)
    | wind entry exit =>
      exact hpopped.trans (henv exit popped) (fun _ hv => hv) fun _ hv => absurd hv List.not_mem_nil

end Retains

def mutator (m : Machine H) (pending : List Value) : Mutator ContextRoots H where
  heap := m.vm.heap
  arena := m.context.arena
  roots := ⟨pending, m.context.stack, m.context.slots, m.context.winders, m.vm.fluids.defaults⟩
  host := m.host

def withMutator (m : Machine H) (x : Mutator ContextRoots H) : Machine H where
  vm := { m.vm with heap := x.heap }
  context := { m.context with arena := x.arena }
  host := x.host

theorem toList_mutator (m : Machine H) (pending : List Value) :
    RootSet.toList (m.mutator pending).roots = pending ++ m.kept := by
  simp only [RootSet.toList, mutator, kept, Context.values, List.append_assoc]

theorem onMutator_ok {α : Type} {op : Mutator.Action ContextRoots H α} {m : Machine H}
    {pending : List Value} {a : α} {x : Mutator ContextRoots H}
    (hop : op (m.mutator pending) = .ok a x) (hroots : x.roots = (m.mutator pending).roots) :
    onMutator pending op m = .ok (a, pending) (m.withMutator x) := by
  obtain ⟨heap, arena, roots, host⟩ := x
  simp only at hroots
  subst hroots
  unfold mutator at hop
  simp only [onMutator, hop]
  rfl

theorem onMutator_eq_ok_mutator {α : Type} {op : Mutator.Action ContextRoots H α}
    {m m' : Machine H} {pending pending' : List Value} {a : α}
    (h : onMutator pending op m = .ok (a, pending') m') :
    op (m.mutator pending) = .ok a (m'.mutator pending') := by
  obtain ⟨⟨heap, keywords, ⟨defaults⟩, threads, stackSize⟩,
    ⟨number, arena, stack, slots, winders⟩, host⟩ := m
  simp only [onMutator] at h
  change op ⟨heap, arena, ⟨pending, stack, slots, winders, defaults⟩, host⟩ = _
  cases hresult : op ⟨heap, arena, ⟨pending, stack, slots, winders, defaults⟩, host⟩ with
  | ok b x =>
    simp only [hresult] at h
    cases h
    rfl
  | error f x =>
    simp only [hresult] at h
    contradiction

theorem onMutator_eq_ok {α : Type} {op : Mutator.Action ContextRoots H α} {m m' : Machine H}
    {pending pending' : List Value} {a : α} (h : onMutator pending op m = .ok (a, pending') m') :
    ∃ x, op (m.mutator pending) = .ok a x ∧ x.heap = m'.vm.heap ∧ x.roots.pending = pending' :=
  ⟨m'.mutator pending', onMutator_eq_ok_mutator h, rfl, rfl⟩

theorem onMutator_error {α : Type} {op : Mutator.Action ContextRoots H α} {m : Machine H}
    {pending : List Value} {f : Fault} {x : Mutator ContextRoots H}
    (hop : op (m.mutator pending) = .error f x) (hroots : x.roots = (m.mutator pending).roots) :
    onMutator pending op m = .error (.fault f) (m.withMutator x) := by
  obtain ⟨heap, arena, roots, host⟩ := x
  simp only at hroots
  subst hroots
  unfold mutator at hop
  simp only [onMutator, hop]
  rfl

section Allocation

variable {env : Embedder H} {size : Nat} {pending : List Value} {image : List Value → List UInt64}
  {x : Mutator ContextRoots H}

theorem allocateObject_ok {a : Nat}
    (hop : Mutator.allocate env.collector (.ofWords size) (m.mutator pending) = .ok a x)
    (hroots : x.roots = (m.mutator pending).roots) :
    allocateObject env size pending image m =
      .ok (Value.reference a) (writeWords a (image pending) (m.withMutator x)).state := by
  unfold allocateObject
  rw [bind_of_ok (onMutator_ok hop hroots)]
  rfl

theorem allocateObject_error {f : Fault}
    (hop : Mutator.allocate env.collector (.ofWords size) (m.mutator pending) = .error f x)
    (hroots : x.roots = (m.mutator pending).roots) :
    allocateObject env size pending image m = .error (.fault f) (m.withMutator x) :=
  bind_of_error (onMutator_error hop hroots)

theorem state_collect (h : (Mutator.collect env.collector (m.mutator [])).state.roots =
      (m.mutator []).roots) :
    (collect env m).state = m.withMutator (Mutator.collect env.collector (m.mutator [])).state := by
  unfold collect
  cases hop : Mutator.collect env.collector (m.mutator []) with
  | ok u x =>
    rw [hop] at h
    rw [bind_of_ok (onMutator_ok hop h)]
    rfl
  | error f x =>
    rw [hop] at h
    rw [bind_of_error (onMutator_error hop h)]
    rfl

end Allocation

end Machine

end VmSupport
