import VmSupport.Machine.Binding
import VmSupport.Proofs.KeptValues

namespace VmSupport

open EStateM

namespace RegionItem

def values : RegionItem → List Value
  | pair key value => [key, value]
  | lone key => [key]
  | plain value => [value]

theorem flatMap_parse (vs : List Value) : (parse vs).flatMap values = vs := by
  induction vs using parse.induct with
  | case1 => rfl
  | case2 v hkey => simp only [parse, hkey, ↓reduceIte, List.flatMap_cons, values, List.flatMap_nil,
      List.append_nil]
  | case3 v hkey => simp only [parse, hkey, Bool.false_eq_true, ↓reduceIte, List.flatMap_cons,
      values, List.flatMap_nil, List.append_nil]
  | case4 v w rest hkey ih =>
    simp only [parse, hkey, ↓reduceIte, List.flatMap_cons, values, ih, List.cons_append,
      List.nil_append]
  | case5 v w rest hkey ih =>
    simp only [parse, hkey, Bool.false_eq_true, ↓reduceIte, List.flatMap_cons, values, ih,
      List.cons_append, List.nil_append]

end RegionItem

namespace Frame

variable {v : Value} {table : KeywordTable}

theorem store_keeps {P : Value → Prop} {items : List RegionItem}
    (hitems : ∀ v ∈ items.flatMap RegionItem.values, P v) :
    Keeps (fun locals => ∀ v ∈ locals, P v) (store table items) := by
  induction items with
  | nil => exact Keeps.pure ()
  | cons item items ih =>
    have hrest : Keeps (fun locals => ∀ v ∈ locals, P v) (store table items) :=
      ih fun v hv => hitems v (List.mem_append_right _ hv)
    cases item with
    | lone key => exact hrest
    | plain value => exact hrest
    | pair key value =>
      unfold store
      cases table.lookup? key with
      | none => exact hrest
      | some slot =>
        refine Keeps.get.bind fun locals => ?_
        split
        · refine Keeps.bind (fun locals hlocals v hv => ?_) fun _ => hrest
          rcases List.mem_or_eq_of_mem_set hv with hv | rfl
          · exact hlocals v hv
          · exact hitems v (List.mem_cons_of_mem _ List.mem_cons_self)
        · exact Keeps.throw _

theorem mem_splice {stack values : List Value} {base : Nat} (h : v ∈ splice stack base values) :
    v ∈ stack ∨ v ∈ values := by
  unfold splice at h
  rcases List.mem_append.mp h with h | h
  · rcases List.mem_append.mp h with h | h
    · exact Or.inl (List.mem_of_mem_take h)
    · exact Or.inr h
  · exact Or.inl (List.mem_of_mem_drop h)

theorem mem_bind {base nargs : Nat} {arity : Arity} {stack : List Value}
    (h : v ∈ (bind base nargs arity table stack).state) : v ∈ stack ∨ v = .unspecified := by
  let args := (stack.drop base).take nargs
  have hargs : ∀ {n}, ∀ v ∈ args.drop n, v ∈ stack := fun v hmem =>
    List.mem_of_mem_drop (List.mem_of_mem_take (List.mem_of_mem_drop hmem))
  have hstored : ∀ {count missing : Nat}, ∀ v ∈ (store table (RegionItem.parse (args.drop count))
      (args.take count ++ List.replicate missing Value.unspecified)).state,
      v ∈ stack ∨ v = .unspecified := by
    intro count missing
    apply (store_keeps (P := fun v => v ∈ stack ∨ v = .unspecified) ?_).state
    · intro v hv
      rcases List.mem_append.mp hv with hv | hv
      · exact Or.inl (List.mem_of_mem_drop (List.mem_of_mem_take (List.mem_of_mem_take hv)))
      · exact Or.inr (List.eq_of_mem_replicate hv)
    · intro v hv
      rw [RegionItem.flatMap_parse] at hv
      exact Or.inl (hargs v hv)
  unfold bind at h
  split at h
  · exact Or.inl h
  split at h
  · exact Or.inl h
  split at h
  · exact Or.inl h
  simp only at h
  split at h
  · exact Or.inl h
  split at h
  · exact Or.inl h
  split at h <;>
    · rename_i hstore
      rcases mem_splice h with hmem | hmem
      · exact Or.inl hmem
      · rcases List.mem_append.mp hmem with hmem | hmem
        · apply hstored
          rw [hstore]
          exact hmem
        · exact Or.inl (hargs v hmem)

end Frame

namespace Machine.Quiet

variable {H α : Type} {pushed : List Value}

theorem onStack {op : EStateM (Exit BindError) (List Value) α}
    (h : ∀ stack, ∀ v ∈ (op stack).state, v ∈ stack ∨ v ∈ pushed) :
    Quiet pushed [] (Machine.onStack op : Action H α) := by
  intro m
  have hop := h m.context.stack.toList
  have hstack : ∀ stack : List Value, (∀ v ∈ stack, v ∈ m.context.stack.toList ∨ v ∈ pushed) →
      Retains pushed [] m { m with context := { m.context with stack := stack.toArray } } := by
    intro stack hmem
    apply Retains.withStack
    intro v hv
    rcases hmem v (List.mem_toArray.mp hv) with hv | hv
    · exact Or.inr (Array.mem_toList_iff.mp hv)
    · exact Or.inl hv
  simp only [Machine.onStack]
  cases hrun : op m.context.stack.toList with
  | ok a stack =>
    rw [hrun] at hop
    exact hstack stack hop
  | error e stack =>
    rw [hrun] at hop
    cases e <;> exact hstack stack hop

theorem liftExcept (r : Except Fault α) :
    Quiet pushed [] (Machine.liftExcept r : Action H α) := by
  intro m
  cases r <;> exact Retains.refl pushed [] m

theorem fault (f : Fault) : Quiet pushed [] (Machine.fault f : Action H α) :=
  fun m => Retains.refl pushed [] m

theorem bindEncoded (base offset nargs : Nat) (code : List UInt32) (ip : Nat) (tableOffset : Int)
    (arity : Arity) :
    Quiet [.unspecified] []
      (Machine.bindEncoded base offset nargs code ip tableOffset arity : Action H BoundFrame) := by
  unfold Machine.bindEncoded
  simp only
  split
  · exact fault _
  · refine (liftExcept _).bind fun (table, next) => ?_
    split
    · exact fault _
    · refine (onStack fun stack v hv => ?_).bind fun size m => Retains.refl _ _ m
      rcases Frame.mem_bind hv with hv | rfl
      · exact Or.inl hv
      · exact Or.inr List.mem_cons_self

end Machine.Quiet

end VmSupport
