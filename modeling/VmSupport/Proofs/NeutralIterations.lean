import VmSupport.Proofs.ConfinedFrames
import VmSupport.Proofs.EncodedBinding
import VmSupport.Proofs.FrameValues
import VmSupport.Proofs.KeywordNumbering
import VmSupport.Proofs.Supplies
import VmSupport.Proofs.Unwinding

namespace VmSupport

def rewind : List Winder → (FluidId → Option Value) → FluidId → Option Value
  | [], f => f
  | .fluid id previous _ :: ws, f => rewind ws (Function.update f id (some previous))
  | .wind _ _ :: ws, f => rewind ws f

theorem rewind_mono {f f' : FluidId → Option Value} (h : ∀ g v, f g = some v → f' g = some v)
    (ws : List Winder) (g : FluidId) (v : Value) (hv : rewind ws f g = some v) :
    rewind ws f' g = some v := by
  induction ws generalizing f f' with
  | nil => exact h g v hv
  | cons w ws ih =>
    cases w with
    | fluid id previous value =>
      refine ih (fun i u hu => ?_) hv
      by_cases hi : i = id
      · subst hi
        rwa [Function.update_self] at hu ⊢
      · rw [Function.update_of_ne hi] at hu ⊢
        exact h i u hu
    | wind entry exit => exact ih h hv

theorem readSlot_mono {fluids fluids' : FluidRegistry}
    (h : fluids.defaults.toList <+: fluids'.defaults.toList) (slots : Array (Option Value))
    (g : FluidId) (v : Value) (hv : readSlot fluids slots g = some v) :
    readSlot fluids' slots g = some v := by
  rw [readSlot_eq] at hv ⊢
  cases hslot : slots[g.index]?.join with
  | some w => rwa [hslot] at hv
  | none =>
    rw [hslot] at hv
    rw [Option.none_or, ← Array.getElem?_toList] at hv ⊢
    obtain ⟨rest, hrest⟩ := h
    obtain ⟨hlt, rfl⟩ := List.getElem?_eq_some_iff.mp hv
    rw [← hrest, List.getElem?_append_left hlt, List.getElem?_eq_getElem hlt]

theorem FluidRegistry.size_le_of_prefix {fluids fluids' : FluidRegistry}
    (h : fluids.defaults.toList <+: fluids'.defaults.toList) : fluids.size ≤ fluids'.size :=
  h.length_le

theorem KeywordRegistry.exists_keyword_intern (r : KeywordRegistry) (name : String) :
    ∃ id, (r.intern name).1 = .keyword id := by
  obtain ⟨id, -, hid⟩ := lookup?_eq_some.mp (lookup?_intern r name)
  exact ⟨id, hid.symm⟩

namespace Winder

def UndoneBy (fluid : FluidId) : Winder → Prop
  | .fluid id _ _ => id = fluid
  | wind _ exit => exit.isFixnum

def isWind : Winder → Bool
  | .fluid _ _ _ => false
  | wind _ _ => true

end Winder

namespace Stress

open Machine Strand

/-- In the course of an iteration that began on `origin`: its values are above those it found on the
value stack, its entries are above those it found on the dynamic stack and, undone, leave the fluids
as they were, and so many procedures are called once this is done. -/
structure Underway (h : Heap) (fluid : FluidId) (origin : Machine Calls) (values : List Value)
    (entries : List Winder) (calls n : Nat) (m : Machine Calls) : Prop where
  seated : m.Seated h
  known : fluid.index < m.vm.fluids.size
  stack_eq : m.context.stack.toList = origin.context.stack.toList ++ values
  winders_eq : m.context.winders.toList = origin.context.winders.toList ++ entries.reverse
  undone : ∀ w ∈ entries, w.UndoneBy fluid
  fluids : ∀ g v, readSlot origin.vm.fluids origin.context.slots g = some v →
    rewind entries (readSlot m.vm.fluids m.context.slots) g = some v
  owed : n + entries.countP Winder.isWind = calls

variable {h : Heap} {company : Company h} {env : Embedder Calls} {depth : Nat}
  {S : Supply company env depth} {fluid : FluidId} {origin : Machine Calls} {more calls n : Nat}
  {values fresh : List Value} {entries : List Winder} {sizes : List Nat} {m m' : Machine Calls}
  {v w : Value}

theorem Underway.stable : Stable company.terms (Underway h fluid origin values entries calls) := by
  intro n m m' hm hrely
  obtain ⟨hcontext, hu⟩ := company.undisturbed hrely
  obtain ⟨vm, c, host⟩ := m
  obtain ⟨vm', c', host'⟩ := m'
  obtain rfl : c' = c := hcontext
  refine ⟨⟨hu.region hm.seated.1, hm.seated.2⟩, ?_, hm.stack_eq, hm.winders_eq, hm.undone,
    fun g v hv => ?_, hm.owed⟩
  · exact Nat.lt_of_lt_of_le hm.known (FluidRegistry.size_le_of_prefix hu.fluids)
  · exact rewind_mono (readSlot_mono hu.fluids c'.slots) entries g v (hm.fluids g v hv)

def Amid (S : Supply company env depth) (fluid : FluidId) (origin : Machine Calls)
    (more calls : Nat) (values : List Value) (entries : List Winder) (sizes : List Nat)
    (fresh : List Value) (n : Nat) (m : Machine Calls) : Prop :=
  Underway h fluid origin values entries calls n m ∧ S.Left more sizes fresh m

theorem Supply.stable_and {pre : Nat → Machine Calls → Prop} (hpre : Stable company.terms pre) :
    Stable company.terms fun n m => pre n m ∧ S.Left more sizes fresh m :=
  fun n m m' hm hrely => ⟨hpre n m m' hm.1 hrely, S.stable hm.2 hrely⟩

theorem Amid.stable :
    Stable company.terms (Amid S fluid origin more calls values entries sizes fresh) :=
  S.stable_and Underway.stable

theorem Supply.serves (S : Supply company env depth) {α : Type} {op : Action α}
    {pushed set : List Value} {P : Nat → Machine Calls → Prop}
    {Q : α → Nat → Machine Calls → Prop} (hpushed : ∀ v ∈ pushed, v.isReference → v ∈ fresh)
    (hset : ∀ v ∈ set, v.isReference = false) (hpre : Stable company.terms P)
    (hpost : ∀ a, Stable company.terms (Q a))
    (hop : ∀ n m, P n m → ∃ a m' k, op m = .ok a m' ∧ m.TakesNothing pushed set m' ∧
      m'.host = m.host + k ∧ Q a (n + k) m') :
    Serves company.terms (fun n m => P n m ∧ S.Left more sizes fresh m) (lift op)
      (fun a n m => Q a n m ∧ S.Left more sizes [] m) := by
  refine Serves.lift (S.stable_and hpre) (fun a => S.stable_and (hpost a)) fun n m ⟨hm, hleft⟩ => ?_
  obtain ⟨a, m', k, hrun, htakes, hhost, hdone⟩ := hop n m hm
  rw [hrun]
  refine ⟨⟨htakes.courteous, hhost ▸ Nat.le_add_right m.host k⟩, ?_, ?_⟩
  · have hcount : company.terms.count m' - company.terms.count m = k := by
      change m'.host - m.host = k
      rw [hhost, Nat.add_sub_cancel_left]
    rwa [hcount]
  · exact S.keeps hleft htakes hpushed hset

theorem get_serves {pre : Nat → Machine Calls → Prop} (hpre : Stable company.terms pre)
    {Q : Machine Calls → Prop} (hQ : ∀ n m, pre n m → Q m) :
    Serves company.terms pre (lift get) (fun seen n m => Q seen ∧ pre n m) :=
  Serves.read (f := fun m => m) (fun _ => rfl) hpre (fun _ => hpre.and)
    fun n m hm => ⟨hQ n m hm, hm⟩

theorem fixnum?_of_lt {i : Nat} (hi : i < 2 ^ 62) :
    Value.fixnum? i = some (Value.fixnum i) := by
  apply if_pos
  omega

theorem fixnum_serves {pre : Nat → Machine Calls → Prop} (hpre : Stable company.terms pre)
    {stackSize i : Nat} (hcovers : company.Covers depth stackSize) (hi : i < depth) :
    Serves company.terms pre (lift (fixnum i)) fun v n m => v.isReference = false ∧ pre n m := by
  cases hfits : Value.fixnum? i with
  | none =>
    have hfault : fixnum i = fault (.fixnumOverflow i) := by rw [fixnum, hfits, Option.getDM]
    rw [hfault]
    refine ⟨fun _ _ _ _ _ => ?_⟩
    rcases hcovers with hpanics | ⟨hdepth, -⟩
    · exact hpanics _ (by rintro ⟨⟩)
    · rw [fixnum?_of_lt (Nat.lt_of_lt_of_le hi hdepth)] at hfits
      contradiction
  | some v =>
    have hpure : fixnum i = pure v := by rw [fixnum, hfits, Option.getDM]
    rw [hpure]
    refine Serves.read (f := fun _ => v) (fun _ => rfl) hpre (fun _ => hpre.and)
      fun _ _ hm => ⟨?_, hm⟩
    obtain ⟨-, hv⟩ := Option.ite_none_right_eq_some.mp hfits
    obtain rfl := Option.some.inj hv
    exact Value.isReference_fixnum _

theorem liftExcept_serves {α : Type} {pre : Nat → Machine Calls → Prop}
    (hpre : Stable company.terms pre) (a : α) :
    Serves company.terms pre (lift (liftExcept (.ok a))) (fun b n m => b = a ∧ pre n m) :=
  Serves.read (f := fun _ => a) (fun _ => rfl) hpre (fun _ => hpre.and) fun _ _ hm => ⟨rfl, hm⟩

theorem quiet_invoke (henv : env.invoke = applyCounted) (procedure : Value) :
    Quiet [] [] (env.invoke procedure) := by
  intro m
  rw [henv]
  unfold applyCounted
  split
  · exact ⟨⟨_, rfl⟩, rfl, rfl, fun _ hv => Or.inr hv, fun _ hv => Or.inr hv⟩
  · exact Retains.refl [] [] m

theorem applyCounted_of_isFixnum {procedure : Value} (h : procedure.isFixnum) (m : Machine Calls) :
    applyCounted procedure m = .ok () { m with host := m.host + 1 } := by
  unfold applyCounted
  rw [if_pos h]
  rfl

namespace Amid

theorem push_serves (hv : v.isReference → v ∈ fresh) :
    Serves company.terms (Amid S fluid origin more calls values entries sizes fresh) (lift (push v))
      (fun _ => Amid S fluid origin more calls (values ++ [v]) entries sizes []) := by
  refine S.serves (List.forall_mem_singleton.mpr hv) (List.forall_mem_nil _) Underway.stable
    (fun _ => Underway.stable) fun n m hm => ?_
  refine ⟨(), _, 0, rfl, ⟨.push m v, List.prefix_rfl, rfl⟩, rfl, hm.seated, hm.known, ?_,
    hm.winders_eq, hm.undone, hm.fluids, hm.owed⟩
  change (m.context.stack.push v).toList = _
  rw [Array.toList_push, hm.stack_eq, List.append_assoc]

theorem setFirst_serves (v w : Value) :
    Serves company.terms (Amid S fluid origin more calls [v] entries sizes [w])
      (lift (modifyContext fun c =>
        { c with stack := c.stack.setIfInBounds origin.context.stack.size w }))
      (fun _ => Amid S fluid origin more calls [w] entries sizes []) := by
  refine S.serves (fun u (hu : u ∈ [w]) _ => hu) (List.forall_mem_nil _) Underway.stable
    (fun _ => Underway.stable) fun n m hm => ?_
  have hretains : Retains [w] [] m { m with context :=
      { m.context with stack := m.context.stack.setIfInBounds origin.context.stack.size w } } := by
    apply Retains.withStack
    intro u hu
    exact (Array.mem_or_eq_of_mem_setIfInBounds hu).symm.imp List.mem_singleton.mpr id
  refine ⟨(), _, 0, rfl, ⟨hretains, List.prefix_rfl, rfl⟩, rfl, hm.seated, hm.known, ?_,
    hm.winders_eq, hm.undone, hm.fluids, hm.owed⟩
  change (m.context.stack.setIfInBounds origin.context.stack.size w).toList = _
  rw [Array.toList_setIfInBounds, hm.stack_eq, ← Array.length_toList,
    List.set_append_right _ _ (Nat.le_refl _), Nat.sub_self]
  rfl

theorem truncate_serves :
    Serves company.terms (Amid S fluid origin more calls values entries sizes fresh)
      (lift (modifyContext fun c => { c with stack := c.stack.take origin.context.stack.size }))
      (fun _ => Amid S fluid origin more calls [] entries sizes []) := by
  refine S.serves (List.forall_mem_nil _) (List.forall_mem_nil _) Underway.stable
    (fun _ => Underway.stable) fun n m hm => ?_
  refine ⟨(), _, 0, rfl, ⟨.truncate m _, List.prefix_rfl, rfl⟩, rfl, hm.seated, hm.known, ?_,
    hm.winders_eq, hm.undone, hm.fluids, hm.owed⟩
  change (m.context.stack.take origin.context.stack.size).toList = _
  rw [Array.take_eq_extract, Array.toList_extract, hm.stack_eq, List.extract_eq_take_drop]
  simp

theorem intern_serves (name : String) :
    Serves company.terms (Amid S fluid origin more calls values entries sizes fresh)
      (lift (intern name))
      (fun v n m => (∃ id, v = .keyword id) ∧
        Amid S fluid origin more calls values entries sizes [] n m) := by
  refine Serves.mono (S.serves (Q := fun v n m => (∃ id, v = .keyword id) ∧
      Underway h fluid origin values entries calls n m) (List.forall_mem_nil _)
    (List.forall_mem_nil _) Underway.stable (fun _ => Underway.stable.and) fun n m hm => ?_)
    (fun _ _ hm => hm) fun _ _ _ hm => ⟨hm.1.1, hm.1.2, hm.2⟩
  exact ⟨(m.vm.keywords.intern name).1, _, 0, rfl, ⟨.intern m name, List.prefix_rfl, rfl⟩, rfl,
    m.vm.keywords.exists_keyword_intern name, hm.seated, hm.known, hm.stack_eq, hm.winders_eq,
    hm.undone, hm.fluids, hm.owed⟩

end Amid

theorem Underway.setSlot {entries' : List Winder} {c : Context}
    (hm : Underway h fluid origin values entries calls n m)
    (harena : c.arena = m.context.arena) (hstack : c.stack = m.context.stack)
    (hwinders : c.winders.toList = origin.context.winders.toList ++ entries'.reverse)
    (hundone : ∀ w ∈ entries', w.UndoneBy fluid)
    (hfluids : ∀ g u, readSlot origin.vm.fluids origin.context.slots g = some u →
      rewind entries' (Function.update (readSlot m.vm.fluids c.slots) fluid (some v)) g = some u)
    (hcount : entries'.countP Winder.isWind = entries.countP Winder.isWind) :
    Underway h fluid origin values entries' calls n
      { m with context := c.setSlot fluid.index v } where
  seated := by
    refine ⟨hm.seated.1, ?_⟩
    change ∀ k, (c.setSlot fluid.index v).arena.cursor = some k → h.Seats k
    rw [Context.arena_setSlot, harena]
    exact hm.seated.2
  known := hm.known
  stack_eq := by
    change (c.setSlot fluid.index v).stack.toList = _
    rw [Context.stack_setSlot, hstack]
    exact hm.stack_eq
  winders_eq := by
    change (c.setSlot fluid.index v).winders.toList = _
    rw [winders_setSlot]
    exact hwinders
  undone := hundone
  fluids g u hu := by
    change rewind entries' (readSlot m.vm.fluids (c.setSlot fluid.index v).slots) g = some u
    rw [readSlot_setSlot]
    exact hfluids g u hu
  owed := by
    rw [hcount]
    exact hm.owed

namespace Amid

theorem pushFluid_serves (hv : v.isReference = false) :
    Serves company.terms (Amid S fluid origin more calls values entries sizes [])
      (lift (pushFluid fluid v))
      (fun _ n m => ∃ ws, Amid S fluid origin more calls values ws sizes [] n m) := by
  refine Serves.mono (S.serves (Q := fun _ n m => ∃ ws,
      Underway h fluid origin values ws calls n m) (List.forall_mem_nil _)
    (List.forall_mem_singleton.mpr hv) Underway.stable (fun _ => .exists fun _ => Underway.stable)
    fun n m hm => ?_) (fun _ _ hm => hm) fun _ _ _ ⟨⟨ws, hm⟩, hleft⟩ => ⟨ws, hm, hleft⟩
  have hretains := Retains.pushFluid m fluid v
  obtain ⟨previous, hprevious⟩ := readSlot_of_lt hm.known m.context.slots
  let bound : Context :=
    { m.context with winders := m.context.winders.push (.fluid fluid previous v) }
  have hrun : pushFluid fluid v m = .ok () { m with context := bound.setSlot fluid.index v } := by
    simp only [pushFluid_apply, hprevious, fluidSet_apply, hm.known, or_true, ↓reduceIte]
    rfl
  rw [hrun] at hretains
  refine ⟨(), _, 0, hrun, ⟨hretains, List.prefix_rfl, rfl⟩, rfl,
    .fluid fluid previous v :: entries, hm.setSlot rfl rfl ?_ ?_ (fun g u hu => ?_) ?_⟩
  · change (m.context.winders.push (.fluid fluid previous v)).toList = _
    rw [Array.toList_push, hm.winders_eq, List.reverse_cons, List.append_assoc]
  · exact List.forall_mem_cons.mpr ⟨rfl, hm.undone⟩
  · -- undoing the new entry first gives the fluid back the value it has now
    rw [rewind, Function.update_idem, ← hprevious, Function.update_eq_self]
    exact hm.fluids g u hu
  · exact List.countP_cons_of_neg (by simp [Winder.isWind])

theorem pushWind_serves (henv : env.invoke = applyCounted) {entry exit : Value}
    (hentry : entry.isFixnum) (hexit : exit.isFixnum)
    (hplain : ∀ v ∈ [entry, exit], v.isReference = false) :
    Serves company.terms (Amid S fluid origin more calls values entries sizes [])
      (lift (pushWind env entry exit))
      (fun _ => Amid S fluid origin more (calls + 2) values (.wind entry exit :: entries) sizes
        []) := by
  refine S.serves (List.forall_mem_nil _) hplain Underway.stable (fun _ => Underway.stable)
    fun n m hm => ?_
  have hretains := Retains.pushWind (quiet_invoke henv) m entry exit
  have hrun : pushWind env entry exit m = .ok () { m with
      context := { m.context with winders := m.context.winders.push (.wind entry exit) }
      host := m.host + 1 } := by
    rw [pushWind, henv]
    exact EStateM.bind_of_ok (applyCounted_of_isFixnum hentry m)
  rw [hrun] at hretains
  refine ⟨(), _, 1, hrun, ⟨hretains, List.prefix_rfl, rfl⟩, rfl, hm.seated, hm.known,
    hm.stack_eq, ?_, List.forall_mem_cons.mpr ⟨hexit, hm.undone⟩, hm.fluids, ?_⟩
  · change (m.context.winders.push (.wind entry exit)).toList = _
    rw [Array.toList_push, hm.winders_eq, List.reverse_cons, List.append_assoc]
  · have howed := hm.owed
    rw [List.countP_cons_of_pos rfl]
    omega

theorem pop_serves (henv : env.invoke = applyCounted) {w : Winder} :
    Serves company.terms (Amid S fluid origin more calls values (w :: entries) sizes [])
      (lift (pop env)) (fun _ => Amid S fluid origin more calls values entries sizes []) := by
  refine S.serves (List.forall_mem_nil _) (List.forall_mem_nil _) Underway.stable
    (fun _ => Underway.stable) fun n m hm => ?_
  have hretains := Retains.pop (quiet_invoke henv) m
  obtain ⟨hlast, hundone⟩ := List.forall_mem_cons.mp hm.undone
  let ws : Array Winder := (origin.context.winders.toList ++ entries.reverse).toArray
  have hws : m.context.winders = ws.push w := by
    apply Array.toList_inj.mp
    rw [hm.winders_eq, List.reverse_cons, ← List.append_assoc, Array.toList_push]
  let popped : Machine Calls := { m with context := { m.context with winders := ws } }
  have hpop : popWinder m = .ok w popped := popWinder_push hws
  cases w with
  | fluid id previous v =>
    obtain rfl : id = fluid := hlast
    have hrun : pop env m =
        .ok () { popped with context := popped.context.setSlot id.index previous } := by
      unfold pop
      rw [EStateM.bind_of_ok hpop]
      have hknown : id.index < popped.vm.fluids.size := hm.known
      simp only [fluidSet_apply, hknown, or_true, ↓reduceIte]
    have hcount : entries.countP Winder.isWind =
        (Winder.fluid id previous v :: entries).countP Winder.isWind :=
      (List.countP_cons_of_neg (by simp [Winder.isWind])).symm
    rw [hrun] at hretains
    exact ⟨(), _, 0, hrun, ⟨hretains, List.prefix_rfl, rfl⟩, rfl,
      hm.setSlot rfl rfl rfl hundone hm.fluids hcount⟩
  | wind entry exit =>
    have hrun : pop env m = .ok () { popped with host := popped.host + 1 } := by
      unfold pop
      rw [EStateM.bind_of_ok hpop, henv]
      exact applyCounted_of_isFixnum hlast popped
    rw [hrun] at hretains
    refine ⟨(), _, 1, hrun, ⟨hretains, List.prefix_rfl, rfl⟩, rfl, hm.seated, hm.known,
      hm.stack_eq, rfl, hundone, hm.fluids, ?_⟩
    have howed := hm.owed
    rw [List.countP_cons_of_pos rfl] at howed
    omega

section Allocation

variable {r : ObjectRequest} (hc : env.collector.IsGentle) (htyped : r.IsTyped) (hfits : r.Fits)
  (hoperands : ∀ v ∈ r.operands, v.isReference → v ∈ values)

include hc htyped hfits hoperands

theorem perform (hm : Amid S fluid origin more calls values entries (r.size :: sizes) [] n m) :
    match r.perform env m with
    | .ok v m' => company.terms.guarantee m m' ∧
        Amid S fluid origin more calls values entries sizes [v]
          (n + (company.terms.count m' - company.terms.count m)) m'
    | .error e _ => company.terms.excuses e := by
  obtain ⟨hm, hleft⟩ := hm
  have hperform := r.perform_shared hc hfits hm.seated
  have hstack : ∀ v ∈ r.operands, v.isReference → v ∈ m.context.stack := by
    intro v hv href
    rw [← Array.mem_toList_iff, hm.stack_eq]
    exact List.mem_append_right _ (hoperands v hv href)
  have hallocate := S.allocate hleft hm.seated htyped hfits hstack
  cases hr : r.perform env m with
  | error e m' =>
    rw [hr] at hallocate
    exact hallocate
  | ok v m' =>
    rw [hr] at hperform hallocate
    obtain ⟨hcourteous, hseated, ⟨heap, arena, rfl⟩, -⟩ := hperform
    refine ⟨⟨hcourteous, Nat.le_refl _⟩, ⟨hseated, hm.known, hm.stack_eq, hm.winders_eq, hm.undone,
      hm.fluids, ?_⟩, hallocate⟩
    change n + (m.host - m.host) + _ = calls
    rw [Nat.sub_self]
    exact hm.owed

theorem perform_serves :
    Serves company.terms (Amid S fluid origin more calls values entries (r.size :: sizes) [])
      (lift (r.perform env))
      (fun v => Amid S fluid origin more calls values entries sizes [v]) := by
  refine Serves.lift stable (fun _ => stable) fun n m hm => ?_
  have hdone := hm.perform hc htyped hfits hoperands
  cases hr : r.perform env m <;>
    · rw [hr] at hdone
      exact hdone

end Allocation

theorem string_serves (hc : env.collector.IsGentle) :
    Serves company.terms (Amid S fluid origin more calls values entries (32 :: sizes) [])
      (lift (allocateString env "λ-stress"))
      (fun v n m => Amid S fluid origin more calls values entries sizes [v] n m ∧
        ∀ m', company.rely m m' → m'.vm.stringLength v = .ok 8) := by
  refine Serves.lift stable (fun v n m m' hm hrely =>
    ⟨stable n m m' hm.1 hrely, fun m'' hrely' => hm.2 m'' (company.rely_trans hrely hrely')⟩)
    fun n m hm => ?_
  have hdone := hm.perform (r := .string "λ-stress") hc trivial fits_stress nofun
  change match allocateString env "λ-stress" m with | .ok _ _ => _ | .error _ _ => _ at hdone
  cases hr : allocateString env "λ-stress" m with
  | error e m' =>
    rw [hr] at hdone
    exact hdone
  | ok v m' =>
    rw [hr] at hdone
    exact ⟨hdone.1, hdone.2, fun m'' hrely => S.stringLength hm.2 hm.1.seated hr hrely⟩

end Amid

def setupOf (fluid : FluidId) (x y : UInt32) : Setup where
  fluid
  descriptor := ⟨2, 1, 5, .allowOtherKeys, 0, ⟨[(x, 3), (y, 4)]⟩⟩
  code := [2, x, 3, y, 4]

theorem isKeyword_keyword (id : UInt32) : (Value.keyword id).isKeyword := by
  rw [← Value.isSome_keywordId?, Value.keywordId?_keyword]
  rfl

theorem isReference_keyword (id : UInt32) : (Value.keyword id).isReference = false := by
  apply Bool.eq_false_iff.mpr
  rw [Ne, Value.isReference_iff, Value.toNat_raw_keyword]
  omega

def arguments (id : UInt32) : List Value := [.fixnum 1, .fixnum 2, .keyword id, .fixnum 3]

theorem bind_arguments (fluid : FluidId) (x y id : UInt32) (front : List Value) :
    match Frame.bind front.length 4 (setupOf fluid x y).descriptor.arity
        (setupOf fluid x y).descriptor.keywords (front ++ arguments id) with
    | .ok _ stack => stack.take front.length = front
    | .error e _ => 2 ^ 64 ≤ front.length + 4 ∧ ∃ f, e = .fault f ∧ f.IsPanic := by
  let arity : Arity := ⟨2, 3, 5, .allowOtherKeys⟩
  let table : KeywordTable := ⟨[(x, 3), (y, 4)]⟩
  have hkeyword := isKeyword_keyword id
  have harity : arity.IsWellFormed := by decide
  by_cases hoverflow : 1 <<< 64 ≤ front.length + 4
  · have hwell : (setupOf fluid x y).descriptor.arity.IsWellFormed := harity
    simp only [Frame.bind, hwell, not_true_eq_false, ↓reduceIte, hoverflow]
    exact ⟨hoverflow, _, rfl, by rintro ⟨⟩⟩
  have hlength : (front ++ arguments id).length < 2 ^ 64 := by
    simp only [arguments, List.length_append, List.length_cons, List.length_nil]
    omega
  have hrequired : arity.required.toNat ≤ 4 := by decide
  have hframe : front.length + 4 ≤ (front ++ arguments id).length := by simp [arguments]
  have hargs : ((front ++ arguments id).drop front.length).take 4 = arguments id := by
    rw [List.drop_left]
    rfl
  have hp : Frame.positionalCount arity (arguments id) = 2 := by
    simp [Frame.positionalCount, arguments, arity, hkeyword]
  have hregion : (arguments id).drop 2 = [.keyword id, .fixnum 3] := rfl
  have herror : Frame.regionError? arity.flags table (.wrongNumberOfArgs 4 2 3)
      (RegionItem.parse ((arguments id).drop 2)) = none := by
    have hflag : arity.flags.contains .allowOtherKeys := by decide
    simp [hregion, RegionItem.parse, hkeyword, Frame.regionError?, Frame.itemError?, hflag]
  have hslots : ∀ entry ∈ table.entries,
      entry.2.toNat < (Frame.unassigned arity (arguments id) 2).length := by
    simp [table, Frame.unassigned, arguments, arity]
  obtain ⟨locals, hstore, -⟩ := Frame.store_assigns ((arguments id).drop 2) hslots
  have hbind := Frame.bind_of_store harity hframe hlength hrequired hargs hp herror hstore
  have hbase : front.length ≤ (front ++ arguments id).length := Nat.le_of_add_right_le hframe
  change match Frame.bind front.length 4 arity table (front ++ arguments id) with
    | .ok _ stack => stack.take front.length = front
    | .error e _ => 2 ^ 64 ≤ front.length + 4 ∧ ∃ f, e = .fault f ∧ f.IsPanic
  rw [hbind]
  exact ((Frame.confined_splice hbase).take_eq (Nat.le_refl _)).trans List.take_left

theorem Underway.size_eq (hm : Underway h fluid origin values entries calls n m) :
    m.context.stack.size = origin.context.stack.size + values.length := by
  have hlength := congrArg List.length hm.stack_eq
  rwa [Array.length_toList, List.length_append, Array.length_toList] at hlength

theorem Underway.depth_eq (hm : Underway h fluid origin values entries calls n m) :
    m.context.depth = origin.context.depth + entries.length := by
  have hlength := congrArg List.length hm.winders_eq
  rwa [Array.length_toList, List.length_append, List.length_reverse, Array.length_toList] at hlength

theorem Underway.getD_eq (hm : Underway h fluid origin [v] entries calls n m) :
    m.context.stack.getD origin.context.stack.size .undefined = v := by
  rw [Array.getD_eq_getD_getElem?, ← Array.getElem?_toList, hm.stack_eq, ← Array.length_toList,
    List.getElem?_append_right (Nat.le_refl _), Nat.sub_self]
  rfl

namespace Amid

theorem bind_serves (values : List Value) (x y id : UInt32)
    (hcovers : company.Covers depth origin.context.stack.size) (hlength : values.length = 3) :
    Serves company.terms
      (Amid S fluid origin more calls (values ++ arguments id) entries sizes [])
      (lift (bindEncoded (origin.context.stack.size + values.length) 0 4 (setupOf fluid x y).code 0
        (setupOf fluid x y).descriptor.tableOffset (setupOf fluid x y).descriptor.arity))
      (fun _ n m => ∃ values', Amid S fluid origin more calls values' entries sizes [] n m) := by
  have hdecode : KeywordTable.decode (setupOf fluid x y).code 0 =
      .ok ((setupOf fluid x y).descriptor.keywords, 5) := rfl
  have hposition : ((0 : Nat) : Int) + (setupOf fluid x y).descriptor.tableOffset = (0 : Nat) := rfl
  have harity : (setupOf fluid x y).descriptor.arity.IsWellFormed := by
    change (⟨2, 3, 5, .allowOtherKeys⟩ : Arity).IsWellFormed
    decide
  refine Serves.lift stable (fun _ => .exists fun _ => stable) fun n m ⟨hm, hleft⟩ => ?_
  let front := origin.context.stack.toList ++ values
  have hstack : m.context.stack.toList = front ++ arguments id := by
    rw [hm.stack_eq, List.append_assoc]
  have hfront : origin.context.stack.size + values.length + 0 = front.length := by
    simp only [front, List.length_append, Array.length_toList, Nat.add_zero]
  have hbind := bind_arguments fluid x y id front
  have hretains := Quiet.bindEncoded (origin.context.stack.size + values.length) 0 4
    (setupOf fluid x y).code 0 (setupOf fluid x y).descriptor.tableOffset
    (setupOf fluid x y).descriptor.arity m
  rw [bindEncoded_of_decode hposition (by decide) hdecode harity, hstack, hfront] at hretains ⊢
  cases hr : Frame.bind front.length 4 (setupOf fluid x y).descriptor.arity
      (setupOf fluid x y).descriptor.keywords (front ++ arguments id) with
  | error e stack =>
    rw [hr] at hbind
    obtain ⟨hoverflow, f, rfl, hf⟩ := hbind
    rcases hcovers with hpanics | ⟨-, hroom⟩
    · exact hpanics f hf
    · omega
  | ok size stack =>
    rw [hr] at hbind hretains
    have hstack' : stack = origin.context.stack.toList ++ (values ++ stack.drop front.length) := by
      rw [← List.append_assoc]
      exact (List.take_append_drop front.length stack).symm.trans (congrArg (· ++ _) hbind)
    have htakes : m.TakesNothing [.unspecified] [] (m.withStack stack) :=
      ⟨hretains, List.prefix_rfl, rfl⟩
    have hplain : ∀ v ∈ [Value.unspecified], v.isReference → v ∈ ([] : List Value) := by decide
    refine ⟨⟨htakes.courteous, Nat.le_refl _⟩, values ++ stack.drop front.length,
      ⟨htakes.seated hm.seated, hm.known, hstack', hm.winders_eq, hm.undone, hm.fluids, ?_⟩,
      S.keeps hleft htakes hplain (List.forall_mem_nil _)⟩
    change n + (m.host - m.host) + _ = calls
    rw [Nat.sub_self]
    exact hm.owed

theorem buildList_serves (hc : env.collector.IsGentle)
    (hcovers : company.Covers depth origin.context.stack.size) {k i : Nat} (hi : i + k ≤ depth) :
    Serves company.terms
      (fun n m => ∃ v,
        Amid S fluid origin more calls [v] entries (List.replicate k 24 ++ sizes) [] n m)
      (Part.buildList env origin.context.stack.size k i)
      (fun _ n m => ∃ v, Amid S fluid origin more calls [v] entries sizes [] n m) := by
  induction k generalizing i with
  | zero => exact Serves.pure (.exists fun _ => stable) fun _ _ hm => hm
  | succ k ih =>
    refine Serves.of_exists fun v => ?_
    refine (get_serves (Q := fun m => m.context.stack.getD origin.context.stack.size .undefined = v)
      stable fun _ _ hm => hm.1.getD_eq).bind fun m => Serves.of_and fun htail => ?_
    rw [htail]
    refine (fixnum_serves stable hcovers (by omega)).bind fun x => Serves.of_and fun hx => ?_
    have hoperands : ∀ w ∈ [x, v], w.isReference → w ∈ [v] := by
      intro w hw href
      rcases List.mem_cons.mp hw with rfl | hw
      · rw [hx] at href
        contradiction
      · exact hw
    refine (perform_serves (r := .cell .pair x v) hc (Or.inl rfl) trivial hoperands).bind
      fun pair => ?_
    refine (setFirst_serves v pair).bind fun _ => ?_
    exact (ih (by omega)).mono (fun _ _ hm => ⟨pair, hm⟩) fun _ _ _ hm => hm

theorem fillDynamicStack_serves (henv : env.invoke = applyCounted)
    (hcovers : company.Covers depth origin.context.stack.size) {k i : Nat} (hi : i + k ≤ depth) :
    Serves company.terms
      (fun n m => ∃ ws, Amid S fluid origin more calls values ws sizes [] n m)
      (Part.fillDynamicStack env fluid k i)
      (fun _ n m => ∃ ws,
        Amid S fluid origin more (calls + 2 * ((i + k) / 2 - i / 2)) values ws sizes [] n m) := by
  induction k generalizing i calls with
  | zero =>
    rw [Nat.add_zero, Nat.sub_self]
    exact Serves.pure (.exists fun _ => stable) fun _ _ hm => hm
  | succ k ih =>
    refine Serves.of_exists fun ws => ?_
    unfold Part.fillDynamicStack
    have hsum : i + (k + 1) = i + 1 + k := by omega
    rw [hsum] at hi ⊢
    split
    · rename_i heven
      have hhalf : (i + 1) / 2 = i / 2 := by omega
      refine (fixnum_serves stable hcovers (by omega)).bind fun v => Serves.of_and fun hv => ?_
      refine (pushFluid_serves hv).bind fun _ => ?_
      rw [← hhalf]
      exact ih hi
    · rename_i hodd
      have hcalls : calls + 2 * ((i + 1 + k) / 2 - i / 2) =
          calls + 2 + 2 * ((i + 1 + k) / 2 - (i + 1) / 2) := by omega
      refine (pushWind_serves henv (by decide) (by decide) (by decide)).bind fun _ => ?_
      rw [hcalls]
      exact (ih hi).mono (fun _ _ hm => ⟨_, hm⟩) fun _ _ _ hm => hm

theorem depth_serves :
    Serves company.terms (Amid S fluid origin more calls values entries sizes fresh)
      (lift Machine.depth)
      (fun depth n m => depth = origin.context.depth + entries.length ∧
        Amid S fluid origin more calls values entries sizes fresh n m) :=
  Serves.read (f := fun m => m.context.depth) (fun _ => rfl) stable (fun _ => stable.and)
    fun _ _ hm => ⟨hm.1.depth_eq, hm⟩

theorem popTo_serves (henv : env.invoke = applyCounted) {k : Nat} (hk : entries.length ≤ k) :
    Serves company.terms (Amid S fluid origin more calls values entries sizes [])
      (Part.popTo env origin.context.depth k)
      (fun _ => Amid S fluid origin more calls values [] sizes []) := by
  induction k generalizing entries with
  | zero =>
    obtain rfl := List.eq_nil_of_length_eq_zero (Nat.le_zero.mp hk)
    refine depth_serves.bind fun depth => Serves.of_and fun hdepth => ?_
    rw [hdepth, List.length_nil, Nat.add_zero, if_neg (Nat.lt_irrefl _)]
    exact Serves.pure stable fun _ _ hm => hm
  | succ k ih =>
    refine depth_serves.bind fun depth => Serves.of_and fun hdepth => ?_
    cases entries with
    | nil =>
      rw [hdepth, List.length_nil, Nat.add_zero, if_neg (Nat.lt_irrefl _)]
      exact Serves.pure stable fun _ _ hm => hm
    | cons w entries =>
      rw [if_pos (by rw [hdepth, List.length_cons]; omega)]
      exact (pop_serves henv).bind fun _ => ih (Nat.le_of_succ_le_succ hk)

theorem note_serves (r : LogRecord) :
    Serves company.terms (Amid S fluid origin more calls values entries sizes []) (lift (note r))
      (fun _ => Amid S fluid origin more calls values entries sizes []) := by
  refine S.serves (List.forall_mem_nil _) (List.forall_mem_nil _) Underway.stable
    (fun _ => Underway.stable) fun n m hm => ?_
  exact ⟨(), _, 0, rfl, ⟨.note m r, List.prefix_rfl, rfl⟩, rfl,
    ⟨⟨hm.seated.1.start, hm.seated.1.settings⟩, hm.seated.2⟩, hm.known, hm.stack_eq, hm.winders_eq,
    hm.undone, hm.fluids, hm.owed⟩

theorem unwindTo_serves (henv : env.invoke = applyCounted) :
    Serves company.terms (fun n m => ∃ ws, Amid S fluid origin more calls values ws sizes [] n m)
      (Part.unwindTo env origin.context.depth)
      (fun _ => Amid S fluid origin more calls values [] sizes []) := by
  refine Serves.of_exists fun ws => ?_
  refine depth_serves.bind fun depth => Serves.of_and fun hdepth => ?_
  have hle : origin.context.depth ≤ depth := hdepth ▸ Nat.le_add_right _ _
  rw [if_pos hle]
  exact (note_serves _).bind fun _ => popTo_serves henv (by omega)

theorem size_serves :
    Serves company.terms (Amid S fluid origin more calls values entries sizes fresh) (lift get)
      (fun seen n m => seen.context.stack.size = origin.context.stack.size + values.length ∧
        Amid S fluid origin more calls values entries sizes fresh n m) :=
  get_serves stable fun _ _ hm => hm.1.size_eq

theorem iteration_serves (hc : env.collector.IsGentle) (henv : env.invoke = applyCounted)
    (x y : UInt32) (hcovers : company.Covers depth origin.context.stack.size) :
    Serves company.terms (Amid S fluid origin more calls [] [] (requestSizes depth) [])
      (Part.iteration env (setupOf fluid x y) depth)
      (fun done n m => done = ⟨depth, depth, 1, 8⟩ ∧
        Amid S fluid origin more (calls + 2 * (depth / 2)) [] [] [] [] n m) := by
  refine size_serves.bind fun seen => Serves.of_and fun hfp => ?_
  simp only [hfp, List.length_nil, Nat.add_zero]
  refine (push_serves (v := .nil) (by decide)).bind fun _ => ?_
  refine Serves.bind ((buildList_serves hc hcovers (Nat.le_of_eq (Nat.zero_add depth))).mono
    (fun _ _ hm => ⟨.nil, hm⟩) fun _ _ _ hm => hm) fun _ => ?_
  refine Serves.of_exists fun list => ?_
  refine (perform_serves (r := .flonum (Float.ofNat depth).toBits) hc trivial trivial nofun).bind
    fun flonum => ?_
  refine (push_serves fun _ => List.mem_singleton_self flonum).bind fun _ => ?_
  refine (perform_serves (r := .words .vector (UInt32.ofNat depth)) hc (Or.inr rfl) trivial
    nofun).bind fun vector => ?_
  refine (push_serves fun _ => List.mem_singleton_self vector).bind fun _ => ?_
  refine depth_serves.bind fun base => Serves.of_and fun hbase => ?_
  obtain rfl : base = origin.context.depth := hbase
  -- the dynamic stack is filled and unwound; the value stack stands as it is
  refine Serves.bind ((fillDynamicStack_serves henv hcovers
    (Nat.le_of_eq (Nat.zero_add depth))).mono (fun _ _ hm => ⟨[], hm⟩) fun _ _ _ hm => hm)
    fun _ => ?_
  refine (unwindTo_serves henv).bind fun _ => ?_
  refine size_serves.bind fun seen' => Serves.of_and fun hargs => ?_
  simp only [hargs]
  refine (intern_serves "x").bind fun key => Serves.of_and ?_
  rintro ⟨id, rfl⟩
  refine (push_serves (by decide)).bind fun _ => (push_serves (by decide)).bind fun _ => ?_
  refine (push_serves fun href => absurd href (ne_true_of_eq_false (isReference_keyword id))).bind
    fun _ => (push_serves (by decide)).bind fun _ => ?_
  refine (bind_serves [list, flonum, vector] x y id hcovers rfl).bind fun _ =>
    Serves.of_exists fun values => ?_
  refine (string_serves hc).bind fun s => ?_
  have hstable : Stable company.terms fun n m => Amid S fluid origin more
      (calls + 2 * ((0 + depth) / 2 - 0 / 2)) values [] [] [s] n m ∧
        ∀ m', company.rely m m' → m'.vm.stringLength s = .ok 8 := fun n m m' hm hrely =>
    ⟨stable n m m' hm.1 hrely, fun m'' hrely' => hm.2 m'' (company.rely_trans hrely hrely')⟩
  have hseen := get_serves (Q := fun m => m.vm.stringLength s = .ok 8) hstable
    fun n m hm => hm.2 m (company.rely_refl m)
  refine hseen.bind fun seen => Serves.of_and fun hlength => ?_
  rw [hlength]
  refine (liftExcept_serves hstable 8).bind fun characters => Serves.of_and ?_
  rintro rfl
  refine (truncate_serves.mono (fun _ _ hm => hm.1) fun _ _ _ hm => hm).bind fun _ => ?_
  refine Serves.pure stable fun n m hm => ⟨rfl, ?_⟩
  simpa using hm

end Amid

namespace Underway

theorem isNeutral (hm : Underway h fluid origin [] [] calls n m) (depth : Nat) :
    (Turn.mk origin ⟨depth, depth, 1, 8⟩ m).IsNeutral depth := by
  refine ⟨rfl, Array.toList_inj.mp ?_, Array.toList_inj.mp ?_, fun g v hv => ?_⟩
  · rw [hm.stack_eq, List.append_nil]
  · rw [hm.winders_eq, List.reverse_nil, List.append_nil]
  · rw [fluidRef_apply] at hv ⊢
    cases hread : readSlot origin.vm.fluids origin.context.slots g with
    | none =>
      rw [hread] at hv
      contradiction
    | some w =>
      rw [hread] at hv
      cases hv
      have hleft : readSlot m.vm.fluids m.context.slots g = some v := hm.fluids g v hread
      rw [hleft]

theorem start (hseated : m.Seated h) (hknown : fluid.index < m.vm.fluids.size) :
    Underway h fluid m [] [] n n m :=
  ⟨hseated, hknown, (List.append_nil _).symm, (List.append_nil _).symm, List.forall_mem_nil _,
    fun _ _ hv => hv, rfl⟩

end Underway

end Stress

end VmSupport
