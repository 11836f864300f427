import VmSupport.Proofs.KeptValues

namespace VmSupport

open EStateM

namespace VmRun

variable {s : VmRun} {i : Nat} {r : LiveContext} {before after : List LiveContext} {v : Value}

def machine (s : VmRun) (r : LiveContext) : Machine Unit := ⟨s.vm, r.context, ()⟩

def held (s : VmRun) : List Value := s.roots ++ s.live.flatMap (·.fresh.toList)

def Sound (s : VmRun) : Prop := s.inventory.Sound s.held

theorem mem_roots :
    v ∈ s.roots ↔ (∃ r ∈ s.live, v ∈ r.context.values) ∨ v ∈ s.vm.fluids.defaults := by
  simp [roots]

theorem mem_held : v ∈ s.held ↔
    v ∈ s.vm.fluids.defaults ∨ ∃ r ∈ s.live, v ∈ r.context.values ∨ r.fresh = some v := by
  simp only [held, List.mem_append, mem_roots, List.mem_flatMap, Option.mem_toList]
  constructor
  · rintro ((⟨r, hr, hv⟩ | hv) | ⟨r, hr, hv⟩)
    · exact Or.inr ⟨r, hr, Or.inl hv⟩
    · exact Or.inl hv
    · exact Or.inr ⟨r, hr, Or.inr hv⟩
  · rintro (hv | ⟨r, hr, hv | hv⟩)
    · exact Or.inl (Or.inr hv)
    · exact Or.inl (Or.inl ⟨r, hr, hv⟩)
    · exact Or.inr ⟨r, hr, hv⟩

theorem perform_allocate_ok {request : ObjectRequest} {m : Machine Unit}
    (hrun : request.perform (embedder (.ok ())) (s.machine r) = .ok v m) :
    s.perform i r (.allocate request) =
      s.leave i (s.allocate v.address request.image) (some v) m := by
  unfold machine at hrun
  simp only [perform, hrun]

theorem perform_allocate_error {request : ObjectRequest} {m : Machine Unit} {e : Exit RuntimeError}
    (hrun : request.perform (embedder (.ok ())) (s.machine r) = .error e m) :
    s.perform i r (.allocate request) = s.leave i s.toLedger none m := by
  unfold machine at hrun
  simp only [perform, hrun]

def heldBy (rs : List LiveContext) : List Value :=
  rs.flatMap fun r => r.context.values ++ r.fresh.toList

theorem mem_heldBy {rs : List LiveContext} :
    v ∈ heldBy rs ↔ ∃ r ∈ rs, v ∈ r.context.values ∨ r.fresh = some v := by
  simp [heldBy]

def cursorsOf (rs : List LiveContext) : List Cursor := rs.flatMap (·.context.arena.cursor.toList)

theorem cursorsOf_perm (before after : List LiveContext) (r : LiveContext) :
    (cursorsOf (before ++ r :: after)).Perm
      (r.context.arena.cursor.toList ++ cursorsOf (before ++ after)) :=
  flatMap_middle_perm (fun r : LiveContext => r.context.arena.cursor.toList) before after r

theorem mem_held_of_live (hlive : s.live = before ++ r :: after) : v ∈ s.held ↔
    v ∈ (s.machine r).kept ∨ r.fresh = some v ∨ v ∈ heldBy (before ++ after) := by
  have hsplit : ∀ {P : LiveContext → Prop},
      (∃ r' ∈ s.live, P r') ↔ P r ∨ ∃ r' ∈ before ++ after, P r' := by
    intro P
    rw [hlive]
    simp only [List.mem_append, List.mem_cons]
    constructor
    · rintro ⟨r', hr' | rfl | hr', hP⟩
      · exact Or.inr ⟨r', Or.inl hr', hP⟩
      · exact Or.inl hP
      · exact Or.inr ⟨r', Or.inr hr', hP⟩
    · rintro (hP | ⟨r', hr' | hr', hP⟩)
      · exact ⟨r, Or.inr (Or.inl rfl), hP⟩
      · exact ⟨r', Or.inl hr', hP⟩
      · exact ⟨r', Or.inr (Or.inr hr'), hP⟩
  rw [mem_held, hsplit, mem_heldBy, Machine.mem_kept]
  simp only [machine, or_assoc]
  exact or_left_comm

theorem mem_of_mem_roots (hlive : s.live = before ++ r :: after) (hv : v ∈ s.roots) :
    v ∈ (s.machine r).kept ∨ v ∈ heldBy (before ++ after) := by
  rw [Machine.mem_kept, mem_heldBy]
  rcases mem_roots.mp hv with ⟨r', hr', hv⟩ | hv
  · rw [hlive] at hr'
    rcases List.mem_append.mp hr' with hr' | hr'
    · exact Or.inr ⟨r', List.mem_append_left _ hr', Or.inl hv⟩
    · rcases List.mem_cons.mp hr' with rfl | hr'
      · exact Or.inl (Or.inl hv)
      · exact Or.inr ⟨r', List.mem_append_right _ hr', Or.inl hv⟩
  · exact Or.inl (Or.inr hv)

def HasSlot (s : VmRun) (target : Value) (j : Nat) : Prop :=
  target.isReference ∧ ∃ slots,
    Memory.slots? (s.vm.heap.memory.header target.address) target.address = some slots ∧
      target.address + 8 + 8 * j ∈ slots

theorem HasWord.hasSlot {target : Value} {j : Nat} (h : s.HasWord target j) :
    s.HasSlot target j := by
  obtain ⟨href, htype, hj⟩ := h
  have hmem : target.address + 8 + 8 * j ∈
      (List.range (s.vm.heap.memory.header target.address).length.toNat).map
        fun k => target.address + 8 + 8 * k :=
    List.mem_map.mpr ⟨j, List.mem_range.mpr hj, rfl⟩
  refine ⟨href, _, ?_, hmem⟩
  rcases htype with htype | htype <;>
    simp only [Memory.slots?, htype, Option.map_some, Memory.edgeSlots]

structure LiveAt (s : VmRun) (i : Nat) (r : LiveContext) (before after : List LiveContext) :
    Prop where
  live_eq : s.live = before ++ r :: after
  set : ∀ r', (s.contexts.set i (some r')).filterMap id = before ++ r' :: after
  drop : (s.contexts.set i none).filterMap id = before ++ after

theorem exists_liveAt (h : s.contexts[i]? = some (some r)) :
    ∃ before after, s.LiveAt i r before after := by
  obtain ⟨before, after, hlive, hset, hdrop⟩ := filterMap_id_set h
  exact ⟨before, after, hlive, hset, hdrop⟩

namespace LiveAt

theorem sound_after (h : s.LiveAt i r before after) (hs : s.Sound) (pending : List Value) :
    (s.inventory.after (cursorsOf (before ++ after)) ((s.machine r).mutator pending)).Sound
      s.held := by
  have hperm : (r.context.arena.cursor.toList ++ cursorsOf (before ++ after)).Perm
      s.inventory.cursors := by
    change List.Perm _ (cursorsOf s.live)
    rw [h.live_eq]
    exact (cursorsOf_perm before after r).symm
  exact hs.perm hperm

theorem sound_leave (h : s.LiveAt i r before after) {l : Ledger} {m : Machine Unit}
    {fresh : Option Value} {held : List Value} {p : Inventory} (hp : p.Sound held)
    (heq : p = ⟨l, m.vm.heap, s.live.length,
      m.context.arena.cursor.toList ++ cursorsOf (before ++ after),
      m.vm.threads.toList.reverse⟩)
    (hheld : ∀ v, v ∈ m.kept ∨ fresh = some v ∨ v ∈ heldBy (before ++ after) → v.isReference →
      p.heap.memory.Reaches held v.address ∨ p.Outside v.address) :
    (s.leave i l fresh m).Sound := by
  subst heq
  have hlive : (s.leave i l fresh m).live = before ++ ⟨m.context, fresh⟩ :: after :=
    h.set ⟨m.context, fresh⟩
  have hmono := hp.mono fun v hv href => hheld v ((mem_held_of_live hlive).mp hv) href
  have hperm : (cursorsOf (s.leave i l fresh m).live).Perm
      (m.context.arena.cursor.toList ++ cursorsOf (before ++ after)) := by
    rw [hlive]
    exact cursorsOf_perm before after _
  have hlength : (s.leave i l fresh m).live.length = s.live.length := by
    rw [hlive, h.live_eq, List.length_append, List.length_append, List.length_cons,
      List.length_cons]
  have hsound := hmono.perm hperm
  unfold VmRun.Sound inventory
  rw [hlength]
  exact hsound

theorem reaches_of_usable (h : s.LiveAt i r before after) (hv : s.Usable r v)
    (href : v.isReference) :
    s.vm.heap.memory.Reaches s.held v.address ∨ s.inventory.Outside v.address := by
  rcases hv href with hroots | hfresh | hout
  · exact Or.inl (hroots.mono (List.subset_append_left _ _))
  · exact Or.inl (.root ((mem_held_of_live h.live_eq).mpr (Or.inr (Or.inl hfresh))) href)
  · exact Or.inr hout

theorem sound_retains (h : s.LiveAt i r before after) (hs : s.Sound) {pushed set : List Value}
    {m : Machine Unit} (hm : Machine.Retains pushed set (s.machine r) m)
    (hgiven : ∀ v ∈ pushed ++ set, s.Usable r v) : (s.leave i s.toLedger r.fresh m).Sound := by
  obtain ⟨log, hheap⟩ := hm.heap_eq
  apply h.sound_leave ((h.sound_after hs []).relog log)
  · rw [hheap, hm.threads_eq, hm.arena_eq]
    rfl
  · intro v hv href
    have hold : v ∈ s.held →
        s.vm.heap.memory.Reaches s.held v.address ∨ s.inventory.Outside v.address :=
      fun hmem => Or.inl (.root hmem href)
    rcases hv with hv | hv
    · rcases hm.kept hv with hv | hv
      · exact h.reaches_of_usable (hgiven v hv) href
      · exact hold ((mem_held_of_live h.live_eq).mpr (Or.inl hv))
    · exact hold ((mem_held_of_live h.live_eq).mpr (Or.inr hv))

theorem sound_store (h : s.LiveAt i r before after) (hs : s.Sound) {target : Value} {j : Nat}
    (htarget : s.Usable r target) (hslot : s.HasSlot target j) (hv : s.Usable r v) :
    (s.perform i r (.write target j v)).Sound := by
  obtain ⟨href, hslots⟩ := hslot
  have hheld : ∀ w ∈ target :: v :: s.held, w.isReference →
      s.vm.heap.memory.Reaches s.held w.address ∨ s.inventory.Outside w.address := by
    intro w hw hwref
    rcases List.mem_cons.mp hw with rfl | hw
    · exact h.reaches_of_usable htarget hwref
    · rcases List.mem_cons.mp hw with rfl | hw
      · exact h.reaches_of_usable hv hwref
      · exact Or.inl (.root hw hwref)
  have hafter := (h.sound_after hs []).mono hheld
  have hwritten := hafter.write (.root List.mem_cons_self href) hslots fun hvref =>
    .root (List.mem_cons_of_mem _ List.mem_cons_self) hvref
  refine h.sound_leave hwritten rfl fun w hw hwref => Or.inl (.root ?_ hwref)
  apply List.mem_cons_of_mem
  apply List.mem_cons_of_mem
  exact (mem_held_of_live h.live_eq).mpr hw

theorem eq_nil_of_length_le_one (h : s.LiveAt i r before after) (hle : s.live.length ≤ 1) :
    before ++ after = [] := by
  rw [h.live_eq, List.length_append, List.length_cons] at hle
  apply List.eq_nil_of_length_eq_zero
  rw [List.length_append]
  omega

def heldDuring (s : VmRun) (r : LiveContext) (before after : List LiveContext)
    (operands : List Value) : List Value :=
  operands ++ (s.machine r).kept ++ heldBy (before ++ after)

theorem sound_during (h : s.LiveAt i r before after) (hs : s.Sound) {operands : List Value}
    (hoperands : ∀ v ∈ operands, s.Usable r v) :
    (s.inventory.after (cursorsOf (before ++ after)) ((s.machine r).mutator operands)).Sound
      (heldDuring s r before after operands) := by
  apply (h.sound_after hs operands).mono
  intro v hv href
  have hold : v ∈ s.held →
      s.vm.heap.memory.Reaches s.held v.address ∨ s.inventory.Outside v.address :=
    fun hmem => Or.inl (.root hmem href)
  unfold heldDuring at hv
  rcases List.mem_append.mp hv with hv | hv
  · rcases List.mem_append.mp hv with hv | hv
    · exact h.reaches_of_usable (hoperands v hv) href
    · exact hold ((mem_held_of_live h.live_eq).mpr (Or.inl hv))
  · exact hold ((mem_held_of_live h.live_eq).mpr (Or.inr (Or.inr hv)))

theorem roots_subset (s : VmRun) (r : LiveContext) (before after : List LiveContext)
    (operands : List Value) : RootSet.toList ((s.machine r).mutator operands).roots ⊆
      heldDuring s r before after operands := by
  rw [Machine.toList_mutator]
  exact List.subset_append_left _ _

theorem subset_roots (h : s.LiveAt i r before after) (operands : List Value)
    (hle : s.inventory.arenas ≤ 1) : heldDuring s r before after operands ⊆
      RootSet.toList ((s.machine r).mutator operands).roots := by
  rw [Machine.toList_mutator, heldDuring, h.eq_nil_of_length_le_one hle]
  simp [heldBy]

theorem run_roots_subset (h : s.LiveAt i r before after) (operands : List Value) :
    s.roots ⊆ heldDuring s r before after operands := by
  intro v hv
  rcases mem_of_mem_roots h.live_eq hv with hv | hv
  · exact List.mem_append_left _ (List.mem_append_right _ hv)
  · exact List.mem_append_right _ hv

theorem sound_unallocated (h : s.LiveAt i r before after) {operands : List Value}
    {x : Mutator ContextRoots Unit}
    (hx : (s.inventory.after (cursorsOf (before ++ after)) x).Sound
      (heldDuring s r before after operands)) :
    (s.leave i s.toLedger none ((s.machine r).withMutator x)).Sound := by
  refine h.sound_leave hx rfl fun v hv href => Or.inl (.root ?_ href)
  rcases hv with hv | hv | hv
  · exact List.mem_append_left _ (List.mem_append_right _ hv)
  · contradiction
  · exact List.mem_append_right _ hv

theorem sound_collect (h : s.LiveAt i r before after) (hs : s.Sound) :
    (s.perform i r .collect).Sound := by
  have hnil : ∀ v ∈ ([] : List Value), s.Usable r v := fun v hv => absurd hv List.not_mem_nil
  have hcollect := (h.sound_during hs hnil).collect (roots_subset s r before after [])
    (h.subset_roots [])
  have hstate : (Machine.collect (embedder (.ok ())) (s.machine r)).state =
      (s.machine r).withMutator _ := Machine.state_collect hcollect.roots_eq
  change (s.leave i s.toLedger none (Machine.collect _ (s.machine r)).state).Sound
  rw [hstate]
  exact h.sound_unallocated hcollect.sound

theorem sound_allocated (h : s.LiveAt i r before after) {request : ObjectRequest}
    (htyped : request.IsTyped) {x : Mutator ContextRoots Unit} {a : Nat}
    (haddress : (Value.reference a).address = a)
    (hx : (s.inventory.after (cursorsOf (before ++ after)) x).Sound
      (heldDuring s r before after request.operands))
    (hclear : (s.inventory.after (cursorsOf (before ++ after)) x).Clear
      (heldDuring s r before after request.operands) a (a + 8 * request.image.length)) :
    (s.leave i (s.allocate a request.image) (some (Value.reference a))
      (Machine.writeWords a request.image ((s.machine r).withMutator x)).state).Sound := by
  have hobject := ObjectRequest.isObject_image htyped
  have hplace := hx.place hobject hclear
    (fun vs hvs w hw href => List.mem_append_left _ (List.mem_append_left _
      (ObjectRequest.mem_operands_of_edge htyped hvs hw href))) haddress
  refine h.sound_leave hplace rfl fun v hv href => Or.inl (.root ?_ href)
  rcases hv with hv | hv | hv
  · exact List.mem_cons_of_mem _ (List.mem_append_left _ (List.mem_append_right _ hv))
  · cases hv
    exact List.mem_cons_self
  · exact List.mem_cons_of_mem _ (List.mem_append_right _ hv)

theorem allocate_cases (h : s.LiveAt i r before after) (hs : s.Sound) {request : ObjectRequest}
    (htyped : request.IsTyped) (hfits : request.Fits)
    (hoperands : ∀ v ∈ request.operands, s.Usable r v)
    (hmap : s.vm.heap.settings.largeSize ≤ request.size → s.MayMap request.size) :
    ∃ x, x = (Mutator.allocate .blocks (.ofWords request.size)
        ((s.machine r).mutator request.operands)).state ∧
      s.inventory.Outlasts (cursorsOf (before ++ after))
        (heldDuring s r before after request.operands) ((s.machine r).mutator request.operands) x ∧
      (s.perform i r (.allocate request) =
          s.leave i s.toLedger none ((s.machine r).withMutator x) ∨
        ∃ a, (Value.reference a).address = a ∧
          (s.inventory.after (cursorsOf (before ++ after)) x).Clear
            (heldDuring s r before after request.operands) a (a + 8 * request.image.length) ∧
          s.perform i r (.allocate request) =
            s.leave i (s.allocate a request.image) (some (Value.reference a))
              (Machine.writeWords a request.image ((s.machine r).withMutator x)).state) := by
  have hallocate := (h.sound_during hs hoperands).allocate
    (roots_subset s r before after request.operands) (h.subset_roots request.operands)
    request.dvd_size hmap
  cases hr : Mutator.allocate .blocks (.ofWords request.size)
      ((s.machine r).mutator request.operands) with
  | error f x =>
    rw [hr] at hallocate
    have hrun : request.perform (embedder (.ok ())) (s.machine r) =
        .error (.fault f) ((s.machine r).withMutator x) := by
      rw [request.perform_eq]
      exact Machine.allocateObject_error hr hallocate.roots_eq
    exact ⟨x, rfl, hallocate, Or.inl (perform_allocate_error hrun)⟩
  | ok a x =>
    rw [hr] at hallocate
    obtain ⟨houtlasts, haligned, hstop, hclear⟩ := hallocate
    -- only here does it matter that the memory set aside is as long as the object
    rw [← request.length_image_iff.mpr hfits] at hstop hclear
    have hpos := (ObjectRequest.isObject_image htyped).nonempty
    have haddress : (Value.reference a).address = a :=
      Value.address_reference haligned (by unfold Mapping.addressLimit at hstop; omega)
    have hrun : request.perform (embedder (.ok ())) (s.machine r) = .ok (Value.reference a)
        (Machine.writeWords a request.image ((s.machine r).withMutator x)).state := by
      rw [request.perform_eq]
      exact Machine.allocateObject_ok hr houtlasts.roots_eq
    refine ⟨x, rfl, houtlasts, Or.inr ⟨a, haddress, hclear, ?_⟩⟩
    rw [perform_allocate_ok hrun, haddress]

theorem sound_allocate (h : s.LiveAt i r before after) (hs : s.Sound) {request : ObjectRequest}
    (htyped : request.IsTyped) (hfits : request.Fits)
    (hoperands : ∀ v ∈ request.operands, s.Usable r v)
    (hmap : s.vm.heap.settings.largeSize ≤ request.size → s.MayMap request.size) :
    (s.perform i r (.allocate request)).Sound ∧
      ∀ {b}, s.vm.heap.memory.Reaches s.roots b →
        (s.perform i r (.allocate request)).owner b = s.owner b := by
  obtain ⟨x, -, houtlasts, hrun | ⟨a, haddress, hclear, hrun⟩⟩ :=
    h.allocate_cases hs htyped hfits hoperands hmap
  · rw [hrun]
    exact ⟨h.sound_unallocated houtlasts.sound, fun _ => rfl⟩
  · rw [hrun]
    have hpos := (ObjectRequest.isObject_image htyped).nonempty
    refine ⟨h.sound_allocated htyped haddress houtlasts.sound hclear, fun {b} hb => ?_⟩
    have hheld : x.heap.memory.Reaches (heldDuring s r before after request.operands) b :=
      (hb.mono (h.run_roots_subset request.operands)).congr fun c => (houtlasts.read c).symm
    exact houtlasts.sound.owner_place hclear (by omega) hheld

theorem sound_perform (h : s.LiveAt i r before after) (hs : s.Sound) {op : ContextOp}
    (hlegal : s.LegalOn r op) (hfits : VmStep.Fits (.onContext i op)) :
    (s.perform i r op).Sound ∧ ∀ {b}, s.vm.heap.memory.Reaches s.roots b →
      (s.perform i r op).owner b = s.owner b := by
  have hone : ∀ {v}, s.Usable r v → ∀ w ∈ [v], s.Usable r w := by
    intro v hv w hw
    rwa [List.mem_singleton.mp hw]
  have hnone : ∀ w ∈ ([] : List Value), s.Usable r w := fun w hw => absurd hw List.not_mem_nil
  cases op with
  | allocate request => exact h.sound_allocate hs hlegal.1 hfits hlegal.2.1 hlegal.2.2
  | write target j v =>
    exact ⟨h.sound_store hs hlegal.1 hlegal.2.1.hasSlot hlegal.2.2, fun _ => rfl⟩
  | push v => exact ⟨h.sound_retains hs (.push _ v) (hone hlegal), fun _ => rfl⟩
  | truncate n => exact ⟨h.sound_retains hs (.truncate _ n) hnone, fun _ => rfl⟩
  | fluidSet fluid v => exact ⟨h.sound_retains hs (.fluidSet _ fluid v) (hone hlegal), fun _ => rfl⟩
  | pushFluid fluid v =>
    exact ⟨h.sound_retains hs (.pushFluid _ fluid v) (hone hlegal), fun _ => rfl⟩
  | pushWind entry exit ending =>
    have henv : ∀ v, Machine.Quiet [] [] ((embedder ending).invoke v) :=
      fun _ => Machine.Quiet.resume ending
    have husable : ∀ w ∈ [entry, exit], s.Usable r w := by
      intro w hw href
      rcases List.mem_cons.mp hw with rfl | hw
      · exact Or.inr (Or.inr (hlegal.1 href))
      · rw [List.mem_singleton.mp hw] at href ⊢
        exact Or.inr (Or.inr (hlegal.2 href))
    exact ⟨h.sound_retains hs (.pushWind henv _ entry exit) husable, fun _ => rfl⟩
  | pop ending =>
    have henv : ∀ v, Machine.Quiet [] [] ((embedder ending).invoke v) :=
      fun _ => Machine.Quiet.resume ending
    exact ⟨h.sound_retains hs (.pop henv _) hnone, fun _ => rfl⟩
  | makeFluid v => exact ⟨h.sound_retains hs (.makeFluid _ v) (hone hlegal), fun _ => rfl⟩
  | collect => exact ⟨h.sound_collect hs, fun _ => rfl⟩

theorem sound_drop (h : s.LiveAt i r before after) (hs : s.Sound) :
    VmRun.Sound { s with
      vm := s.vm.closeContext r.context
      contexts := s.contexts.set i none } := by
  let s' : VmRun := { s with
    vm := s.vm.closeContext r.context
    contexts := s.contexts.set i none }
  have hlive : s'.live = before ++ after := h.drop
  have hlength : s.inventory.arenas = s'.live.length + 1 := by
    change s.live.length = _
    rw [hlive, h.live_eq, List.length_append, List.length_append, List.length_cons, Nat.add_assoc]
  have hthread : s.vm.threadAddress r.context.number = 0 ∨
      s.vm.threadAddress r.context.number ∈ s.vm.threads.toList.reverse := by
    rw [List.mem_reverse, Array.mem_toList_iff]
    unfold Vm.threadAddress
    rw [Array.getD_eq_getD_getElem?]
    cases hget : s.vm.threads[r.context.number]? with
    | none => exact Or.inl rfl
    | some t => exact Or.inr (Array.mem_of_getElem? hget)
  have hclosed := (h.sound_after hs []).closeArena hlength rfl hthread
    (.contextDropped r.context.arena.allocated)
  have hheld : s'.held ⊆ s.held := by
    intro v hv
    rw [mem_held] at hv ⊢
    rcases hv with hv | ⟨r', hr', hv⟩
    · exact Or.inl hv
    · rw [hlive] at hr'
      rw [h.live_eq]
      rcases List.mem_append.mp hr' with hr' | hr'
      · exact Or.inr ⟨r', List.mem_append_left _ hr', hv⟩
      · exact Or.inr ⟨r', List.mem_append_right _ (List.mem_cons_of_mem _ hr'), hv⟩
  have hcursors : cursorsOf (before ++ after) = cursorsOf s'.live := by rw [hlive]
  rw [hcursors] at hclosed
  exact hclosed.mono fun v hv href => Or.inl (.root (hheld hv) href)

end LiveAt

theorem sound_open (hs : s.Sound) (hmap : s.MayMap pageSize) : (s.step .openContext).Sound := by
  by_cases hlt : s.vm.stackSize < Vm.stackLimit
  · have hopen := hs.openArena hmap s.vm.threads.size .contextCreated
    let c : Context := ⟨s.vm.threads.size, .new, #[], #[], #[]⟩
    simp only [step, Vm.openContext, hlt, ↓reduceIte]
    let s' : VmRun := { s with
      vm := { s.vm with
        heap := (s.vm.heap.openArena.placePinned (Vm.threadImage s.vm.threads.size)).2.note
          .contextCreated
        threads := s.vm.threads.push s.vm.heap.nextMapping }
      contexts := s.contexts ++ [some ⟨c, none⟩] }
    have hlive : s'.live = s.live ++ [⟨c, none⟩] := List.filterMap_append
    have hheld : s'.held ⊆ s.held := by
      intro v hv
      rw [mem_held] at hv ⊢
      rcases hv with hv | ⟨r', hr', hv⟩
      · exact Or.inl hv
      · rw [hlive] at hr'
        rcases List.mem_append.mp hr' with hr' | hr'
        · exact Or.inr ⟨r', hr', hv⟩
        · rw [List.mem_singleton.mp hr'] at hv
          rcases hv with hv | hv
          · exact absurd hv List.not_mem_nil
          · contradiction
    have hinventory : s'.inventory = { s.inventory with
        heap := s'.vm.heap
        arenas := s.live.length + 1
        threads := s.vm.heap.nextMapping :: s.vm.threads.toList.reverse } := by
      unfold inventory
      rw [hlive]
      simp [c, s', Arena.new]
    change s'.inventory.Sound s'.held
    rw [hinventory]
    exact hopen.mono fun v hv href => Or.inl (.root (hheld hv) href)
  · simp only [step, Vm.openContext, hlt, ↓reduceIte]
    exact hs

theorem read_builtins (ids : List Nat) (m : Memory) {id : Nat}
    (h : id ∈ ids ∨ m.read (Builtin.address id) = Builtin.header.word) :
    (ids.foldl (fun m id => m.write (Builtin.address id) Builtin.header.word) m).read
      (Builtin.address id) = Builtin.header.word := by
  induction ids generalizing m with
  | nil => exact h.resolve_left List.not_mem_nil
  | cons j ids ih =>
    rw [List.foldl_cons]
    apply ih
    by_cases hj : id ∈ ids
    · exact Or.inl hj
    · right
      rw [Memory.read_write]
      split
      · rfl
      · rename_i hne
        apply h.resolve_left
        intro hmem
        rcases List.mem_cons.mp hmem with rfl | hmem
        · exact hne rfl
        · exact hj hmem

theorem create_eq {settings : HeapSettings} {stackSize : Nat} {vm : Vm}
    (hcreate : Vm.create settings stackSize = .ok vm) :
    ∃ (h : Heap) (memory : Memory) (r : LogRecord), Heap.create settings = .ok h ∧
      vm = ⟨({ h with memory } : Heap).note r, .empty, .empty, #[], stackSize⟩ ∧
      ∀ id < Builtin.table.length, memory.read (Builtin.address id) = Builtin.header.word := by
  unfold Vm.create at hcreate
  cases hheap : Heap.create settings with
  | error e =>
    rw [hheap] at hcreate
    contradiction
  | ok h =>
    rw [hheap] at hcreate
    cases hcreate
    exact ⟨h, _, _, rfl, rfl, fun id hid => read_builtins _ _ (Or.inl (List.mem_range.mpr hid))⟩

theorem settings_eq {settings : HeapSettings} {stackSize : Nat} {vm : Vm}
    (hcreate : Vm.create settings stackSize = .ok vm) : vm.heap.settings = settings := by
  obtain ⟨h, memory, r, hheap, rfl, -⟩ := create_eq hcreate
  exact (Heap.Accounts.create hheap).settings_eq

theorem sound_start {settings : HeapSettings} {stackSize : Nat} {vm : Vm}
    (hcreate : Vm.create settings stackSize = .ok vm) {base : Nat}
    (hbase : settings.MayStartAt base) : (start (vm.foundAt base)).Sound := by
  obtain ⟨h, memory, r, hheap, rfl, hbuiltins⟩ := create_eq hcreate
  have hregular := ((Heap.Regular.create hheap hbase).withMemory memory).note r
  refine ⟨hregular, List.Pairwise.nil, fun o ho => absurd ho List.not_mem_nil, ?_, ?_⟩
  · rintro a (⟨id, hid, rfl⟩ | ha)
    · left
      change Header.ofWord (memory.read (Builtin.address id)) = _
      rw [hbuiltins id hid]
      exact Header.ofWord_word _
    · exact absurd ha List.not_mem_nil
  · intro a ha
    exfalso
    let P : Nat → Prop := fun _ => False
    have hnone : P a :=
      Memory.Reaches.closed (fun v hv _ => absurd hv List.not_mem_nil) (fun _ _ h => h.elim) ha
    exact hnone

theorem sound_step (hs : s.Sound) {op : VmStep} (hlegal : s.Legal op) (hfits : op.Fits) :
    (s.step op).Sound ∧ ∀ {b}, s.vm.heap.memory.Reaches s.roots b →
      (s.step op).owner b = s.owner b := by
  cases op with
  | mapAt place => exact ⟨Inventory.Sound.mapAt hs place, fun _ => rfl⟩
  | openContext =>
    refine ⟨sound_open hs hlegal, fun _ => ?_⟩
    unfold step
    cases s.vm.openContext <;> rfl
  | dropContext i =>
    simp only [step]
    cases hi : s.contexts[i]? with
    | none => exact ⟨hs, fun _ => rfl⟩
    | some slot =>
      cases slot with
      | none => exact ⟨hs, fun _ => rfl⟩
      | some r =>
        obtain ⟨before, after, h⟩ := exists_liveAt hi
        exact ⟨h.sound_drop hs, fun _ => rfl⟩
  | onContext i op =>
    simp only [step]
    cases hi : s.contexts[i]? with
    | none => exact ⟨hs, fun _ => rfl⟩
    | some slot =>
      cases slot with
      | none => exact ⟨hs, fun _ => rfl⟩
      | some r =>
        obtain ⟨before, after, h⟩ := exists_liveAt hi
        exact h.sound_perform hs (hlegal r hi) hfits

theorem Reached.sound {settings : HeapSettings} {stackSize : Nat} {vm : Vm}
    (hcreate : Vm.create settings stackSize = .ok vm) (h : Reached VmStep.Fits vm s) : s.Sound := by
  induction h with
  | start base hbase => exact sound_start hcreate (settings_eq hcreate ▸ hbase)
  | step _ op hlegal hfits ih => exact (sound_step ih hlegal hfits).1

def Follows (s : VmRun) : Prop := s.inventory.heap.Follows s.inventory.threads

theorem Follows.mayMap (hf : s.Follows) (size : Nat) : s.MayMap size := hf.mayMapBeside size

theorem Follows.openContext (hf : s.Follows) : (s.step .openContext).Follows := by
  by_cases hlt : s.vm.stackSize < Vm.stackLimit
  · have hthreads : (s.vm.threads.push s.vm.heap.nextMapping).toList.reverse =
        s.vm.heap.nextMapping :: s.vm.threads.toList.reverse := by simp
    have hopened := Heap.Follows.openArena hf (Vm.threadImage s.vm.threads.size) .contextCreated
    change Heap.Follows _ (s.vm.heap.nextMapping :: s.vm.threads.toList.reverse) at hopened
    rw [← hthreads] at hopened
    simp only [step, Vm.openContext, hlt, ↓reduceIte]
    exact hopened
  · simp only [step, Vm.openContext, hlt, ↓reduceIte]
    exact hf

section Create

variable {settings : HeapSettings} {stackSize : Nat} {vm : Vm}
  (hcreate : Vm.create settings stackSize = .ok vm)

include hcreate

theorem mayStartAt_create : settings.MayStartAt Mapping.firstAddress := by
  obtain ⟨h, memory, r, hheap, -, -⟩ := create_eq hcreate
  exact Heap.mayStartAt_of_create hheap

theorem foundAt_create : vm.foundAt Mapping.firstAddress = vm := by
  obtain ⟨h, memory, r, hheap, rfl, -⟩ := create_eq hcreate
  obtain ⟨-, -, rfl⟩ := Heap.create_eq_ok hheap
  rfl

theorem follows_create : vm.heap.Follows [] := by
  obtain ⟨h, memory, r, hheap, rfl, -⟩ := create_eq hcreate
  have hf := Heap.Follows.create hheap
  exact hf.change ⟨rfl, rfl⟩ (fun _ hm => hm) (Nat.le_refl _) hf.aligned

theorem follows_start : (start vm).Follows := by
  have hf := follows_create hcreate
  obtain ⟨h, memory, r, hheap, rfl, -⟩ := create_eq hcreate
  exact hf

theorem Reached.create {allowed : VmStep → Prop} : Reached allowed vm (VmRun.start vm) := by
  have hstart : Reached allowed vm (VmRun.start (vm.foundAt Mapping.firstAddress)) :=
    .start _ (settings_eq hcreate ▸ mayStartAt_create hcreate)
  rwa [foundAt_create hcreate] at hstart

end Create

theorem legal_allocate {request : ObjectRequest} (htyped : request.IsTyped)
    (hoperands : ∀ v ∈ request.operands, v.isReference = false)
    (hsmall : request.size < s.vm.heap.settings.largeSize) :
    s.Legal (.onContext i (.allocate request)) := by
  intro r _
  refine ⟨htyped, fun v hv href => ?_, fun hlarge => absurd hlarge (Nat.not_le.mpr hsmall)⟩
  rw [hoperands v hv] at href
  contradiction

theorem legal_push_fresh (h : s.contexts.map (Option.map LiveContext.fresh) = [some (some v)]) :
    s.Legal (.onContext 0 (.push v)) := by
  intro r hr _
  right
  left
  have hfirst := congrArg (fun contexts => contexts[0]?) h
  rw [List.getElem?_map, hr] at hfirst
  exact Option.some.inj (Option.some.inj hfirst)

theorem reaches_firstAddress (m : Memory) :
    m.Reaches [Value.reference Mapping.firstAddress] Mapping.firstAddress := by
  have haddress : (Value.reference Mapping.firstAddress).address = Mapping.firstAddress :=
    Value.address_reference ⟨0x7f0000001000 / 8, rfl⟩ (by decide)
  have hroot : m.Reaches [Value.reference Mapping.firstAddress]
      (Value.reference Mapping.firstAddress).address := .root List.mem_cons_self (by decide)
  rwa [haddress] at hroot

/-- In every run of a machine with the block collector, everything that the roots reach is a
builtin, a thread object or an object that holds the words last written to it, lies in a block that
is not free or in a mapping, and overlaps no object allocated after it. The next step, whatever it
is, puts no other object in its place. -/
theorem reachable_intact {settings : HeapSettings} {stackSize : Nat} {vm : Vm}
    (hcreate : Vm.create settings stackSize = .ok vm) (h : Reached VmStep.Fits vm s) {a : Nat}
    (ha : s.vm.heap.memory.Reaches s.roots a) :
    s.inventory.Outside a ∨ ∃ o, s.owner a = some o ∧
      s.vm.heap.memory.readAll a o.length = s.contents o.id ∧
      s.vm.heap.Places [] a (a + 8 * o.length) ∧
      (∀ o' ∈ s.objects, o.id < o'.id → o.Apart o') ∧
      ∀ op, s.Legal op → op.Fits → (s.step op).owner a = some o := by
  have hs : s.Sound := h.sound hcreate
  rcases hs.owned (ha.mono (List.subset_append_left _ _)) with hout | ⟨o, ho⟩
  · exact Or.inl hout
  · have haddress := ho.address_eq
    subst haddress
    refine Or.inr ⟨o, ho.owner_eq, ho.read, ho.places.mono fun c hc => absurd hc List.not_mem_nil,
      ho.newest, fun op hlegal hfits => ?_⟩
    rw [(sound_step hs hlegal hfits).2 ha]
    exact ho.owner_eq

theorem reachable_intact_pair : ∃ vm, Vm.create ⟨8192, 4096, 4096⟩ 16 = .ok vm ∧
    let pair := Value.reference Mapping.firstAddress
    let s := (((start vm).step .openContext).step
      (.onContext 0 (.allocate (.cell .pair (.fixnum 1) .nil)))).step (.onContext 0 (.push pair))
    s.roots = [pair] ∧ ∃ o, s.owner Mapping.firstAddress = some o ∧
      s.vm.heap.memory.readAll Mapping.firstAddress o.length = s.contents o.id := by
  let pair := Value.reference Mapping.firstAddress
  let opened (vm : Vm) : VmRun := (start vm).step .openContext
  let allocated (vm : Vm) : VmRun := (opened vm).step
    (.onContext 0 (.allocate (.cell .pair (.fixnum 1) .nil)))
  let pushed (vm : Vm) : VmRun := (allocated vm).step (.onContext 0 (.push pair))
  obtain ⟨vm, hvm⟩ : ∃ vm, Vm.create ⟨8192, 4096, 4096⟩ 16 = .ok vm := ⟨_, rfl⟩
  have hshown : (Vm.create ⟨8192, 4096, 4096⟩ 16).map (fun vm =>
      ((opened vm).vm.heap.settings.largeSize,
        (allocated vm).contexts.map (Option.map LiveContext.fresh), (pushed vm).roots,
        (pushed vm).inventory.threads)) =
      .ok (4096, [some (some pair)], [pair], [0x7f0000004000]) := rfl
  rw [hvm] at hshown
  obtain ⟨hlarge, hfresh, hroots, hthreads⟩ := by
    simpa only [Prod.mk.injEq] using Except.ok.inj hshown
  have hopened : Reached VmStep.Fits vm (opened vm) :=
    (Reached.create hvm).step .openContext ((follows_start hvm).mayMap pageSize) trivial
  have hallocated : Reached VmStep.Fits vm (allocated vm) :=
    hopened.step _ (legal_allocate (Or.inl rfl) (by decide) (hlarge ▸ by decide)) trivial
  have hpushed : Reached VmStep.Fits vm (pushed vm) :=
    .step hallocated _ (legal_push_fresh hfresh) trivial
  have ha : (pushed vm).vm.heap.memory.Reaches (pushed vm).roots Mapping.firstAddress := by
    rw [hroots]
    exact reaches_firstAddress _
  have hinside : ¬(pushed vm).inventory.Outside Mapping.firstAddress := by
    rintro (⟨id, hid, h⟩ | h)
    · have hcount : id < 5 := hid
      unfold Builtin.address Mapping.firstAddress at h
      omega
    · rw [hthreads] at h
      exact absurd h (by decide)
  obtain ⟨o, howner, hread, -⟩ := (reachable_intact hvm hpushed ha).resolve_left hinside
  exact ⟨vm, hvm, hroots, o, howner, hread⟩

theorem exists_text (n : Nat) : ∃ text : String,
    text.toUTF8.data.toList = List.replicate n 97 ∧ text.utf8ByteSize = n := by
  have htext : ∃ text : String, text.toUTF8.data.toList = List.replicate n 97 := by
    induction n with
    | zero => exact ⟨"", rfl⟩
    | succ n ih =>
      obtain ⟨text, htext⟩ := ih
      refine ⟨text ++ "a", ?_⟩
      have happend : (text ++ "a").toUTF8.data.toList = text.toUTF8.data.toList ++ [97] := by
        change (text ++ "a").toByteArray.data.toList = text.toByteArray.data.toList ++ [97]
        rw [String.toByteArray_append, ByteArray.data_append, Array.toList_append]
        rfl
      rw [happend, htext, List.replicate_succ']
  obtain ⟨text, htext⟩ := htext
  have hlength := congrArg List.length htext
  rw [List.length_replicate, Array.length_toList] at hlength
  exact ⟨text, htext, hlength⟩

theorem perform_overlong_string {text : String} (h : text.utf8ByteSize = 34359738360) :
    (ObjectImage.string text).length = 4294967297 ∧ (ObjectRequest.string text).size = 8 ∧
      (ObjectRequest.string text).perform (embedder (.ok ())) =
        Machine.allocateObject (embedder (.ok ())) 8 [] fun _ => ObjectImage.string text := by
  have hlength : (ObjectImage.string text).length = 4294967297 := by
    rw [ObjectRequest.length_image_string, h]
  have hsize : ObjectImage.stringSize text.utf8ByteSize = 8 := by
    rw [h]
    rfl
  refine ⟨hlength, hsize, ?_⟩
  rw [ObjectRequest.perform_eq, ObjectRequest.size, hsize]
  rfl

theorem overlong_string_overlapped : ∃ vm s a o o', Vm.create ⟨8192, 4096, 4096⟩ 16 = .ok vm ∧
    Reached (fun _ => True) vm s ∧ s.vm.heap.memory.Reaches s.roots a ∧ s.owner a = some o ∧
      o' ∈ s.objects ∧ o.id < o'.id ∧ ¬o.Apart o' := by
  obtain ⟨text, -, hbytes⟩ := exists_text 34359738360
  obtain ⟨hlength, hsize, hrun⟩ := perform_overlong_string hbytes
  have hsmall : (ObjectRequest.string text).size < 4096 := hsize.trans_lt (by decide)
  -- the text is too long to be computed with, and from here on only its length is used
  clear hbytes hsize
  let str := Value.reference Mapping.firstAddress
  let opened (vm : Vm) : VmRun := (start vm).step .openContext
  let allocated (vm : Vm) : VmRun := (opened vm).step (.onContext 0 (.allocate (.string text)))
  let followed (vm : Vm) : VmRun := ((allocated vm).step (.onContext 0 (.push str))).step
    (.onContext 0 (.allocate (.flonum 0)))
  let o : ObjectRecord := ⟨0, Mapping.firstAddress, 4294967297⟩
  let o' : ObjectRecord := ⟨1, Mapping.firstAddress + 8, 2⟩
  obtain ⟨vm, hvm⟩ : ∃ vm, Vm.create ⟨8192, 4096, 4096⟩ 16 = .ok vm := ⟨_, rfl⟩
  have hshown : (Vm.create ⟨8192, 4096, 4096⟩ 16).map (fun vm =>
      ((opened vm).vm.heap.settings.largeSize,
        (allocated vm).contexts.map (Option.map LiveContext.fresh),
        ((allocated vm).step (.onContext 0 (.push str))).vm.heap.settings.largeSize,
        (followed vm).roots, (followed vm).objects)) =
      .ok (4096, [some (some str)], 4096, [str], [o', o]) := by
    simp only [allocated, followed, step, perform, hrun, o]
    rw [← hlength]
    rfl
  rw [hvm] at hshown
  obtain ⟨hlarge, hfresh, hlarge', hroots, hobjects⟩ := by
    simpa only [Prod.mk.injEq] using Except.ok.inj hshown
  have hopened : Reached (fun _ => True) vm (opened vm) :=
    (Reached.create hvm).step .openContext ((follows_start hvm).mayMap pageSize) trivial
  have hallocated : Reached (fun _ => True) vm (allocated vm) :=
    hopened.step _ (legal_allocate trivial (fun v hv => absurd hv List.not_mem_nil)
      (hlarge ▸ hsmall)) trivial
  have hfollowed : Reached (fun _ => True) vm (followed vm) :=
    (hallocated.step _ (legal_push_fresh hfresh) trivial).step _
      (legal_allocate trivial (fun v hv => absurd hv List.not_mem_nil) (hlarge' ▸ by decide))
      trivial
  have hoverlap : ¬o.Apart o' := by
    unfold ObjectRecord.Apart ObjectRecord.stop
    decide
  refine ⟨vm, followed vm, Mapping.firstAddress, o, o', hvm, hfollowed, ?_, ?_, ?_, by decide,
    hoverlap⟩
  · rw [hroots]
    exact reaches_firstAddress _
  · unfold Ledger.owner
    rw [hobjects]
    rfl
  · rw [hobjects]
    exact List.mem_cons_self

end VmRun

end VmSupport
