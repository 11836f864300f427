import VmSupport.Proofs.CollectionSafety
import VmSupport.Proofs.FrameValues
import VmSupport.Proofs.ObjectBytes
import VmSupport.Proofs.RestoredMemory

namespace VmSupport

open EStateM

namespace Inventory

variable {p p' : Inventory} {o o' : ObjectRecord} {held : List Value}

def Uncovered (p : Inventory) (o : ObjectRecord) : Prop :=
  ∀ o' ∈ p.objects, o.id < o'.id → o.Apart o'

structure Within (p : Inventory) (o : ObjectRecord) : Prop where
  nonempty : 0 < o.length
  start_cases : p.heap.contains o.address ∨ pageSize ∣ o.address

theorem Within.address_lt (h : p.Within o) : o.address < o.stop := by
  have hpos := h.nonempty
  unfold ObjectRecord.stop
  omega

/-- No object carries a mark, whether it can still be reached or not, until it is built over. -/
structure Clean (p : Inventory) : Prop where
  within : ∀ o ∈ p.objects, p.Within o
  unmarked : ∀ o ∈ p.objects, p.Uncovered o → p.heap.memory.isMarked o.address = false

namespace Clean

theorem advance (hc : p.Clean) (hobjects : p'.objects = p.objects)
    (hs : p.heap.SameRegion p'.heap)
    (hread : ∀ o ∈ p.objects, p.Uncovered o →
      p'.heap.memory.read o.address = p.heap.memory.read o.address) : p'.Clean := by
  constructor
  · intro o ho
    rw [hobjects] at ho
    obtain ⟨hnonempty, hcases⟩ := hc.within o ho
    refine ⟨hnonempty, ?_⟩
    rwa [Heap.contains, hs.start, hs.settings]
  · intro o ho huncovered
    rw [hobjects] at ho
    have huncovered' : p.Uncovered o := by
      unfold Uncovered at huncovered ⊢
      rwa [hobjects] at huncovered
    rw [Memory.isMarked, Memory.header, hread o ho huncovered']
    exact hc.unmarked o ho huncovered'

theorem slot_ne (hc : p.Clean) (hs : p.Sound held) {a j : Nat} (ho : p.Holds a o) (hj : 0 < j)
    (hlt : j < o.length) (ho' : o' ∈ p.objects) (huncovered : p.Uncovered o') :
    a + 8 * j ≠ o'.address := by
  have hstop : o.stop = a + 8 * o.length := by rw [ObjectRecord.stop, ho.address_eq]
  have hapart : o'.id ≠ o.id → o.Apart o' := by
    intro hne
    rcases Nat.lt_or_gt_of_ne hne with hlt | hgt
    · exact (huncovered o ho.mem hlt).symm
    · exact ho.newest o' ho' hgt
  by_cases hid : o'.id = o.id
  · have hsame := hs.eq_of_id ho' ho.mem hid
    rw [hsame, ho.address_eq]
    omega
  · have hmem := (hc.within o' ho').address_lt
    have haddress := ho.address_eq
    have hdisjoint := hapart hid
    unfold ObjectRecord.Apart at hdisjoint
    omega

theorem write (hc : p.Clean) (hs : p.Sound held) {a i : Nat} {v : Value}
    (ha : p.heap.memory.Reaches held a)
    (hi : ∃ slots, Memory.slots? (p.heap.memory.header a) a = some slots ∧ a + 8 + 8 * i ∈ slots) :
    (p.write a i v).Clean := by
  obtain ⟨slots, hslots, hmem⟩ := hi
  obtain ⟨o, ho, j, hpos, hj, heq⟩ := hs.exists_holds_of_slot ha hslots hmem
  refine hc.advance rfl ⟨rfl, rfl⟩ fun o' ho' huncovered => ?_
  have hne := hc.slot_ne hs ho hpos hj ho' huncovered
  rw [← heq] at hne
  exact Memory.read_write_of_ne _ _ hne

theorem place (hc : p.Clean) (hs : p.Sound held) {a : Nat} {ws : List UInt64}
    (hobject : IsObject ws) (hplaces : p.heap.Places p.cursors a (a + 8 * ws.length)) :
    (p.place a ws).Clean := by
  have hobjects : (p.place a ws).objects = ⟨p.objects.length, a, ws.length⟩ :: p.objects := rfl
  constructor
  · intro o ho
    rw [hobjects] at ho
    rcases List.mem_cons.mp ho with rfl | ho
    · have hpos := hobject.nonempty
      exact ⟨hpos, hplaces.start_cases hs.regular (by omega)⟩
    · exact ⟨(hc.within o ho).nonempty, (hc.within o ho).start_cases⟩
  · intro o ho huncovered
    rw [hobjects] at ho
    rcases List.mem_cons.mp ho with rfl | ho
    · have hheader : (p.place a ws).heap.memory.header a = headerOf ws :=
        Memory.header_writeAll_of_pos p.heap.memory a hobject.nonempty
      rw [Memory.isMarked, hheader]
      exact hobject.unmarked
    · -- the new object is a newer one, so it lies beside this one
      have hmem := (hc.within o ho).address_lt
      have hapart := huncovered _ List.mem_cons_self (hs.id_lt o ho)
      have hread : (p.place a ws).heap.memory.read o.address = p.heap.memory.read o.address := by
        apply Memory.read_writeAll_of_ne
        intro i hi
        simp only [ObjectRecord.Apart, ObjectRecord.stop] at hapart hmem
        omega
      rw [Memory.isMarked, Memory.header, hread]
      exact hc.unmarked o ho fun o' ho' => huncovered o' (List.mem_cons_of_mem _ ho')

end Clean

end Inventory

namespace VmRun

variable {s : VmRun} {i : Nat} {r : LiveContext} {before after : List LiveContext} {v : Value}

/-- The states of all runs of a machine in which contexts may also write to cells, and do anything
that does not allocate with values that they may use. -/
inductive Arises (allowed : VmStep → Prop) (vm : Vm) : VmRun → Prop
  | start (base : Nat) (hbase : vm.heap.settings.MayStartAt base) :
    Arises allowed vm (VmRun.start (vm.foundAt base))
  | step {s : VmRun} (h : Arises allowed vm s) (op : VmStep) (hlegal : s.Legal op)
    (hallowed : allowed op) : Arises allowed vm (s.step op)
  | store {s : VmRun} {i : Nat} {r : LiveContext} {target v : Value} {j : Nat}
    (h : Arises allowed vm s) (hr : s.contexts[i]? = some (some r)) (htarget : s.Usable r target)
    (hslot : s.HasSlot target j) (hv : s.Usable r v) :
    Arises allowed vm (s.perform i r (.write target j v))
  | operate {s : VmRun} {i : Nat} {r : LiveContext} {pushed set : List Value} {m : Machine Unit}
    (h : Arises allowed vm s) (hr : s.contexts[i]? = some (some r))
    (hm : Machine.Retains pushed set (s.machine r) m)
    (hgiven : ∀ v ∈ pushed ++ set, s.Usable r v) :
    Arises allowed vm (s.leave i s.toLedger r.fresh m)

variable {allowed : VmStep → Prop} {vm : Vm}

theorem Arises.of_reached (h : Reached allowed vm s) : Arises allowed vm s := by
  induction h with
  | start base hbase => exact .start base hbase
  | step _ op hlegal hallowed ih => exact .step ih op hlegal hallowed

theorem Arises.bindEncoded (h : Arises allowed vm s) (hr : s.contexts[i]? = some (some r))
    (base offset nargs : Nat) (code : List UInt32) (ip : Nat) (tableOffset : Int) (arity : Arity) :
    Arises allowed vm (s.leave i s.toLedger r.fresh
      (Machine.bindEncoded base offset nargs code ip tableOffset arity (s.machine r)).state) := by
  apply h.operate hr (Machine.Quiet.bindEncoded base offset nargs code ip tableOffset arity _)
  intro v hv href
  rw [List.append_nil, List.mem_singleton] at hv
  rw [hv] at href
  exact absurd href (by decide)

namespace LiveAt

theorem clean_retains (hc : s.inventory.Clean) {pushed set : List Value} {m : Machine Unit}
    (hm : Machine.Retains pushed set (s.machine r) m) :
    (s.leave i s.toLedger r.fresh m).inventory.Clean := by
  obtain ⟨log, hheap⟩ := hm.heap_eq
  have hheap' : (s.leave i s.toLedger r.fresh m).inventory.heap = { s.vm.heap with log } := hheap
  apply hc.advance
  · rfl
  · rw [hheap']
    exact ⟨rfl, rfl⟩
  · intro o _ _
    rw [hheap']
    rfl

theorem clean_store (h : s.LiveAt i r before after) (hs : s.Sound) (hc : s.inventory.Clean)
    {target : Value} {j : Nat} (htarget : s.Usable r target) (hslot : s.HasSlot target j) :
    (s.perform i r (.write target j v)).inventory.Clean := by
  obtain ⟨href, hslots⟩ := hslot
  have hmono : s.inventory.Sound (target :: s.held) := by
    apply Inventory.Sound.mono hs
    intro w hw hwref
    rcases List.mem_cons.mp hw with rfl | hw
    · exact h.reaches_of_usable htarget hwref
    · exact Or.inl (.root hw hwref)
  exact (hc.write hmono (.root List.mem_cons_self href) hslots).advance rfl ⟨rfl, rfl⟩
    fun _ _ _ => rfl

theorem clean_after (hc : s.inventory.Clean) {x : Mutator ContextRoots Unit}
    (hread : ∀ a, x.heap.memory.read a = s.vm.heap.memory.read a)
    (hregion : s.vm.heap.SameRegion x.heap) (others : List Cursor) :
    (s.inventory.after others x).Clean :=
  hc.advance rfl hregion fun o _ _ => hread o.address

theorem markable (h : s.LiveAt i r before after) (hs : s.Sound) {pending : List Value}
    (hpending : ∀ v ∈ pending, s.Usable r v) :
    s.vm.heap.memory.Markable (RootSet.toList ((s.machine r).mutator pending).roots) := by
  have hduring := h.sound_during hs hpending
  have hroots := roots_subset s r before after pending
  exact (hduring.mono fun v hv href => Or.inl (.root (hroots hv) href)).markable

theorem rests (h : s.LiveAt i r before after) (hs : s.Sound) (pending : List Value) :
    Mutator.Rests s.vm.heap.settings s.live.length ((cursorsOf (before ++ after)).map Cursor.block)
      ((s.machine r).mutator pending) ((s.machine r).mutator pending) := by
  obtain ⟨released, haccounts⟩ := (h.sound_after hs pending).regular.accounts
  refine ⟨fun _ => rfl, rfl, ⟨rfl, rfl, rfl⟩, released, ?_⟩
  have hblocks : r.context.arena.blocks =
      r.context.arena.cursor.toList.map Cursor.block := by
    unfold Arena.blocks
    cases r.context.arena.cursor <;> rfl
  change s.vm.heap.Accounts _ _ (r.context.arena.blocks ++ _) _
  rw [hblocks, ← List.map_append]
  exact haccounts

theorem clean_collect (h : s.LiveAt i r before after) (hs : s.Sound) (hc : s.inventory.Clean) :
    (s.perform i r .collect).inventory.Clean := by
  have hmark : ((s.machine r).mutator []).Traceable s.live.length := fun _ =>
    h.markable hs fun v hv => absurd hv List.not_mem_nil
  obtain ⟨x, hrun, hx, -⟩ := (h.rests hs []).collect hmark
  have hstate : (Machine.collect (embedder (.ok ())) (s.machine r)).state =
      (s.machine r).withMutator x := by
    have hroots : (Mutator.collect .blocks ((s.machine r).mutator [])).state.roots =
        ((s.machine r).mutator []).roots := by
      rw [hrun]
      exact hx.roots_eq
    have hcollect : (Machine.collect (embedder (.ok ())) (s.machine r)).state =
        (s.machine r).withMutator _ := Machine.state_collect hroots
    rwa [embedder, hrun] at hcollect
  change (s.leave i s.toLedger none (Machine.collect _ (s.machine r)).state).inventory.Clean
  rw [hstate]
  have hafter := clean_after hc hx.read hx.ground.sameRegion []
  exact hafter.advance rfl ⟨rfl, rfl⟩ fun _ _ _ => rfl

theorem clean_allocate (h : s.LiveAt i r before after) (hs : s.Sound) (hc : s.inventory.Clean)
    {request : ObjectRequest} (htyped : request.IsTyped) (hfits : request.Fits)
    (hoperands : ∀ v ∈ request.operands, s.Usable r v)
    (hmap : s.vm.heap.settings.largeSize ≤ request.size → s.MayMap request.size) :
    (s.perform i r (.allocate request)).inventory.Clean := by
  obtain ⟨x, hx, houtlasts, hrun⟩ := h.allocate_cases hs htyped hfits hoperands hmap
  have hmark : ((s.machine r).mutator request.operands).Traceable s.live.length := fun _ =>
    h.markable hs hoperands
  have hregion := Mutator.allocate_region hmark (h.rests hs request.operands)
    (l := .ofWords request.size) (Nat.succ_pos _)
  rw [← hx] at hregion
  have hafter := clean_after hc houtlasts.read hregion (cursorsOf (before ++ after))
  rcases hrun with hrun | ⟨a, haddress, hclear, hrun⟩
  · rw [hrun]
    exact hafter.advance rfl ⟨rfl, rfl⟩ fun _ _ _ => rfl
  · rw [hrun]
    have hplace := hafter.place houtlasts.sound (ObjectRequest.isObject_image htyped) hclear.places
    exact hplace.advance rfl ⟨rfl, rfl⟩ fun _ _ _ => rfl

theorem clean_perform (h : s.LiveAt i r before after) (hs : s.Sound) (hc : s.inventory.Clean)
    {op : ContextOp} (hlegal : s.LegalOn r op) (hfits : VmStep.Fits (.onContext i op)) :
    (s.perform i r op).inventory.Clean := by
  have henv : ∀ ending v, Machine.Quiet [] [] ((embedder ending).invoke v) :=
    fun ending _ => Machine.Quiet.resume ending
  cases op with
  | allocate request => exact h.clean_allocate hs hc hlegal.1 hfits hlegal.2.1 hlegal.2.2
  | write target j v => exact h.clean_store hs hc hlegal.1 hlegal.2.1.hasSlot
  | push v => exact clean_retains hc (.push _ v)
  | truncate n => exact clean_retains hc (.truncate _ n)
  | fluidSet fluid v => exact clean_retains hc (.fluidSet _ fluid v)
  | pushFluid fluid v => exact clean_retains hc (.pushFluid _ fluid v)
  | pushWind entry exit ending => exact clean_retains hc (.pushWind (henv ending) _ entry exit)
  | pop ending => exact clean_retains hc (.pop (henv ending) _)
  | makeFluid v => exact clean_retains hc (.makeFluid _ v)
  | collect => exact h.clean_collect hs hc

theorem clean_drop (hs : s.Sound) (hc : s.inventory.Clean) (i : Nat) (c : Context) :
    VmRun.inventory { s with
      vm := s.vm.closeContext c
      contexts := s.contexts.set i none } |>.Clean := by
  refine hc.advance rfl ⟨rfl, rfl⟩ fun o ho _ => ?_
  have hcases := (hc.within o ho).start_cases
  rw [Heap.contains_iff] at hcases
  apply Memory.read_write_of_ne
  -- the word that is cleared lies in a thread page, or in the first page if there is no such thread
  unfold Vm.threadAddress
  rw [Array.getD_eq_getD_getElem?]
  cases hget : s.vm.threads[c.number]? with
  | none =>
    have hstart := hs.regular.founded.pageSize_le
    unfold pageSize at hcases hstart
    change 0 + 8 ≠ o.address
    omega
  | some t =>
    have hthread : t ∈ s.inventory.threads :=
      List.mem_reverse.mpr (Array.mem_toList_iff.mpr (Array.mem_of_getElem? hget))
    obtain ⟨haligned, -, hoff, -⟩ := (hs.regular.threads t hthread).1
    unfold pageSize at haligned hcases hoff
    change t + 8 ≠ o.address
    omega

end LiveAt

theorem clean_open (hc : s.inventory.Clean) (hmap : s.MayMap pageSize) :
    (s.step .openContext).inventory.Clean := by
  by_cases hlt : s.vm.stackSize < Vm.stackLimit
  · have hlength : (Vm.threadImage s.vm.threads.size).length = 2 := rfl
    have hpage : alignUp pageSize pageSize = 4096 := rfl
    simp only [step, Vm.openContext, hlt, ↓reduceIte]
    refine ⟨fun o ho => ⟨(hc.within o ho).nonempty, (hc.within o ho).start_cases⟩,
      fun o ho huncovered => ?_⟩
    change Memory.isMarked (s.vm.heap.memory.writeAll s.vm.heap.nextMapping
      (Vm.threadImage s.vm.threads.size)) o.address = false
    by_cases hsame : o.address = s.vm.heap.nextMapping
    · -- the mapping of the object is gone, and a thread took its place
      rw [hsame, Memory.isMarked, Vm.threadImage, Memory.header_writeAll]
      decide
    · obtain ⟨⟨haligned, hoff, -⟩, -⟩ : s.vm.heap.MayMapBeside s.inventory.threads pageSize := hmap
      have hcases : s.vm.heap.contains o.address ∨ pageSize ∣ o.address :=
        (hc.within o ho).start_cases
      rw [Heap.contains_iff] at hcases
      rw [hpage] at hoff
      unfold pageSize at hcases haligned
      have hread : (s.vm.heap.memory.writeAll s.vm.heap.nextMapping
          (Vm.threadImage s.vm.threads.size)).read o.address = s.vm.heap.memory.read o.address :=
        Memory.read_writeAll_of_ne _ _ fun j hj => by omega
      rw [Memory.isMarked, Memory.header, hread]
      exact hc.unmarked o ho huncovered
  · simp only [step, Vm.openContext, hlt, ↓reduceIte]
    exact hc

theorem clean_step (hs : s.Sound) (hc : s.inventory.Clean) {op : VmStep} (hlegal : s.Legal op)
    (hfits : op.Fits) : (s.step op).inventory.Clean := by
  cases op with
  | mapAt place => exact hc.advance rfl ⟨rfl, rfl⟩ fun _ _ _ => rfl
  | openContext => exact clean_open hc hlegal
  | dropContext i =>
    simp only [step]
    cases hi : s.contexts[i]? with
    | none => exact hc
    | some slot =>
      cases slot with
      | none => exact hc
      | some r => exact LiveAt.clean_drop hs hc i r.context
  | onContext i op =>
    simp only [step]
    cases hi : s.contexts[i]? with
    | none => exact hc
    | some slot =>
      cases slot with
      | none => exact hc
      | some r =>
        obtain ⟨before, after, h⟩ := exists_liveAt hi
        exact h.clean_perform hs hc (hlegal r hi) hfits

theorem Arises.sound_clean {settings : HeapSettings} {stackSize : Nat}
    (hcreate : Vm.create settings stackSize = .ok vm) (h : Arises VmStep.Fits vm s) :
    s.Sound ∧ s.inventory.Clean := by
  induction h with
  | start base hbase =>
    exact ⟨sound_start hcreate (settings_eq hcreate ▸ hbase), fun o ho => absurd ho List.not_mem_nil,
      fun o ho => absurd ho List.not_mem_nil⟩
  | step _ op hlegal hfits ih =>
    exact ⟨(sound_step ih.1 hlegal hfits).1, clean_step ih.1 ih.2 hlegal hfits⟩
  | store _ hr htarget hslot hv ih =>
    obtain ⟨before, after, hlive⟩ := exists_liveAt hr
    exact ⟨hlive.sound_store ih.1 htarget hslot hv, hlive.clean_store ih.1 ih.2 htarget hslot⟩
  | operate _ hr hm hgiven ih =>
    obtain ⟨before, after, hlive⟩ := exists_liveAt hr
    exact ⟨hlive.sound_retains ih.1 hm hgiven, LiveAt.clean_retains ih.2 hm⟩

/-- In every run of a machine with the block collector no object carries a mark, whether it is still
reached or not, as long as nothing is built over it. A collection, asked for by a context or at
whatever point of an allocation, gives every word and every root back as it was, and what it marks
the next collection marks again. -/
theorem no_mark_survives {settings : HeapSettings} {stackSize : Nat}
    (hcreate : Vm.create settings stackSize = .ok vm) (h : Arises VmStep.Fits vm s) :
    (∀ a, s.vm.heap.memory.Reaches s.roots a → s.vm.heap.memory.isMarked a = false) ∧
    (∀ o ∈ s.objects, (∀ o' ∈ s.objects, o.id < o'.id → o.Apart o') →
      s.vm.heap.memory.isMarked o.address = false) ∧
    ∀ {i : Nat} {r : LiveContext}, s.contexts[i]? = some (some r) → ∀ pending,
      (∀ v ∈ pending, s.Usable r v) →
      ∀ m, Mutator.Steps .blocks ((s.machine r).mutator pending) m →
        ∃ m', Mutator.collect .blocks m = .ok () m' ∧
          m'.roots = ((s.machine r).mutator pending).roots ∧
          (∀ a, m'.heap.memory.read a = s.vm.heap.memory.read a) ∧
          ∃ traced traced' c c',
            Collection.markRoots ⟨m.heap, RootSet.toList m.roots, ()⟩ = .ok traced c ∧
            Collection.markRoots ⟨m'.heap, RootSet.toList m'.roots, ()⟩ = .ok traced' c' ∧
            ∀ a, a ∈ traced' ↔ a ∈ traced := by
  obtain ⟨hs, hc⟩ := h.sound_clean hcreate
  refine ⟨?_, hc.unmarked, ?_⟩
  · intro a ha
    exact hs.markable.unmarked (ha.mono (List.subset_append_left _ _))
  · intro i r hr pending hpending m hm
    obtain ⟨before, after, hlive⟩ := exists_liveAt hr
    have hmark := hlive.markable hs hpending
    have hm' := Mutator.Steps.rests (fun _ => hmark) (hlive.rests hs pending) hm
    obtain ⟨m', hrun, hm'', -⟩ := hm'.collect fun _ => hmark
    refine ⟨m', hrun, hm''.roots_eq, hm''.read, ?_⟩
    rw [hm''.roots_eq, hm'.roots_eq]
    exact Collection.markRoots_again (hmark.congr hm'.read)
      (fun a => (hm''.read a).trans (hm'.read a).symm) () ()

theorem no_mark_survives_pair : ∃ vm s, Vm.create ⟨8192, 4096, 4096⟩ 16 = .ok vm ∧
    Arises VmStep.Fits vm s ∧ s.roots = [.reference Mapping.firstAddress] ∧
      s.vm.heap.memory.isMarked Mapping.firstAddress = false ∧
      ∃ r m', s.contexts[0]? = some (some r) ∧
        Mutator.collect .blocks ((s.machine r).mutator []) = .ok () m' ∧
        ∀ a, m'.heap.memory.read a = s.vm.heap.memory.read a := by
  let pair := Value.reference Mapping.firstAddress
  let opened (vm : Vm) : VmRun := (start vm).step .openContext
  let allocated (vm : Vm) : VmRun := (opened vm).step
    (.onContext 0 (.allocate (.cell .pair (.fixnum 1) .nil)))
  let pushed (vm : Vm) : VmRun := (allocated vm).step (.onContext 0 (.push pair))
  obtain ⟨vm, hvm⟩ : ∃ vm, Vm.create ⟨8192, 4096, 4096⟩ 16 = .ok vm := ⟨_, rfl⟩
  have hshown : (Vm.create ⟨8192, 4096, 4096⟩ 16).map (fun vm =>
      ((opened vm).vm.heap.settings.largeSize,
        (allocated vm).contexts.map (Option.map LiveContext.fresh), (pushed vm).roots,
        ((pushed vm).contexts[0]?.map Option.isSome))) =
      .ok (4096, [some (some pair)], [pair], some true) := rfl
  rw [hvm] at hshown
  obtain ⟨hlarge, hfresh, hroots, hlive⟩ := by
    simpa only [Prod.mk.injEq] using Except.ok.inj hshown
  have hopened : Arises VmStep.Fits vm (opened vm) :=
    (Arises.of_reached (.create hvm)).step .openContext ((follows_start hvm).mayMap pageSize)
      trivial
  have hallocated : Arises VmStep.Fits vm (allocated vm) :=
    hopened.step _ (legal_allocate (Or.inl rfl) (by decide) (hlarge ▸ by decide)) trivial
  have hpushed : Arises VmStep.Fits vm (pushed vm) :=
    .step hallocated _ (legal_push_fresh hfresh) trivial
  obtain ⟨hreached, -, hcollect⟩ := no_mark_survives hvm hpushed
  obtain ⟨slot, hr, hslot⟩ := Option.map_eq_some_iff.mp hlive
  obtain ⟨r, rfl⟩ := Option.isSome_iff_exists.mp hslot
  obtain ⟨m', hrun, -, hread, -⟩ :=
    hcollect hr [] (fun v hv => absurd hv List.not_mem_nil) _ .refl
  refine ⟨vm, pushed vm, hvm, hpushed, hroots, hreached _ ?_, r, m', hr, hrun, hread⟩
  rw [hroots]
  exact reaches_firstAddress _

end VmRun

namespace ObjectImage

theorem getElem?_string {text : String} {n : Nat} {byte : UInt8}
    (htext : text.toUTF8.data.toList = List.replicate n byte) {i : Nat} (hi : 8 * i + 8 ≤ n) :
    (string text)[i + 2]? = some (packWord (List.replicate 8 byte)) := by
  have hpayload : (string text)[i + 2]? = (packBytes text.toUTF8.data.toList)[i]? := rfl
  have hmin : min 8 (n - 8 * i) = 8 := by omega
  rw [hpayload, htext, packBytes, getElem?_packWords, List.drop_replicate, List.take_replicate,
    hmin]
  rw [List.length_replicate]
  omega

end ObjectImage

namespace VmRun

theorem overlong_string_leaves_mark : ∃ vm s a o,
    Vm.create ⟨68719476736, 34359738368, 4096⟩ 16 = .ok vm ∧
      Arises (fun _ => True) vm s ∧ s.vm.heap.memory.Reaches s.roots a ∧ s.owner a = some o ∧
      s.vm.heap.memory.isMarked a = true := by
  obtain ⟨text, htext, hbytes⟩ := exists_text 34359738360
  obtain ⟨-, hsize, hrun⟩ := perform_overlong_string hbytes
  have hword : (ObjectImage.string text)[4294967294]? = some 0x6161616161616161 :=
    ObjectImage.getElem?_string htext (i := 4294967292) (by decide)
  have himage : (ObjectRequest.string text).image = ObjectImage.string text := rfl
  have hsmall : (ObjectRequest.string text).size < 4096 := hsize.trans_lt (by decide)
  -- the text is too long to be computed with, and from here on only its words are used
  clear htext hbytes hsize
  generalize ObjectImage.string text = words at *
  let next := Mapping.firstAddress + 34359738368
  let pair := Value.reference next
  let opened (vm : Vm) : VmRun := ((start vm).step .openContext).step .openContext
  let first (vm : Vm) : VmRun := (opened vm).step (.onContext 0 (.allocate (.flonum 0)))
  let allocated (vm : Vm) : VmRun := (first vm).step
    (.onContext 1 (.allocate (.cell .pair (.fixnum 1) .nil)))
  let pushed (vm : Vm) : VmRun := (allocated vm).step (.onContext 1 (.push pair))
  let followed (vm : Vm) : VmRun := (pushed vm).step (.onContext 0 (.allocate (.string text)))
  let o : ObjectRecord := ⟨1, next, 3⟩
  have hshown : ∃ vm memory, Vm.create ⟨68719476736, 34359738368, 4096⟩ 16 = .ok vm ∧
      [opened vm, first vm, pushed vm].map (·.vm.heap.settings.largeSize) = [4096, 4096, 4096] ∧
      (allocated vm).contexts.map (Option.map LiveContext.fresh) =
        [some (some (.reference Mapping.firstAddress)), some (some pair)] ∧
      (followed vm).roots = [pair] ∧
      (followed vm).objects = [⟨2, Mapping.firstAddress + 16, words.length⟩, o,
        ⟨0, Mapping.firstAddress, 2⟩] ∧
      (followed vm).vm.heap.memory =
        Memory.writeAll memory (Mapping.firstAddress + 16) words := by
    simp only [followed, step, perform, hrun, himage]
    exact ⟨_, _, rfl, rfl, rfl, rfl, rfl, rfl⟩
  obtain ⟨vm, memory, hvm, hlarge, hfresh, hroots, hobjects, hmemory⟩ := hshown
  obtain ⟨hlarge, hlarge₁, hlarge₂, -⟩ := by simpa only [List.map, List.cons.injEq] using hlarge
  have hfollows := follows_start hvm
  have hopened : Arises (fun _ => True) vm (opened vm) :=
    ((Arises.of_reached (.create hvm)).step .openContext (hfollows.mayMap pageSize) trivial).step
      .openContext (hfollows.openContext.mayMap pageSize) trivial
  have hfirst : Arises (fun _ => True) vm (first vm) :=
    hopened.step _ (legal_allocate trivial (fun v hv => absurd hv List.not_mem_nil)
      (hlarge ▸ by decide)) trivial
  have hallocated : Arises (fun _ => True) vm (allocated vm) :=
    hfirst.step _ (legal_allocate (Or.inl rfl) (by decide) (hlarge₁ ▸ by decide)) trivial
  have hpushed : Arises (fun _ => True) vm (pushed vm) := by
    refine .step hallocated _ (fun r hr _ => Or.inr (Or.inl ?_)) trivial
    have hsecond := congrArg (fun contexts => contexts[1]?) hfresh
    rw [List.getElem?_map, hr] at hsecond
    exact Option.some.inj (Option.some.inj hsecond)
  have hlegal : (pushed vm).Legal (.onContext 0 (.allocate (.string text))) :=
    legal_allocate trivial (fun v hv => absurd hv List.not_mem_nil) (hlarge₂ ▸ hsmall)
  have hfollowed : Arises (fun _ => True) vm (followed vm) := .step hpushed _ hlegal trivial
  refine ⟨vm, followed vm, next, o, hvm, hfollowed, ?_, ?_, ?_⟩
  · have haddress : pair.address = next := Value.address_reference (by decide) (by decide)
    rw [hroots, ← haddress]
    exact .root List.mem_cons_self (by decide)
  · unfold Ledger.owner
    rw [hobjects]
    rfl
  · obtain ⟨hlt, hget⟩ := List.getElem?_eq_some_iff.mp hword
    have hread := Memory.read_writeAll memory (Mapping.firstAddress + 16) words hlt
    have hnext : Mapping.firstAddress + 16 + 8 * 4294967294 = next := rfl
    rw [hnext, hget] at hread
    rw [Memory.isMarked, Memory.header, hmemory, hread]
    decide

end VmRun

end VmSupport
