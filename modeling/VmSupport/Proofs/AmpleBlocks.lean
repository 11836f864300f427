import VmSupport.Proofs.NeutralWork
import VmSupport.Proofs.ThriftyAllocation

namespace VmSupport

open EStateM

namespace Mutator

variable {R H : Type} [RootSet R] {collector : Collector H} {m : Mutator R H} {l : Layout}

omit [RootSet R] in
theorem allocateOnBlock_of_place? {c : Cursor} {address : Nat}
    (hplace : m.arena.place? l = some (c, address))
    (hcount : m.arena.allocated + l.size < 1 <<< 64) :
    allocateOnBlock l m = .ok (some address) { m with
      arena := ⟨some { c with bump := address + l.size }, m.arena.allocated + l.size⟩ } := by
  simp only [allocateOnBlock, bind, EStateM.bind, get, getThe, MonadStateOf.get, EStateM.get,
    hplace, modify, modifyGet, MonadStateOf.modifyGet, EStateM.modifyGet, countBytes_eq, hcount,
    ↓reduceIte, pure, EStateM.pure]

omit [RootSet R] in
theorem retire_of_lt (hcursor : ∀ c ∈ m.arena.cursor, c.block < m.heap.blockCount) :
    ∃ retired, retire m = .ok () { m with
      heap := { m.heap with retired }
      arena := ⟨none, m.arena.allocated⟩ } := by
  obtain ⟨heap, ⟨cursor, allocated⟩, roots, host⟩ := m
  cases cursor with
  | none => exact ⟨heap.retired, rfl⟩
  | some c =>
    have hlt : c.block < heap.blockCount := hcursor c rfl
    simp only [retire, bind, EStateM.bind, get, getThe, MonadStateOf.get, EStateM.get, onHeap,
      Heap.retireBlock_of_lt hlt]
    exact ⟨_, rfl⟩

theorem exchangeBlock_of_free (collector : Collector H) {b : Nat} {rest : List Nat}
    (hcursor : ∀ c ∈ m.arena.cursor, c.block < m.heap.blockCount) (hfree : m.heap.free = b :: rest)
    (hb : b < m.heap.blockCount) : ∃ heap, exchangeBlock collector m = .ok () { m with
      heap
      arena := ⟨some (m.heap.freshCursor b), m.arena.allocated⟩ } ∧ heap.free = rest := by
  obtain ⟨retired, hretire⟩ := retire_of_lt hcursor
  let m' : Mutator R H :=
    { m with heap := { m.heap with retired }, arena := ⟨none, m.arena.allocated⟩ }
  have hrequest : requestBlock collector m' = .ok b { m' with heap := m'.heap.handOut rest } :=
    requestBlock_of_free hfree
  have hbounds : Heap.blockBounds b (m'.heap.handOut rest) =
      .ok (m.heap.blockStart b, m.heap.blockEnd b) (m'.heap.handOut rest) :=
    Heap.blockBounds_of_lt hb
  unfold exchangeBlock
  rw [bind_of_ok hretire, bind_of_ok hrequest]
  simp only [bind, EStateM.bind, onHeap, hbounds]
  exact ⟨_, rfl, rfl⟩

structure Ready (size : Nat) (m : Mutator R H) : Prop where
  small : size < m.heap.settings.largeSize
  valid : m.heap.settings.IsValid
  aligned : ∀ b, 8 ∣ m.heap.blockStart b
  count : m.arena.allocated + size < 1 <<< 64
  cursor : ∀ c ∈ m.arena.cursor, c.block < m.heap.blockCount
  free : ∀ b ∈ m.heap.free, b < m.heap.blockCount
  pos : 0 < m.heap.free.length

theorem allocate_of_free (collector : Collector H) {size : Nat} (hm : m.Ready size) :
    ∃ a m', allocate collector (.ofWords size) m = .ok a m' ∧
      m.heap.free.length ≤ m'.heap.free.length + 1 ∧
      m'.arena.allocated = m.arena.allocated + size := by
  have hsmall : ¬m.heap.settings.largeSize ≤ (Layout.ofWords size).size := Nat.not_le.mpr hm.small
  have hget : (get : Action R H (Mutator R H)) m = .ok m m := rfl
  unfold allocate
  rw [bind_of_ok hget, if_neg hsmall]
  cases hplace : m.arena.place? (.ofWords size) with
  | some placed =>
    obtain ⟨c, address⟩ := placed
    rw [bind_of_ok (allocateOnBlock_of_place? hplace hm.count)]
    exact ⟨address, _, rfl, Nat.le_succ _, rfl⟩
  | none =>
    obtain ⟨b, rest, hfree⟩ := List.exists_cons_of_length_pos hm.pos
    have hb := hm.free b (hfree ▸ List.mem_cons_self)
    obtain ⟨heap, hexchange, hrest⟩ :=
      exchangeBlock_of_free collector hm.cursor hfree hb
    -- a block without objects has room for one that is not large
    let fresh : Mutator R H :=
      { m with heap, arena := ⟨some (m.heap.freshCursor b), m.arena.allocated⟩ }
    have haddress : alignUp 8 (m.heap.blockStart b) = m.heap.blockStart b :=
      alignUp_of_dvd (by decide) (hm.aligned b)
    have hroom : m.heap.blockStart b + size ≤ m.heap.blockEnd b :=
      Nat.add_le_add_left (Nat.le_trans (Nat.le_of_lt hm.small) hm.valid.largeSize_le) _
    have hfresh : fresh.arena.place? (.ofWords size) =
        some (m.heap.freshCursor b, m.heap.blockStart b) :=
      Arena.place?_eq_some.mpr ⟨rfl, haddress, hroom⟩
    rw [bind_of_ok (allocateOnBlock_of_place?_eq_none hplace)]
    simp only
    rw [bind_of_ok hexchange, bind_of_ok (allocateOnBlock_of_place? hfresh hm.count)]
    exact ⟨_, _, rfl, by rw [hfree, ← hrest]; exact Nat.le_refl _, rfl⟩

end Mutator

namespace Stress

open Machine

variable {h : Heap} {env : Embedder Calls} {depth blocks bytes : Nat} {m : Machine Calls}

structure Ample (h : Heap) (blocks bytes : Nat) (m : Machine Calls) : Prop where
  contexts : m.vm.HasContexts h [m.context]
  blocks_le : blocks ≤ m.vm.heap.free.length
  bytes_lt : m.context.arena.allocated + bytes < 1 <<< 64

structure Suits (h : Heap) (depth : Nat) : Prop where
  valid : h.settings.IsValid
  aligned : ∀ b, 8 ∣ h.blockStart b
  regionEnd_le : h.regionEnd ≤ 2 ^ 64
  sizes_lt : ∀ size ∈ requestSizes depth, size < h.settings.largeSize
  depth_le : depth ≤ 2 ^ 62

section Perform

variable (hc : env.collector.IsGentle) (hsuits : Suits h depth)

include hsuits in
theorem Ample.ready {size : Nat} (hm : Ample h (blocks + 1) (size + bytes) m)
    (hsize : size < h.settings.largeSize) (pending : List Value) :
    (m.mutator pending).Ready size := by
  obtain ⟨hregion, ⟨released, haccounts⟩, hseats, -, -, -⟩ := hm.contexts
  have hsettings : m.vm.heap.settings = h.settings := hregion.settings
  have hbytes := hm.bytes_lt
  constructor
  · exact hsettings ▸ hsize
  · exact hsettings ▸ hsuits.valid
  · intro b
    have hstart : m.vm.heap.blockStart b = h.blockStart b := by
      rw [Heap.blockStart, Heap.blockStart, hregion.start, hregion.settings]
    exact Nat.dvd_trans (hsuits.aligned b) (dvd_of_eq hstart.symm)
  · change m.context.arena.allocated + size < 1 <<< 64
    omega
  · intro k hk
    have hlt := (hseats m.context List.mem_cons_self k hk).1
    change k.block < m.vm.heap.settings.blockCount
    rwa [hsettings]
  · exact fun b hb => haccounts.divided.lt_of_mem_free hb
  · exact Nat.lt_of_lt_of_le (Nat.succ_pos _) hm.blocks_le

include hc hsuits in
theorem Ample.perform {r : ObjectRequest} (hm : Ample h (blocks + 1) (r.size + bytes) m)
    (hsize : r.size < h.settings.largeSize) (hseated : m.Seated h) (hfits : r.Fits) :
    ∃ v m', r.perform env m = .ok v m' ∧ Ample h blocks bytes m' := by
  obtain ⟨a, x, hallocate, hfree, hcount⟩ := Mutator.allocate_of_free env.collector
    (hm.ready hsuits hsize r.operands)
  have hheld := Mutator.allocate_held hc (.ofWords r.size) (m.mutator r.operands)
  rw [hallocate] at hheld
  have hrun : r.perform env m =
      .ok (.reference a) (writeWords a r.image (m.withMutator x)).state := by
    rw [r.perform_eq, allocateObject_ok hallocate hheld.1]
    rfl
  have hshared := r.perform_shared hc hfits hseated
  rw [hrun] at hshared
  refine ⟨_, _, hrun, (hshared.1 [] hm.contexts).1, ?_, ?_⟩
  · have hblocks := Nat.le_trans hm.blocks_le hfree
    exact Nat.le_of_succ_le_succ hblocks
  · have hbytes := hm.bytes_lt
    change x.arena.allocated + bytes < 1 <<< 64
    rw [hcount]
    change m.context.arena.allocated + r.size + bytes < 1 <<< 64
    omega

def Supply.ample (hc : env.collector.IsGentle) (hsuits : Suits h depth) (rest : Nat) :
    Supply (Company.nobody h fun _ => False) env depth where
  Left more sizes _ m := Ample h (sizes.length + more * (requestSizes depth).length + rest)
      (sizes.sum + more * (requestSizes depth).sum) m ∧ ∀ size ∈ sizes, size < h.settings.largeSize
  stable := by
    rintro _ _ _ m _ hleft rfl
    exact hleft
  keeps := by
    rintro _ _ _ _ _ m m' ⟨hm, hall⟩ htakes - -
    obtain ⟨log, hheap⟩ := htakes.heap_eq
    refine ⟨⟨(htakes.courteous [] hm.contexts).1, ?_, ?_⟩, hall⟩
    · rw [hheap]
      exact hm.blocks_le
    · rw [htakes.arena_eq]
      exact hm.bytes_lt
  allocate := by
    rintro _ sizes m r ⟨hm, hall⟩ hseated - hfits -
    obtain ⟨hsize, hall'⟩ := List.forall_mem_cons.mp hall
    rw [List.length_cons, List.sum_cons, Nat.add_assoc r.size, Nat.succ_add, Nat.succ_add] at hm
    obtain ⟨v, m', hrun, hm'⟩ := hm.perform hc hsuits hsize hseated hfits
    rw [hrun]
    exact ⟨hm', hall'⟩
  stringLength := by
    rintro _ _ m m' _ v ⟨hm, hall⟩ hseated hrun rfl
    exact stringLength_of_undisturbed hc (hall 32 List.mem_cons_self) hsuits.regionEnd_le hseated
      hrun (.refl _ _ _)
  turn := by
    rintro more m ⟨hm, -⟩ -
    rw [List.length_nil, List.sum_nil, Nat.zero_add, Nat.zero_add, Nat.succ_mul, Nat.succ_mul,
      Nat.add_comm (more * _) (requestSizes depth).length, Nat.add_comm (more * _)] at hm
    exact ⟨hm, hsuits.sizes_lt⟩

end Perform

section Success

variable {vm vm' : Vm} {c : Context} {count rest : Nat} (hc : env.collector.IsGentle)
  (henv : env.invoke = applyCounted) (hsuits : Suits h depth)

include hc henv hsuits

theorem iteration_of_ample {fluid : FluidId} (hknown : fluid.index < m.vm.fluids.size)
    (hstack : m.context.stack.size + 7 < 2 ^ 64) (x y : UInt32)
    (hm : Ample h (requestSizes depth).length (requestSizes depth).sum m) :
    ∃ r m', iteration env (setupOf fluid x y) depth m = .ok r m' := by
  have hseated : m.Seated h := ⟨hm.contexts.region, hm.contexts.seated _ List.mem_cons_self⟩
  have hleft : (Supply.ample hc hsuits 0).Left 0 (requestSizes depth) [] m := by
    refine ⟨?_, hsuits.sizes_lt⟩
    rwa [Nat.zero_mul, Nat.zero_mul, Nat.add_zero, Nat.add_zero]
  have hamid : Amid (Supply.ample hc hsuits 0) fluid m 0 0 [] [] (requestSizes depth) [] 0 m :=
    ⟨.start hseated hknown, hleft⟩
  have hcovers : (Company.nobody h fun _ => False).Covers depth m.context.stack.size :=
    Or.inr ⟨hsuits.depth_le, hstack⟩
  have hrun := ((Amid.iteration_serves hc henv x y hcovers).meets 0 m hamid).run
  rw [Part.run_iteration] at hrun
  cases hr : iteration env (setupOf fluid x y) depth m with
  | ok r m' => exact ⟨r, m', rfl⟩
  | error e m' =>
    rw [hr] at hrun
    exact hrun.elim

theorem work_of_ample (hcontexts : vm.HasContexts h [])
    (hopen : vm.openContext = .ok (c, vm'))
    (hblocks : count * (requestSizes depth).length + rest ≤ vm.heap.free.length)
    (hbytes : count * (requestSizes depth).sum < 1 <<< 64) (calls : Calls) :
    ∃ done m, work env count depth ⟨vm', c, calls⟩ = .ok done m ∧
      m.vm.HasContexts h [m.context] ∧ rest ≤ m.vm.heap.free.length := by
  obtain ⟨-, rfl, -, -, hfree⟩ := Vm.openContext_eq_ok hopen
  obtain ⟨hopened, -⟩ := Vm.openContext_shared hcontexts hopen
  let start : Machine Calls := ⟨vm', ⟨vm.threads.size, .new, #[], #[], #[]⟩, calls⟩
  have hseated : start.Seated h := ⟨hopened.region, hopened.seated _ List.mem_cons_self⟩
  have hleft : (Supply.ample hc hsuits rest).Left (0 + count) [] [] start := by
    refine ⟨⟨hopened, ?_, ?_⟩, nofun⟩
    · change 0 + (0 + count) * _ + rest ≤ vm'.heap.free.length
      rw [hfree, Nat.zero_add, Nat.zero_add]
      exact hblocks
    · change 0 + (0 + (0 + count) * _) < 1 <<< 64
      rw [Nat.zero_add, Nat.zero_add, Nat.zero_add]
      exact hbytes
  have hserves := work_serves (S := Supply.ample hc hsuits rest) hc henv
    (Or.inr ⟨hsuits.depth_le, by decide⟩) 0 count
  have hrun := (hserves.meets 0 start ⟨⟨rfl, hseated, rfl⟩, hleft⟩).run
  rw [← Part.run_work]
  cases hr : (Part.work env count depth).run start with
  | error e m =>
    rw [hr] at hrun
    exact hrun.elim
  | ok r m =>
    rw [hr] at hrun
    obtain ⟨-, -, hm, -⟩ := hrun
    rw [bind_of_ok hr]
    refine ⟨_, _, rfl, hm.contexts, ?_⟩
    exact Nat.le_trans (Nat.le_add_left rest _) hm.blocks_le

end Success

end Stress

end VmSupport
