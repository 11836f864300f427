import VmSupport.Proofs.FrugalMachine
import VmSupport.Proofs.NeutralWork

namespace VmSupport

open EStateM

namespace Stress

open Machine

def iterationSizes (depth : Nat) : List Nat := List.replicate depth 24 ++ [16, 8 + 8 * depth, 32]

def smallSizes (settings : HeapSettings) (depth : Nat) : List Nat :=
  (iterationSizes depth).filter (· < settings.largeSize)

def smallBytes (settings : HeapSettings) (depth : Nat) : Nat := (smallSizes settings depth).sum

def largestSmall (settings : HeapSettings) (depth : Nat) : Nat :=
  (smallSizes settings depth).max?.getD 0

variable {settings : HeapSettings}

theorem requestSizes_eq {n : Nat} (hn : n < 2 ^ 32) : requestSizes n = iterationSizes n := by
  have hwords : ObjectImage.wordsSize (UInt32.ofNat n) = 8 + 8 * n := by
    rw [ObjectImage.wordsSize, UInt32.toNat_ofNat', Nat.mod_eq_of_lt hn]
  rw [requestSizes, hwords, iterationSizes]

theorem blockBytes_sum (settings : HeapSettings) (sizes : List Nat) :
    (sizes.map settings.blockBytes).sum = (sizes.filter (· < settings.largeSize)).sum := by
  induction sizes with
  | nil => rfl
  | cons size sizes ih =>
    rw [List.map_cons, List.sum_cons, ih, List.filter_cons, HeapSettings.blockBytes]
    by_cases hlt : size < settings.largeSize
    · simp only [hlt, ↓reduceIte, decide_true, List.sum_cons]
    · simp only [hlt, ↓reduceIte, decide_false, Nat.zero_add, Bool.false_eq_true]

theorem le_largestSmall {size n : Nat} (hsize : size ∈ iterationSizes n)
    (hlt : size < settings.largeSize) : size ≤ largestSmall settings n :=
  List.le_max?_getD_of_mem (List.mem_filter.mpr ⟨hsize, decide_eq_true hlt⟩)

theorem largestSmall_lt (hpos : 0 < settings.largeSize) (n : Nat) :
    largestSmall settings n < settings.largeSize := by
  unfold largestSmall
  cases hmax : (smallSizes settings n).max? with
  | none => exact hpos
  | some size =>
    have hmem := List.max?_mem hmax
    exact of_decide_eq_true (List.mem_filter.mp hmem).2

def skipPages (gap : Nat) (m : Machine Calls) : Machine Calls :=
  { m with vm := m.vm.mapAt (m.vm.heap.nextMapping + gap * pageSize) }

theorem skipPages_zero (m : Machine Calls) : skipPages 0 m = m := by
  rw [skipPages, Nat.zero_mul]
  rfl

/-- Nobody but the operating system, which maps memory in ascending order and leaves gaps. -/
def Company.system (h : Heap) (excuses : Exit RuntimeError → Prop) : Company h where
  rely m m' := ∃ gap, m' = skipPages gap m
  excuses
  rely_refl m := ⟨0, (skipPages_zero m).symm⟩
  rely_trans := by
    rintro m _ _ ⟨gap, rfl⟩ ⟨gap', rfl⟩
    refine ⟨gap + gap', ?_⟩
    simp only [skipPages, Vm.mapAt, Nat.add_mul, Nat.add_assoc]
  undisturbed := by
    rintro m _ ⟨gap, rfl⟩
    exact ⟨rfl, fun hs => ⟨hs.start, hs.settings⟩, List.prefix_rfl, fun _ _ _ _ => rfl⟩

theorem frugal_skipPages {largest bytes : Nat} {fresh : List Value} {m : Machine Calls}
    (h : Frugal settings largest bytes fresh m) (gap : Nat) :
    Frugal settings largest bytes fresh (skipPages gap m) := by
  obtain ⟨p, -, hf, -⟩ := h.sound
  exact h.mapAt (Nat.le_add_right _ _) (Nat.dvd_add hf.aligned (Nat.dvd_mul_left _ _))

def Supply.frugal (h : Heap) {n : Nat} (hn : n < 2 ^ 32)
    (hafford : settings.Affords (largestSmall settings n) (smallBytes settings n)) :
    Supply (Company.system h settings.Excuses) (embedder true) n where
  Left _ sizes fresh m := ∃ bytes, Frugal settings (largestSmall settings n) bytes fresh m ∧
    bytes + (sizes.map settings.blockBytes).sum ≤ smallBytes settings n ∧
    ∀ size ∈ sizes, size < settings.largeSize → size ≤ largestSmall settings n
  stable := by
    rintro _ _ _ m _ ⟨bytes, hfrugal, hsizes⟩ ⟨gap, rfl⟩
    exact ⟨bytes, frugal_skipPages hfrugal gap, hsizes⟩
  keeps := by
    rintro _ _ _ _ _ m m' ⟨bytes, hfrugal, hsizes⟩ htakes hpushed hset
    exact ⟨bytes, hfrugal.retains htakes.toRetains hpushed hset, hsizes⟩
  allocate := by
    rintro _ sizes m r ⟨bytes, hfrugal, hle, hall⟩ - htyped hfits hoperands
    rw [List.map_cons, List.sum_cons, ← Nat.add_assoc] at hle
    obtain ⟨hsize, hrest⟩ := List.forall_mem_cons.mp hall
    have henv : (embedder true).collector = .blocks := rfl
    have hallocate := hfrugal.allocate henv hafford
      (Nat.le_of_add_right_le (Nat.le_of_add_right_le hle)) htyped hfits hsize
      fun v hv href => mem_kept_iff.mpr (Or.inl (hoperands v hv href))
    cases hr : r.perform (embedder true) m with
    | error e m' =>
      rw [hr] at hallocate
      exact hallocate
    | ok v m' =>
      rw [hr] at hallocate
      exact ⟨_, hallocate.frugal, hle, hrest⟩
  stringLength := by
    rintro _ sizes m m' _ v ⟨bytes, hfrugal, hle, hall⟩ - hrun ⟨gap, rfl⟩
    rw [List.map_cons, List.sum_cons, ← Nat.add_assoc] at hle
    have henv : (embedder true).collector = .blocks := rfl
    have htyped : (ObjectRequest.string "λ-stress").IsTyped := trivial
    have hallocate := hfrugal.allocate henv hafford
      (Nat.le_of_add_right_le (Nat.le_of_add_right_le hle)) htyped fits_stress
      (hall 32 List.mem_cons_self) nofun
    change (ObjectRequest.string "λ-stress").perform (embedder true) m = .ok v _ at hrun
    rw [hrun] at hallocate
    exact stringLength_eq (n := 8) hallocate.isReference
      (hallocate.header_eq.trans (headerOf_word (.withLength .str 8) _))
  turn := by
    rintro _ m ⟨bytes, hfrugal, -⟩ hstack
    rw [requestSizes_eq hn]
    refine ⟨0, hfrugal.reset hstack, ?_, fun size => le_largestSmall⟩
    rw [Nat.zero_add, blockBytes_sum]
    exact Nat.le_refl _

section Start

variable {stackSize base place : Nat} {vm vm' : Vm} {c : Context}
  (hcreate : Vm.create settings stackSize = .ok vm) (hbase : settings.MayStartAt base)
  (hplace : ((vm.foundAt base).mapAt place).heap.Follows [])
  (hopen : ((vm.foundAt base).mapAt place).openContext = .ok (c, vm'))

include hcreate hopen

theorem new_eq : vm'.heap.settings = settings ∧ c = ⟨c.number, .new, #[], #[], #[]⟩ ∧
    vm'.fluids = .empty := by
  have hsettings := VmRun.settings_eq hcreate
  obtain ⟨h, memory, r, hheap, rfl, -⟩ := VmRun.create_eq hcreate
  obtain ⟨-, rfl, hfluids, hsame, -⟩ := Vm.openContext_eq_ok hopen
  exact ⟨hsame.trans hsettings, rfl, hfluids⟩

include hbase hplace

theorem frugal_start (largest : Nat) (calls : Calls) :
    Frugal settings largest 0 [] (⟨vm', c, calls⟩ : Machine Calls) := by
  obtain ⟨hsettings, hc, hfluids⟩ := new_eq hcreate hopen
  let start := VmRun.start ((vm.foundAt base).mapAt place)
  let s : VmRun := { start with vm := vm', contexts := [some ⟨c, none⟩] }
  have hstep : start.step .openContext = s := by
    simp only [VmRun.step, VmRun.start, hopen, List.nil_append, start, s]
  have hthreads : start.inventory.threads = [] := by
    obtain ⟨h, memory, r, hheap, rfl, -⟩ := VmRun.create_eq hcreate
    rfl
  have hf : start.Follows := by
    unfold VmRun.Follows
    rw [hthreads]
    exact hplace
  have hs : start.Sound := Inventory.Sound.mapAt (VmRun.sound_start hcreate hbase) place
  have hopened := VmRun.sound_open hs (hf.mayMap pageSize)
  have hfollows := hf.openContext
  rw [hstep] at hopened hfollows
  refine Frugal.of_empty ⟨s.inventory, rfl, hfollows, hopened⟩ hsettings ?_
    (congrArg Context.stack hc)
  rintro v (hv | ⟨w, hw, -⟩ | hv)
  · exact absurd (congrArg Context.slots hc ▸ hv) (Array.not_mem_empty _)
  · exact absurd (congrArg Context.winders hc ▸ hw) (Array.not_mem_empty _)
  · exact absurd (congrArg FluidRegistry.defaults hfluids ▸ hv) (Array.not_mem_empty _)

omit hcreate hbase hplace in
theorem seated_start (calls : Calls) : (⟨vm', c, calls⟩ : Machine Calls).Seated vm'.heap := by
  obtain ⟨-, rfl, -⟩ := Vm.openContext_eq_ok hopen
  exact ⟨⟨rfl, rfl⟩, nofun⟩

theorem runAmid_completes {n : Nat} (hn : n < 2 ^ 32)
    (hroom : 2 + smallBytes settings n / (settings.blockSize - largestSmall settings n) ≤
      settings.blockCount) (count : Nat) (gaps : Nat → Nat) :
    match (Part.work (embedder true) count n).runAmid (fun i => skipPages (gaps i)) 0
        ⟨vm', c, 0⟩ with
      | .ok (done, _) _ => done = ⟨count * n, count * n, count, count * 8⟩
      | .error e _ => e = .fault .additionOverflow ∨
          ∃ size, settings.largeSize ≤ size ∧ e = .fault (.largeObjectNotMapped size) := by
  obtain ⟨hsettings, hc, -⟩ := new_eq hcreate hopen
  have hfrugal := frugal_start hcreate hbase hplace hopen (largestSmall settings n) 0
  have hvalid : settings.IsValid := by
    obtain ⟨p, -, -, hs⟩ := hfrugal.sound
    have hregular : vm'.heap.settings.IsValid := hs.regular.valid
    rwa [hsettings] at hregular
  have hafford : settings.Affords (largestSmall settings n) (smallBytes settings n) :=
    ⟨Nat.lt_of_lt_of_le (largestSmall_lt hvalid.largeSize_pos n) hvalid.largeSize_le, hroom⟩
  have hserves := work_serves (S := Supply.frugal vm'.heap hn hafford)
    Collector.blocks_isGentle rfl (Or.inr ⟨by omega, by decide⟩) 0 count
  have hmeets := hserves.meets 0 ⟨vm', c, 0⟩
    ⟨⟨rfl, seated_start hopen 0, congrArg Context.stack hc⟩, 0, hfrugal, Nat.zero_le _, nofun⟩
  have hact : ∀ i (m : Machine Calls), (Company.system vm'.heap settings.Excuses).terms.rely m
      (skipPages (gaps i) m) := fun i m => ⟨gaps i, rfl⟩
  have hrun := hmeets.runAmid hact 0
  cases hr : (Part.work (embedder true) count n).runAmid (fun i => skipPages (gaps i)) 0
      ⟨vm', c, 0⟩ with
  | ok r m =>
    rw [hr] at hrun
    obtain ⟨_, hdone, -⟩ := hrun
    exact hdone.total_eq
  | error e m =>
    rw [hr] at hrun
    exact hrun

/-- The stress program does not leak. If besides two blocks there are as many as the small objects
of one iteration fill, then a thread that is alone on its machine makes all of its iterations,
unless the count of its bytes overflows or a mapping for a large object fails. This is so wherever
the system maps the blocks and what comes behind them, and whatever gaps it leaves meanwhile. -/
theorem work_completes {n : Nat} (hn : n < 2 ^ 32)
    (hroom : 2 + smallBytes settings n / (settings.blockSize - largestSmall settings n) ≤
      settings.blockCount) (count : Nat) :
    (match work (embedder true) count n ⟨vm', c, 0⟩ with
      | .ok done _ => done = ⟨count * n, count * n, count, count * 8⟩
      | .error e _ => e = .fault .additionOverflow ∨
          ∃ size, settings.largeSize ≤ size ∧ e = .fault (.largeObjectNotMapped size)) ∧
    ∀ gaps : Nat → Nat, match (Part.work (embedder true) count n).runAmid
        (fun i => skipPages (gaps i)) 0 ⟨vm', c, 0⟩ with
      | .ok (done, _) _ => done = ⟨count * n, count * n, count, count * 8⟩
      | .error e _ => e = .fault .additionOverflow ∨
          ∃ size, settings.largeSize ≤ size ∧ e = .fault (.largeObjectNotMapped size) := by
  have hamid := runAmid_completes hcreate hbase hplace hopen hn hroom count
  refine ⟨?_, hamid⟩
  -- the work as it stands is the one between whose parts no page is skipped
  have hrun := hamid fun _ => 0
  have hskip : (fun _ : Nat => skipPages 0) = fun _ m => m := by
    funext _ m
    exact skipPages_zero m
  rw [hskip, Strand.runAmid_id] at hrun
  rw [← Part.run_work]
  cases hr : (Part.work (embedder true) count n).run ⟨vm', c, 0⟩ with
  | ok r m =>
    rw [hr] at hrun
    rw [bind_of_ok hr]
    exact hrun
  | error e m =>
    rw [hr] at hrun
    rw [bind_of_error hr]
    exact hrun

end Start

theorem work_completes_on_three_blocks : ∃ vm c vm', Vm.create ⟨12288, 4096, 4096⟩ 1024 = .ok vm ∧
    vm.openContext = .ok (c, vm') ∧ smallBytes ⟨12288, 4096, 4096⟩ 150 = 4856 ∧
      largestSmall ⟨12288, 4096, 4096⟩ 150 = 1208 ∧
      match work (embedder true) 1000 150 ⟨vm', c, 0⟩ with
      | .ok done _ => done = ⟨150000, 150000, 1000, 8000⟩
      | .error e _ => e = .fault .additionOverflow ∨
          ∃ size, 4096 ≤ size ∧ e = .fault (.largeObjectNotMapped size) := by
  obtain ⟨vm, c, vm', hcreate, hopen⟩ : ∃ vm c vm', Vm.create ⟨12288, 4096, 4096⟩ 1024 = .ok vm ∧
      vm.openContext = .ok (c, vm') := ⟨_, _, _, rfl, rfl⟩
  have hbytes : smallBytes ⟨12288, 4096, 4096⟩ 150 = 4856 := by decide +kernel
  have hlargest : largestSmall ⟨12288, 4096, 4096⟩ 150 = 1208 := by decide +kernel
  refine ⟨vm, c, vm', hcreate, hopen, hbytes, hlargest, ?_⟩
  have hfound := VmRun.foundAt_create hcreate
  have hplace : ((vm.foundAt Mapping.firstAddress).mapAt vm.heap.nextMapping).heap.Follows [] := by
    rw [hfound]
    exact VmRun.follows_create hcreate
  have hopen' : ((vm.foundAt Mapping.firstAddress).mapAt vm.heap.nextMapping).openContext =
      .ok (c, vm') := by
    rw [hfound]
    exact hopen
  have hcompletes := work_completes hcreate (VmRun.mayStartAt_create hcreate) hplace hopen'
    (n := 150) (by decide) (by rw [hbytes, hlargest]; decide) 1000
  exact hcompletes.1

end Stress

end VmSupport
