import VmSupport.Proofs.SharedMachine
import VmSupport.Proofs.StressParts

namespace VmSupport

namespace Stress

open Machine Strand

/-- Those with whom a thread of the stress program shares the machine: what they do meanwhile, and
the errors with which the thread may break off. They leave its context alone, and of the machine
whatever it looks at. -/
structure Company (h : Heap) where
  rely : Machine Calls → Machine Calls → Prop
  excuses : Exit RuntimeError → Prop
  rely_refl : ∀ m, rely m m
  rely_trans : ∀ {m m' m''}, rely m m' → rely m' m'' → rely m m''
  undisturbed : ∀ {m m'}, rely m m' →
    m'.context = m.context ∧ Vm.Undisturbed h m.context m.vm m'.vm

namespace Company

variable {h : Heap}

def terms (company : Company h) : Terms (Exit RuntimeError) (Machine Calls) where
  rely := company.rely
  guarantee m m' := m.Courteous h m' ∧ m.host ≤ m'.host
  excuses := company.excuses
  count := Machine.host
  rely_refl := company.rely_refl
  rely_trans := company.rely_trans
  guarantee_refl m := ⟨(TakesNothing.refl m).courteous, Nat.le_refl _⟩
  guarantee_trans hg hg' := ⟨hg.1.trans hg'.1, hg.2.trans hg'.2⟩
  count_le := And.right

def others (h : Heap) : Company h where
  rely m m' := m'.context = m.context ∧ Vm.Undisturbed h m.context m.vm m'.vm
  excuses e := ∃ f, e = .fault f ∧ f.IsPanic
  rely_refl m := ⟨rfl, .refl h m.context m.vm⟩
  rely_trans := by
    rintro m m' m'' ⟨hcontext, hu⟩ ⟨hcontext', hu'⟩
    exact ⟨hcontext'.trans hcontext, hu.trans (hcontext ▸ hu')⟩
  undisturbed hrely := hrely

def nobody (h : Heap) (excuses : Exit RuntimeError → Prop) : Company h where
  rely m m' := m' = m
  excuses
  rely_refl _ := rfl
  rely_trans hrely hrely' := hrely'.trans hrely
  undisturbed := by
    rintro _ m rfl
    exact ⟨rfl, .refl h m.context m.vm⟩

/-- The panics that memory has no part in are excused, or neither the list is long nor the value
stack high enough for them. -/
def Covers (company : Company h) (depth stackSize : Nat) : Prop :=
  (∀ f : Fault, f.IsPanic → company.excuses (.fault f)) ∨
    depth ≤ 2 ^ 62 ∧ stackSize + 7 < 2 ^ 64

theorem others_covers (h : Heap) (depth stackSize : Nat) : (others h).Covers depth stackSize :=
  Or.inl fun f hf => ⟨f, rfl, hf⟩

end Company

def requestSizes (depth : Nat) : List Nat :=
  List.replicate depth 24 ++ [16, ObjectImage.wordsSize (UInt32.ofNat depth), 32]

/-- How a thread comes by its memory. `Left more sizes fresh m` is what it needs of a machine on
which it still has to allocate objects of these sizes in this iteration and to make `more` others,
while the values `fresh` are new. -/
structure Supply {h : Heap} (company : Company h) (env : Embedder Calls) (depth : Nat) where
  Left : (more : Nat) → (sizes : List Nat) → (fresh : List Value) → Machine Calls → Prop
  stable : ∀ {more sizes fresh m m'},
    Left more sizes fresh m → company.rely m m' → Left more sizes fresh m'
  keeps : ∀ {more sizes fresh pushed set m m'}, Left more sizes fresh m →
    m.TakesNothing pushed set m' → (∀ v ∈ pushed, v.isReference → v ∈ fresh) →
    (∀ v ∈ set, v.isReference = false) → Left more sizes [] m'
  allocate : ∀ {more sizes m} {r : ObjectRequest}, Left more (r.size :: sizes) [] m →
    m.Seated h → r.IsTyped → r.Fits →
    (∀ v ∈ r.operands, v.isReference → v ∈ m.context.stack) → match r.perform env m with
      | .ok v m' => Left more sizes [v] m'
      | .error e _ => company.excuses e
  stringLength : ∀ {more sizes m m' m'' v}, Left more (32 :: sizes) [] m → m.Seated h →
    allocateString env "λ-stress" m = .ok v m' → company.rely m' m'' →
    m''.vm.stringLength v = .ok 8
  turn : ∀ {more m}, Left (more + 1) [] [] m → m.context.stack = #[] →
    Left more (requestSizes depth) [] m

theorem fits_stress : (ObjectRequest.string "λ-stress").Fits := by
  unfold ObjectRequest.Fits
  decide

theorem stringLength_eq {vm : Vm} {v : Value} {n : UInt32} (hv : v.isReference)
    (h : vm.heap.memory.header v.address = .withLength .str n) :
    vm.stringLength v = .ok n.toNat := by
  have htype : vm.typeOf v = .ok .str := by
    rw [Vm.typeOf, h, Header.type?_withLength]
  rw [Vm.stringLength, if_pos hv, htype, h]
  rfl

section Blocks

variable {h : Heap} {env : Embedder Calls} {m m' m'' : Machine Calls} {v : Value}

theorem stringLength_of_undisturbed (hc : env.collector.IsGentle)
    (hsmall : 32 < h.settings.largeSize) (hend : h.regionEnd ≤ 2 ^ 64) (hseated : m.Seated h)
    (hrun : allocateString env "λ-stress" m = .ok v m')
    (hu : Vm.Undisturbed h m'.context m'.vm m''.vm) : m''.vm.stringLength v = .ok 8 := by
  have hperform := (ObjectRequest.string "λ-stress").perform_shared hc fits_stress hseated
  change (ObjectRequest.string "λ-stress").perform env m = .ok v m' at hrun
  rw [hrun] at hperform
  obtain ⟨-, hseated', -, a, rfl, hheader, hlies⟩ := hperform
  obtain ⟨haligned, k, hk, ha⟩ := hlies hsmall
  have hlt : a < 2 ^ 64 := Nat.lt_of_lt_of_le ha.2
    (Nat.le_trans (h.blockEnd_le_regionEnd (hseated'.2 k hk).1) hend)
  apply stringLength_eq (n := 8) (Value.isReference_reference haligned)
  rw [Value.address_reference haligned hlt, Memory.header, hu.words k hk a ha]
  exact hheader.trans (headerOf_word (.withLength .str 8) _)

def Supply.shared (hc : env.collector.IsGentle) (hsmall : 32 < h.settings.largeSize)
    (hend : h.regionEnd ≤ 2 ^ 64) (depth : Nat) : Supply (Company.others h) env depth where
  Left _ _ _ _ := True
  stable _ _ := trivial
  keeps _ _ _ _ := trivial
  allocate := by
    intro more sizes m r _ hseated _ hfits _
    have hperform := r.perform_shared hc hfits hseated
    cases hr : r.perform env m with
    | ok v m' => trivial
    | error e m' =>
      rw [hr] at hperform
      exact hperform
  stringLength _ hseated hrun hrely :=
    stringLength_of_undisturbed hc hsmall hend hseated hrun hrely.2
  turn _ _ := trivial

end Blocks

end Stress

end VmSupport
