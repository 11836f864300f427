import VmSupport.Heap.Arena
import VmSupport.Heap.BlockCollector
import VmSupport.Proofs.Outcome

namespace VmSupport

open EStateM

def Fault.IsPanic (f : Fault) : Prop := f ≠ .allowanceSpent

theorem mark_raises (traced : List Nat) (work : List Value) :
    Raises (fun m => mark m traced work) Fault.IsPanic := by
  rintro m -
  beta_reduce
  induction m, traced, work using mark.induct with
  | case1 m traced =>
    rw [mark]
    trivial
  | case2 m traced v work href ih => rwa [mark, if_pos href]
  | case3 m traced v work href hpinned ih => rwa [mark, if_neg href, if_pos hpinned]
  | case4 m traced v work href hpinned hmarked ih =>
    rwa [mark, if_neg href, if_neg hpinned, if_pos hmarked]
  | case5 m traced v work href hpinned hmarked marked hedges =>
    have hnone : (m.setMark v.address).edges? v.address = none := hedges
    rw [mark, if_neg href, if_neg hpinned, if_neg hmarked]
    simp only [hnone]
    exact nofun
  | case6 m traced v work href hpinned hmarked marked edges hedges ih =>
    have hsome : (m.setMark v.address).edges? v.address = some edges := hedges
    rw [mark, if_neg href, if_neg hpinned, if_neg hmarked]
    simp only [hsome]
    exact ih

namespace Heap

variable {α : Type} {err : Fault → Prop}

theorem onMemory_raises {op : EStateM Fault Memory α} (h : Raises op err) :
    Raises (onMemory op) err := by
  rintro heap -
  have hop := h heap.memory trivial
  simp only [onMemory]
  cases hr : op heap.memory with
  | ok a m => trivial
  | error f m =>
    rw [hr] at hop
    exact hop

theorem requestBlock_raises : Raises requestBlock err := by
  refine Raises.get.bind fun h => ?_
  cases h.free with
  | nil => exact .pure none
  | cons b rest => exact fun _ _ => trivial

theorem retireBlock_raises (b : Nat) : Raises (retireBlock b) Fault.IsPanic := by
  refine Raises.get.bind fun h => ?_
  split
  · exact fun _ _ => trivial
  · exact Raises.throw nofun

theorem releaseBlock_raises (b : Nat) : Raises (releaseBlock b) Fault.IsPanic := by
  refine Raises.get.bind fun h => ?_
  split
  · exact fun _ _ => trivial
  · exact Raises.throw nofun

theorem blockBounds_raises (b : Nat) : Raises (blockBounds b) Fault.IsPanic := by
  refine Raises.get.bind fun h => ?_
  split
  · exact .pure _
  · exact Raises.throw nofun

theorem sweepLarge_raises (isLive : Nat → Bool) : Raises (sweepLarge isLive) err :=
  Raises.get.bind fun _ _ _ => trivial

theorem allocateLarge_raises (size : Nat) : Raises (allocateLarge size) Fault.IsPanic := by
  refine Raises.get.bind fun h => ?_
  simp only
  split
  · exact fun _ _ => trivial
  · exact Raises.throw nofun

end Heap

namespace Collection

variable {H α : Type} {err : Fault → Prop}

theorem onHeap_raises {op : Heap.Action α} (h : Raises op err) :
    Raises (onHeap op : Action H α) err := by
  rintro c -
  have hop := h c.heap trivial
  simp only [onHeap]
  cases hr : op c.heap with
  | ok a heap => trivial
  | error f heap =>
    rw [hr] at hop
    exact hop

theorem releaseDead_raises (isLive : Nat → Bool) (bs : List Nat) :
    Raises (releaseDead isLive bs : Action H Nat) Fault.IsPanic := by
  induction bs with
  | nil => exact .pure 0
  | cons b bs ih =>
    unfold releaseDead
    split
    · exact ih
    · exact (onHeap_raises (Heap.releaseBlock_raises b)).bind fun _ => ih.bind fun n => .pure _

theorem reclaimUnlessShared_raises :
    Raises (reclaimUnlessShared : Action H Unit) Fault.IsPanic := by
  refine Raises.get.bind fun c => ?_
  simp only
  split
  · exact fun _ _ => trivial
  refine Raises.bind (Raises.get.bind fun c => ?_) fun traced => ?_
  · exact onHeap_raises (Heap.onMemory_raises (mark_raises [] _))
  refine Raises.bind (onHeap_raises (Heap.onMemory_raises fun _ _ => trivial)) fun _ => ?_
  refine Raises.get.bind fun c => (releaseDead_raises _ _).bind fun released => ?_
  exact (onHeap_raises (Heap.sweepLarge_raises _)).bind fun unmapped _ _ => trivial

end Collection

namespace Mutator

variable {R H α : Type} {err : Fault → Prop} {collector : Collector H}

theorem onHeap_raises {op : Heap.Action α} (h : Raises op err) :
    Raises (onHeap op : Action R H α) err := by
  rintro m -
  have hop := h m.heap trivial
  simp only [onHeap]
  cases hr : op m.heap with
  | ok a heap => trivial
  | error f heap =>
    rw [hr] at hop
    exact hop

theorem countBytes_raises (size : Nat) :
    Raises (countBytes size : Action R H Unit) Fault.IsPanic := by
  refine Raises.get.bind fun m => ?_
  simp only
  split
  · exact fun _ _ => trivial
  · exact Raises.throw nofun

theorem allocateOnBlock_raises (l : Layout) :
    Raises (allocateOnBlock l : Action R H (Option Nat)) Fault.IsPanic := by
  refine Raises.get.bind fun m => ?_
  cases m.arena.place? l with
  | none => exact .pure none
  | some p =>
    refine Raises.bind (fun _ _ => trivial) fun _ => ?_
    exact (countBytes_raises l.size).bind fun _ => .pure _

theorem retire_raises : Raises (retire : Action R H Unit) Fault.IsPanic := by
  refine Raises.get.bind fun m => ?_
  cases m.arena.cursor with
  | none => exact .pure ()
  | some c =>
    exact (onHeap_raises (Heap.retireBlock_raises c.block)).bind fun _ _ _ => trivial

variable [RootSet R]

theorem collect_raises (h : Raises collector err) :
    Raises (collect collector : Action R H Unit) err := by
  rintro ⟨heap, arena, roots, host⟩ -
  simp only [collect]
  generalize Collection.mk (Heap.note _ _) (RootSet.toList roots) host = c
  have hcollector := h c trivial
  cases hr : collector c with
  | ok a c' => trivial
  | error f c' =>
    rw [hr] at hcollector
    exact hcollector

theorem requestBlock_raises (h : Raises collector Fault.IsPanic) :
    Raises (requestBlock collector : Action R H Nat) Fault.IsPanic := by
  refine (onHeap_raises Heap.requestBlock_raises).bind fun first => ?_
  cases first with
  | some b => exact .pure b
  | none =>
    refine (collect_raises h).bind fun _ => ?_
    refine (onHeap_raises Heap.requestBlock_raises).bind fun second => ?_
    cases second with
    | some b => exact .pure b
    | none => exact Raises.throw nofun

theorem allocate_raises (h : Raises collector Fault.IsPanic) (l : Layout) :
    Raises (allocate collector l : Action R H Nat) Fault.IsPanic := by
  refine Raises.get.bind fun m => ?_
  split
  · exact (countBytes_raises l.size).bind fun _ => onHeap_raises (Heap.allocateLarge_raises l.size)
  refine (allocateOnBlock_raises l).bind fun first => ?_
  cases first with
  | some address => exact .pure address
  | none =>
    refine Raises.bind ?_ fun _ => (allocateOnBlock_raises l).bind fun second => ?_
    · refine retire_raises.bind fun _ => (requestBlock_raises h).bind fun b => ?_
      exact (onHeap_raises (Heap.blockBounds_raises b)).bind fun _ _ _ => trivial
    · cases second with
      | some address => exact .pure address
      | none => exact Raises.throw nofun

end Mutator

end VmSupport
