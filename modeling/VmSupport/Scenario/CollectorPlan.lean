import VmSupport.Heap.BlockCollector
import VmSupport.Value.Shift

namespace VmSupport

inductive Reclaiming
  | nothing
  | unreachable
  | allRetired
  deriving DecidableEq

structure CollectorPlan where
  reclaiming : Reclaiming
  records : Bool
  shift : Int
  deriving DecidableEq

namespace CollectorPlan

variable {H : Type}

def shiftRoots (n : Int) : Collection.Action H Unit := fun ⟨heap, roots, host⟩ =>
  match Value.shiftAll n roots with
  | .ok () roots => .ok () ⟨heap, roots, host⟩
  | .error f roots => .error f ⟨heap, roots, host⟩

def collector (plan : CollectorPlan) (note : List Value → H → H) : Collection.Action H Unit := do
  if plan.records then
    modify fun (c : Collection H) => { c with host := note c.roots c.host }
  if plan.shift ≠ 0 then shiftRoots plan.shift
  match plan.reclaiming with
  | .nothing => pure ()
  | .unreachable => Collector.blocks
  | .allRetired => do
    let _ ← Collection.releaseDead (fun _ => false) (← get).heap.retired

def collectorOf (plan : Option CollectorPlan) (note : List Value → H → H) : Collector H :=
  match plan with
  | none => Collector.none
  | some plan => plan.collector note

end CollectorPlan

end VmSupport
