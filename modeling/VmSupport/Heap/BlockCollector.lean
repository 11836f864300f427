import Std.Data.HashSet
import VmSupport.Heap.Collector
import VmSupport.Heap.Marking

/-!
A collector that moves nothing. It marks what the roots reach, releases every retired block without
a marked object in it and unmaps every large object that is not marked. It sees the roots of one
mutator only, so it does nothing while several arenas share the heap.
-/

namespace VmSupport

namespace Collection

variable {H : Type}

def markRoots : Action H (List Nat) := do
  let roots := (← get).roots
  onHeap (Heap.onMemory fun m => mark m [] roots.reverse)

def clearMarks (traced : List Nat) : Action H Unit :=
  onHeap (Heap.onMemory fun m => .ok () (traced.foldl Memory.clearMark m))

def releaseDead (isLive : Nat → Bool) : List Nat → Action H Nat
  | [] => return 0
  | b :: bs => do
    if isLive b then releaseDead isLive bs
    else
      onHeap (Heap.releaseBlock b)
      let n ← releaseDead isLive bs
      return n + 1

def reclaim : Action H Unit := do
  let traced ← markRoots
  clearMarks traced
  let h := (← get).heap
  let liveBlocks := Std.HashSet.ofList ((traced.filter h.contains).map h.blockOf)
  let liveLarge := Std.HashSet.ofList (traced.filter fun a => !h.contains a)
  let released ← releaseDead liveBlocks.contains h.retired
  let unmapped ← onHeap (Heap.sweepLarge liveLarge.contains)
  note (.collectorFinished released unmapped)

def reclaimUnlessShared : Action H Unit := do
  let arenas := (← get).heap.arenas
  if 1 < arenas then note (.collectorSkipped arenas) else reclaim

end Collection

def Collector.blocks {H : Type} : Collector H := Collection.reclaimUnlessShared

end VmSupport
