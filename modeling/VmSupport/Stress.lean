import VmSupport.Stress.Options
import VmSupport.Stress.Workload

namespace VmSupport.Stress

structure Report where
  code : UInt32
  output : List String
  errors : List String
  deriving DecidableEq

def line (label : String) (n : Nat) : String :=
  let shown := label ++ ":"
  shown ++ String.ofList (List.replicate (20 - shown.length) ' ') ++ toString n

inductive Failure
  | brokeOff (thread : Nat)
  | failed (thread : Nat) (e : RuntimeError)
  deriving DecidableEq

namespace Failure

def message : Failure → String
  | brokeOff thread => s!"thread {thread} panicked"
  | failed thread e => s!"thread {thread} failed: {e.message .hex}"

end Failure

def runThreads (body : Action Summary) :
    (remaining thread : Nat) → Vm → Calls → Summary → Except Failure (Vm × Calls × Summary)
  | 0, _, vm, calls, total => .ok (vm, calls, total)
  | n + 1, thread, vm, calls, total =>
    match vm.openContext with
    | .error _ => .error (.brokeOff thread)
    | .ok (c, vm) =>
      match body ⟨vm, c, calls⟩ with
      | .ok done ⟨vm, c, calls⟩ =>
        runThreads body n (thread + 1) (vm.closeContext c) calls (total.add done)
      | .error (.error e) _ => .error (.failed thread e)
      | .error (.fault _) _ => .error (.brokeOff thread)

def success (o : Options) (vm : Vm) (calls : Calls) (total : Summary) : Report where
  code := 0
  output := [
    line "threads" o.threads,
    line "conses" total.conses,
    line "dynamic bindings" total.bindings,
    line "keyword binds" total.binds,
    line "string characters" total.characters,
    line "procedure calls" calls,
    line "blocks handed out" vm.heap.stats.handedOut,
    line "collections" vm.heap.stats.collections]
  errors := []

def abortCode : UInt32 := 101

def run (o : Options) : Report :=
  let heapSize := o.heapSize * 1024 * 1024
  let blockSize := o.blockSize * 1024
  if 1 <<< 64 ≤ heapSize ∨ 1 <<< 64 ≤ blockSize then ⟨abortCode, [], []⟩
  else match Vm.create { heapSize, blockSize } 1024 with
    | .error (.fault _) => ⟨abortCode, [], []⟩
    | .error (.error e) => ⟨1, [], [s!"Invalid heap settings: {e.message}"]⟩
    | .ok vm =>
      match runThreads (work (embedder (o.threads == 1)) o.iterations o.depth)
          o.threads 0 vm 0 {} with
      | .error f => ⟨1, [], [f.message]⟩
      | .ok (vm, calls, total) => success o vm calls total

def runWords (words : List String) : Report :=
  match Options.ofWords? words with
  | none => ⟨2, [], []⟩
  | some o => run o

end VmSupport.Stress
