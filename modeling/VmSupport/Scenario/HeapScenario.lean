import VmSupport.Heap.Arena
import VmSupport.Scenario.CollectorPlan
import VmSupport.Value.Literal

namespace VmSupport

inductive Placement
  | inside (offset : Nat)
  | outside (index : Nat)
  deriving DecidableEq

inductive HeapOp
  | newArena
  | dropArena (arena : Nat)
  | allocate (arena : Nat) (layout : Layout) (times : Nat)
  | allocateOnBlock (arena : Nat) (layout : Layout)
  | exchange (arena : Nat)
  | collect (arena : Nat)
  | request
  | retire (block : Nat)
  | release (block : Nat)
  | bounds (block : Nat)
  | contains (offset : Int)
  | sweep (kept : List Nat)
  | setRoots (roots : List Literal)
  | describe
  | countBlocks

inductive HeapAnswer
  | nothing
  | flag (b : Bool)
  | count (n : Nat)
  | block (b : Option Nat)
  | offset (o : Option Nat)
  | range (start stop : Nat)
  | placed (p : Placement)
  | text (s : String)
  | invalidLayout
  deriving DecidableEq

structure HeapJournal where
  outside : Array Nat
  collections : List (List Value)

structure HeapScenario where
  heap : Heap
  arenas : Array (Option Arena)
  roots : List Value
  journal : HeapJournal

namespace HeapScenario

abbrev Action := EStateM Fault HeapScenario

def create (settings : HeapSettings) (roots : List Literal) :
    Except (Exit SettingsError) HeapScenario := do
  let heap ← Heap.create settings
  let roots ← (roots.mapM Literal.eval).mapError .fault
  return ⟨heap, #[], roots, ⟨#[], []⟩⟩

def noteRoots (roots : List Value) (j : HeapJournal) : HeapJournal :=
  { j with collections := roots :: j.collections }

def onHeap {α : Type} (op : Heap.Action α) : Action α := fun ⟨heap, arenas, roots, journal⟩ =>
  match op heap with
  | .ok a heap => .ok a ⟨heap, arenas, roots, journal⟩
  | .error f heap => .error f ⟨heap, arenas, roots, journal⟩

def onArena {α : Type} (i : Nat) (op : Mutator.Action (List Value) HeapJournal α) : Action α :=
  fun ⟨heap, arenas, roots, journal⟩ =>
    match arenas[i]? with
    | none => .error (.indexOutOfBounds arenas.size i) ⟨heap, arenas, roots, journal⟩
    | some none => .error .dropped ⟨heap, arenas, roots, journal⟩
    | some (some arena) =>
      match op ⟨heap, arena, roots, journal⟩ with
      | .ok a ⟨heap, arena, roots, journal⟩ =>
        .ok a ⟨heap, arenas.setIfInBounds i (some arena), roots, journal⟩
      | .error f ⟨heap, arena, roots, journal⟩ =>
        .error f ⟨heap, arenas.setIfInBounds i (some arena), roots, journal⟩

def place (address : Nat) : Action Placement := do
  let s ← get
  if s.heap.contains address then return .inside (address - s.heap.start)
  else
    let index := s.journal.outside.size
    set { s with journal := { s.journal with outside := s.journal.outside.push address } }
    return .outside index

def allocateTimes (collector : Collector HeapJournal) (i : Nat) (l : Layout) :
    Nat → Option Placement → Action (Option Placement)
  | 0, last => return last
  | n + 1, _ => do
    let address ← onArena i (Mutator.allocate collector l)
    allocateTimes collector i l n (some (← place address))

def run (collector : Collector HeapJournal) : HeapOp → Action HeapAnswer
  | .newArena => do
    let s ← get
    set { s with heap := s.heap.openArena, arenas := s.arenas.push (some .new) }
    return .count s.arenas.size
  | .dropArena i => do
    let s ← get
    match s.arenas[i]? with
    | none => throw (.indexOutOfBounds s.arenas.size i)
    | some none => return .flag false
    | some (some arena) =>
      set { s with heap := s.heap.closeArena arena, arenas := s.arenas.setIfInBounds i none }
      return .flag true
  | .allocate i l times => do
    if l.IsValid then
      onArena i (pure ())
      match ← allocateTimes collector i l times none with
      | none => return .nothing
      | some p => return .placed p
    else return .invalidLayout
  | .allocateOnBlock i l => do
    if l.IsValid then
      let start := (← get).heap.start
      let address ← onArena i (Mutator.allocateOnBlock l)
      return .offset (address.map (· - start))
    else throw .invalidLayout
  | .exchange i => do
    onArena i (Mutator.exchangeBlock collector)
    return .nothing
  | .collect i => do
    onArena i (Mutator.collect collector)
    return .nothing
  | .request => return .block (← onHeap Heap.requestBlock)
  | .retire b => do
    onHeap (Heap.retireBlock b)
    return .nothing
  | .release b => do
    onHeap (Heap.releaseBlock b)
    return .nothing
  | .bounds b => do
    let (start, stop) ← onHeap (Heap.blockBounds b)
    let base := (← get).heap.start
    return .range (start - base) (stop - base)
  | .contains offset => do
    let h := (← get).heap
    return .flag (h.contains ((h.start + offset) % (1 <<< 64)).toNat)
  | .sweep kept => do
    let outside := (← get).journal.outside
    let keptAddresses := kept.filterMap fun i => outside[i]?
    return .count (← onHeap (Heap.sweepLarge keptAddresses.contains))
  | .setRoots roots => do
    match roots.mapM Literal.eval with
    | .ok roots =>
      modify fun s => { s with roots }
      return .nothing
    | .error f => throw f
  | .describe => return .text (← get).heap.description
  | .countBlocks => return .count (← get).heap.blockCount

structure Step where
  result : Except Fault HeapAnswer
  collections : List (List Value)
  log : List LogRecord

def finish (result : Except Fault HeapAnswer) (s : HeapScenario) : Step × HeapScenario :=
  (⟨result, s.journal.collections.reverse, s.heap.log.reverse⟩,
    { s with
      heap := { s.heap with log := [] }
      journal := { s.journal with collections := [] } })

def step (plan : Option CollectorPlan) (op : HeapOp) (s : HeapScenario) : Step × HeapScenario :=
  match run (CollectorPlan.collectorOf plan noteRoots) op s with
  | .ok a s => finish (.ok a) s
  | .error f s => finish (.error f) s

end HeapScenario

end VmSupport
