import VmSupport.Scenario.Script

namespace VmSupport

structure Session where
  vm : Vm
  contexts : Array (Option Context)
  journal : Journal

inductive SessionOp
  | newContext
  | dropContext (context : Nat)
  | send (context other : Nat) (v : Operand)
  | run (context : Nat) (op : ScriptOp)

namespace Session

def nestingAllowance : Nat := 1000000000

abbrev Action := EStateM (Exit RuntimeError) Session

def openContext (s : Session) : Except Fault Session := do
  let (c, vm) ← s.vm.openContext
  return { s with vm, contexts := s.contexts.push (some c) }

def openContexts : Nat → Session → Except Fault Session
  | 0, s => .ok s
  | n + 1, s => do openContexts n (← s.openContext)

def create (settings : HeapSettings) (stackSize contexts : Nat) :
    Except (Exit SettingsError) Session := do
  let vm ← Vm.create settings stackSize
  (openContexts contexts ⟨vm, #[], .empty⟩).mapError .fault

def nameOf (s : Session) (v : Value) : String :=
  if v.isReference then
    let a := v.address
    if s.vm.heap.contains a then s!"@{a - s.vm.heap.start}"
    else match s.journal.outside.idxOf? a, s.vm.threads.idxOf? a, Builtin.at? a with
      | some i, _, _ => s!"@L{i}"
      | none, some i, _ => s!"@T{i}"
      | none, none, some i => s!"@B{i}"
      | none, none, none => v.literal
  else v.literal

def onContext {α : Type} (i : Nat) (body : Script.Action α) : Action α :=
  fun ⟨vm, contexts, journal⟩ =>
    match contexts[i]? with
    | none => .error (.fault (.indexOutOfBounds contexts.size i)) ⟨vm, contexts, journal⟩
    | some none => .error (.fault .dropped) ⟨vm, contexts, journal⟩
    | some (some c) =>
      match body ⟨vm, c, journal⟩ with
      | .ok a ⟨vm, c, journal⟩ => .ok a ⟨vm, contexts.setIfInBounds i (some c), journal⟩
      | .error e ⟨vm, c, journal⟩ => .error e ⟨vm, contexts.setIfInBounds i (some c), journal⟩

def run (setup : ScriptSetup) : SessionOp → Action Answer
  | .newContext => fun s =>
    match s.openContext with
    | .ok opened => .ok (.count s.contexts.size) opened
    | .error f => .error (.fault f) s
  | .dropContext i => do
    let s ← get
    match s.contexts[i]? with
    | none => throw (.fault (.indexOutOfBounds s.contexts.size i))
    | some none => throw (.fault .dropped)
    | some (some c) =>
      set { s with vm := s.vm.closeContext c, contexts := s.contexts.setIfInBounds i none }
      return .nothing
  | .send i other v => do
    let v ← onContext i (Script.operand v)
    onContext other (Machine.push v)
    return .nothing
  | .run i op => onContext i (Script.run setup nestingAllowance op)

def contextView (s : Session) (i : Nat) : Option ContextView :=
  s.contexts[i]?.join.map fun c => c.view s.vm

structure Step where
  result : Except (Exit RuntimeError) Answer
  events : List Event
  log : List LogRecord

def finish (result : Except (Exit RuntimeError) Answer) (s : Session) : Step × Session :=
  (⟨result, s.journal.events.reverse, s.vm.heap.log.reverse⟩,
    { s with
      vm := { s.vm with heap := { s.vm.heap with log := [] } }
      journal := { s.journal with events := [] } })

def step (setup : ScriptSetup) (op : SessionOp) (s : Session) : Step × Session :=
  match run setup op s with
  | .ok a s => finish (.ok a) s
  | .error e s => finish (.error e) s

end Session

end VmSupport
