import VmSupport.Machine.Allocation
import VmSupport.Machine.Binding
import VmSupport.Scenario.CollectorPlan
import VmSupport.Scenario.Inspect
import VmSupport.Scenario.Operand

namespace VmSupport

inductive Destination
  | push
  | slot (i : Nat)
  | drop
  deriving DecidableEq

inductive ScriptOp
  | cell (type : ObjectType) (car cdr : Operand) (dest : Destination)
  | flonum (bits : UInt64) (dest : Destination)
  | words (type : ObjectType) (n : UInt32) (dest : Destination)
  | string (s : String) (times : Nat) (dest : Destination)
  | stringLength (v : Operand)
  | inspect (v : Operand) (depth : Nat)
  | list (v : Operand) (limit : Nat)
  | set (object : Operand) (i : Nat) (v : Operand)
  | trace (object : Operand)
  | collect
  | exchange
  | push (vs : List Operand)
  | store (i : Nat) (v : Operand)
  | truncate (n : Nat)
  | stack
  | bindEncoded (base offset nargs : Nat) (code : List UInt32) (ip : Nat) (tableOffset : Int)
    (arity : Arity)
  | makeFluid (v : Operand)
  | fluidRef (fluid : FluidId)
  | fluidDefault (fluid : FluidId)
  | fluidSet (fluid : FluidId) (v : Operand)
  | pushFluid (fluid : FluidId) (v : Operand)
  | unwindFluid
  | pop
  | pushWind (entry exit : Operand)
  | unwindTo (depth : Nat)
  | withFluid (fluid : FluidId) (v : Operand) (body : List ScriptOp)
  | dynamicWind (entry exit : Operand) (body : List ScriptOp)
  | dynamicStack
  | invoke (v : Operand)
  | escape (v : Operand)
  | intern (name : String)
  | keywordLookup (name : String)
  | keywordName (v : Operand)
  | value (v : Operand)
  | builtins
  | thread
  | threadData (v : Operand)
  | spawn (body : List ScriptOp)
  | repeated (n : Nat) (body : List ScriptOp)
  | stats
  | describe
  deriving Inhabited

structure ContextView where
  depth : Nat
  stackSize : Nat
  start : Nat
  arena : Arena

def Context.view (c : Context) (vm : Vm) : ContextView :=
  ⟨c.depth, c.stack.size, vm.heap.start, c.arena⟩

structure HeapView where
  free : Nat
  retired : List Nat
  large : Nat
  arenas : Nat
  stats : HeapStats

def Heap.view (h : Heap) : HeapView :=
  ⟨h.free.length, h.retired, h.large.length, h.arenas, h.stats⟩

inductive Answer
  | nothing
  | flag (b : Bool)
  | count (n : Nat)
  | value (v : Value)
  | optionalValue (v : Option Value)
  | optionalText (s : Option String)
  | values (vs : List Value)
  | shown (s : Shown)
  | listed (cars : List Value) (rest : Value)
  | bound (frame : BoundFrame)
  | dynamicStack (isEmpty : Bool) (vs : List Value)
  | thread (v : Value) (resolves : Bool) (header : String)
  | notAReference
  | stats (view : HeapView)
  | described (text : String) (noFluids : Bool) (stackSize : Nat)
  | spawned (result : Except RuntimeError Answer) (context : ContextView)
  | spawnBroken (f : Fault)

inductive Event
  | call (id : Int)
  | collection (roots : List Value)
  | result (r : Except RuntimeError Answer)

structure Journal where
  events : List Event
  outside : Array Nat
  index : Nat
  deriving Inhabited

namespace Journal

def empty : Journal := ⟨[], #[], 0⟩

def note (e : Event) (j : Journal) : Journal := { j with events := e :: j.events }

end Journal

structure ScriptSetup where
  collector : Option CollectorPlan
  procedures : Option (List (Int × List ScriptOp))

namespace Script

abbrev Action := Machine.Action Journal

open Machine

def noteEvent (e : Event) : Action Unit := modify fun m => { m with host := m.host.note e }

def operand (o : Operand) : Action Value := do
  let index := (← get).host.index
  eval index o

def deliver (v : Value) : Destination → Action Answer := fun dest => do
  let h := (← get).vm.heap
  if !h.contains v.address then
    modify fun m => { m with host := { m.host with outside := m.host.outside.push v.address } }
  match dest with
  | .push => push v
  | .slot i => modifyContext fun c => { c with stack := c.stack.setIfInBounds i v }
  | .drop => pure ()
  return .value v

def pushAll : List Operand → Action Unit
  | [] => pure ()
  | o :: os => do
    let v ← operand o
    push v
    pushAll os

def runNoted (run : ScriptOp → Action Answer) : List ScriptOp → Answer → Action Answer
  | [], last => return last
  | op :: ops, _ => do
    let r ← attempt (run op)
    noteEvent (.result r)
    let a ← resume r
    runNoted run ops a

def runPlain (run : ScriptOp → Action Answer) : List ScriptOp → Answer → Action Answer
  | [], last => return last
  | op :: ops, _ => do
    let a ← run op
    runPlain run ops a

def repeatText (s : String) (times : Nat) : Except Fault String :=
  if s.isEmpty then .ok s
  else if s.utf8ByteSize * times < 1 <<< 63 then .ok (String.join (List.replicate times s))
  else .error .capacityOverflow

def setIndex (i : Nat) : Action Unit :=
  modify fun m => { m with host := { m.host with index := i } }

def atIndex {α : Type} (i : Nat) (body : Action α) : Action α := do
  let outer := (← get).host.index
  setIndex i
  let r ← attempt body
  setIndex outer
  resume r

def runRepeated (run : ScriptOp → Action Answer) (ops : List ScriptOp) :
    (n i : Nat) → Answer → Action Answer
  | 0, _, last => return last
  | n + 1, i, last => do
    let a ← atIndex i (runPlain run ops last)
    runRepeated run ops n (i + 1) a

def spawn (body : Action Answer) : Action Answer := fun ⟨vm, outer, host⟩ =>
  match vm.openContext with
  | .error f => .ok (.spawnBroken f) ⟨vm, outer, host⟩
  | .ok (fresh, vm) =>
    match body ⟨vm, fresh, host⟩ with
    | .ok a ⟨vm, inner, host⟩ =>
      .ok (.spawned (.ok a) (inner.view vm)) ⟨vm.closeContext inner, outer, host⟩
    | .error (.error e) ⟨vm, inner, host⟩ =>
      .ok (.spawned (.error e) (inner.view vm)) ⟨vm.closeContext inner, outer, host⟩
    | .error (.fault f) ⟨vm, inner, host⟩ =>
      .ok (.spawnBroken f) ⟨vm.closeContext inner, outer, host⟩

def applyProcedure (procedures : Option (List (Int × List ScriptOp)))
    (run : ScriptOp → Action Answer) (procedure : Value) : Action Unit :=
  match procedures, procedure.integer? with
  | some procedures, some id => do
    noteEvent (.call id)
    let _ ← runNoted run ((procedures.lookup id).getD []) .nothing
  | _, _ => escape (.notApplicable procedure)

def unwindAllowance : Nat := 1000000000

def embedder (setup : ScriptSetup) (run : ScriptOp → Action Answer) : Embedder Journal where
  collector :=
    CollectorPlan.collectorOf setup.collector fun roots => Journal.note (.collection roots)
  invoke := applyProcedure setup.procedures run
  allowance := unwindAllowance

def runWith (env : Embedder Journal) (run : ScriptOp → Action Answer) :
    ScriptOp → Action Answer
  | .cell type car cdr dest => do
    let car ← operand car
    let cdr ← operand cdr
    deliver (← allocateCell env type car cdr) dest
  | .flonum bits dest => do deliver (← allocateFlonum env bits) dest
  | .words type n dest => do deliver (← allocateWords env type n) dest
  | .string s times dest => do
    let s ← liftExcept (repeatText s times)
    deliver (← allocateString env s) dest
  | .stringLength v => do
    let v ← operand v
    return .count (← liftExcept ((← get).vm.stringLength v))
  | .inspect v depth => do
    let v ← operand v
    return .shown (← liftExcept ((← get).vm.inspect depth v))
  | .list v limit => do
    let v ← operand v
    let (cars, rest) ← liftExcept ((← get).vm.listFrom limit v)
    return .listed cars rest
  | .set object i v => do
    let object ← operand object
    if object.isReference then
      let v ← operand v
      let slot ← liftExcept ((← get).vm.payloadSlot object i)
      writeWords slot [v.raw]
      return .nothing
    else return .notAReference
  | .trace object => do
    let object ← operand object
    if object.isReference then
      match (← get).vm.heap.memory.edges? object.address with
      | some vs => return .values vs
      | none => fault .unknownType
    else return .notAReference
  | .collect => do
    Machine.collect env
    return .nothing
  | .exchange => do
    onArena (Mutator.exchangeBlock env.collector)
    return .nothing
  | .push vs => do
    pushAll vs
    return .count (← get).context.stack.size
  | .store i v => do
    let v ← operand v
    modifyContext fun c => { c with stack := c.stack.setIfInBounds i v }
    return .nothing
  | .truncate n => do
    modifyContext fun c => { c with stack := c.stack.take n }
    return .nothing
  | .stack => return .values (← get).context.stack.toList
  | .bindEncoded base offset nargs code ip tableOffset arity => do
    return .bound (← Machine.bindEncoded base offset nargs code ip tableOffset arity)
  | .makeFluid v => do
    let v ← operand v
    return .count (← Machine.makeFluid v).index
  | .fluidRef fluid => return .value (← Machine.fluidRef fluid)
  | .fluidDefault fluid => return .value (← liftExcept ((← get).vm.fluids.default fluid))
  | .fluidSet fluid v => do
    Machine.fluidSet fluid (← operand v)
    return .nothing
  | .pushFluid fluid v => do
    Machine.pushFluid fluid (← operand v)
    return .nothing
  | .unwindFluid => do
    Machine.unwindFluid
    return .nothing
  | .pop => do
    Machine.pop env
    return .nothing
  | .pushWind entry exit => do
    let entry ← operand entry
    let exit ← operand exit
    Machine.pushWind env entry exit
    return .nothing
  | .unwindTo target => do
    Machine.unwindTo env target
    return .nothing
  | .withFluid fluid v body => do
    let v ← operand v
    Machine.withFluid env fluid v (runNoted run body .nothing)
  | .dynamicWind entry exit body => do
    let entry ← operand entry
    let exit ← operand exit
    Machine.dynamicWind env entry (runNoted run body .nothing) exit
  | .dynamicStack => do
    let c := (← get).context
    return .dynamicStack c.winders.isEmpty (c.winders.toList.flatMap Winder.values)
  | .invoke v => do
    env.invoke (← operand v)
    return .nothing
  | .escape v => do escape (.nonLocalExit (← operand v))
  | .intern name => return .value (← Machine.intern name)
  | .keywordLookup name => return .optionalValue ((← get).vm.keywords.lookup? name)
  | .keywordName v => do
    let v ← operand v
    return .optionalText ((← get).vm.keywords.name? v)
  | .value v => return .value (← operand v)
  | .builtins => return .count Builtin.table.length
  | .thread => do
    let v ← Machine.thread
    let m ← get
    let data ← liftExcept (m.vm.threadData v)
    let header := (m.vm.heap.memory.header v.address).description?
    return .thread v (data == some m.context.number) (header.getD "")
  | .threadData v => do
    let v ← operand v
    return .flag (← liftExcept ((← get).vm.threadData v)).isSome
  | .spawn body => spawn (runNoted run body .nothing)
  | .repeated n body => runRepeated run body n 0 .nothing
  | .stats => return .stats (← get).vm.heap.view
  | .describe => do
    let vm := (← get).vm
    return .described vm.description (vm.fluids.size == 0) vm.stackSize

def run (setup : ScriptSetup) : (allowance : Nat) → ScriptOp → Action Answer
  | 0, _ => fault .allowanceSpent
  | n + 1, op => runWith (embedder setup (run setup n)) (run setup n) op

end Script

end VmSupport
