import VmSupport.Machine

/-!
Fluids and the dynamic stack of the running context. Entries are undone in strict last-in first-out
order: undoing a fluid binding restores the value it replaced, undoing a wind frame runs its exit
action after the frame is gone, so an exit action that escapes never sees its own frame again.
-/

namespace VmSupport.Machine

variable {H α : Type}

def depth : Action H Nat := return (← get).context.depth

def fluidRef (fluid : FluidId) : Action H Value := do
  let m ← get
  match m.context.slots[fluid.index]? with
  | some (some v) => return v
  | _ => liftExcept (m.vm.fluids.default fluid)

def fluidSet (fluid : FluidId) (v : Value) : Action H Unit := do
  let m ← get
  if fluid.index < m.context.slots.size ∨ fluid.index < m.vm.fluids.size then
    modifyContext fun c => c.setSlot fluid.index v
  else fault (.unknownFluid fluid.index)

def pushWinder (w : Winder) : Action H Unit :=
  modifyContext fun c => { c with winders := c.winders.push w }

def popWinder : Action H Winder := fun m =>
  match m.context.winders.back? with
  | none => .error (.fault .dynamicStackUnderflow) m
  | some w => .ok w { m with context := { m.context with winders := m.context.winders.pop } }

def pushFluid (fluid : FluidId) (v : Value) : Action H Unit := do
  let previous ← fluidRef fluid
  pushWinder (.fluid fluid previous v)
  fluidSet fluid v

def pushWind (env : Embedder H) (entry exit : Value) : Action H Unit := do
  env.invoke entry
  pushWinder (.wind entry exit)

def pop (env : Embedder H) : Action H Unit := do
  match ← popWinder with
  | .fluid fluid previous _ => fluidSet fluid previous
  | .wind _ exit => env.invoke exit

def unwindFluid : Action H Unit := do
  match ← popWinder with
  | .fluid fluid previous _ => fluidSet fluid previous
  | .wind entry exit => fault (.unwindOverWind entry exit)

def popTo (env : Embedder H) (target : Nat) : (allowance : Nat) → Action H Unit
  | 0 => do
    if target < (← depth) then fault .allowanceSpent
  | n + 1 => do
    if target < (← depth) then
      pop env
      popTo env target n

/-- Undoes entries until the dynamic stack is `target` deep. Exit actions may push and pop entries
of their own; the first one that escapes ends the unwinding, with its frame gone and everything
below intact. -/
def unwindTo (env : Embedder H) (target : Nat) : Action H Unit := do
  let current ← depth
  if target ≤ current then
    note (.unwinding current target)
    popTo env target (current - target + env.allowance)
  else fault (.unwindAboveDepth target current)

def withFluid (env : Embedder H) (fluid : FluidId) (v : Value) (body : Action H α) :
    Action H α := do
  let start ← depth
  pushFluid fluid v
  let result ← attempt body
  unwindTo env start
  resume result

def dynamicWind (env : Embedder H) (entry : Value) (body : Action H α) (exit : Value) :
    Action H α := do
  let start ← depth
  pushWind env entry exit
  let result ← attempt body
  unwindTo env start
  resume result

end VmSupport.Machine
