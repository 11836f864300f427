import VmSupport.Fault

namespace VmSupport

structure FluidId where
  index : Nat
  deriving DecidableEq, Inhabited

structure FluidRegistry where
  defaults : Array Value
  deriving DecidableEq, Inhabited

namespace FluidRegistry

def empty : FluidRegistry := ⟨#[]⟩

def size (r : FluidRegistry) : Nat := r.defaults.size

def make (r : FluidRegistry) (default : Value) : FluidId × FluidRegistry :=
  (⟨r.size⟩, ⟨r.defaults.push default⟩)

def default (r : FluidRegistry) (fluid : FluidId) : Except Fault Value :=
  match r.defaults[fluid.index]? with
  | some v => .ok v
  | none => .error (.unknownFluid fluid.index)

def description (r : FluidRegistry) : String :=
  let shown := ", ".intercalate (r.defaults.toList.map fun v => v.description .hex)
  s!"FluidRegistry \x7b defaults: RwLock \x7b data: [{shown}] \x7d \x7d"

end FluidRegistry

end VmSupport
