import VmSupport.Machine

/-!
Allocation of objects. An object is written as soon as its memory is set aside, so it is complete
before anything else can run. The values it holds are those of the root slots after the allocation,
which a collection may have changed.
-/

namespace VmSupport.Machine

variable {H : Type}

def allocateObject (env : Embedder H) (size : Nat) (pending : List Value)
    (image : List Value → List UInt64) : Action H Value := do
  let (address, pending) ← onMutator pending (Mutator.allocate env.collector (.ofWords size))
  writeWords address (image pending)
  return Value.reference address

def allocateCell (env : Embedder H) (type : ObjectType) (car cdr : Value) : Action H Value :=
  allocateObject env ObjectImage.cellSize [car, cdr] (ObjectImage.fields (.new type))

def cons (env : Embedder H) (car cdr : Value) : Action H Value := allocateCell env .pair car cdr

def allocateFlonum (env : Embedder H) (bits : UInt64) : Action H Value :=
  allocateObject env ObjectImage.flonumSize [] fun _ => ObjectImage.flonum bits

def allocateWords (env : Embedder H) (type : ObjectType) (n : UInt32) : Action H Value :=
  allocateObject env (ObjectImage.wordsSize n) [] fun _ => ObjectImage.words type n

def allocateString (env : Embedder H) (s : String) : Action H Value :=
  allocateObject env (ObjectImage.stringSize s.utf8ByteSize) [] fun _ => ObjectImage.string s

def collect (env : Embedder H) : Action H Unit := do
  let _ ← onMutator [] (Mutator.collect env.collector)

end VmSupport.Machine
