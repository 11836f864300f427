import VmSupport.Text.Hex

namespace VmSupport

structure BindFlags where
  bits : UInt8
  deriving DecidableEq, Inhabited

namespace BindFlags

def none : BindFlags := ⟨0⟩

def allowOtherKeys : BindFlags := ⟨1⟩

def hasRest : BindFlags := ⟨2⟩

def contains (flags flag : BindFlags) : Bool := flags.bits &&& flag.bits == flag.bits

def description (flags : BindFlags) : String :=
  let named := [(allowOtherKeys, "ALLOW_OTHER_KEYS"), (hasRest, "HAS_REST")].filterMap
    fun (flag, name) => if flags.contains flag then some name else Option.none
  let others := flags.bits &&& 252
  let parts := if others == 0 then named else named ++ ["0x" ++ Hex.digits others.toNat]
  let shown := if parts.isEmpty then "0x0" else " | ".intercalate parts
  s!"BindFlags({shown})"

end BindFlags

structure Arity where
  required : UInt32
  positional : UInt32
  locals : UInt32
  flags : BindFlags
  deriving DecidableEq, Inhabited

namespace Arity

def IsWellFormed (a : Arity) : Prop := a.required ≤ a.positional ∧ a.positional ≤ a.locals

instance (a : Arity) : Decidable a.IsWellFormed := by
  unfold IsWellFormed
  infer_instance

def description (a : Arity) : String :=
  s!"Arity \x7b nreq: {a.required.toNat}, nreq_and_opt: {a.positional.toNat}, "
    ++ s!"ntotal: {a.locals.toNat}, flags: {a.flags.description} \x7d"

end Arity

end VmSupport
