import VmSupport.Fault

namespace VmSupport

structure BuiltinDesc where
  name : String
  required : Nat
  optional : Nat
  rest : Bool
  deriving DecidableEq

namespace BuiltinDesc

def description (d : BuiltinDesc) : String :=
  s!"BuiltinDesc \x7b name: \"{d.name}\", nreq: {d.required}, nopt: {d.optional}, "
    ++ s!"rest: {d.rest} \x7d"

end BuiltinDesc

namespace Builtin

def table : List BuiltinDesc :=
  [⟨"apply", 2, 0, true⟩,
   ⟨"values", 0, 0, true⟩,
   ⟨"abort-to-prompt", 1, 0, true⟩,
   ⟨"call-with-values", 2, 0, false⟩,
   ⟨"call-with-current-continuation", 1, 0, false⟩]

def header : Header := Header.pinned .builtin

def address (id : Nat) : Nat := 0x550000001000 + 64 * id

def index? (name : String) : Option Nat := table.findIdx? fun d => d.name == name

def reference (id : Nat) : Except Fault Value :=
  if id < table.length then .ok (Value.reference (address id))
  else .error (.builtinOutOfRange id table.length)

def at? (a : Nat) : Option Nat := (List.range table.length).find? fun id => address id == a

end Builtin

end VmSupport
