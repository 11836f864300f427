import VmSupport.Binding.Frame

namespace VmSupport

structure CallDescriptor where
  required : UInt32
  optional : UInt32
  locals : UInt32
  flags : BindFlags
  tableOffset : Int
  keywords : KeywordTable
  deriving DecidableEq

namespace CallDescriptor

def new (required optional locals : UInt32) (flags : BindFlags) : Except Fault CallDescriptor :=
  if 1 <<< 32 ≤ required.toNat + optional.toNat then .error .additionOverflow
  else if required.toNat + optional.toNat ≤ locals.toNat then
    .ok ⟨required, optional, locals, flags, 0, .empty⟩
  else .error (.tooManyParameters required.toNat optional.toNat locals.toNat)

def withKeyword (d : CallDescriptor) (keyword : Value) (slot : UInt32) :
    Except Fault CallDescriptor :=
  match keyword.keywordId? with
  | none => .error (.notAKeyword keyword)
  | some id =>
    if slot < d.locals then .ok { d with keywords := ⟨d.keywords.entries ++ [(id, slot)]⟩ }
    else .error (.keywordSlotOutOfRange slot.toNat d.locals.toNat)

def withTableOffset (d : CallDescriptor) (offset : Int) : CallDescriptor :=
  { d with tableOffset := offset }

def arity (d : CallDescriptor) : Arity :=
  ⟨d.required, d.required + d.optional, d.locals, d.flags⟩

def bind (d : CallDescriptor) (base nargs : Nat) : EStateM (Exit BindError) (List Value) Nat :=
  Frame.bind base nargs d.arity d.keywords

def description (d : CallDescriptor) : String :=
  let keywords := ", ".intercalate (d.keywords.words.map fun w => toString w.toNat)
  s!"CallDescriptor \x7b nreq: {d.required.toNat}, nopt: {d.optional.toNat}, "
    ++ s!"ntotal: {d.locals.toNat}, flags: {d.flags.description}, kw_offset: {d.tableOffset}, "
    ++ s!"keywords: [{keywords}] \x7d"

end CallDescriptor

end VmSupport
