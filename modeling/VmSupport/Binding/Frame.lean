import VmSupport.Binding.Error
import VmSupport.Keyword.Table

/-!
Binding the arguments of a call. The arguments lie on the value stack: required and optional ones
first, then the keyword region. Binding turns them into the locals of the callee, followed by the
keyword region as it was passed. The whole region is checked before anything is stored.
-/

namespace VmSupport

inductive RegionItem
  | pair (key value : Value)
  | lone (key : Value)
  | plain (value : Value)
  deriving DecidableEq

namespace RegionItem

def parse : List Value → List RegionItem
  | [] => []
  | [v] => if v.isKeyword then [.lone v] else [.plain v]
  | v :: w :: rest =>
    if v.isKeyword then .pair v w :: parse rest else .plain v :: parse (w :: rest)

end RegionItem

namespace Frame

def positionalCount (arity : Arity) (args : List Value) : Nat :=
  let limit := arity.positional.toNat - arity.required.toNat
  let optional := (args.drop arity.required.toNat).take limit
  arity.required.toNat + (optional.takeWhile fun v => !v.isKeyword).length

def itemError? (flags : BindFlags) (table : KeywordTable) (extra : Option BindError) :
    RegionItem → Option BindError
  | .pair key _ =>
    if (table.lookup? key).isSome || flags.contains .allowOtherKeys then none
    else some (.unrecognizedKeyword key)
  | .lone key =>
    if (table.lookup? key).isSome then some (.missingKeywordValue key)
    else if flags.contains .allowOtherKeys then none
    else some (.unrecognizedKeyword key)
  | .plain v => if flags.contains .hasRest then none else some (extra.getD (.invalidKeyword v))

def regionError? (flags : BindFlags) (table : KeywordTable) (extra : BindError) :
    List RegionItem → Option BindError
  | [] => none
  | item :: items =>
    (itemError? flags table (some extra) item).or (items.findSome? (itemError? flags table none))

def store (table : KeywordTable) : List RegionItem → EStateM Fault (List Value) Unit
  | [] => pure ()
  | .pair key value :: items => do
    match table.lookup? key with
    | none => store table items
    | some slot =>
      if slot.toNat < (← get).length then
        modify fun locals => locals.set slot.toNat value
        store table items
      else throw .slotOutsideLocals
  | _ :: items => store table items

def splice (stack : List Value) (base : Nat) (values : List Value) : List Value :=
  stack.take base ++ values ++ stack.drop (base + values.length)

def bind (base nargs : Nat) (arity : Arity) (table : KeywordTable) :
    EStateM (Exit BindError) (List Value) Nat := fun stack =>
  if ¬ arity.IsWellFormed then .error (.fault (.malformedArity arity)) stack
  else if 1 <<< 64 ≤ base + nargs then .error (.fault .additionOverflow) stack
  else if stack.length < base + nargs then
    .error (.fault (.frameOverrun nargs base stack.length)) stack
  else
    let wrongNumber := BindError.wrongNumberOfArgs nargs arity.required.toNat arity.positional.toNat
    if nargs < arity.required.toNat then .error (.error wrongNumber) stack
    else
      let args := (stack.drop base).take nargs
      let count := positionalCount arity args
      let region := args.drop count
      let items := RegionItem.parse region
      match regionError? arity.flags table wrongNumber items with
      | some e => .error (.error e) stack
      | none =>
        let locals := args.take count
          ++ List.replicate (arity.locals.toNat - count) Value.unspecified
        match store table items locals with
        | .ok () locals =>
          .ok (arity.locals.toNat + region.length) (splice stack base (locals ++ region))
        | .error f locals => .error (.fault f) (splice stack base (locals ++ region))

end Frame

end VmSupport
