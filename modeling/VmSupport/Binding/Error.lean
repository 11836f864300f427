import VmSupport.Value.Text

namespace VmSupport

inductive BindError
  | wrongNumberOfArgs (nargs required positional : Nat)
  | unrecognizedKeyword (keyword : Value)
  | invalidKeyword (value : Value)
  | missingKeywordValue (keyword : Value)
  deriving DecidableEq

namespace BindError

def message (text : AddressText) : BindError → String
  | wrongNumberOfArgs nargs required positional =>
    s!"wrong number of arguments: got {nargs}, expected at least {required} "
      ++ s!"and at most {positional}"
  | unrecognizedKeyword keyword => s!"unrecognized keyword {keyword.description text}"
  | invalidKeyword value => s!"invalid keyword {value.description text}"
  | missingKeywordValue keyword =>
    s!"keyword argument {keyword.description text} is missing a value"

def description (text : AddressText) : BindError → String
  | wrongNumberOfArgs nargs required positional =>
    s!"WrongNumberOfArgs \x7b nargs: {nargs}, nreq: {required}, max: {positional} \x7d"
  | unrecognizedKeyword keyword =>
    s!"UnrecognizedKeyword \x7b keyword: {keyword.description text} \x7d"
  | invalidKeyword value => s!"InvalidKeyword \x7b value: {value.description text} \x7d"
  | missingKeywordValue keyword =>
    s!"MissingKeywordValue \x7b keyword: {keyword.description text} \x7d"

def value? : BindError → Option Value
  | wrongNumberOfArgs _ _ _ => none
  | unrecognizedKeyword v | invalidKeyword v | missingKeywordValue v => some v

end BindError

end VmSupport
