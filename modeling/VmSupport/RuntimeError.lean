import VmSupport.Binding.Error

namespace VmSupport

inductive RuntimeError
  | bind (e : BindError)
  | nonLocalExit (tag : Value)
  | notApplicable (procedure : Value)
  deriving DecidableEq

namespace RuntimeError

def message (text : AddressText) : RuntimeError → String
  | bind e => e.message text
  | nonLocalExit tag => s!"non-local exit to {tag.description text}"
  | notApplicable procedure => s!"wrong type to apply: {procedure.description text}"

def description (text : AddressText) : RuntimeError → String
  | bind e => s!"Bind({e.description text})"
  | nonLocalExit tag => s!"NonLocalExit \x7b tag: {tag.description text} \x7d"
  | notApplicable procedure =>
    s!"NotApplicable \x7b procedure: {procedure.description text} \x7d"

end RuntimeError

end VmSupport
