import VmSupport.Binding.Arity
import VmSupport.Header
import VmSupport.Value.Text

/-!
Faults: uses of the library that break a rule its caller has to keep, and exhausted memory. A fault
ends the operation where it arises and leaves the state as it is at that point.
-/

namespace VmSupport

inductive Fault
  | fixnumOverflow (n : Int)
  | misalignedAddress
  | notAFixnum
  | notAReference
  | threadNotAReference
  | wrongType (found expected : ObjectType)
  | unknownType
  | indexOutOfBounds (length index : Nat)
  | dropped
  | invalidLayout
  | additionOverflow
  | multiplicationOverflow
  | capacityOverflow
  | heapNotMapped (size : Nat)
  | retiredBlockOutOfRange
  | blockOutOfRange (block : Nat)
  | releaseOfUnretired (block : Nat)
  | noBlockAfterCollection
  | largeObjectNotMapped (size : Nat)
  | freshBlockTooSmall (size : Nat)
  | tableOverrun (start count length : Nat)
  | tableOffsetOutOfRange (offset : Int) (ip : Nat)
  | tooManyParameters (required optional locals : Nat)
  | notAKeyword (v : Value)
  | keywordSlotOutOfRange (slot locals : Nat)
  | malformedArity (arity : Arity)
  | frameOverrun (nargs base length : Nat)
  | slotOutsideLocals
  | unknownFluid (id : Nat)
  | builtinOutOfRange (id count : Nat)
  | dynamicStackUnderflow
  | unwindAboveDepth (target depth : Nat)
  | unwindOverWind (entry exit : Value)
  | allowanceSpent
  deriving DecidableEq

namespace Fault

def message (text : AddressText) : Fault → String
  | fixnumOverflow n => s!"fixnum overflow: {n}"
  | misalignedAddress => "pointer not aligned"
  | notAFixnum => "assertion failed: self.is_fixnum()"
  | notAReference => "assertion failed: self.is_ref()"
  | threadNotAReference => "assertion failed: thread.is_ref()"
  | wrongType found expected =>
    s!"assertion `left == right` failed\n  left: {found.name}\n right: {expected.name}"
  | unknownType => "assertion failed: (raw as usize) < ObjectType::COUNT"
  | indexOutOfBounds length index =>
    s!"index out of bounds: the len is {length} but the index is {index}"
  | dropped => "called `Option::unwrap()` on a `None` value"
  | invalidLayout => "called `Result::unwrap()` on an `Err` value: LayoutError"
  | additionOverflow => "attempt to add with overflow"
  | multiplicationOverflow => "attempt to multiply with overflow"
  | capacityOverflow => "capacity overflow"
  | heapNotMapped size => s!"failed to map {size} bytes for the heap"
  | retiredBlockOutOfRange => "assertion failed: block < self.block_count"
  | blockOutOfRange block => s!"block {block} out of range"
  | releaseOfUnretired block => s!"release of block {block} that was never retired"
  | noBlockAfterCollection => "out of memory: no blocks available after collection"
  | largeObjectNotMapped size => s!"out of memory: large object of {size} bytes"
  | freshBlockTooSmall size => s!"out of memory: {size} bytes do not fit a fresh block"
  | tableOverrun start count length =>
    s!"keyword table at {start} with {count} entries overruns code of {length} words"
  | tableOffsetOutOfRange offset ip => s!"keyword table offset {offset} from {ip} out of range"
  | tooManyParameters required optional locals =>
    s!"{required} required and {optional} optional parameters exceed {locals} locals"
  | notAKeyword v => s!"{v.description text} is not a keyword"
  | keywordSlotOutOfRange slot locals => s!"keyword slot {slot} outside {locals} locals"
  | malformedArity arity => s!"malformed arity {arity.description}"
  | frameOverrun nargs base length =>
    s!"frame of {nargs} arguments at {base} overruns stack of {length}"
  | slotOutsideLocals => "assertion failed: (slot as usize) < ntotal"
  | unknownFluid id => s!"unknown fluid FluidId({id})"
  | builtinOutOfRange id count => s!"builtin id {id} out of range ({count} builtins)"
  | dynamicStackUnderflow => "dynamic stack underflow"
  | unwindAboveDepth target depth => s!"unwind to depth {target} above current depth {depth}"
  | unwindOverWind entry exit =>
    s!"unwind_fluid over a wind frame: Wind \x7b entry: {entry.description text}, "
      ++ s!"exit: {exit.description text} \x7d"
  | allowanceSpent => "the step allowance is spent"

end Fault

/-- How an operation ends that returns no result: by a fault, or by an error its caller handles. -/
inductive Exit (ε : Type)
  | fault (f : Fault)
  | error (e : ε)
  deriving DecidableEq

end VmSupport
