namespace VmSupport

inductive LogRecord
  | heapMapped (blocks size : Nat)
  | vmCreated (blocks : Nat)
  | contextCreated
  | contextDropped (allocated : Nat)
  | arenaSwitched (block : Nat)
  | collectionRequested (round retired : Nat)
  | collectorSkipped (arenas : Nat)
  | collectorFinished (released unmapped : Nat)
  | largeObject (size : Nat)
  | unwinding (depth target : Nat)
  deriving DecidableEq

namespace LogRecord

def level : LogRecord → String
  | largeObject _ | unwinding _ _ => "TRACE"
  | _ => "DEBUG"

def text : LogRecord → String
  | heapMapped blocks size => s!"heap mapped: {blocks} blocks of {size} bytes"
  | vmCreated blocks => s!"vm created: {blocks} heap blocks"
  | contextCreated => "execution context created for thread *"
  | contextDropped allocated =>
    s!"execution context dropped for thread * ({allocated} bytes allocated)"
  | arenaSwitched block => s!"arena switched to block {block}"
  | collectionRequested round retired =>
    s!"collection #{round} requested, {retired} retired blocks"
  | collectorSkipped arenas => s!"block collector skipped: {arenas} arenas share the heap"
  | collectorFinished released unmapped =>
    s!"block collector released {released} blocks, {unmapped} large objects"
  | largeObject size => s!"large object: {size} bytes at *"
  | unwinding depth target => s!"unwinding dynamic stack {depth} -> {target}"

def line (r : LogRecord) : String := s!"{r.level} {r.text}"

end LogRecord

end VmSupport
