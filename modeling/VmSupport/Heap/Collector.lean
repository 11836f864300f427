import VmSupport.Heap

namespace VmSupport

class RootSet (R : Type) where
  toList : R → List Value
  refill : R → List Value → R

structure Collection (H : Type) where
  heap : Heap
  roots : List Value
  host : H

namespace Collection

variable {H : Type}

abbrev Action (H : Type) := EStateM Fault (Collection H)

def onHeap {α : Type} (op : Heap.Action α) : Action H α := fun ⟨h, roots, host⟩ =>
  match op h with
  | .ok a h => .ok a ⟨h, roots, host⟩
  | .error f h => .error f ⟨h, roots, host⟩

def note (r : LogRecord) : Action H Unit := modify fun c => { c with heap := c.heap.note r }

end Collection

abbrev Collector (H : Type) := Collection.Action H Unit

def Collector.none {H : Type} : Collector H := (pure () : Collection.Action H Unit)

def refillList : List Value → List Value → List Value × List Value
  | [], vs => ([], vs)
  | old :: olds, [] => (old :: olds, [])
  | _ :: olds, v :: vs =>
    let (news, rest) := refillList olds vs
    (v :: news, rest)

theorem refillList_append (olds news rest : List Value) (h : olds.length = news.length) :
    refillList olds (news ++ rest) = (news, rest) := by
  induction olds generalizing news with
  | nil =>
    have : news = [] := List.eq_nil_of_length_eq_zero h.symm
    simp [this, refillList]
  | cons old olds ih =>
    cases news with
    | nil => simp at h
    | cons v news => simp [refillList, ih news (by simpa using h)]

instance : RootSet (List Value) where
  toList roots := roots
  refill roots vs := (refillList roots vs).1

end VmSupport
