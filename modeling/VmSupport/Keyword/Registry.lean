import Std.Data.HashMap
import VmSupport.Value

namespace VmSupport

structure KeywordRegistry where
  names : Array String
  ids : Std.HashMap String UInt32
  deriving Inhabited

namespace KeywordRegistry

def empty : KeywordRegistry := ⟨#[], ∅⟩

def size (r : KeywordRegistry) : Nat := r.names.size

def lookup? (r : KeywordRegistry) (name : String) : Option Value := r.ids[name]?.map Value.keyword

def getOrAdd (r : KeywordRegistry) (name : String) : UInt32 × KeywordRegistry :=
  match r.ids[name]? with
  | some id => (id, r)
  | none =>
    let id := UInt32.ofNat r.size
    (id, ⟨r.names.push name, r.ids.insert name id⟩)

def intern (r : KeywordRegistry) (name : String) : Value × KeywordRegistry :=
  match r.lookup? name with
  | some v => (v, r)
  | none =>
    let (id, r) := r.getOrAdd name
    (Value.keyword id, r)

def name? (r : KeywordRegistry) (v : Value) : Option String :=
  v.keywordId?.bind fun id => r.names[id.toNat]?

def description (r : KeywordRegistry) : String := s!"KeywordRegistry \x7b len: {r.size} \x7d"

end KeywordRegistry

end VmSupport
