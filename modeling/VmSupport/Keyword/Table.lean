import VmSupport.Fault

namespace VmSupport

structure KeywordTable where
  entries : List (UInt32 × UInt32)
  deriving DecidableEq, Inhabited

namespace KeywordTable

def empty : KeywordTable := ⟨[]⟩

def size (t : KeywordTable) : Nat := t.entries.length

def lookup? (t : KeywordTable) (v : Value) : Option UInt32 :=
  v.keywordId?.bind fun id => t.entries.lookup id

def words (t : KeywordTable) : List UInt32 := t.entries.flatMap fun (id, slot) => [id, slot]

def encode (t : KeywordTable) : List UInt32 := UInt32.ofNat t.size :: t.words

def pairs : List UInt32 → List (UInt32 × UInt32)
  | id :: slot :: rest => (id, slot) :: pairs rest
  | _ => []

def decode (code : List UInt32) (start : Nat) : Except Fault (KeywordTable × Nat) :=
  match code[start]? with
  | none => .error (.indexOutOfBounds code.length start)
  | some count =>
    let stop := start + 1 + 2 * count.toNat
    if stop ≤ code.length then
      .ok (⟨pairs ((code.drop (start + 1)).take (2 * count.toNat))⟩, stop)
    else .error (.tableOverrun start count.toNat code.length)

end KeywordTable

end VmSupport
