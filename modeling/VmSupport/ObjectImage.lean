import VmSupport.Header

namespace VmSupport.ObjectImage

def cellSize : Nat := 24

def flonumSize : Nat := 16

def wordsSize (n : UInt32) : Nat := 8 + 8 * n.toNat

/-- Payload words of a string of `bytes` bytes: its byte length, then the padded bytes. The count is
kept in 32 bits. -/
def stringPayload (bytes : Nat) : UInt32 := UInt32.ofNat (1 + (bytes + 7) / 8)

def stringSize (bytes : Nat) : Nat := wordsSize (stringPayload bytes)

def fields (h : Header) (vs : List Value) : List UInt64 := h.word :: vs.map Value.raw

def cell (type : ObjectType) (car cdr : Value) : List UInt64 := fields (.new type) [car, cdr]

def flonum (bits : UInt64) : List UInt64 := [(Header.new .flonum).word, bits]

def words (type : ObjectType) (n : UInt32) : List UInt64 :=
  (Header.withLength type n).word :: List.replicate n.toNat 0

def packWord (bytes : List UInt8) : UInt64 :=
  bytes.foldr (fun b w => b.toUInt64 + 256 * w) 0

def packWords : Nat → List UInt8 → List UInt64
  | 0, _ => []
  | n + 1, bytes => packWord (bytes.take 8) :: packWords n (bytes.drop 8)

def packBytes (bytes : List UInt8) : List UInt64 := packWords ((bytes.length + 7) / 8) bytes

def wordBytes : Nat → UInt64 → List UInt8
  | 0, _ => []
  | n + 1, w => w.toUInt8 :: wordBytes n (w / 256)

def unpackWords (ws : List UInt64) : List UInt8 := ws.flatMap (wordBytes 8)

def string (s : String) : List UInt64 :=
  (Header.withLength .str (UInt32.ofNat s.length)).word :: UInt64.ofNat s.utf8ByteSize
    :: packBytes s.toUTF8.data.toList

theorem length_cell (type : ObjectType) (car cdr : Value) :
    8 * (cell type car cdr).length = cellSize := rfl

theorem length_flonum (bits : UInt64) : 8 * (flonum bits).length = flonumSize := rfl

theorem length_words (type : ObjectType) (n : UInt32) :
    8 * (words type n).length = wordsSize n := by
  simp [words, wordsSize]
  omega

theorem length_packWords (n : Nat) (bytes : List UInt8) : (packWords n bytes).length = n := by
  induction n generalizing bytes with
  | zero => rfl
  | succ n ih => simp [packWords, ih]

theorem length_toUTF8 (s : String) : s.toUTF8.data.toList.length = s.utf8ByteSize := by
  rw [Array.length_toList]
  rfl

end VmSupport.ObjectImage
