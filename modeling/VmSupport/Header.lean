import VmSupport.Value

/-!
The word at the start of every object. From its low end it holds the type byte (the header tag in
three bits, the object type above them), the flag byte, two reserved bytes and a 32-bit length.
-/

namespace VmSupport

inductive ObjectType
  | pair | cell | flonum | words | vector | str | builtin | thread
  deriving DecidableEq, Inhabited

namespace ObjectType

def code : ObjectType → UInt8
  | pair => 0
  | cell => 1
  | flonum => 2
  | words => 3
  | vector => 4
  | str => 5
  | builtin => 6
  | thread => 7

def name : ObjectType → String
  | pair => "Pair"
  | cell => "Cell"
  | flonum => "Flonum"
  | words => "Words"
  | vector => "Vector"
  | str => "Str"
  | builtin => "Builtin"
  | thread => "Thread"

def all : List ObjectType := [pair, cell, flonum, words, vector, str, builtin, thread]

def ofCode? (c : UInt8) : Option ObjectType := all.find? (fun t => t.code == c)

def ofName? (s : String) : Option ObjectType := all.find? (fun t => t.name == s)

@[simp] theorem ofCode?_code (t : ObjectType) : ofCode? t.code = some t := by
  cases t <;> rfl

end ObjectType

structure HeaderFlags where
  bits : UInt8
  deriving DecidableEq, Inhabited

namespace HeaderFlags

def none : HeaderFlags := ⟨0⟩

def marked : HeaderFlags := ⟨1⟩

def pinned : HeaderFlags := ⟨2⟩

def contains (flags flag : HeaderFlags) : Bool := flags.bits &&& flag.bits == flag.bits

def union (flags flag : HeaderFlags) : HeaderFlags := ⟨flags.bits ||| flag.bits⟩

def remove (flags flag : HeaderFlags) : HeaderFlags := ⟨flags.bits &&& ~~~flag.bits⟩

end HeaderFlags

structure Header where
  typeByte : UInt8
  flags : HeaderFlags
  reserved : UInt16
  length : UInt32
  deriving DecidableEq, Inhabited

namespace Header

def withLength (type : ObjectType) (length : UInt32) : Header :=
  ⟨type.code * 8 + 3, .none, 0, length⟩

def new (type : ObjectType) : Header := withLength type 0

def addFlag (h : Header) (flag : HeaderFlags) : Header := { h with flags := h.flags.union flag }

def removeFlag (h : Header) (flag : HeaderFlags) : Header := { h with flags := h.flags.remove flag }

def fetchAddFlag (h : Header) (flag : HeaderFlags) : HeaderFlags × Header :=
  (h.flags, h.addFlag flag)

def hasFlag (h : Header) (flag : HeaderFlags) : Bool := h.flags.contains flag

def pinned (type : ObjectType) : Header := (new type).addFlag .pinned

def type? (h : Header) : Option ObjectType := ObjectType.ofCode? (h.typeByte / 8)

def isValid (h : Header) : Bool := h.typeByte % 8 == 3 && h.typeByte / 8 < 8

def word (h : Header) : UInt64 :=
  h.typeByte.toUInt64 + h.flags.bits.toUInt64 * 256 + h.reserved.toUInt64 * 65536
    + h.length.toUInt64 * 4294967296

def ofWord (w : UInt64) : Header :=
  ⟨w.toUInt8, ⟨(w / 256).toUInt8⟩, (w / 65536).toUInt16, (w / 4294967296).toUInt32⟩

theorem ofWord_word (h : Header) : ofWord h.word = h := by
  rcases h with ⟨t, ⟨f⟩, r, l⟩
  have ht := t.toNat_lt
  have hf := f.toNat_lt
  have hr := r.toNat_lt
  have hl := l.toNat_lt
  simp only [ofWord, word, Header.mk.injEq, HeaderFlags.mk.injEq, ← UInt8.toNat_inj,
    ← UInt16.toNat_inj, ← UInt32.toNat_inj, UInt64.toNat_toUInt8, UInt64.toNat_toUInt16,
    UInt64.toNat_toUInt32, UInt64.toNat_div, UInt64.toNat_add, UInt64.toNat_mul,
    UInt8.toNat_toUInt64, UInt16.toNat_toUInt64, UInt32.toNat_toUInt64, UInt64.reduceToNat]
  omega

def description? (h : Header) : Option String :=
  h.type?.map fun type =>
    s!"Header \x7b type: {type.name}, flags: HeaderFlags({h.flags.bits.toNat}), "
      ++ s!"length: {h.length.toNat} \x7d"

end Header

end VmSupport
