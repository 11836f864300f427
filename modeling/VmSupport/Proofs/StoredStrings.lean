import VmSupport.Proofs.ObjectBytes
import VmSupport.Scenario.Buffer

namespace VmSupport

namespace ObjectImage

theorem utf8ByteSize_le (s : String) : s.utf8ByteSize ≤ 4 * s.length := by
  induction s using String.push_induction with
  | empty => exact le_rfl
  | push s c ih =>
    have hle := c.utf8Size_le_four
    rw [String.length_push, String.utf8ByteSize_push]
    omega

theorem fromUTF8?_toUTF8 (s : String) :
    String.fromUTF8? ⟨s.toUTF8.data.toList.toArray⟩ = some s := by
  rw [Array.toArray_toList]
  exact dif_pos s.isValidUTF8

theorem packWord_digit {bytes : List UInt8} (h : bytes.length ≤ 8) (j : Nat) :
    (packWord bytes).toNat / 256 ^ j % 256 = (bytes[j]?.getD 0).toNat := by
  induction bytes generalizing j with
  | nil => simp [packWord]
  | cons b bytes ih =>
    have hb := b.toNat_lt
    rw [toNat_packWord_cons b h]
    cases j with
    | zero =>
      rw [Nat.pow_zero, Nat.div_one, Nat.add_mul_mod_self_left, Nat.mod_eq_of_lt hb]
      rfl
    | succ j =>
      have hdiv : (b.toNat + 256 * (packWord bytes).toNat) / 256 = (packWord bytes).toNat := by
        omega
      rw [Nat.pow_succ', ← Nat.div_div_eq_div_mul, hdiv, ih (Nat.le_of_succ_le h)]
      rfl

theorem packBytes_digit (bytes : List UInt8) {i : Nat} (hi : i < alignUp 8 bytes.length) :
    ∃ w, (packBytes bytes)[i / 8]? = some w ∧
      w.toNat / 256 ^ (i % 8) % 256 = (bytes[i]?.getD 0).toNat := by
  have hword : i / 8 < (bytes.length + 7) / 8 := by
    unfold alignUp at hi
    omega
  refine ⟨_, getElem?_packWords bytes hword, ?_⟩
  rw [packWord_digit (List.length_take_le 8 _), List.getElem?_take_of_lt (by omega),
    List.getElem?_drop, Nat.div_add_mod]

end ObjectImage

open ObjectImage

namespace Buffer

/-- The buffer starts with the string `s`: the characters and the bytes are counted right, and the
text reads back. Each word behind the counts has eight of the bytes, the first one at its low end,
and there are zeros behind the last one up to the end of its word. -/
structure HoldsText (b : Buffer) (s : String) : Prop where
  header : b.header = .withLength .str (UInt32.ofNat s.length)
  characters : b.header.length.toNat = s.length
  bytes : b.byteLength = s.utf8ByteSize
  text : b.text? = some s
  packed : ∀ i < alignUp 8 s.utf8ByteSize, ∃ w, b[2 + i / 8]? = some w ∧
    w.toNat / 256 ^ (i % 8) % 256 = (s.toUTF8.data.toList[i]?.getD 0).toNat

end Buffer

section String

variable {s : String}

theorem toNat_utf8ByteSize (hs : s.length < 2 ^ 32) :
    (UInt64.ofNat s.utf8ByteSize).toNat = s.utf8ByteSize := by
  have hle := utf8ByteSize_le s
  rw [UInt64.toNat_ofNat', Nat.mod_eq_of_lt (by omega)]

theorem take_unpackWords (bytes : List UInt8) (rest : List UInt64) :
    (unpackWords (packBytes bytes ++ rest)).take bytes.length = bytes := by
  rw [unpackWords, List.flatMap_append]
  change (unpackWords (packBytes bytes) ++ _).take _ = _
  rw [unpackWords_packBytes, List.append_assoc, List.take_left]

theorem holdsText_append (hs : s.length < 2 ^ 32) (rest : List UInt64) :
    Buffer.HoldsText (string s ++ rest) s := by
  have hheader : Buffer.header (string s ++ rest) = .withLength .str (UInt32.ofNat s.length) :=
    Header.ofWord_word _
  have hbytes : Buffer.byteLength (string s ++ rest) = s.utf8ByteSize := toNat_utf8ByteSize hs
  have hlength := length_toUTF8 s
  refine ⟨hheader, ?_, hbytes, ?_, fun i hi => ?_⟩
  · rw [hheader]
    exact UInt32.toNat_ofNat_of_lt' hs
  · have hdrop : (string s ++ rest).drop 2 = packBytes s.toUTF8.data.toList ++ rest := rfl
    rw [Buffer.text?, hbytes, hdrop, ← hlength, take_unpackWords, fromUTF8?_toUTF8]
  · rw [← hlength] at hi
    obtain ⟨w, hw, hdigit⟩ := packBytes_digit s.toUTF8.data.toList hi
    refine ⟨w, ?_, hdigit⟩
    obtain ⟨hlt, -⟩ := List.getElem?_eq_some_iff.mp hw
    have hword : (string s ++ rest)[2 + i / 8]? =
        (packBytes s.toUTF8.data.toList ++ rest)[i / 8]? := by
      rw [Nat.add_comm]
      rfl
    rw [hword, List.getElem?_append_left hlt, hw]

theorem stringText?_writeAll (hs : s.length < 2 ^ 32) (m : Memory) (a : Nat) :
    (m.writeAll a (string s)).stringText? a = some s := by
  have hlength := length_toUTF8 s
  have hsize : ((m.writeAll a (string s)).read (a + 8)).toNat = s.utf8ByteSize := by
    have hread := Memory.read_writeAll m a (string s) (Nat.succ_lt_succ (Nat.succ_pos _) : 1 < _)
    rw [← toNat_utf8ByteSize hs]
    exact congrArg UInt64.toNat hread
  have hwords : (m.writeAll a (string s)).readAll (a + 16) ((s.utf8ByteSize + 7) / 8) =
      packBytes s.toUTF8.data.toList := by
    have hcount : (packBytes s.toUTF8.data.toList).length = (s.utf8ByteSize + 7) / 8 := by
      rw [packBytes, length_packWords, hlength]
    rw [← hcount]
    exact Memory.readAll_writeAll ((m.write a _).write (a + 8) _) (a + 16) _
  have htake := take_unpackWords s.toUTF8.data.toList []
  rw [hlength, List.append_nil] at htake
  simp only [Memory.stringText?, Memory.stringBytes, hsize, hwords, htake, fromUTF8?_toUTF8]

theorem string_inj {t : String} (hs : s.length < 2 ^ 32) (ht : t.length < 2 ^ 32) :
    string s = string t ↔ s = t := by
  refine ⟨fun h => ?_, fun h => h ▸ rfl⟩
  have hholds := holdsText_append ht []
  rw [← h] at hholds
  exact Option.some.inj ((holdsText_append hs []).text.symm.trans hholds.text)

theorem length_string (s : String) : 8 * (string s).length = 16 + alignUp 8 s.utf8ByteSize := by
  rw [ObjectRequest.length_image_string, alignUp]
  omega

theorem stringSize_add (n : Nat) :
    stringSize n + 2 ^ 35 * ((1 + (n + 7) / 8) / 2 ^ 32) = 16 + alignUp 8 n := by
  rw [stringSize, wordsSize, stringPayload, UInt32.toNat_ofNat', alignUp]
  omega

theorem stringSize_eq_iff (n : Nat) : stringSize n = 16 + alignUp 8 n ↔ n ≤ 8 * (2 ^ 32 - 2) := by
  have hadd := stringSize_add n
  omega

variable (s) in
/-- A string placed in a buffer with enough words, or written to memory, reads back: its characters,
its bytes and its text, each byte in its place. The rest of the buffer stays. No other string is
made of the same words. -/
theorem string_reads_back (hs : s.length < 2 ^ 32) :
    (∀ b : Buffer, stringSize s.utf8ByteSize ≤ 8 * b.length →
      Buffer.HoldsText (b.place (string s)) s ∧ (b.place (string s)).length = b.length ∧
        (b.place (string s)).drop (string s).length = b.drop (string s).length) ∧
    (∀ (m : Memory) (a : Nat), (m.writeAll a (string s)).stringText? a = some s ∧
      Buffer.HoldsText ((m.writeAll a (string s)).readAll a (string s).length) s) ∧
    ∀ t : String, t.length < 2 ^ 32 → (string s = string t ↔ s = t) := by
  refine ⟨fun b hb => ⟨holdsText_append hs _, ?_, List.drop_left⟩, fun m a => ?_,
    fun t ht => string_inj hs ht⟩
  · have hle := utf8ByteSize_le s
    have hsize := (stringSize_eq_iff s.utf8ByteSize).mpr (by omega)
    have hlength := length_string s
    rw [Buffer.place, List.length_append, List.length_drop]
    omega
  · have hholds := holdsText_append hs []
    rw [List.append_nil] at hholds
    rw [Memory.readAll_writeAll]
    exact ⟨stringText?_writeAll hs m a, hholds⟩

theorem string_reads_back_full_word :
    "grüße\x00".length < 2 ^ 32 ∧ stringSize "grüße\x00".utf8ByteSize = 8 * 3 ∧
    Buffer.HoldsText (Buffer.place (string "grüße\x00") [3, 5, 7, 11]) "grüße\x00" ∧
    string "grüße\x00" ≠ string "grüße" := by
  have hshort : "grüße\x00".length < 2 ^ 32 := by decide
  have hsize : stringSize "grüße\x00".utf8ByteSize = 8 * 3 := by decide
  have hback := string_reads_back "grüße\x00" hshort
  refine ⟨hshort, hsize, (hback.1 [3, 5, 7, 11] ?_).1, fun h => ?_⟩
  · rw [hsize]
    decide
  · have heq := (hback.2.2 "grüße" (by decide)).mp h
    exact absurd heq (by decide)

/-- The memory set aside for a string is what its words take, up to 34359738352 bytes. For every
`2 ^ 32` words that it has beyond these, `2 ^ 35` bytes are missing. -/
theorem stringSize_exact (n : Nat) :
    (∀ s : String, s.utf8ByteSize = n → 8 * (string s).length = 16 + alignUp 8 n) ∧
    stringSize n + 2 ^ 35 * ((1 + (n + 7) / 8) / 2 ^ 32) = 16 + alignUp 8 n ∧
    (stringSize n = 16 + alignUp 8 n ↔ n ≤ 8 * (2 ^ 32 - 2)) := by
  refine ⟨fun s hs => ?_, stringSize_add n, stringSize_eq_iff n⟩
  rw [length_string, hs]

theorem overlong_string_cut_short : 34359738353 < 2 ^ 63 ∧ stringSize 34359738353 = 8 ∧
    16 + alignUp 8 34359738353 = 34359738376 := by decide

end String

end VmSupport
