import Mathlib
import VmSupport.Keyword.Table

namespace VmSupport.KeywordTable

theorem length_words (t : KeywordTable) : t.words.length = 2 * t.size := by
  obtain ⟨entries⟩ := t
  induction entries with
  | nil => rfl
  | cons entry entries ih =>
    simp only [words, size, List.flatMap_cons, List.length_append, List.length_cons,
      List.length_nil] at ih ⊢
    omega

theorem length_encode (t : KeywordTable) : t.encode.length = 1 + 2 * t.size := by
  rw [encode, List.length_cons, length_words, Nat.add_comm]

theorem pairs_words (t : KeywordTable) : pairs t.words = t.entries := by
  obtain ⟨entries⟩ := t
  induction entries with
  | nil => rfl
  | cons entry entries ih =>
    change pairs (entry.1 :: entry.2 :: words ⟨entries⟩) = entry :: entries
    rw [pairs, ih]

theorem decode_append_encode (before after : List UInt32) (t : KeywordTable)
    (h : t.size < 2 ^ 32) :
    decode (before ++ t.encode ++ after) before.length =
      .ok (t, before.length + t.encode.length) := by
  have hcode : before ++ t.encode ++ after =
      (before ++ [UInt32.ofNat t.size]) ++ (t.words ++ after) := by
    simp only [encode, List.append_assoc, List.cons_append, List.nil_append]
  have hcount : (before ++ t.encode ++ after)[before.length]? = some (UInt32.ofNat t.size) := by
    rw [hcode, List.getElem?_append_left (by simp), List.getElem?_concat_length]
  have hsize : (UInt32.ofNat t.size).toNat = t.size := by
    rw [UInt32.toNat_ofNat', Nat.mod_eq_of_lt h]
  have hwords : ((before ++ t.encode ++ after).drop (before.length + 1)).take (2 * t.size) =
      t.words := by
    rw [hcode, List.drop_left' (by simp), ← length_words, List.take_left']
    rfl
  have hstop : before.length + 1 + 2 * t.size ≤ (before ++ t.encode ++ after).length := by
    simp only [List.length_append, length_encode]
    omega
  simp only [decode, hcount, hsize, if_pos hstop, hwords, pairs_words, length_encode]
  rw [Nat.add_assoc]

end VmSupport.KeywordTable
