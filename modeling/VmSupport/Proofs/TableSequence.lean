import VmSupport.Binding.Descriptor
import VmSupport.Proofs.TableCode

namespace VmSupport

def CallDescriptor.appendTables (code : List UInt32) (ds : List CallDescriptor) : List UInt32 :=
  ds.foldl (fun code d => code ++ d.keywords.encode) code

theorem CallDescriptor.appendTables_eq (code : List UInt32) (ds : List CallDescriptor) :
    appendTables code ds = code ++ ds.flatMap fun d => d.keywords.encode := by
  induction ds generalizing code with
  | nil => simp [appendTables]
  | cons d ds ih =>
    change appendTables (code ++ d.keywords.encode) ds = _
    rw [ih, List.flatMap_cons, List.append_assoc]

namespace KeywordTable

def decodeEach (code : List UInt32) : (n start : Nat) → Except Fault (List KeywordTable × Nat)
  | 0, start => .ok ([], start)
  | n + 1, start => do
    let (t, next) ← decode code start
    let (ts, stop) ← decodeEach code n next
    return (t :: ts, stop)

theorem decodeEach_cons {code : List UInt32} {n start next stop : Nat} {t : KeywordTable}
    {ts : List KeywordTable} (h : decode code start = .ok (t, next))
    (hs : decodeEach code n next = .ok (ts, stop)) :
    decodeEach code (n + 1) start = .ok (t :: ts, stop) := by
  simp only [decodeEach, h, bind, Except.bind, hs]
  rfl

theorem decodeEach_appendTables (before after : List UInt32) {ds : List CallDescriptor}
    (h : ∀ d ∈ ds, d.keywords.size < 2 ^ 32) :
    decodeEach (CallDescriptor.appendTables before ds ++ after) ds.length before.length =
      .ok (ds.map CallDescriptor.keywords, (CallDescriptor.appendTables before ds).length) := by
  induction ds generalizing before with
  | nil => rfl
  | cons d ds ih =>
    have hcode : CallDescriptor.appendTables before (d :: ds) =
        CallDescriptor.appendTables (before ++ d.keywords.encode) ds := rfl
    have hfirst := decode_append_encode before
      ((ds.flatMap fun d => d.keywords.encode) ++ after) d.keywords (h d List.mem_cons_self)
    rw [← List.append_assoc, ← CallDescriptor.appendTables_eq, ← List.length_append] at hfirst
    rw [hcode]
    exact decodeEach_cons hfirst (ih _ fun e he => h e (List.mem_cons_of_mem d he))

theorem words_pairs {n : Nat} {ws : List UInt32} (h : ws.length = 2 * n) :
    words ⟨pairs ws⟩ = ws ∧ (pairs ws).length = n := by
  induction n generalizing ws with
  | zero =>
    rw [List.eq_nil_of_length_eq_zero h]
    exact ⟨rfl, rfl⟩
  | succ n ih =>
    match ws, h with
    | id :: slot :: ws, h =>
      have hrest : ws.length = 2 * n := by
        simp only [List.length_cons] at h
        omega
      obtain ⟨hwords, hlength⟩ := ih hrest
      refine ⟨?_, by rw [pairs, List.length_cons, hlength]⟩
      change id :: slot :: words ⟨pairs ws⟩ = id :: slot :: ws
      rw [hwords]

theorem decode_of_le {code : List UInt32} {start : Nat} {count : UInt32}
    (hcount : code[start]? = some count) (hstop : start + 1 + 2 * count.toNat ≤ code.length) :
    ∃ t, decode code start = .ok (t, start + 1 + 2 * count.toNat) ∧
      t.encode = (code.drop start).take (1 + 2 * count.toNat) := by
  let ws := (code.drop (start + 1)).take (2 * count.toNat)
  have hlength : ws.length = 2 * count.toNat := by
    simp only [ws, List.length_take, List.length_drop]
    omega
  obtain ⟨hwords, hsize⟩ := words_pairs hlength
  refine ⟨⟨pairs ws⟩, ?_, ?_⟩
  · simp only [decode, hcount, hstop, ↓reduceIte]
    rfl
  · obtain ⟨hlt, hget⟩ := List.getElem?_eq_some_iff.mp hcount
    have hfirst : UInt32.ofNat (size ⟨pairs ws⟩) = count := by
      rw [size, hsize, UInt32.ofNat_toNat]
    rw [encode, hfirst, hwords, List.drop_eq_getElem_cons hlt, hget, Nat.add_comm 1,
      List.take_succ_cons]

theorem le_of_decode {code : List UInt32} {start : Nat} {result : KeywordTable × Nat}
    (h : decode code start = .ok result) :
    ∃ count, code[start]? = some count ∧ start + 1 + 2 * count.toNat ≤ code.length := by
  unfold decode at h
  split at h
  · contradiction
  · rename_i count hcount
    refine ⟨count, hcount, ?_⟩
    by_contra hstop
    simp only [hstop, ↓reduceIte] at h
    contradiction

/-- Tables that were appended to code are read back in their order and up to the code behind them.
Whatever the code, a table is read exactly where its count and its words lie in the code, and it
encodes to the words it was read from. -/
theorem decode_inverts_encode {ds : List CallDescriptor}
    (h : ∀ d ∈ ds, d.keywords.size < 2 ^ 32) (before after : List UInt32) :
    decodeEach (CallDescriptor.appendTables before ds ++ after) ds.length before.length =
      .ok (ds.map CallDescriptor.keywords, (CallDescriptor.appendTables before ds).length) ∧
    ∀ (code : List UInt32) (start : Nat),
      ((∃ result, decode code start = .ok result) ↔
        ∃ count, code[start]? = some count ∧ start + 1 + 2 * count.toNat ≤ code.length) ∧
      ∀ t next, decode code start = .ok (t, next) →
        (∃ count, code[start]? = some count ∧ next = start + 1 + 2 * count.toNat) ∧
        t.encode = (code.drop start).take (next - start) := by
  refine ⟨decodeEach_appendTables before after h, fun code start => ?_⟩
  constructor
  · constructor
    · rintro ⟨result, hdecode⟩
      exact le_of_decode hdecode
    · rintro ⟨count, hcount, hstop⟩
      obtain ⟨t, hdecode, -⟩ := decode_of_le hcount hstop
      exact ⟨_, hdecode⟩
  · intro t next hdecode
    obtain ⟨count, hcount, hstop⟩ := le_of_decode hdecode
    obtain ⟨t', hdecode', hencode⟩ := decode_of_le hcount hstop
    rw [hdecode] at hdecode'
    cases hdecode'
    refine ⟨⟨count, hcount, rfl⟩, ?_⟩
    rw [hencode, Nat.add_assoc start, Nat.add_sub_cancel_left]

theorem decode_inverts_encode_of_two :
    let d : CallDescriptor := ⟨2, 1, 7, .hasRest, -3, ⟨[(4, 5), (1, 6), (4, 3)]⟩⟩
    let e : CallDescriptor := ⟨0, 0, 0, .none, 0, .empty⟩
    (∀ d' ∈ [d, e], d'.keywords.size < 2 ^ 32) ∧
      decodeEach [57005, 3, 4, 5, 1, 6, 4, 3, 0, 51966] 2 1 =
        .ok ([d.keywords, e.keywords], 9) := by
  intro d e
  have h : ∀ d' ∈ [d, e], d'.keywords.size < 2 ^ 32 := by decide
  exact ⟨h, (decode_inverts_encode h [57005] [51966]).1⟩

end KeywordTable

end VmSupport
