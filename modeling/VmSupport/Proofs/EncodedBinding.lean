import VmSupport.Machine.Binding
import VmSupport.Proofs.Outcome
import VmSupport.Proofs.TableCode

namespace VmSupport

inductive CallDescriptor.Built : CallDescriptor → Prop
  | new {required optional locals : UInt32} {flags : BindFlags} {d : CallDescriptor}
    (hd : CallDescriptor.new required optional locals flags = .ok d) : Built d
  | withKeyword {d d' : CallDescriptor} {keyword : Value} {slot : UInt32} (hd : Built d)
    (hd' : d.withKeyword keyword slot = .ok d') : Built d'
  | withTableOffset {d : CallDescriptor} (hd : Built d) (offset : Int) :
    Built (d.withTableOffset offset)

namespace CallDescriptor

theorem new_ok {required optional locals : UInt32} {flags : BindFlags} {d : CallDescriptor}
    (hd : new required optional locals flags = .ok d) :
    required.toNat + optional.toNat ≤ locals.toNat ∧
      d = ⟨required, optional, locals, flags, 0, .empty⟩ := by
  unfold new at hd
  split at hd
  · contradiction
  · split at hd
    · rename_i hle
      exact ⟨hle, (Except.ok.inj hd).symm⟩
    · contradiction

theorem withKeyword_ok {d d' : CallDescriptor} {keyword : Value} {slot : UInt32}
    (hd : d.withKeyword keyword slot = .ok d') :
    ∃ id, d' = { d with keywords := ⟨d.keywords.entries ++ [(id, slot)]⟩ } := by
  unfold withKeyword at hd
  split at hd
  · contradiction
  · rename_i id _
    split at hd
    · exact ⟨id, (Except.ok.inj hd).symm⟩
    · contradiction

theorem Built.positional_le {d : CallDescriptor} (hd : d.Built) :
    d.required.toNat + d.optional.toNat ≤ d.locals.toNat := by
  induction hd with
  | new hd =>
    obtain ⟨hle, rfl⟩ := new_ok hd
    exact hle
  | withKeyword _ hd' ih =>
    obtain ⟨id, rfl⟩ := withKeyword_ok hd'
    exact ih
  | withTableOffset _ offset ih => exact ih

variable {d : CallDescriptor}

theorem Built.positional_eq (hd : d.Built) {positional : UInt32}
    (hpositional : positional.toNat = d.required.toNat + d.optional.toNat) :
    positional = d.required + d.optional := by
  have hle := hd.positional_le
  have hlt := d.locals.toNat_lt
  rw [← UInt32.toNat_inj, UInt32.toNat_add, hpositional]
  omega

theorem Built.isWellFormed (hd : d.Built) : d.arity.IsWellFormed := by
  have hle := hd.positional_le
  have hlt := d.locals.toNat_lt
  simp only [Arity.IsWellFormed, arity, UInt32.le_iff_toNat_le, UInt32.toNat_add]
  omega

end CallDescriptor

theorem Frame.bind_of_overflow {arity : Arity} (harity : arity.IsWellFormed) {base nargs : Nat}
    (hbase : 1 <<< 64 ≤ base) (table : KeywordTable) (stack : List Value) :
    Frame.bind base nargs arity table stack = .error (.fault .additionOverflow) stack := by
  have hsum : 1 <<< 64 ≤ base + nargs := Nat.le_add_right_of_le hbase
  simp only [Frame.bind, harity, not_true_eq_false, ↓reduceIte, hsum]

namespace Machine

variable {H : Type}

def withStack (m : Machine H) (stack : List Value) : Machine H :=
  { m with context := { m.context with stack := stack.toArray } }

theorem withStack_self (m : Machine H) : m.withStack m.context.stack.toList = m := by
  simp only [withStack, Array.toArray_toList]

def afterBind (m : Machine H) (next : Nat) :
    EStateM.Result (Exit BindError) (List Value) Nat →
      EStateM.Result (Exit RuntimeError) (Machine H) BoundFrame
  | .ok size stack => .ok ⟨size, next⟩ (m.withStack stack)
  | .error (.error e) stack => .error (.error (.bind e)) (m.withStack stack)
  | .error (.fault f) stack => .error (.fault f) (m.withStack stack)

theorem bindEncoded_of_decode {code : List UInt32} {ip position next : Nat} {tableOffset : Int}
    {table : KeywordTable} (hposition : (ip : Int) + tableOffset = position)
    (hlt : position < 2 ^ 64) (hdecode : KeywordTable.decode code position = .ok (table, next))
    {arity : Arity} (harity : arity.IsWellFormed) (base offset nargs : Nat) (m : Machine H) :
    bindEncoded base offset nargs code ip tableOffset arity m =
      m.afterBind next (Frame.bind (base + offset) nargs arity table m.context.stack.toList) := by
  have hrange : ¬((position : Int) < 0 ∨ 1 <<< 64 ≤ (position : Int)) := by omega
  have htable : (liftExcept (KeywordTable.decode code position) :
      Action H (KeywordTable × Nat)) m = .ok (table, next) m := by
    rw [hdecode]
    rfl
  simp only [bindEncoded, hposition, hrange, ↓reduceIte, Int.toNat_natCast]
  refine (EStateM.bind_of_ok htable).trans ?_
  by_cases hbase : 1 <<< 64 ≤ base + offset
  · rw [Frame.bind_of_overflow harity hbase]
    simp only [hbase, ↓reduceIte, afterBind, withStack_self]
    rfl
  · simp only [hbase, ↓reduceIte, bind, EStateM.bind, onStack]
    cases Frame.bind (base + offset) nargs arity table m.context.stack.toList with
    | ok size stack => rfl
    | error e stack => cases e <;> rfl

/-- Where the table of a descriptor stands in the code, at whatever distance and between whatever
other code, the frame is bound as the descriptor binds it, with the same errors. Of the machine
only the value stack changes, and that as under the descriptor. -/
theorem bindEncoded_eq_bind {d : CallDescriptor} (hd : d.Built) (hsize : d.keywords.size < 2 ^ 32)
    {before after : List UInt32}
    (hlength : (before ++ d.keywords.encode ++ after).length < 2 ^ 64) {ip : Nat}
    (hposition : (ip : Int) + d.tableOffset = before.length) {positional : UInt32}
    (hpositional : positional.toNat = d.required.toNat + d.optional.toNat)
    (base offset nargs : Nat) (m : Machine H) :
    bindEncoded base offset nargs (before ++ d.keywords.encode ++ after) ip d.tableOffset
        ⟨d.required, positional, d.locals, d.flags⟩ m =
      m.afterBind (before.length + d.keywords.encode.length)
        (d.bind (base + offset) nargs m.context.stack.toList) := by
  have hlt : before.length < 2 ^ 64 := by
    simp only [List.length_append] at hlength
    omega
  have hdecode := KeywordTable.decode_append_encode before after d.keywords hsize
  have harity : (⟨d.required, positional, d.locals, d.flags⟩ : Arity) = d.arity := by
    rw [hd.positional_eq hpositional]
    rfl
  rw [harity]
  exact bindEncoded_of_decode hposition hlt hdecode hd.isWellFormed base offset nargs m

theorem bindEncoded_eq_bind_backwards :
    let d : CallDescriptor := ⟨1, 1, 4, .none, -2, ⟨[(7, 3)]⟩⟩
    let m : Machine Unit := ⟨default, { (default : Context) with
      stack := #[.nil, .fixnum 1, .keyword 7, .fixnum 9] }, ()⟩
    d.Built ∧ d.keywords.size < 2 ^ 32 ∧ ((5 : Nat) : Int) + d.tableOffset = [0, 0, 0].length ∧
      bindEncoded 0 1 3 ([0, 0, 0] ++ d.keywords.encode ++ [0]) 5 d.tableOffset
          ⟨d.required, 2, d.locals, d.flags⟩ m =
        .ok ⟨6, 6⟩ (m.withStack [.nil, .fixnum 1, .unspecified, .unspecified, .fixnum 9,
          .keyword 7, .fixnum 9]) := by
  intro d m
  have hnew : CallDescriptor.new 1 1 4 .none = .ok ⟨1, 1, 4, .none, 0, .empty⟩ := rfl
  have hkeyword : CallDescriptor.withKeyword ⟨1, 1, 4, .none, 0, .empty⟩ (.keyword 7) 3 =
      .ok ⟨1, 1, 4, .none, 0, ⟨[(7, 3)]⟩⟩ := rfl
  have hd : d.Built := .withTableOffset (.withKeyword (.new hnew) hkeyword) (-2)
  have hframe : d.bind (0 + 1) 3 m.context.stack.toList = .ok 6 [.nil, .fixnum 1, .unspecified,
      .unspecified, .fixnum 9, .keyword 7, .fixnum 9] := by
    cbv
  have hbind : bindEncoded 0 1 3 ([0, 0, 0] ++ d.keywords.encode ++ [0]) 5 d.tableOffset
      ⟨d.required, 2, d.locals, d.flags⟩ m =
      m.afterBind 6 (d.bind (0 + 1) 3 m.context.stack.toList) :=
    bindEncoded_eq_bind hd (by decide) (by decide) rfl rfl 0 1 3 m
  rw [hframe] at hbind
  exact ⟨hd, by decide, rfl, hbind⟩

end Machine

end VmSupport
