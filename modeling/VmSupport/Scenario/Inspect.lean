import VmSupport.Machine

namespace VmSupport

mutual

inductive Shown
  | leaf (v : Value)
  | object (v : Value) (type : ObjectType) (flags : HeaderFlags) (length : UInt32)
    (content : ShownContent)

inductive ShownContent
  | nothing
  | fields (vs : List Shown)
  | bits (w : UInt64)
  | text (bytes : Nat) (s : String)
  | name (s : String)

end

namespace Vm

def inspect (vm : Vm) : (depth : Nat) → Value → Except Fault Shown
  | 0, v => .ok (.leaf v)
  | depth + 1, v =>
    if v.isReference then do
      let a := v.address
      let m := vm.heap.memory
      let h := m.header a
      let type ← vm.typeOf v
      let content ← match type with
        | .pair | .cell | .words | .vector => do
          let fields := (Memory.edgeSlots type h.length a).map fun slot => Value.mk (m.read slot)
          let shown ← fields.mapM (inspect vm depth)
          pure (ShownContent.fields shown)
        | .flonum => pure (.bits (m.read (a + 8)))
        | .str => pure (.text (m.read (a + 8)).toNat ((m.stringText? a).getD ""))
        | .builtin =>
          let name := ((Builtin.at? a).bind fun id => Builtin.table[id]?).map BuiltinDesc.name
          pure (.name (name.getD ""))
        | .thread => pure .nothing
      return .object v type h.flags h.length content
    else .ok (.leaf v)

def listFrom (vm : Vm) : (limit : Nat) → Value → Except Fault (List Value × Value)
  | 0, v => .ok ([], v)
  | limit + 1, v =>
    if v.isReference then do
      let m := vm.heap.memory
      match ← vm.typeOf v with
      | .pair | .cell => do
        let (cars, rest) ← listFrom vm limit ⟨m.read (v.address + 16)⟩
        return (⟨m.read (v.address + 8)⟩ :: cars, rest)
      | _ => return ([], v)
    else .ok ([], v)

def payloadSlot (vm : Vm) (v : Value) (i : Nat) : Except Fault Nat := do
  match ← vm.typeOf v with
  | .pair | .cell => return v.address + (if i = 0 then 8 else 16)
  | _ =>
    let length := (vm.heap.memory.header v.address).length.toNat
    if i < length then return v.address + 8 + 8 * i
    else throw (.indexOutOfBounds length i)

end Vm

end VmSupport
