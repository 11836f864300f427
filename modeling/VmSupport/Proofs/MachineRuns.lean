import VmSupport.Machine.Allocation
import VmSupport.Machine.DynamicStack
import VmSupport.Proofs.InventorySteps

/-!
Runs of a machine with contexts that come and go. Beside the machine stands a ledger of all that was
allocated and written, which no step reads.
-/

namespace VmSupport

open EStateM

inductive ObjectRequest
  | cell (type : ObjectType) (car cdr : Value)
  | flonum (bits : UInt64)
  | words (type : ObjectType) (n : UInt32)
  | string (s : String)

namespace ObjectRequest

variable {H : Type}

def perform (env : Embedder H) : ObjectRequest → Machine.Action H Value
  | cell type car cdr => Machine.allocateCell env type car cdr
  | flonum bits => Machine.allocateFlonum env bits
  | words type n => Machine.allocateWords env type n
  | string s => Machine.allocateString env s

def IsTyped : ObjectRequest → Prop
  | cell type _ _ => type = .pair ∨ type = .cell
  | words type _ => type = .words ∨ type = .vector
  | flonum _ | string _ => True

def Fits : ObjectRequest → Prop
  | string s => 1 + (s.utf8ByteSize + 7) / 8 < 2 ^ 32
  | cell .. | flonum _ | words .. => True

def size : ObjectRequest → Nat
  | cell .. => ObjectImage.cellSize
  | flonum _ => ObjectImage.flonumSize
  | words _ n => ObjectImage.wordsSize n
  | string s => ObjectImage.stringSize s.utf8ByteSize

def operands : ObjectRequest → List Value
  | cell _ car cdr => [car, cdr]
  | flonum _ | words .. | string _ => []

def imageOf (r : ObjectRequest) (vs : List Value) : List UInt64 :=
  match r with
  | cell type _ _ => ObjectImage.fields (.new type) vs
  | flonum bits => ObjectImage.flonum bits
  | words type n => ObjectImage.words type n
  | string s => ObjectImage.string s

def image (r : ObjectRequest) : List UInt64 := r.imageOf r.operands

theorem perform_eq (env : Embedder H) (r : ObjectRequest) :
    r.perform env = Machine.allocateObject env r.size r.operands r.imageOf := by
  cases r <;> rfl

theorem length_image_string (s : String) :
    (ObjectImage.string s).length = 2 + (s.utf8ByteSize + 7) / 8 := by
  simp only [ObjectImage.string, ObjectImage.packBytes, List.length_cons,
    ObjectImage.length_packWords, ObjectImage.length_toUTF8]
  omega

theorem length_image_iff (r : ObjectRequest) : 8 * r.image.length = r.size ↔ r.Fits := by
  cases r with
  | cell type car cdr => exact iff_of_true (ObjectImage.length_cell type car cdr) trivial
  | flonum bits => exact iff_of_true (ObjectImage.length_flonum bits) trivial
  | words type n => exact iff_of_true (ObjectImage.length_words type n) trivial
  | string s =>
    simp only [image, imageOf, length_image_string, size, Fits, ObjectImage.stringSize,
      ObjectImage.wordsSize, ObjectImage.stringPayload, UInt32.toNat_ofNat']
    omega

theorem dvd_size (r : ObjectRequest) : 8 ∣ r.size := by
  cases r with
  | cell => exact ⟨3, rfl⟩
  | flonum => exact ⟨2, rfl⟩
  | words type n => exact Nat.dvd_add (Nat.dvd_refl 8) (Nat.dvd_mul_right 8 _)
  | string s => exact Nat.dvd_add (Nat.dvd_refl 8) (Nat.dvd_mul_right 8 _)

theorem isObject_image {r : ObjectRequest} (htyped : r.IsTyped) : IsObject r.image := by
  cases r with
  | cell type car cdr => exact ObjectImage.isObject_cell htyped car cdr
  | flonum bits => exact ObjectImage.isObject_flonum bits
  | words type n => exact ObjectImage.isObject_words htyped n
  | string s => exact ObjectImage.isObject_string s

theorem mem_operands_of_edge {r : ObjectRequest} (htyped : r.IsTyped) {m : Memory} {a : Nat}
    {vs : List Value} (hvs : (m.writeAll a r.image).edges? a = some vs) {w : Value} (hw : w ∈ vs)
    (href : w.isReference) : w ∈ r.operands := by
  cases r with
  | cell type car cdr =>
    have hedges := hvs.symm.trans (Memory.edges?_writeAll m a type 0 [car.raw, cdr.raw])
    cases Option.some.inj hedges
    obtain ⟨slot, hslot, rfl⟩ := List.mem_map.mp hw
    have hmem : slot = a + 8 * 1 ∨ slot = a + 8 * 2 := by
      rcases htyped with rfl | rfl <;> simpa [Memory.edgeSlots] using hslot
    rcases hmem with rfl | rfl
    · have hcar : (m.writeAll a [(Header.withLength type 0).word, car.raw, cdr.raw]).read
          (a + 8 * 1) = car.raw := Memory.read_writeAll m a _ (by simp)
      rw [hcar]
      exact List.mem_cons_self
    · have hcdr : (m.writeAll a [(Header.withLength type 0).word, car.raw, cdr.raw]).read
          (a + 8 * 2) = cdr.raw := Memory.read_writeAll m a _ (by simp)
      rw [hcdr]
      exact List.mem_cons_of_mem _ List.mem_cons_self
  | flonum bits =>
    have hedges := hvs.symm.trans (Memory.edges?_writeAll m a .flonum 0 [bits])
    cases Option.some.inj hedges
    exact absurd hw List.not_mem_nil
  | words type n =>
    -- the payload is zero, which is no reference
    have hedges := hvs.symm.trans (Memory.edges?_writeAll m a type n (List.replicate n.toNat 0))
    cases Option.some.inj hedges
    obtain ⟨slot, hslot, rfl⟩ := List.mem_map.mp hw
    have hmem : ∃ i < n.toNat, a + 8 + 8 * i = slot := by
      rcases htyped with rfl | rfl <;> simpa [Memory.edgeSlots] using hslot
    obtain ⟨i, hi, rfl⟩ := hmem
    have hlt : i + 1 < (ObjectImage.words type n).length := by
      rw [ObjectImage.words, List.length_cons, List.length_replicate]
      omega
    have hzero : (m.writeAll a (ObjectImage.words type n)).read (a + 8 * (i + 1)) = 0 := by
      rw [Memory.read_writeAll m a _ hlt]
      exact List.getElem_replicate _
    have haddress : a + 8 * (i + 1) = a + 8 + 8 * i := by omega
    rw [haddress] at hzero
    unfold ObjectImage.words at hzero
    rw [hzero] at href
    exact absurd href (by decide)
  | string s =>
    have hedges := hvs.symm.trans (Memory.edges?_writeAll m a .str _ _)
    cases Option.some.inj hedges
    exact absurd hw List.not_mem_nil

end ObjectRequest

/-- What a running context does. The actions of wind frames are left out, since whatever they do are
steps of their own; they return or escape. -/
inductive ContextOp
  | allocate (request : ObjectRequest)
  | write (target : Value) (i : Nat) (v : Value)
  | push (v : Value)
  | truncate (n : Nat)
  | fluidSet (fluid : FluidId) (v : Value)
  | pushFluid (fluid : FluidId) (v : Value)
  | pushWind (entry exit : Value) (ending : Except RuntimeError Unit)
  | pop (ending : Except RuntimeError Unit)
  | makeFluid (default : Value)
  | collect

inductive VmStep
  | mapAt (place : Nat)
  | openContext
  | dropContext (i : Nat)
  | onContext (i : Nat) (op : ContextOp)

structure LiveContext where
  context : Context
  fresh : Option Value

structure VmRun extends Ledger where
  vm : Vm
  contexts : List (Option LiveContext)

namespace Vm

def foundAt (vm : Vm) (base : Nat) : Vm := { vm with heap := { vm.heap with start := base } }

def mapAt (vm : Vm) (place : Nat) : Vm := { vm with heap := { vm.heap with nextMapping := place } }

end Vm

def Context.values (c : Context) : List Value :=
  c.stack.toList ++ c.slots.toList.filterMap id ++ c.winders.toList.flatMap Winder.values

namespace VmRun

def start (vm : Vm) : VmRun := ⟨⟨[], fun _ => []⟩, vm, []⟩

def live (s : VmRun) : List LiveContext := s.contexts.filterMap id

def roots (s : VmRun) : List Value :=
  s.live.flatMap (·.context.values) ++ s.vm.fluids.defaults.toList

def inventory (s : VmRun) : Inventory where
  toLedger := s.toLedger
  heap := s.vm.heap
  arenas := s.live.length
  cursors := s.live.flatMap (·.context.arena.cursor.toList)
  threads := s.vm.threads.toList.reverse

def embedder (ending : Except RuntimeError Unit) : Embedder Unit where
  collector := .blocks
  invoke _ := Machine.resume ending
  allowance := 0

def leave (s : VmRun) (i : Nat) (l : Ledger) (fresh : Option Value) (m : Machine Unit) : VmRun where
  toLedger := l
  vm := m.vm
  contexts := s.contexts.set i (some ⟨m.context, fresh⟩)

def perform (s : VmRun) (i : Nat) (r : LiveContext) (op : ContextOp) : VmRun :=
  let m : Machine Unit := ⟨s.vm, r.context, ()⟩
  match op with
  | .allocate request =>
    match request.perform (embedder (.ok ())) m with
    | .ok v m => s.leave i (s.allocate v.address request.image) (some v) m
    | .error _ m => s.leave i s.toLedger none m
  | .write target j v =>
    s.leave i (s.store target.address j v) r.fresh
      (Machine.writeWords (target.address + 8 + 8 * j) [v.raw] m).state
  | .push v => s.leave i s.toLedger r.fresh (Machine.push v m).state
  | .truncate n =>
    s.leave i s.toLedger r.fresh
      (Machine.modifyContext (fun c => { c with stack := c.stack.take n }) m).state
  | .fluidSet fluid v => s.leave i s.toLedger r.fresh (Machine.fluidSet fluid v m).state
  | .pushFluid fluid v => s.leave i s.toLedger r.fresh (Machine.pushFluid fluid v m).state
  | .pushWind entry exit ending =>
    s.leave i s.toLedger r.fresh (Machine.pushWind (embedder ending) entry exit m).state
  | .pop ending => s.leave i s.toLedger r.fresh (Machine.pop (embedder ending) m).state
  | .makeFluid default => s.leave i s.toLedger r.fresh (Machine.makeFluid default m).state
  | .collect => s.leave i s.toLedger none (Machine.collect (embedder (.ok ())) m).state

def step (s : VmRun) : VmStep → VmRun
  | .mapAt place => { s with vm := s.vm.mapAt place }
  | .openContext =>
    match s.vm.openContext with
    | .ok (c, vm) => { s with vm, contexts := s.contexts ++ [some ⟨c, none⟩] }
    | .error _ => s
  | .dropContext i =>
    match s.contexts[i]? with
    | some (some r) =>
      { s with vm := s.vm.closeContext r.context, contexts := s.contexts.set i none }
    | _ => s
  | .onContext i op =>
    match s.contexts[i]? with
    | some (some r) => s.perform i r op
    | _ => s

/-- Values that the context may hand to a step: references lead to an object that the roots reach,
to the one that the context has just allocated or out of the heap. -/
def Usable (s : VmRun) (r : LiveContext) (v : Value) : Prop :=
  v.isReference → s.vm.heap.memory.Reaches s.roots v.address ∨ r.fresh = some v ∨
    s.inventory.Outside v.address

def NonHeap (s : VmRun) (v : Value) : Prop := v.isReference → s.inventory.Outside v.address

def HasWord (s : VmRun) (target : Value) (i : Nat) : Prop :=
  let h := s.vm.heap.memory.header target.address
  target.isReference ∧ (h.type? = some .words ∨ h.type? = some .vector) ∧ i < h.length.toNat

def MayMap (s : VmRun) (size : Nat) : Prop :=
  s.inventory.heap.MayMapBeside s.inventory.threads size

def LegalOn (s : VmRun) (r : LiveContext) : ContextOp → Prop
  | .allocate request => request.IsTyped ∧ (∀ v ∈ request.operands, s.Usable r v) ∧
    (s.vm.heap.settings.largeSize ≤ request.size → s.MayMap request.size)
  | .write target i v => s.Usable r target ∧ s.HasWord target i ∧ s.Usable r v
  | .push v | .fluidSet _ v | .pushFluid _ v | .makeFluid v => s.Usable r v
  | .pushWind entry exit _ => s.NonHeap entry ∧ s.NonHeap exit
  | .truncate _ | .pop _ | .collect => True

def Legal (s : VmRun) : VmStep → Prop
  | .onContext i op => ∀ r, s.contexts[i]? = some (some r) → s.LegalOn r op
  | .openContext => s.MayMap pageSize
  | .mapAt _ | .dropContext _ => True

end VmRun

def VmStep.Fits : VmStep → Prop
  | .onContext _ (.allocate request) => request.Fits
  | _ => True

/-- The states of all runs of a machine with these steps, wherever the operating system maps its
memory. -/
inductive VmRun.Reached (allowed : VmStep → Prop) (vm : Vm) : VmRun → Prop
  | start (base : Nat) (hbase : vm.heap.settings.MayStartAt base) :
    Reached allowed vm (VmRun.start (vm.foundAt base))
  | step {s} (h : Reached allowed vm s) (op : VmStep) (hlegal : s.Legal op)
    (hallowed : allowed op) :
    Reached allowed vm (s.step op)

end VmSupport
