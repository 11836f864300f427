import VmSupport.Builtin
import VmSupport.Proofs.ObjectWords
import VmSupport.Proofs.SafeAllocation

namespace VmSupport

structure ObjectRecord where
  id : Nat
  address : Nat
  length : Nat
  deriving DecidableEq

namespace ObjectRecord

def stop (o : ObjectRecord) : Nat := o.address + 8 * o.length

def Apart (o o' : ObjectRecord) : Prop := o.stop ≤ o'.address ∨ o'.stop ≤ o.address

theorem Apart.symm {o o' : ObjectRecord} (h : o.Apart o') : o'.Apart o := Or.symm h

end ObjectRecord

/-- All objects that were ever allocated, the newest first, and the words that were last written to
each of them. -/
structure Ledger where
  objects : List ObjectRecord
  contents : Nat → List UInt64

namespace Ledger

def owner (l : Ledger) (a : Nat) : Option ObjectRecord := l.objects.find? fun o => o.address = a

def allocate (l : Ledger) (a : Nat) (ws : List UInt64) : Ledger where
  objects := ⟨l.objects.length, a, ws.length⟩ :: l.objects
  contents := Function.update l.contents l.objects.length ws

def store (l : Ledger) (a i : Nat) (v : Value) : Ledger where
  objects := l.objects
  contents := match l.owner a with
    | some o => Function.update l.contents o.id ((l.contents o.id).set (i + 1) v.raw)
    | none => l.contents

end Ledger

structure Inventory extends Ledger where
  heap : Heap
  arenas : Nat
  cursors : List Cursor
  threads : List Nat

namespace Header

def IsOutside (h : Header) : Prop := h = .pinned .builtin ∨ h = .pinned .thread

variable {h : Header}

theorem IsOutside.unmarked (ho : h.IsOutside) : h.hasFlag .marked = false := by
  rcases ho with rfl | rfl <;> decide

theorem IsOutside.slots?_eq (ho : h.IsOutside) (a : Nat) : Memory.slots? h a = some [] := by
  have hbuiltin : (Header.pinned .builtin).type? = some .builtin := by decide
  have hthread : (Header.pinned .thread).type? = some .thread := by decide
  rcases ho with rfl | rfl
  · simp only [Memory.slots?, hbuiltin, Option.map_some, Memory.edgeSlots]
  · simp only [Memory.slots?, hthread, Option.map_some, Memory.edgeSlots]

end Header

namespace Inventory

def Outside (p : Inventory) (a : Nat) : Prop :=
  (∃ id < Builtin.table.length, Builtin.address id = a) ∨ a ∈ p.threads

structure Holds (p : Inventory) (a : Nat) (o : ObjectRecord) : Prop where
  owner_eq : p.owner a = some o
  read : p.heap.memory.readAll o.address o.length = p.contents o.id
  object : IsObject (p.contents o.id)
  places : p.heap.Places p.cursors o.address o.stop
  newest : ∀ o' ∈ p.objects, o.id < o'.id → o.Apart o'

/-- All that these values reach is outside of the heap or held. -/
structure Sound (p : Inventory) (held : List Value) : Prop where
  regular : p.heap.Regular p.arenas p.cursors p.threads
  ordered : p.objects.Pairwise fun o o' => o'.id < o.id
  id_lt : ∀ o ∈ p.objects, o.id < p.objects.length
  outside : ∀ {a}, p.Outside a → (p.heap.memory.header a).IsOutside
  owned : ∀ {a}, p.heap.memory.Reaches held a → p.Outside a ∨ ∃ o, p.Holds a o

namespace Holds

variable {p : Inventory} {a : Nat} {o : ObjectRecord}

theorem mem (h : p.Holds a o) : o ∈ p.objects := List.mem_of_find?_eq_some h.owner_eq

theorem address_eq (h : p.Holds a o) : o.address = a := by
  have hfound := h.owner_eq
  unfold Ledger.owner at hfound
  simpa using List.find?_some hfound

theorem length_eq (h : p.Holds a o) : (p.contents o.id).length = o.length := by
  rw [← h.read, Memory.length_readAll]

theorem length_pos (h : p.Holds a o) : 0 < o.length := by
  rw [← h.length_eq]
  exact h.object.nonempty

theorem read_at (h : p.Holds a o) {i : Nat} (hi : i < o.length) :
    some (p.heap.memory.read (a + 8 * i)) = (p.contents o.id)[i]? := by
  rw [← h.read, h.address_eq]
  simp [Memory.readAll, List.getElem?_range hi]

theorem header_eq (h : p.Holds a o) : p.heap.memory.header a = headerOf (p.contents o.id) := by
  rw [← h.read, Memory.headerOf_readAll _ _ h.length_pos, h.address_eq]

theorem unmarked (h : p.Holds a o) : p.heap.memory.isMarked a = false := by
  unfold Memory.isMarked
  rw [h.header_eq]
  exact h.object.unmarked

theorem unpinned (h : p.Holds a o) : p.heap.memory.isPinned a = false := by
  unfold Memory.isPinned
  rw [h.header_eq]
  exact h.object.unpinned

theorem slots (h : p.Holds a o) : ∃ slots, Memory.slots? (p.heap.memory.header a) a = some slots ∧
    ∀ slot ∈ slots, ∃ i, 0 < i ∧ i < o.length ∧ slot = a + 8 * i := by
  obtain ⟨type, htype, hslots⟩ := h.object.typed
  refine ⟨Memory.edgeSlots type (headerOf (p.contents o.id)).length a, ?_, ?_⟩
  · rw [h.header_eq]
    simp only [Memory.slots?, htype, Option.map_some]
  · intro slot hslot
    rw [← h.length_eq]
    exact hslots hslot

theorem edges?_congr (h : p.Holds a o) {m : Memory}
    (hread : ∀ i < o.length, m.read (a + 8 * i) = p.heap.memory.read (a + 8 * i)) :
    m.edges? a = p.heap.memory.edges? a := by
  have hfirst := hread 0 h.length_pos
  rw [Nat.mul_zero, Nat.add_zero] at hfirst
  obtain ⟨slots, hslots, hbehind⟩ := h.slots
  apply Memory.edges?_congr
  · rw [Memory.header, Memory.header, hfirst]
  · intro slots' hslots' slot hslot
    rw [hslots] at hslots'
    cases hslots'
    obtain ⟨i, -, hi, rfl⟩ := hbehind slot hslot
    exact hread i hi

end Holds

namespace Sound

variable {p p' : Inventory} {held held' : List Value}

theorem eq_of_id (hs : p.Sound held) {o o' : ObjectRecord} (ho : o ∈ p.objects)
    (ho' : o' ∈ p.objects) (hid : o.id = o'.id) : o = o' := by
  obtain ⟨i, hi, rfl⟩ := List.getElem_of_mem ho
  obtain ⟨j, hj, rfl⟩ := List.getElem_of_mem ho'
  have hordered := List.pairwise_iff_getElem.mp hs.ordered
  rcases Nat.lt_trichotomy i j with hlt | rfl | hgt
  · have hid' := hordered i j hi hj hlt
    omega
  · rfl
  · have hid' := hordered j i hj hi hgt
    omega

theorem apart (hs : p.Sound held) {a b : Nat} {o o' : ObjectRecord} (ho : p.Holds a o)
    (ho' : p.Holds b o') (hab : a ≠ b) : o.Apart o' := by
  rcases Nat.lt_trichotomy o.id o'.id with hlt | heq | hgt
  · exact ho.newest o' ho'.mem hlt
  · have hsame := hs.eq_of_id ho.mem ho'.mem heq
    exfalso
    apply hab
    rw [← ho.address_eq, ← ho'.address_eq, hsame]
  · exact (ho'.newest o ho.mem hgt).symm

theorem outside_apart (hs : p.Sound held) {a start stop : Nat} (ha : p.Outside a)
    (hplaces : p.heap.Places p.cursors start stop) : stop ≤ a ∨ a < start := by
  rcases ha with ⟨id, hid, rfl⟩ | ha
  · exact hplaces.builtin_apart hs.regular hid
  · rcases hplaces.thread_apart hs.regular ha with hbelow | habove
    · exact Or.inl hbelow
    · right
      have hpage : 0 < pageSize := by decide
      omega

theorem not_outside (hs : p.Sound held) {a : Nat} {o : ObjectRecord} (ho : p.Holds a o) :
    ¬p.Outside a := by
  intro hout
  have hapart := hs.outside_apart hout ho.places
  have hlength := ho.length_pos
  rw [ObjectRecord.stop, ho.address_eq] at hapart
  omega

theorem markable (hs : p.Sound held) : p.heap.memory.Markable held := by
  refine ⟨?_, ?_, ?_, ?_⟩
  · intro a ha
    rcases hs.owned ha with hout | ⟨o, ho⟩
    · exact (hs.outside hout).unmarked
    · exact ho.unmarked
  · intro a ha hpinned
    rcases hs.owned ha with hout | ⟨o, ho⟩
    · exact (hs.outside hout).slots?_eq a
    · rw [ho.unpinned] at hpinned
      contradiction
  · intro a ha
    rcases hs.owned ha with hout | ⟨o, ho⟩
    · exact ⟨[], (hs.outside hout).slots?_eq a⟩
    · obtain ⟨slots, hslots, -⟩ := ho.slots
      exact ⟨slots, hslots⟩
  · intro a b slots ha hb hslots hmem
    rcases hs.owned ha with hout | ⟨o, ho⟩
    · rw [(hs.outside hout).slots?_eq a] at hslots
      cases hslots
      exact List.not_mem_nil hmem
    · obtain ⟨slots', hslots', hbehind⟩ := ho.slots
      rw [hslots'] at hslots
      cases hslots
      obtain ⟨i, hpos, hi, rfl⟩ := hbehind b hmem
      have hstop : o.stop = a + 8 * o.length := by rw [ObjectRecord.stop, ho.address_eq]
      rcases hs.owned hb with hout | ⟨o', ho'⟩
      · have hout' := hs.outside_apart hout ho.places
        rw [hstop, ho.address_eq] at hout'
        omega
      · have hne : a ≠ a + 8 * i := by omega
        have hlength := ho'.length_pos
        have hstop' : o'.stop = a + 8 * i + 8 * o'.length := by
          rw [ObjectRecord.stop, ho'.address_eq]
        have hapart := hs.apart ho ho' hne
        unfold ObjectRecord.Apart at hapart
        rw [hstop, hstop', ho.address_eq, ho'.address_eq] at hapart
        omega

theorem advance (hs : p.Sound held)
    (hregular : p'.heap.Regular p'.arenas p'.cursors p'.threads) (hobjects : p'.objects = p.objects)
    (hmore : ∀ {a}, p.Outside a → p'.Outside a)
    (houtside : ∀ {a}, p'.Outside a → (p'.heap.memory.header a).IsOutside)
    (hkeeps : ∀ {a o}, p.heap.memory.Reaches held a → p.Holds a o →
      p'.heap.memory.readAll o.address o.length = p'.contents o.id ∧
        IsObject (p'.contents o.id) ∧ p'.heap.Places p'.cursors o.address o.stop ∧
        ∀ vs, p'.heap.memory.edges? a = some vs → ∀ v ∈ vs, v.isReference →
          p.heap.memory.Reaches held v.address)
    (hheld : ∀ v ∈ held', v.isReference →
      p.heap.memory.Reaches held v.address ∨ p'.Outside v.address) : p'.Sound held' := by
  refine ⟨hregular, by rw [hobjects]; exact hs.ordered, by rw [hobjects]; exact hs.id_lt, houtside,
    fun {a} ha => ?_⟩
  -- what is reached now was reached before, or it is outside and leads nowhere
  let P : Nat → Prop := fun b => p.heap.memory.Reaches held b ∨ p'.Outside b
  have hreached : P a := by
    refine Memory.Reaches.closed hheld ?_ ha
    intro b vs hb hvs v hv href
    have hleaf : p'.Outside b → P v.address := by
      intro hout
      rw [Memory.edges?_eq, (houtside hout).slots?_eq b] at hvs
      cases hvs
      exact absurd hv List.not_mem_nil
    rcases hb with hb | hout
    · rcases hs.owned hb with hout | ⟨o, ho⟩
      · exact hleaf (hmore hout)
      · exact Or.inl ((hkeeps hb ho).2.2.2 vs hvs v hv href)
    · exact hleaf hout
  rcases hreached with hb | hout
  · rcases hs.owned hb with hout | ⟨o, ho⟩
    · exact Or.inl (hmore hout)
    · obtain ⟨hread, hobject, hplaces, -⟩ := hkeeps hb ho
      refine Or.inr ⟨o, ?_, hread, hobject, hplaces, ?_⟩
      · unfold Ledger.owner
        rw [hobjects]
        exact ho.owner_eq
      · rw [hobjects]
        exact ho.newest
  · exact Or.inl hout

theorem carry (hs : p.Sound held)
    (hregular : p'.heap.Regular p'.arenas p'.cursors p'.threads) (hobjects : p'.objects = p.objects)
    (hcontents : p'.contents = p.contents) (hmore : ∀ {a}, p.Outside a → p'.Outside a)
    (houtside : ∀ {a}, p'.Outside a → (p'.heap.memory.header a).IsOutside)
    (hread : ∀ {a o}, p.heap.memory.Reaches held a → p.Holds a o →
      ∀ i < o.length, p'.heap.memory.read (a + 8 * i) = p.heap.memory.read (a + 8 * i))
    (hplaces : ∀ {a o}, p.heap.memory.Reaches held a → p.Holds a o →
      p'.heap.Places p'.cursors o.address o.stop)
    (hheld : ∀ v ∈ held', v.isReference →
      p.heap.memory.Reaches held v.address ∨ p'.Outside v.address) : p'.Sound held' := by
  apply hs.advance hregular hobjects hmore houtside _ hheld
  intro a o ha ho
  rw [hcontents]
  have hsame := hread ha ho
  refine ⟨?_, ho.object, hplaces ha ho, ?_⟩
  · rw [← ho.read]
    apply Memory.readAll_congr
    rw [ho.address_eq]
    exact hsame
  · intro vs hvs v hv href
    rw [ho.edges?_congr hsame] at hvs
    exact Memory.Reaches.edge ha hvs hv href

theorem mono (hs : p.Sound held) (hheld : ∀ v ∈ held', v.isReference →
    p.heap.memory.Reaches held v.address ∨ p.Outside v.address) : p.Sound held' :=
  hs.carry hs.regular rfl rfl (fun h => h) hs.outside (fun _ _ _ _ => rfl)
    (fun _ ho => ho.places) hheld

end Sound

end Inventory

end VmSupport
