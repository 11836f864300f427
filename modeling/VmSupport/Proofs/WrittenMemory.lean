import VmSupport.Proofs.Marking

namespace VmSupport

namespace Memory

def wordIn (start : Nat) : List UInt64 → Nat → Option UInt64
  | [], _ => none
  | w :: ws, a => (wordIn (start + 8) ws a).or (if start = a then some w else none)

theorem read_writeAll_eq (m : Memory) (start : Nat) (ws : List UInt64) (a : Nat) :
    (m.writeAll start ws).read a = (wordIn start ws a).getD (m.read a) := by
  induction ws generalizing m start with
  | nil => rfl
  | cons w ws ih =>
    rw [writeAll, ih, read_write, wordIn]
    cases wordIn (start + 8) ws a with
    | some _ => rfl
    | none => split <;> rfl

def ofImages : List (Nat × List UInt64) → Memory
  | [] => .empty
  | (start, ws) :: images => (ofImages images).writeAll start ws

def wordAt : List (Nat × List UInt64) → Nat → UInt64
  | [], _ => 0
  | (start, ws) :: images, a => (wordIn start ws a).getD (wordAt images a)

section Images

variable (images : List (Nat × List UInt64)) (a : Nat)

theorem read_ofImages : (ofImages images).read a = wordAt images a := by
  induction images with
  | nil => exact read_empty a
  | cons image images ih => rw [ofImages, read_writeAll_eq, ih, wordAt]

theorem readAll_ofImages (n : Nat) : (ofImages images).readAll a n =
    (List.range n).map fun i => wordAt images (a + 8 * i) := by
  simp only [readAll, read_ofImages]

def headerAt : Header := Header.ofWord (wordAt images a)

theorem header_ofImages : (ofImages images).header a = headerAt images a :=
  congrArg Header.ofWord (read_ofImages images a)

theorem isPinned_ofImages :
    (ofImages images).isPinned a = (headerAt images a).hasFlag .pinned := by
  rw [isPinned, header_ofImages]

theorem edges?_ofImages : (ofImages images).edges? a =
    (slots? (headerAt images a) a).map (·.map fun slot => ⟨wordAt images slot⟩) := by
  rw [edges?_eq, header_ofImages]
  simp only [read_ofImages]

end Images

def IsClosed (images : List (Nat × List UInt64)) (addresses : List Nat) (roots : List Value) :
    Prop :=
  (∀ v ∈ roots, v.isReference → v.address ∈ addresses) ∧
    ∀ a ∈ addresses, (headerAt images a).hasFlag .marked = false ∧
      ∃ slots ∈ slots? (headerAt images a) a, ∀ slot ∈ slots, slot ∉ addresses ∧
        ((⟨wordAt images slot⟩ : Value).isReference →
          (⟨wordAt images slot⟩ : Value).address ∈ addresses)

instance (images : List (Nat × List UInt64)) (addresses : List Nat) (roots : List Value) :
    Decidable (IsClosed images addresses roots) := by
  unfold IsClosed
  infer_instance

namespace IsClosed

variable {images : List (Nat × List UInt64)} {addresses : List Nat} {roots : List Value} {a : Nat}

theorem mem_of_reaches (h : IsClosed images addresses roots)
    (ha : (ofImages images).Reaches roots a) : a ∈ addresses := by
  refine ha.closed h.1 fun b vs hb hvs v hv href => ?_
  obtain ⟨-, slots, hslots, hrefers⟩ := h.2 b hb
  rw [edges?_ofImages, hslots] at hvs
  cases hvs
  obtain ⟨slot, hslot, rfl⟩ := List.mem_map.mp hv
  exact (hrefers slot hslot).2 href

theorem unmarked (h : IsClosed images addresses roots) (ha : a ∈ addresses) :
    (ofImages images).isMarked a = false := by
  rw [isMarked, header_ofImages]
  exact (h.2 a ha).1

theorem typed (h : IsClosed images addresses roots) (ha : a ∈ addresses) :
    ∃ slots, slots? ((ofImages images).header a) a = some slots ∧ ∀ slot ∈ slots,
      slot ∉ addresses := by
  obtain ⟨-, slots, hslots, hrefers⟩ := h.2 a ha
  exact ⟨slots, header_ofImages images a ▸ hslots, fun slot hslot => (hrefers slot hslot).1⟩

theorem apart (h : IsClosed images addresses roots) {b : Nat} {slots : List Nat}
    (ha : a ∈ addresses) (hb : b ∈ addresses)
    (hslots : slots? ((ofImages images).header a) a = some slots) : b ∉ slots := by
  obtain ⟨slots', hslots', hapart⟩ := h.typed ha
  rw [hslots'] at hslots
  cases hslots
  exact fun hmem => hapart b hmem hb

theorem traversable (h : IsClosed images addresses roots) :
    (ofImages images).Traversable roots where
  unmarked ha _ := h.unmarked (h.mem_of_reaches ha.reaches)
  typed ha _ := (h.typed (h.mem_of_reaches ha.reaches)).imp fun _ hslots => hslots.1
  apart ha _ hb _ := h.apart (h.mem_of_reaches ha.reaches) (h.mem_of_reaches hb.reaches)

theorem markable (h : IsClosed images addresses roots)
    (hleaf : ∀ a ∈ addresses, (headerAt images a).hasFlag .pinned = true →
      slots? (headerAt images a) a = some []) : (ofImages images).Markable roots where
  unmarked ha := h.unmarked (h.mem_of_reaches ha)
  leaf ha hpinned := by
    rw [isPinned_ofImages] at hpinned
    rw [header_ofImages]
    exact hleaf _ (h.mem_of_reaches ha) hpinned
  typed ha := (h.typed (h.mem_of_reaches ha)).imp fun _ hslots => hslots.1
  apart ha hb := h.apart (h.mem_of_reaches ha) (h.mem_of_reaches hb)

end IsClosed

end Memory

end VmSupport
