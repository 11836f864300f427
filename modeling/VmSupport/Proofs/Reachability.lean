import VmSupport.Memory

namespace VmSupport

namespace Header

theorem word_ofWord (w : UInt64) : (ofWord w).word = w := by
  have hw := w.toNat_lt
  simp only [ofWord, word, ← UInt64.toNat_inj, UInt64.toNat_add, UInt64.toNat_mul,
    UInt8.toNat_toUInt64, UInt16.toNat_toUInt64, UInt32.toNat_toUInt64, UInt64.toNat_toUInt8,
    UInt64.toNat_toUInt16, UInt64.toNat_toUInt32, UInt64.toNat_div, UInt64.reduceToNat]
  omega

end Header

namespace Memory

variable {m m' : Memory} {roots : List Value} {a : Nat}

theorem header_word (m : Memory) (a : Nat) : (m.header a).word = m.read a :=
  Header.word_ofWord (m.read a)

def slots? (h : Header) (a : Nat) : Option (List Nat) :=
  h.type?.map fun type => edgeSlots type h.length a

theorem edges?_eq (m : Memory) (a : Nat) :
    m.edges? a = (slots? (m.header a) a).map (·.map fun slot => ⟨m.read slot⟩) := by
  simp only [edges?, slots?, Option.map_map]
  rfl

theorem edges?_congr (hslots : slots? (m'.header a) a = slots? (m.header a) a)
    (hread : ∀ slots, slots? (m.header a) a = some slots →
      ∀ slot ∈ slots, m'.read slot = m.read slot) :
    m'.edges? a = m.edges? a := by
  rw [edges?_eq, edges?_eq, hslots]
  cases hs : slots? (m.header a) a with
  | none => rfl
  | some slots =>
    simp only [Option.map_some]
    congr 1
    apply List.map_congr_left
    intro slot hslot
    rw [hread slots hs slot hslot]

inductive Reaches (m : Memory) (roots : List Value) : Nat → Prop
  | root {v} (hv : v ∈ roots) (href : v.isReference) : Reaches m roots v.address
  | edge {a v vs} (ha : Reaches m roots a) (hvs : m.edges? a = some vs) (hv : v ∈ vs)
      (href : v.isReference) : Reaches m roots v.address

namespace Reaches

theorem closed {P : Nat → Prop} (hroots : ∀ v ∈ roots, v.isReference → P v.address)
    (hedges : ∀ a vs, P a → m.edges? a = some vs → ∀ v ∈ vs, v.isReference → P v.address)
    (h : m.Reaches roots a) : P a := by
  induction h with
  | root hv href => exact hroots _ hv href
  | edge _ hvs hv href ih => exact hedges _ _ ih hvs _ hv href

theorem of_reached {roots' : List Value}
    (hroots : ∀ v ∈ roots, v.isReference → m.Reaches roots' v.address) (h : m.Reaches roots a) :
    m.Reaches roots' a := by
  apply closed hroots _ h
  intro b vs hb hvs v hv href
  exact Reaches.edge hb hvs hv href

theorem mono {roots' : List Value} (hroots : roots ⊆ roots') (h : m.Reaches roots a) :
    m.Reaches roots' a :=
  h.of_reached fun _ hv href => Reaches.root (hroots hv) href

theorem congr (hread : ∀ b, m'.read b = m.read b) (h : m'.Reaches roots a) : m.Reaches roots a := by
  apply closed (fun v hv href => Reaches.root hv href) _ h
  intro b vs hb hvs v hv href
  have hheader : m'.header b = m.header b := by rw [header, header, hread]
  have hsame : m'.edges? b = m.edges? b := by
    apply edges?_congr
    · rw [hheader]
    · intro slots _ slot _
      exact hread slot
  rw [hsame] at hvs
  exact Reaches.edge hb hvs hv href

end Reaches

end Memory

end VmSupport
