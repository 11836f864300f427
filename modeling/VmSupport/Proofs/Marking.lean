import VmSupport.Heap.Marking
import VmSupport.Proofs.Reachability

namespace VmSupport

namespace Header

theorem hasFlag_marked_addFlag (h : Header) : (h.addFlag .marked).hasFlag .marked = true := by
  obtain ⟨t, ⟨⟨b⟩⟩, r, l⟩ := h
  have hb : ∀ b : BitVec 8, (b ||| 1) &&& 1 = 1 := by decide
  exact beq_iff_eq.mpr (UInt8.toBitVec_inj.mp (hb b))

theorem hasFlag_pinned_addFlag (h : Header) :
    (h.addFlag .marked).hasFlag .pinned = h.hasFlag .pinned := by
  obtain ⟨t, ⟨⟨b⟩⟩, r, l⟩ := h
  have hb : ∀ b : BitVec 8, (b ||| 1) &&& 2 = b &&& 2 := by decide
  have hbits : (UInt8.ofBitVec b ||| 1) &&& 2 = UInt8.ofBitVec b &&& 2 :=
    UInt8.toBitVec_inj.mp (hb b)
  simp only [hasFlag, addFlag, HeaderFlags.contains, HeaderFlags.union, HeaderFlags.marked,
    HeaderFlags.pinned, hbits]

theorem removeFlag_addFlag {h : Header} (hm : h.hasFlag .marked = false) :
    (h.addFlag .marked).removeFlag .marked = h := by
  obtain ⟨t, ⟨⟨b⟩⟩, r, l⟩ := h
  have hb : ∀ b : BitVec 8, b &&& 1 ≠ 1 → (b ||| 1) &&& ~~~1 = b := by decide
  have hne : b &&& 1 ≠ 1 := by
    intro heq
    exact absurd (beq_iff_eq.mpr (UInt8.toBitVec_inj.mp heq)) (Bool.eq_false_iff.mp hm)
  have hbits : (UInt8.ofBitVec b ||| 1) &&& ~~~1 = UInt8.ofBitVec b :=
    UInt8.toBitVec_inj.mp (hb b hne)
  simp only [removeFlag, addFlag, HeaderFlags.remove, HeaderFlags.union, HeaderFlags.marked, hbits]

theorem removeFlag_of_unmarked {h : Header} (hm : h.hasFlag .marked = false) :
    h.removeFlag .marked = h := by
  obtain ⟨t, ⟨⟨b⟩⟩, r, l⟩ := h
  have hb : ∀ b : BitVec 8, b &&& 1 ≠ 1 → b &&& ~~~1 = b := by decide
  have hne : b &&& 1 ≠ 1 := by
    intro heq
    exact absurd (beq_iff_eq.mpr (UInt8.toBitVec_inj.mp heq)) (Bool.eq_false_iff.mp hm)
  have hbits : UInt8.ofBitVec b &&& ~~~1 = UInt8.ofBitVec b := UInt8.toBitVec_inj.mp (hb b hne)
  simp only [removeFlag, HeaderFlags.remove, HeaderFlags.marked, hbits]

end Header

namespace Memory

variable {m m₀ : Memory} {roots : List Value} {traced : List Nat}

/-- What marking comes upon: it follows the edges of objects that are not pinned. -/
inductive Encounters (m : Memory) (roots : List Value) : Nat → Prop
  | root {v} (hv : v ∈ roots) (href : v.isReference) : Encounters m roots v.address
  | edge {a v vs} (ha : Encounters m roots a) (hunpinned : m.isPinned a = false)
    (hvs : m.edges? a = some vs) (hv : v ∈ vs) (href : v.isReference) :
    Encounters m roots v.address

theorem Encounters.reaches {a : Nat} (h : m.Encounters roots a) : m.Reaches roots a := by
  induction h with
  | root hv href => exact .root hv href
  | edge _ _ hvs hv href ih => exact .edge ih hvs hv href

structure Traversable (m : Memory) (roots : List Value) : Prop where
  unmarked : ∀ {a}, m.Encounters roots a → m.isPinned a = false → m.isMarked a = false
  typed : ∀ {a}, m.Encounters roots a → m.isPinned a = false →
    ∃ slots, slots? (m.header a) a = some slots
  apart : ∀ {a b slots}, m.Encounters roots a → m.isPinned a = false →
    m.Encounters roots b → m.isPinned b = false → slots? (m.header a) a = some slots → b ∉ slots

/-- Objects that a collector can trace: their headers are in order, and no object lies on a slot of
another. -/
structure Markable (m : Memory) (roots : List Value) : Prop where
  unmarked : ∀ {a}, m.Reaches roots a → m.isMarked a = false
  leaf : ∀ {a}, m.Reaches roots a → m.isPinned a = true → slots? (m.header a) a = some []
  typed : ∀ {a}, m.Reaches roots a → ∃ slots, slots? (m.header a) a = some slots
  apart : ∀ {a b slots}, m.Reaches roots a → m.Reaches roots b →
    slots? (m.header a) a = some slots → b ∉ slots

theorem encounters_iff {a : Nat} (hleaf : ∀ a vs, m.Reaches roots a → m.isPinned a = true →
    m.edges? a = some vs → ∀ v ∈ vs, v.isReference = false) :
    m.Encounters roots a ↔ m.Reaches roots a := by
  refine ⟨Encounters.reaches, fun h => ?_⟩
  induction h with
  | root hv href => exact .root hv href
  | @edge b v vs hb hvs hv href ih =>
    cases hpinned : m.isPinned b with
    | false => exact .edge ih hpinned hvs hv href
    | true =>
      rw [hleaf b vs hb hpinned hvs v hv] at href
      contradiction

theorem Markable.encounters_iff (h : m.Markable roots) {a : Nat} :
    m.Encounters roots a ↔ m.Reaches roots a := by
  apply Memory.encounters_iff
  intro b vs hb hpinned hvs v hv
  rw [edges?_eq, h.leaf hb hpinned] at hvs
  cases hvs
  exact absurd hv List.not_mem_nil

theorem Markable.traversable (h : m.Markable roots) : m.Traversable roots where
  unmarked ha _ := h.unmarked ha.reaches
  typed ha _ := h.typed ha.reaches
  apart ha _ hb _ := h.apart ha.reaches hb.reaches

def MarkedFrom (m₀ m : Memory) (traced : List Nat) : Prop :=
  ∀ b, m.header b = if b ∈ traced then (m₀.header b).addFlag .marked else m₀.header b

namespace MarkedFrom

theorem read_of_not_mem (h : MarkedFrom m₀ m traced) {b : Nat} (hb : b ∉ traced) :
    m.read b = m₀.read b := by
  rw [← header_word, ← header_word, h b, if_neg hb]

theorem isPinned (h : MarkedFrom m₀ m traced) (b : Nat) : m.isPinned b = m₀.isPinned b := by
  unfold Memory.isPinned
  rw [h b]
  split
  · exact Header.hasFlag_pinned_addFlag _
  · rfl

theorem isMarked_iff (h : MarkedFrom m₀ m traced) {b : Nat} (hb : m₀.isMarked b = false) :
    m.isMarked b = true ↔ b ∈ traced := by
  unfold Memory.isMarked at hb ⊢
  rw [h b]
  split
  · rename_i hmem
    simp only [Header.hasFlag_marked_addFlag, hmem]
  · rename_i hmem
    simp only [hb, hmem, Bool.false_eq_true]

theorem not_mem_of_unmarked (h : MarkedFrom m₀ m traced) {b : Nat} (hb : m.isMarked b = false) :
    b ∉ traced := by
  intro hmem
  rw [Memory.isMarked, h b, if_pos hmem, Header.hasFlag_marked_addFlag] at hb
  contradiction

theorem setMark (h : MarkedFrom m₀ m traced) {a : Nat} (ha : a ∉ traced) :
    MarkedFrom m₀ (m.setMark a) (a :: traced) := by
  intro b
  unfold Memory.setMark
  by_cases hab : a = b
  · subst hab
    rw [header_setHeader, if_pos List.mem_cons_self, h a, if_neg ha]
  · rw [header_setHeader_of_ne m _ hab, h b]
    have hmem : b ∈ a :: traced ↔ b ∈ traced := by
      rw [List.mem_cons]
      constructor
      · rintro (rfl | hb)
        · exact absurd rfl hab
        · exact hb
      · exact Or.inr
    simp only [hmem]

theorem edges?_eq (h : MarkedFrom m₀ m traced) (hm : m₀.Traversable roots)
    (htraced : ∀ a ∈ traced, m₀.Encounters roots a ∧ m₀.isPinned a = false) {a : Nat}
    (ha : m₀.Encounters roots a) (hunpinned : m₀.isPinned a = false) :
    m.edges? a = m₀.edges? a := by
  apply edges?_congr
  · rw [h a]
    split <;> rfl
  · intro slots hslots slot hslot
    apply h.read_of_not_mem
    intro hmem
    obtain ⟨hslot', hunpinned'⟩ := htraced slot hmem
    exact hm.apart ha hunpinned hslot' hunpinned' hslots hslot

end MarkedFrom

def Settled (m₀ : Memory) (traced : List Nat) (v : Value) : Prop :=
  m₀.isPinned v.address = true ∨ v.address ∈ traced

/-- What holds when marking is interrupted: the marked objects were come upon, and each of their
edges leads to a settled object or is still to be looked at. -/
structure Tracing (m₀ : Memory) (roots : List Value) (m : Memory) (traced : List Nat)
    (work : List Value) : Prop where
  marked : MarkedFrom m₀ m traced
  reached : ∀ a ∈ traced, m₀.Encounters roots a ∧ m₀.isPinned a = false
  pending : ∀ v ∈ work, v.isReference → m₀.Encounters roots v.address
  closed : ∀ a ∈ traced, ∀ vs, m₀.edges? a = some vs → ∀ v ∈ vs, v.isReference →
    Settled m₀ traced v ∨ v ∈ work
  started : ∀ v ∈ roots, v.isReference → Settled m₀ traced v ∨ v ∈ work

namespace Tracing

variable {work : List Value} {v : Value}

theorem skip (h : Tracing m₀ roots m traced (v :: work))
    (hv : v.isReference → Settled m₀ traced v) : Tracing m₀ roots m traced work := by
  have hdrop : ∀ {w : Value}, w.isReference → Settled m₀ traced w ∨ w ∈ v :: work →
      Settled m₀ traced w ∨ w ∈ work := by
    intro w href hw
    rcases hw with hw | hw
    · exact Or.inl hw
    · rcases List.mem_cons.mp hw with rfl | hw
      · exact Or.inl (hv href)
      · exact Or.inr hw
  refine ⟨h.marked, h.reached, fun w hw => h.pending w (List.mem_cons_of_mem v hw), ?_, ?_⟩
  · intro a ha vs hvs w hw href
    exact hdrop href (h.closed a ha vs hvs w hw href)
  · intro w hw href
    exact hdrop href (h.started w hw href)

theorem unpinned {a : Nat} (h : Tracing m₀ roots m traced work) (hpinned : ¬ m.isPinned a = true) :
    m₀.isPinned a = false := by
  rw [← h.marked.isPinned]
  exact Bool.eq_false_iff.mpr hpinned

theorem edges?_setMark (h : Tracing m₀ roots m traced (v :: work)) (hm : m₀.Traversable roots)
    (hv : m₀.Encounters roots v.address) (hunpinned : m₀.isPinned v.address = false)
    (hmarked : ¬ m.isMarked v.address = true) :
    (m.setMark v.address).edges? v.address = m₀.edges? v.address := by
  have hnew := h.marked.not_mem_of_unmarked (eq_false_of_ne_true hmarked)
  apply (h.marked.setMark hnew).edges?_eq hm _ hv hunpinned
  intro a ha
  rcases List.mem_cons.mp ha with rfl | ha
  · exact ⟨hv, hunpinned⟩
  · exact h.reached a ha

theorem visit (h : Tracing m₀ roots m traced (v :: work)) (href : v.isReference)
    (hpinned : m₀.isPinned v.address = false) (hv : v.address ∉ traced) {edges : List Value}
    (hedges : m₀.edges? v.address = some edges) :
    Tracing m₀ roots (m.setMark v.address) (v.address :: traced) (edges.reverse ++ work) := by
  have hreached : m₀.Encounters roots v.address := h.pending v List.mem_cons_self href
  have hkeep : ∀ {w : Value}, Settled m₀ traced w ∨ w ∈ v :: work →
      Settled m₀ (v.address :: traced) w ∨ w ∈ edges.reverse ++ work := by
    intro w hw
    rcases hw with (hw | hw) | hw
    · exact Or.inl (Or.inl hw)
    · exact Or.inl (Or.inr (List.mem_cons_of_mem _ hw))
    · rcases List.mem_cons.mp hw with rfl | hw
      · exact Or.inl (Or.inr List.mem_cons_self)
      · exact Or.inr (List.mem_append_right _ hw)
  refine ⟨h.marked.setMark hv, ?_, ?_, ?_, ?_⟩
  · intro a ha
    rcases List.mem_cons.mp ha with rfl | ha
    · exact ⟨hreached, hpinned⟩
    · exact h.reached a ha
  · intro w hw hwref
    rcases List.mem_append.mp hw with hw | hw
    · exact Encounters.edge hreached hpinned hedges (List.mem_reverse.mp hw) hwref
    · exact h.pending w (List.mem_cons_of_mem v hw) hwref
  · intro a ha vs hvs w hw hwref
    rcases List.mem_cons.mp ha with rfl | ha
    · rw [hedges] at hvs
      cases hvs
      exact Or.inr (List.mem_append_left _ (List.mem_reverse.mpr hw))
    · exact hkeep (h.closed a ha vs hvs w hw hwref)
  · intro w hw hwref
    exact hkeep (h.started w hw hwref)

end Tracing

theorem mark_tracing (hm : m₀.Traversable roots) (m : Memory) (traced : List Nat)
    (work : List Value) (h : Tracing m₀ roots m traced work) :
    ∃ traced' m', mark m traced work = .ok traced' m' ∧ Tracing m₀ roots m' traced' [] := by
  -- along the recursion of `mark`: a value is skipped, or its object is marked and its edges follow
  induction m, traced, work using mark.induct with
  | case1 m traced => exact ⟨traced, m, by rw [mark], h⟩
  | case2 m traced v work href ih =>
    rw [mark, if_pos href]
    apply ih
    apply h.skip
    intro htrue
    rw [href] at htrue
    contradiction
  | case3 m traced v work href hpinned ih =>
    rw [mark, if_neg href, if_pos hpinned]
    apply ih
    apply h.skip
    intro _
    left
    rwa [h.marked.isPinned] at hpinned
  | case4 m traced v work href hpinned hmarked ih =>
    have hreached := h.pending v List.mem_cons_self (Bool.of_not_eq_false href)
    have hunpinned := h.unpinned hpinned
    rw [mark, if_neg href, if_neg hpinned, if_pos hmarked]
    apply ih
    apply h.skip
    intro _
    right
    exact (h.marked.isMarked_iff (hm.unmarked hreached hunpinned)).mp hmarked
  | case5 m traced v work href hpinned hmarked marked hedges =>
    have hreached := h.pending v List.mem_cons_self (Bool.of_not_eq_false href)
    have hunpinned := h.unpinned hpinned
    obtain ⟨slots, hslots⟩ := hm.typed hreached hunpinned
    rw [h.edges?_setMark hm hreached hunpinned hmarked, edges?_eq, hslots] at hedges
    contradiction
  | case6 m traced v work href hpinned hmarked marked edges hedges ih =>
    have htrue := Bool.of_not_eq_false href
    have hreached := h.pending v List.mem_cons_self htrue
    have hunpinned := h.unpinned hpinned
    have hnew := h.marked.not_mem_of_unmarked (eq_false_of_ne_true hmarked)
    have hedges₀ := hedges
    rw [h.edges?_setMark hm hreached hunpinned hmarked] at hedges₀
    obtain ⟨traced', m', hmark, htracing⟩ := ih (h.visit htrue hunpinned hnew hedges₀)
    refine ⟨traced', m', ?_, htracing⟩
    rw [mark, if_neg href, if_neg hpinned, if_neg hmarked]
    have hmarked_edges : (m.setMark v.address).edges? v.address = some edges := hedges
    simp only [hmarked_edges]
    exact hmark

theorem mark_encountered (hm : m.Traversable roots) :
    ∃ traced m', mark m [] roots.reverse = .ok traced m' ∧ MarkedFrom m m' traced ∧
      ∀ a, a ∈ traced ↔ m.Encounters roots a ∧ m.isPinned a = false := by
  have hstart : Tracing m roots m [] roots.reverse := by
    refine ⟨fun b => rfl, fun a ha => absurd ha List.not_mem_nil, ?_,
      fun a ha => absurd ha List.not_mem_nil, ?_⟩
    · intro v hv href
      exact Encounters.root (List.mem_reverse.mp hv) href
    · intro v hv _
      exact Or.inr (List.mem_reverse.mpr hv)
  obtain ⟨traced, m', hmark, htracing⟩ := mark_tracing hm m [] roots.reverse hstart
  refine ⟨traced, m', hmark, htracing.marked, fun a => ⟨htracing.reached a, ?_⟩⟩
  rintro ⟨ha, hunpinned⟩
  have hsettled : m.isPinned a = true ∨ a ∈ traced := by
    clear hunpinned
    induction ha with
    | root hv href => exact (htracing.started _ hv href).resolve_right List.not_mem_nil
    | @edge b v vs _ hunpinned hvs hv href ih =>
      have hmem := ih.resolve_left (Bool.eq_false_iff.mp hunpinned)
      exact (htracing.closed b hmem vs hvs v hv href).resolve_right List.not_mem_nil
  exact hsettled.resolve_left (Bool.eq_false_iff.mp hunpinned)

theorem mark_reached (hm : m.Markable roots) :
    ∃ traced m', mark m [] roots.reverse = .ok traced m' ∧ MarkedFrom m m' traced ∧
      ∀ a, a ∈ traced ↔ m.Reaches roots a ∧ m.isPinned a = false := by
  obtain ⟨traced, m', hmark, hmarked, htraced⟩ := mark_encountered hm.traversable
  refine ⟨traced, m', hmark, hmarked, fun a => ?_⟩
  rw [htraced, hm.encounters_iff]

theorem header_clearMarks (as : List Nat) (hunmarked : ∀ a ∈ as, m₀.isMarked a = false)
    (h : ∀ b, m.header b = m₀.header b ∨ b ∈ as ∧ m.header b = (m₀.header b).addFlag .marked)
    (b : Nat) : (as.foldl clearMark m).header b = m₀.header b := by
  induction as generalizing m with
  | nil => exact (h b).resolve_right fun hb => List.not_mem_nil hb.1
  | cons a as ih =>
    have ha : m₀.isMarked a = false := hunmarked a List.mem_cons_self
    rw [List.foldl_cons]
    apply ih fun c hc => hunmarked c (List.mem_cons_of_mem a hc)
    intro c
    unfold clearMark
    by_cases hac : a = c
    · subst hac
      left
      rw [header_setHeader]
      rcases h a with hsame | ⟨-, hmarked⟩
      · rw [hsame]
        exact Header.removeFlag_of_unmarked ha
      · rw [hmarked]
        exact Header.removeFlag_addFlag ha
    · rw [header_setHeader_of_ne m _ hac]
      rcases h c with hsame | ⟨hmem, hmarked⟩
      · exact Or.inl hsame
      · exact Or.inr ⟨(List.mem_cons.mp hmem).resolve_left (Ne.symm hac), hmarked⟩

theorem MarkedFrom.read_clearMarks (h : MarkedFrom m₀ m traced)
    (hunmarked : ∀ a ∈ traced, m₀.isMarked a = false) (b : Nat) :
    (traced.foldl clearMark m).read b = m₀.read b := by
  have hmarks : ∀ c, m.header c = m₀.header c ∨
      c ∈ traced ∧ m.header c = (m₀.header c).addFlag .marked := by
    intro c
    rw [h c]
    split
    · rename_i hc
      exact Or.inr ⟨hc, rfl⟩
    · exact Or.inl rfl
  rw [← header_word, header_clearMarks traced hunmarked hmarks b, header_word]

end Memory

end VmSupport
