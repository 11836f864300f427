import VmSupport.Proofs.ExactReclaiming

namespace VmSupport

namespace Memory

variable {m : Memory} {roots : List Value}

def edgeCount (m : Memory) (a : Nat) : Nat := ((slots? (m.header a) a).getD []).length

theorem MarkedFrom.length_edges {m₀ : Memory} {traced : List Nat} {a : Nat} {edges : List Value}
    (h : MarkedFrom m₀ m traced) (hedges : m.edges? a = some edges) :
    edges.length = m₀.edgeCount a := by
  have hslots : slots? (m.header a) a = slots? (m₀.header a) a := by
    rw [h a]
    split <;> rfl
  rw [Memory.edges?_eq, hslots] at hedges
  obtain ⟨slots, hslots, rfl⟩ := Option.map_eq_some_iff.mp hedges
  rw [edgeCount, hslots, List.length_map]
  rfl

end Memory

structure Marking where
  memory : Memory
  traced : List Nat
  work : List Value

namespace Marking

inductive Round : Marking → Marking → Prop
  | drop {m : Memory} {traced : List Nat} {v : Value} {work : List Value}
    (hv : v.isReference → m.isPinned v.address = true ∨ m.isMarked v.address = true) :
    Round ⟨m, traced, v :: work⟩ ⟨m, traced, work⟩
  | trace {m : Memory} {traced : List Nat} {v : Value} {work edges : List Value}
    (href : v.isReference) (hpinned : m.isPinned v.address = false)
    (hmarked : m.isMarked v.address = false)
    (hedges : (m.setMark v.address).edges? v.address = some edges) :
    Round ⟨m, traced, v :: work⟩
      ⟨m.setMark v.address, v.address :: traced, edges.reverse ++ work⟩

inductive Rounds : Nat → Marking → Marking → Prop
  | none (s : Marking) : Rounds 0 s s
  | next {n : Nat} {s s' t : Marking} (h : s.Round s') (hs : Rounds n s' t) : Rounds (n + 1) s t

variable {s s' t u : Marking} {m₀ : Memory} {start n k : Nat}

theorem Round.unique (h : s.Round s') (h' : s.Round t) : s' = t := by
  cases h with
  | drop hv =>
    cases h' with
    | drop => rfl
    | trace href hpinned hmarked => simp [href, hpinned, hmarked] at hv
  | trace href hpinned hmarked hedges =>
    cases h' with
    | drop hv => simp [href, hpinned, hmarked] at hv
    | trace _ _ _ hedges' =>
      cases hedges.symm.trans hedges'
      rfl

theorem not_round_of_work_nil (hs : s.work = []) : ¬ s.Round t := by
  intro h
  cases h <;> cases hs

theorem Rounds.resume (h : Rounds n s t) (ht : t.work = []) (h' : Rounds k s u) :
    k ≤ n ∧ Rounds (n - k) u t := by
  induction h' generalizing n with
  | none s => exact ⟨Nat.zero_le n, h⟩
  | @next k s s' u hround _ ih =>
    cases h with
    | none => exact absurd hround (not_round_of_work_nil ht)
    | @next n _ s'' _ hround' hs =>
      cases hround.unique hround'
      obtain ⟨hle, hrest⟩ := ih hs
      rw [Nat.add_sub_add_right]
      exact ⟨Nat.succ_le_succ hle, hrest⟩

theorem rounds_of_mark (m : Memory) (traced : List Nat) (work : List Value) {traced' : List Nat}
    {m' : Memory} (h : mark m traced work = .ok traced' m') :
    ∃ n, Rounds n ⟨m, traced, work⟩ ⟨m', traced', []⟩ := by
  -- along the recursion of `mark`, one round for each call
  induction m, traced, work using mark.induct with
  | case1 m traced =>
    rw [mark] at h
    cases h
    exact ⟨0, .none _⟩
  | case2 m traced v work href ih =>
    rw [mark, if_pos href] at h
    obtain ⟨n, hrounds⟩ := ih h
    exact ⟨n + 1, .next (.drop fun htrue => absurd href (by simp [htrue])) hrounds⟩
  | case3 m traced v work href hpinned ih =>
    rw [mark, if_neg href, if_pos hpinned] at h
    obtain ⟨n, hrounds⟩ := ih h
    exact ⟨n + 1, .next (.drop fun _ => Or.inl hpinned) hrounds⟩
  | case4 m traced v work href hpinned hmarked ih =>
    rw [mark, if_neg href, if_neg hpinned, if_pos hmarked] at h
    obtain ⟨n, hrounds⟩ := ih h
    exact ⟨n + 1, .next (.drop fun _ => Or.inr hmarked) hrounds⟩
  | case5 m traced v work href hpinned hmarked marked hedges =>
    have hedges : (m.setMark v.address).edges? v.address = none := hedges
    rw [mark, if_neg href, if_neg hpinned, if_neg hmarked] at h
    simp only [hedges] at h
    cases h
  | case6 m traced v work href hpinned hmarked marked edges hedges ih =>
    have hedges' : (m.setMark v.address).edges? v.address = some edges := hedges
    rw [mark, if_neg href, if_neg hpinned, if_neg hmarked] at h
    simp only [hedges'] at h
    obtain ⟨n, hrounds⟩ := ih h
    refine ⟨n + 1, .next (.trace (Bool.of_not_eq_false href) ?_ ?_ hedges) hrounds⟩
    · exact eq_false_of_ne_true hpinned
    · exact eq_false_of_ne_true hmarked

/-- The marks are those of the traced objects, none of which was traced twice, and the rounds that
were made and the work that is left are as many as the roots and the edges of these objects. -/
structure Accounts (m₀ : Memory) (start n : Nat) (s : Marking) : Prop where
  marked : Memory.MarkedFrom m₀ s.memory s.traced
  nodup : s.traced.Nodup
  rounds : n + s.work.length = start + (s.traced.map m₀.edgeCount).sum

theorem Accounts.round (h : Accounts m₀ start n s) (hround : s.Round s') :
    Accounts m₀ start (n + 1) s' := by
  cases hround with
  | @drop m traced v work =>
    refine ⟨h.marked, h.nodup, ?_⟩
    rw [Nat.add_assoc, Nat.add_comm 1]
    exact h.rounds
  | @trace m traced v work edges _ _ hmarked hedges =>
    have hnew : v.address ∉ traced := h.marked.not_mem_of_unmarked hmarked
    have hmarked' := h.marked.setMark hnew
    have hlength := hmarked'.length_edges hedges
    have hrounds : n + (work.length + 1) = start + (traced.map m₀.edgeCount).sum := h.rounds
    refine ⟨hmarked', List.nodup_cons.mpr ⟨hnew, h.nodup⟩, ?_⟩
    rw [List.length_append, List.length_reverse, List.map_cons, List.sum_cons]
    omega

theorem Accounts.run (h : Accounts m₀ start n s) (hrounds : Rounds k s t) :
    Accounts m₀ start (n + k) t := by
  induction hrounds generalizing n with
  | none s => exact h
  | @next k s s' t hround _ ih =>
    rw [Nat.add_comm k 1, ← Nat.add_assoc]
    exact ih (h.round hround)

end Marking

namespace Collection

variable {H : Type}

/-- On objects in order, marking ends, having traced each object that the roots reach and that is
not pinned, once, and no other: it takes as many rounds as there are roots and edges of these
objects, and wherever it is interrupted, the rounds that are missing lead to the same end. -/
theorem markRoots_traces_each_once {c : Collection H} (hm : c.heap.memory.Markable c.roots) :
    ∃ traced memory,
      markRoots c = .ok traced { c with heap := { c.heap with memory } } ∧
      traced.Nodup ∧
      (∀ a, a ∈ traced ↔
        c.heap.memory.Reaches c.roots a ∧ c.heap.memory.isPinned a = false) ∧
      let start : Marking := ⟨c.heap.memory, [], c.roots.reverse⟩
      let rounds := c.roots.length + (traced.map c.heap.memory.edgeCount).sum
      Marking.Rounds rounds start ⟨memory, traced, []⟩ ∧
        ∀ k s, Marking.Rounds k start s →
          k ≤ rounds ∧ Marking.Rounds (rounds - k) s ⟨memory, traced, []⟩ := by
  obtain ⟨h, roots, host⟩ := c
  obtain ⟨traced, memory, hmark, -, htraced⟩ := Memory.mark_reached hm
  obtain ⟨n, hrounds⟩ := Marking.rounds_of_mark _ _ _ hmark
  have hstart : Marking.Accounts h.memory roots.length 0 ⟨h.memory, [], roots.reverse⟩ := by
    refine ⟨fun b => rfl, List.nodup_nil, ?_⟩
    rw [Nat.zero_add, List.length_reverse]
    rfl
  have hend := hstart.run hrounds
  have hn : n = roots.length + (traced.map h.memory.edgeCount).sum := by
    rw [← hend.rounds, Nat.zero_add]
    rfl
  refine ⟨traced, memory, ?_, hend.nodup, htraced, ?_⟩
  · rw [markRoots_eq, hmark]
  · rw [← hn]
    exact ⟨hrounds, fun k s hs => hrounds.resume rfl hs⟩

theorem markRoots_traces_each_once_cycle :
    let memory := (((Memory.empty.writeAll 4096
      (ObjectImage.cell .pair (.reference 4096) (.reference 4120))).writeAll 4120
        [(Header.withLength .vector 2).word, (Value.reference 4096).raw,
          (Value.reference 65536).raw]).writeAll 4144
        (ObjectImage.cell .pair (.reference 4096) .nil)).writeAll 65536
        [(Header.pinned .builtin).word]
    let roots : List Value := [.reference 4120, .fixnum 1, .reference 4096, .reference 4120]
    let c : Collection Unit := ⟨{ (default : Heap) with memory }, roots, ()⟩
    memory.Markable roots ∧ ∃ traced memory',
      markRoots c = .ok traced { c with heap := { c.heap with memory := memory' } } ∧
      traced.Perm [4096, 4120] ∧
      Marking.Rounds 8 ⟨memory, [], roots.reverse⟩ ⟨memory', traced, []⟩ := by
  intro memory roots c
  let images := [(65536, [(Header.pinned .builtin).word]),
    (4144, ObjectImage.cell .pair (.reference 4096) .nil),
    (4120, [(Header.withLength .vector 2).word, (Value.reference 4096).raw,
      (Value.reference 65536).raw]),
    (4096, ObjectImage.cell .pair (.reference 4096) (.reference 4120))]
  have hclosed : Memory.IsClosed images [65536, 4120, 4096] roots := by decide +kernel
  have hm : memory.Markable roots := hclosed.markable (by decide +kernel)
  have hpinned : ∀ a, memory.isPinned a = (Memory.headerAt images a).hasFlag .pinned :=
    Memory.isPinned_ofImages images
  obtain ⟨traced, memory', hrun, hnodup, htraced, hrounds, -⟩ :=
    markRoots_traces_each_once (c := c) hm
  have hmem : ∀ a, a ∈ traced ↔ a ∈ [4096, 4120] := by
    intro a
    rw [htraced]
    constructor
    · rintro ⟨ha, hfree⟩
      rcases List.mem_cons.mp (hclosed.mem_of_reaches ha) with rfl | ha
      · exact absurd ((hpinned 65536).symm.trans hfree) (by decide +kernel)
      · exact List.mem_pair.mpr (List.mem_pair.mp ha).symm
    · intro ha
      rcases List.mem_pair.mp ha with rfl | rfl
      · exact ⟨.root (v := .reference 4096) (by simp [c, roots]) rfl,
          (hpinned 4096).trans (by decide +kernel)⟩
      · exact ⟨.root (v := .reference 4120) List.mem_cons_self rfl,
          (hpinned 4120).trans (by decide +kernel)⟩
  have hperm : traced.Perm [4096, 4120] :=
    (List.perm_ext_iff_of_nodup hnodup (by decide)).mpr hmem
  have hcount : ∀ a, memory.edgeCount a =
      ((Memory.slots? (Memory.headerAt images a) a).getD []).length := by
    intro a
    rw [Memory.edgeCount, ← Memory.header_ofImages]
    rfl
  have hsum : (traced.map memory.edgeCount).sum = 4 := by
    rw [(hperm.map memory.edgeCount).sum_eq, funext hcount]
    decide +kernel
  refine ⟨hm, traced, memory', hrun, hperm, ?_⟩
  change Marking.Rounds (4 + (traced.map memory.edgeCount).sum) _ _ at hrounds
  rwa [hsum] at hrounds

end Collection

end VmSupport
