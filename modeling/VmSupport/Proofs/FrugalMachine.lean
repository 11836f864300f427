import VmSupport.Proofs.AscendingMappings
import VmSupport.Proofs.ThriftyAllocation

namespace VmSupport

open EStateM

namespace HeapSettings

def Excuses (s : HeapSettings) (e : Exit RuntimeError) : Prop :=
  e = .fault .additionOverflow ∨
    ∃ size, s.largeSize ≤ size ∧ e = .fault (.largeObjectNotMapped size)

end HeapSettings

namespace Heap

variable {h : Heap} {arena : Arena} {largest bytes : Nat} {reached reached' : Nat → Prop}

theorem IsPacked.mono (hp : h.IsPacked arena largest bytes reached)
    (hreached : ∀ b, reached' b → reached b) : h.IsPacked arena largest bytes reached' := by
  obtain ⟨filled, hfilled, hbytes⟩ := hp
  exact ⟨filled, fun b hb => hfilled b (hreached b hb), hbytes⟩

theorem IsReached.mono {roots roots' : List Value} {b : Nat} (hb : h.IsReached roots b)
    (hroots : ∀ v ∈ roots, v.isReference → v ∈ roots') : h.IsReached roots' b := by
  obtain ⟨a, ha, hin, hblock⟩ := hb
  exact ⟨a, ha.of_reached fun v hv href => .root (hroots v hv href) href, hin, hblock⟩

end Heap

namespace Machine

variable {H : Type} {settings : HeapSettings} {largest bytes total : Nat} {m m' : Machine H}
  {pushed set fresh : List Value}

structure Frugal (settings : HeapSettings) (largest bytes : Nat) (fresh : List Value)
    (m : Machine H) : Prop where
  sound : ∃ p : Inventory, p.arenas = 1 ∧ m.vm.heap.Follows p.threads ∧
    (p.after [] (m.mutator [])).Sound (fresh ++ m.kept)
  packed : m.vm.heap.IsPacked m.context.arena largest bytes (m.vm.heap.IsReached (fresh ++ m.kept))
  settings_eq : m.vm.heap.settings = settings
  plain : ∀ v, m.Aside v → v.isReference = false

namespace Frugal

theorem retains (h : Frugal settings largest bytes fresh m) (hm : Retains pushed set m m')
    (hpushed : ∀ v ∈ pushed, v.isReference → v ∈ fresh)
    (hset : ∀ v ∈ set, v.isReference = false) : Frugal settings largest bytes [] m' := by
  have hkept : ∀ v ∈ [] ++ m'.kept, v.isReference → v ∈ fresh ++ m.kept := by
    intro v hv href
    rcases hm.kept hv with hv | hv
    · rcases List.mem_append.mp hv with hv | hv
      · exact List.mem_append_left _ (hpushed v hv href)
      · rw [hset v hv] at href
        contradiction
    · exact List.mem_append_right _ hv
  obtain ⟨log, hheap⟩ := hm.heap_eq
  obtain ⟨p, hone, hf, hs⟩ := h.sound
  constructor
  · refine ⟨p, hone, ?_, ?_⟩
    · rw [hheap]
      exact hf.change ⟨rfl, rfl⟩ (fun _ hm => hm) (Nat.le_refl _) hf.aligned
    · unfold Inventory.after mutator
      rw [hheap, hm.arena_eq]
      exact (hs.relog log).mono fun v hv href => Or.inl (.root (hkept v hv href) href)
  · rw [hheap, hm.arena_eq]
    exact h.packed.mono fun b hb => Heap.IsReached.mono hb hkept
  · rw [hheap]
    exact h.settings_eq
  · intro v hv
    rcases hm.aside v hv with hv | hv
    · exact hset v hv
    · exact h.plain v hv

theorem of_empty {held : List Value}
    (hsound : ∃ p : Inventory, p.arenas = 1 ∧ m.vm.heap.Follows p.threads ∧
      (p.after [] (m.mutator [])).Sound held)
    (hsettings : m.vm.heap.settings = settings)
    (hplain : ∀ v, m.Aside v → v.isReference = false) (hstack : m.context.stack = #[]) :
    Frugal settings largest 0 [] m := by
  have hnone : ∀ v ∈ m.kept, ¬v.isReference := by
    intro v hv href
    rcases mem_kept_iff.mp hv with hv | hv
    · rw [hstack] at hv
      exact Array.not_mem_empty v hv
    · rw [hplain v hv] at href
      contradiction
  obtain ⟨p, hone, hf, hs⟩ := hsound
  refine ⟨⟨p, hone, hf, hs.mono fun v hv href => absurd href (hnone v hv)⟩, ⟨[], ?_, ?_⟩, hsettings,
    hplain⟩
  · rintro b ⟨a, ha, -⟩
    let P : Nat → Prop := fun _ => b ∈ []
    have hreached : P a :=
      Memory.Reaches.closed (fun v hv href => absurd href (hnone v hv))
        (fun _ _ hmem _ _ _ _ => hmem) ha
    exact Or.inl hreached
  · exact fun hne => absurd rfl hne

theorem mapAt (h : Frugal settings largest bytes fresh m) {place : Nat}
    (hle : m.vm.heap.nextMapping ≤ place) (haligned : pageSize ∣ place) :
    Frugal settings largest bytes fresh { m with vm := m.vm.mapAt place } := by
  obtain ⟨⟨p, hone, hf, hs⟩, hpacked, hsettings, hplain⟩ := h
  exact ⟨⟨p, hone, hf.change ⟨rfl, rfl⟩ (fun _ hm => hm) hle haligned, hs.mapAt place⟩, hpacked,
    hsettings, hplain⟩

theorem reset (h : Frugal settings largest bytes fresh m) (hstack : m.context.stack = #[]) :
    Frugal settings largest 0 [] m := of_empty h.sound h.settings_eq h.plain hstack

section Allocation

variable {env : Embedder H} {request : ObjectRequest} {p : Inventory} {operands : List Value}

theorem provided (hone : p.arenas = 1)
    (hs : (p.after [] (m.mutator operands)).Sound (operands ++ m.kept))
    (hafford : m.vm.heap.settings.Affords largest total) :
    Mutator.Provided p.threads largest total (m.mutator operands) := by
  refine ⟨?_, ?_, hafford⟩
  · have hregular : (m.mutator operands).heap.Regular p.arenas
        ((m.mutator operands).arena.cursor.toList ++ []) p.threads := hs.regular
    rwa [hone, List.append_nil] at hregular
  · rw [toList_mutator]
    exact hs.markable

theorem packed_place {h₀ : Heap} {arena : Arena} {held : List Value} {a : Nat} {ws : List UInt64}
    (hs : p.Sound held) (hclear : p.Clear held a (a + 8 * ws.length))
    (hedges : ∀ vs, (p.heap.memory.writeAll a ws).edges? a = some vs →
      ∀ w ∈ vs, w.isReference → w ∈ held)
    (hread : ∀ b, p.heap.memory.read b = h₀.memory.read b) (hregion : h₀.SameRegion p.heap)
    (hpacked : p.heap.IsPacked arena largest bytes (h₀.IsReached held))
    (hblock : p.heap.contains a → p.heap.blockOf a ∈ arena.blocks) {v : Value}
    (hv : v.address = a) :
    (p.place a ws).heap.IsPacked arena largest bytes
      ((p.place a ws).heap.IsReached (v :: held)) := by
  obtain ⟨filled, hfilled, hbytes⟩ := hpacked
  refine ⟨filled, ?_, hbytes⟩
  rintro b ⟨c, hc, hin, rfl⟩
  rcases hs.reaches_place hclear hedges hv hc with hc | rfl
  · apply hfilled
    refine ⟨c, hc.congr hread, ?_, ?_⟩
    · rwa [Heap.contains, ← hregion.start, ← hregion.settings]
    · rw [Heap.blockOf, Heap.blockOf, ← hregion.start, ← hregion.settings]
      rfl
  · exact Or.inr (hblock hin)

structure Allocated (settings : HeapSettings) (largest bytes : Nat) (request : ObjectRequest)
    (m : Machine H) (v : Value) (m' : Machine H) : Prop where
  frugal : Frugal settings largest bytes [v] m'
  rest_eq : ∃ x, m' = m.withMutator x
  isReference : v.isReference
  header_eq : m'.vm.heap.memory.header v.address = headerOf request.image

theorem allocated {x : Mutator ContextRoots H} {a : Nat} (hone : p.arenas = 1)
    (hf : x.heap.Follows p.threads)
    (htyped : request.IsTyped) (haligned : 8 ∣ a)
    (hstop : a + 8 * request.image.length ≤ Mapping.addressLimit)
    (houtlasts : p.Outlasts [] (request.operands ++ m.kept) (m.mutator request.operands) x)
    (hclear : (p.after [] x).Clear (request.operands ++ m.kept) a (a + 8 * request.image.length))
    (hregion : m.vm.heap.SameRegion x.heap)
    (hpacked : x.heap.IsPacked x.arena largest bytes
      (m.vm.heap.IsReached (request.operands ++ m.kept)))
    (hblock : x.heap.contains a → x.heap.blockOf a ∈ x.arena.blocks)
    (hplain : ∀ v, m.Aside v → v.isReference = false) :
    Allocated m.vm.heap.settings largest bytes request m (.reference a)
      (writeWords a request.image (m.withMutator x)).state := by
  have hobject := ObjectRequest.isObject_image htyped
  have hpos := hobject.nonempty
  have haddress : (Value.reference a).address = a :=
    Value.address_reference haligned (by unfold Mapping.addressLimit at hstop; omega)
  have hedges : ∀ vs, (x.heap.memory.writeAll a request.image).edges? a = some vs →
      ∀ w ∈ vs, w.isReference → w ∈ request.operands ++ m.kept := fun vs hvs w hw href =>
    List.mem_append_left _ (ObjectRequest.mem_operands_of_edge htyped hvs hw href)
  have hplaced := houtlasts.sound.place hobject hclear hedges haddress
  have hpacked' := packed_place houtlasts.sound hclear hedges houtlasts.read hregion hpacked
    hblock haddress
  have hshrink : ∀ v ∈ Value.reference a :: m.kept, v.isReference →
      v ∈ Value.reference a :: (request.operands ++ m.kept) := by
    intro v hv _
    rcases List.mem_cons.mp hv with rfl | hv
    · exact List.mem_cons_self
    · exact List.mem_cons_of_mem _ (List.mem_append_right _ hv)
  refine ⟨⟨⟨{ p with toLedger := p.allocate a request.image }, hone, ?_, ?_⟩, ?_,
      hregion.settings, hplain⟩,
    ⟨{ x with heap := { x.heap with memory := x.heap.memory.writeAll a request.image } }, rfl⟩,
    Value.isReference_reference haligned, ?_⟩
  · exact hf.change ⟨rfl, rfl⟩ (fun _ hm => hm) (Nat.le_refl _) hf.aligned
  · exact hplaced.mono fun v hv href => Or.inl (.root (hshrink v hv href) href)
  · exact hpacked'.mono fun b hb => Heap.IsReached.mono hb hshrink
  · rw [haddress]
    exact Memory.header_writeAll_of_pos x.heap.memory a hpos

theorem allocate (henv : env.collector = .blocks) (hafford : settings.Affords largest total)
    (hle : bytes ≤ total) (htyped : request.IsTyped) (hfits : request.Fits)
    (hsize : request.size < settings.largeSize → request.size ≤ largest)
    (hoperands : ∀ v ∈ request.operands, v.isReference → v ∈ m.kept)
    (h : Frugal settings largest bytes [] m) :
    match request.perform env m with
    | .ok v m' =>
      Allocated settings largest (bytes + settings.blockBytes request.size) request m v m'
    | .error e _ => settings.Excuses e := by
  obtain ⟨⟨p, hone, hf, hs⟩, hpacked, rfl, hplain⟩ := h
  have hheld : ∀ v ∈ request.operands ++ m.kept, v.isReference → v ∈ m.kept := by
    intro v hv href
    rcases List.mem_append.mp hv with hv | hv
    · exact hoperands v hv href
    · exact hv
  have hs' : (p.after [] (m.mutator request.operands)).Sound (request.operands ++ m.kept) :=
    hs.mono fun v hv href => Or.inl (.root (hheld v hv href) href)
  have hroots := toList_mutator m request.operands
  have hsame := List.Perm.of_eq hroots
  have hpacked' : m.vm.heap.IsPacked m.context.arena largest bytes
      (m.vm.heap.IsReached (RootSet.toList (m.mutator request.operands).roots)) := by
    rw [hroots]
    exact hpacked.mono fun b hb => Heap.IsReached.mono hb hheld
  have hlength := request.length_image_iff.mpr hfits
  have hpos : 0 < request.size := by
    have hnonempty := (ObjectRequest.isObject_image htyped).nonempty
    omega
  have hmap := hf.mayMapBeside request.size
  have hkeeps := hs'.allocate hsame.subset (fun _ => hsame.symm.subset) request.dvd_size
    fun _ => hmap
  have hfollows := Mutator.follows_allocate (m := m.mutator request.operands)
    (l := .ofWords request.size) (Nat.succ_pos _) hf
  have hthrifty := Mutator.allocate_thrifty (H := H) (provided hone hs' hafford) hle hpacked'
    request.dvd_size hpos hsize (fun _ => hmap.toMayMap) _ rfl
  rw [request.perform_eq]
  cases hr : Mutator.allocate .blocks (.ofWords request.size) (m.mutator request.operands) with
  | error f x =>
    rw [hr] at hkeeps hthrifty
    rw [← henv] at hr
    rw [allocateObject_error hr hkeeps.roots_eq]
    rcases hthrifty with rfl | ⟨hlarge, rfl⟩
    · exact Or.inl rfl
    · exact Or.inr ⟨_, hlarge, rfl⟩
  | ok a x =>
    rw [hr] at hkeeps hthrifty hfollows
    obtain ⟨houtlasts, haligned, hstop, hclear⟩ := hkeeps
    obtain ⟨hregion, hpacked'', hblock⟩ := hthrifty
    rw [← henv] at hr
    rw [allocateObject_ok hr houtlasts.roots_eq]
    rw [← hlength] at hstop hclear
    rw [hroots] at hpacked''
    exact allocated hone hfollows htyped haligned hstop houtlasts hclear hregion hpacked'' hblock
      hplain

end Allocation

end Frugal

end Machine

end VmSupport
