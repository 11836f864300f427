import VmSupport.Proofs.Inventory

namespace VmSupport

open EStateM

namespace Inventory

def write (p : Inventory) (a i : Nat) (v : Value) : Inventory :=
  { p with
    toLedger := p.store a i v
    heap := { p.heap with memory := p.heap.memory.writeAll (a + 8 + 8 * i) [v.raw] } }

def place (p : Inventory) (a : Nat) (ws : List UInt64) : Inventory :=
  { p with
    toLedger := p.allocate a ws
    heap := { p.heap with memory := p.heap.memory.writeAll a ws } }

structure Clear (p : Inventory) (held : List Value) (start stop : Nat) : Prop where
  places : p.heap.Places p.cursors start stop
  apart : ∀ {a o}, p.heap.memory.Reaches held a → p.Holds a o → o.stop ≤ start ∨ stop ≤ o.address

theorem Clear.read_place {p : Inventory} {held : List Value} {a : Nat} {ws : List UInt64}
    (hclear : p.Clear held a (a + 8 * ws.length)) {b : Nat} {o : ObjectRecord}
    (hb : p.heap.memory.Reaches held b) (ho : p.Holds b o) : ∀ i < o.length,
      (p.heap.memory.writeAll a ws).read (b + 8 * i) = p.heap.memory.read (b + 8 * i) := by
  intro i hi
  have hapart := hclear.apart hb ho
  rw [ObjectRecord.stop, ho.address_eq] at hapart
  exact Memory.read_writeAll_of_ne _ _ fun j hj => by omega

namespace Sound

variable {p : Inventory} {held : List Value}

theorem target_ne (hs : p.Sound held) {a b i j : Nat} {o o' : ObjectRecord} (ho : p.Holds a o)
    (hi : i + 1 < o.length) (ho' : p.Holds b o') (hj : j < o'.length)
    (hne : ¬(b = a ∧ j = i + 1)) : a + 8 + 8 * i ≠ b + 8 * j := by
  by_cases hab : a = b
  · omega
  · have hstop : o.stop = a + 8 * o.length := by rw [ObjectRecord.stop, ho.address_eq]
    have hstop' : o'.stop = b + 8 * o'.length := by rw [ObjectRecord.stop, ho'.address_eq]
    have hapart := hs.apart ho ho' hab
    unfold ObjectRecord.Apart at hapart
    rw [hstop, hstop', ho.address_eq, ho'.address_eq] at hapart
    omega

theorem exists_holds_of_slot (hs : p.Sound held) {a b : Nat} {slots : List Nat}
    (ha : p.heap.memory.Reaches held a)
    (hslots : Memory.slots? (p.heap.memory.header a) a = some slots) (hb : b ∈ slots) :
    ∃ o, p.Holds a o ∧ ∃ i, 0 < i ∧ i < o.length ∧ b = a + 8 * i := by
  rcases hs.owned ha with hout | ⟨o, ho⟩
  · rw [(hs.outside hout).slots?_eq a] at hslots
    cases hslots
    exact absurd hb List.not_mem_nil
  · obtain ⟨slots', hslots', hbehind⟩ := ho.slots
    rw [hslots] at hslots'
    cases hslots'
    exact ⟨o, ho, hbehind b hb⟩

theorem outside_write (hs : p.Sound held) {a b i : Nat} {o : ObjectRecord} (ho : p.Holds a o)
    (hi : i + 1 < o.length) (v : Value) (hout : p.Outside b) :
    ((p.write a i v).heap.memory.header b).IsOutside := by
  have hne : a + 8 + 8 * i ≠ b := by
    have hout' := hs.outside_apart hout ho.places
    rw [ObjectRecord.stop, ho.address_eq] at hout'
    omega
  change ((p.heap.memory.write (a + 8 + 8 * i) v.raw).header b).IsOutside
  rw [Memory.header, Memory.read_write_of_ne _ _ hne]
  exact hs.outside hout

theorem read_write (hs : p.Sound held) {a b i j : Nat} {o o' : ObjectRecord} (ho : p.Holds a o)
    (hi : i + 1 < o.length) (v : Value) (ho' : p.Holds b o') (hj : j < o'.length)
    (hne : ¬(b = a ∧ j = i + 1)) :
    (p.write a i v).heap.memory.read (b + 8 * j) = p.heap.memory.read (b + 8 * j) :=
  Memory.read_write_of_ne _ _ (hs.target_ne ho hi ho' hj hne)

theorem readAll_write (hs : p.Sound held) {a b i : Nat} {o o' : ObjectRecord} (ho : p.Holds a o)
    (hi : i + 1 < o.length) (v : Value) (ho' : p.Holds b o') :
    (p.write a i v).heap.memory.readAll o'.address o'.length = (p.write a i v).contents o'.id ∧
      IsObject ((p.write a i v).contents o'.id) := by
  have hcontents : (p.write a i v).contents =
      Function.update p.contents o.id ((p.contents o.id).set (i + 1) v.raw) := by
    simp only [Inventory.write, Ledger.store, ho.owner_eq]
  rw [hcontents]
  by_cases hab : b = a
  · subst hab
    have hsame : o' = o := by
      have howner := ho'.owner_eq
      rw [ho.owner_eq] at howner
      exact (Option.some.inj howner).symm
    subst hsame
    rw [Function.update_self]
    refine ⟨?_, ho.object.set (Nat.succ_pos i) v.raw⟩
    have hlength : ((p.contents o'.id).set (i + 1) v.raw).length = o'.length := by
      rw [List.length_set, ho.length_eq]
    rw [← hlength, Memory.readAll_eq_iff, ho.address_eq]
    intro j hj
    rw [hlength] at hj
    rw [List.getElem_set]
    split
    · rename_i heq
      subst heq
      have haddress : b + 8 * (i + 1) = b + 8 + 8 * i := by omega
      rw [haddress]
      exact Memory.read_write_self _ _ _
    · rename_i hne
      have hold := ho.read_at hj
      rw [List.getElem?_eq_getElem (by rw [ho.length_eq]; exact hj)] at hold
      rw [← Option.some.inj hold]
      exact hs.read_write ho hi v ho hj fun h => hne h.2.symm
  · have hid : o'.id ≠ o.id := by
      intro hid
      apply hab
      rw [← ho'.address_eq, ← ho.address_eq, hs.eq_of_id ho'.mem ho.mem hid]
    rw [Function.update_of_ne hid]
    refine ⟨?_, ho'.object⟩
    rw [← ho'.read]
    apply Memory.readAll_congr
    rw [ho'.address_eq]
    exact fun j hj => hs.read_write ho hi v ho' hj fun h => hab h.1

theorem edges_write (hs : p.Sound held) {a b i : Nat} {o o' : ObjectRecord} {v : Value}
    (ho : p.Holds a o) (hi : i + 1 < o.length)
    (hv : v.isReference → p.heap.memory.Reaches held v.address)
    (hb : p.heap.memory.Reaches held b) (ho' : p.Holds b o') {vs : List Value}
    (hvs : (p.write a i v).heap.memory.edges? b = some vs) {w : Value} (hw : w ∈ vs)
    (href : w.isReference) : p.heap.memory.Reaches held w.address := by
  let m' := p.heap.memory.write (a + 8 + 8 * i) v.raw
  have hheader : m'.header b = p.heap.memory.header b := by
    have hfirst := hs.read_write ho hi v ho' ho'.length_pos (fun h => by omega)
    rw [Nat.mul_zero, Nat.add_zero] at hfirst
    exact congrArg Header.ofWord hfirst
  obtain ⟨slots, hslots, -⟩ := ho'.slots
  change m'.edges? b = some vs at hvs
  rw [Memory.edges?_eq, hheader, hslots] at hvs
  cases hvs
  obtain ⟨slot, hslot, rfl⟩ := List.mem_map.mp hw
  by_cases heq : a + 8 + 8 * i = slot
  · subst heq
    rw [Memory.read_write_self] at href ⊢
    exact hv href
  · rw [Memory.read_write_of_ne _ _ heq] at href ⊢
    have hold : p.heap.memory.edges? b =
        some (slots.map fun slot => ⟨p.heap.memory.read slot⟩) := by
      rw [Memory.edges?_eq, hslots]
      rfl
    exact Memory.Reaches.edge hb hold (List.mem_map_of_mem hslot) href

theorem write (hs : p.Sound held) {a i : Nat} {v : Value} (ha : p.heap.memory.Reaches held a)
    (hi : ∃ slots, Memory.slots? (p.heap.memory.header a) a = some slots ∧ a + 8 + 8 * i ∈ slots)
    (hv : v.isReference → p.heap.memory.Reaches held v.address) : (p.write a i v).Sound held := by
  obtain ⟨slots, hslots, hmem⟩ := hi
  obtain ⟨o, ho, j, -, hj, heq⟩ := hs.exists_holds_of_slot ha hslots hmem
  have hlt : i + 1 < o.length := by omega
  have hregular : (p.write a i v).heap.Regular p.arenas p.cursors p.threads :=
    hs.regular.withMemory _
  apply hs.advance hregular rfl (fun h => h) _ _ fun w hw href => Or.inl (.root hw href)
  · intro b hout
    exact hs.outside_write ho hlt v hout
  · intro b o' hb ho'
    obtain ⟨hread, hobject⟩ := hs.readAll_write ho hlt v ho'
    exact ⟨hread, hobject, ho'.places, fun vs hvs w hw href =>
      hs.edges_write ho hlt hv hb ho' hvs hw href⟩

variable {a : Nat} {ws : List UInt64}

theorem outside_writeAll (hs : p.Sound held) (hclear : p.Clear held a (a + 8 * ws.length)) {b : Nat}
    (hout : p.Outside b) : ((p.heap.memory.writeAll a ws).header b).IsOutside := by
  have hout' := hs.outside_apart hout hclear.places
  rw [Memory.header, Memory.read_writeAll_of_ne _ _ fun i hi => by omega]
  exact hs.outside hout

theorem ne_of_clear (hs : p.Sound held) {stop b : Nat} (hclear : p.Clear held a stop)
    (hlt : a < stop) (hb : p.heap.memory.Reaches held b) : b ≠ a := by
  rintro rfl
  rcases hs.owned hb with hout | ⟨o, ho⟩
  · have hout' := hs.outside_apart hout hclear.places
    omega
  · have hapart := hclear.apart hb ho
    have hlength := ho.length_pos
    rw [ObjectRecord.stop, ho.address_eq] at hapart
    omega

theorem owner_place (hs : p.Sound held) {stop b : Nat} (hclear : p.Clear held a stop)
    (hlt : a < stop) (hb : p.heap.memory.Reaches held b) : (p.place a ws).owner b = p.owner b := by
  have hne := hs.ne_of_clear hclear hlt hb
  exact List.find?_cons_of_neg (by simpa using Ne.symm hne)

theorem holds_new (hs : p.Sound held) (hobject : IsObject ws)
    (hclear : p.Clear held a (a + 8 * ws.length)) :
    (p.place a ws).Holds a ⟨p.objects.length, a, ws.length⟩ := by
  have hcontents : (p.place a ws).contents p.objects.length = ws := Function.update_self _ _ _
  refine ⟨List.find?_cons_of_pos (by simp), ?_, ?_, hclear.places, ?_⟩
  · change (p.heap.memory.writeAll a ws).readAll a ws.length = _
    rw [hcontents]
    exact Memory.readAll_writeAll _ a ws
  · rw [hcontents]
    exact hobject
  · intro o ho hid
    rcases List.mem_cons.mp ho with rfl | ho
    · exact absurd hid (Nat.lt_irrefl _)
    · exact absurd hid (Nat.lt_asymm (hs.id_lt o ho))

theorem holds_place (hs : p.Sound held) (hpos : 0 < ws.length)
    (hclear : p.Clear held a (a + 8 * ws.length)) {b : Nat} {o : ObjectRecord}
    (hb : p.heap.memory.Reaches held b) (ho : p.Holds b o) : (p.place a ws).Holds b o := by
  have hlt : a < a + 8 * ws.length := by omega
  have hcontents : (p.place a ws).contents o.id = p.contents o.id :=
    Function.update_of_ne (Nat.ne_of_lt (hs.id_lt o ho.mem)) _ _
  refine ⟨?_, ?_, ?_, ho.places, ?_⟩
  · rw [hs.owner_place hclear hlt hb]
    exact ho.owner_eq
  · rw [hcontents, ← ho.read]
    apply Memory.readAll_congr
    rw [ho.address_eq]
    exact hclear.read_place hb ho
  · rw [hcontents]
    exact ho.object
  · intro o' ho' hid
    rcases List.mem_cons.mp ho' with rfl | ho'
    · exact hclear.apart hb ho
    · exact ho.newest o' ho' hid

theorem reaches_place (hs : p.Sound held) (hclear : p.Clear held a (a + 8 * ws.length))
    (hedges : ∀ vs, (p.heap.memory.writeAll a ws).edges? a = some vs →
      ∀ w ∈ vs, w.isReference → w ∈ held)
    {v : Value} (hv : v.address = a) {b : Nat}
    (hb : (p.heap.memory.writeAll a ws).Reaches (v :: held) b) :
    p.heap.memory.Reaches held b ∨ b = a := by
  -- the new object leads to held values only, and older objects do not lead to it
  let P : Nat → Prop := fun b => p.heap.memory.Reaches held b ∨ b = a
  have hreached : P b := by
    refine Memory.Reaches.closed ?_ ?_ hb
    · intro w hw href
      rcases List.mem_cons.mp hw with rfl | hw
      · exact Or.inr hv
      · exact Or.inl (.root hw href)
    · intro c vs hc hvs w hw href
      left
      rcases hc with hc | rfl
      · rcases hs.owned hc with hout | ⟨o, ho⟩
        · rw [Memory.edges?_eq, (hs.outside_writeAll hclear hout).slots?_eq c] at hvs
          cases hvs
          exact absurd hw List.not_mem_nil
        · rw [ho.edges?_congr (hclear.read_place hc ho)] at hvs
          exact .edge hc hvs hw href
      · exact .root (hedges vs hvs w hw href) href
  exact hreached

theorem place (hs : p.Sound held) (hobject : IsObject ws)
    (hclear : p.Clear held a (a + 8 * ws.length))
    (hedges : ∀ vs, (p.heap.memory.writeAll a ws).edges? a = some vs →
      ∀ w ∈ vs, w.isReference → w ∈ held)
    {v : Value} (hv : v.address = a) : (p.place a ws).Sound (v :: held) := by
  refine ⟨hs.regular.withMemory _, ?_, ?_, fun hout => hs.outside_writeAll hclear hout, ?_⟩
  · exact List.pairwise_cons.mpr ⟨hs.id_lt, hs.ordered⟩
  · intro o ho
    rcases List.mem_cons.mp ho with rfl | ho
    · exact Nat.lt_succ_self _
    · exact Nat.lt_succ_of_lt (hs.id_lt o ho)
  · intro b hb
    rcases hs.reaches_place hclear hedges hv hb with hb | rfl
    · rcases hs.owned hb with hout | ⟨o, ho⟩
      · exact Or.inl hout
      · exact Or.inr ⟨o, hs.holds_place hobject.nonempty hclear hb ho⟩
    · exact Or.inr ⟨_, hs.holds_new hobject hclear⟩

theorem perm {cursors : List Cursor} (hs : p.Sound held) (hperm : cursors.Perm p.cursors) :
    Sound { p with cursors } held := by
  refine hs.carry (hs.regular.perm hperm) rfl rfl (fun h => h) hs.outside (fun _ _ _ _ => rfl) ?_
    fun w hw href => Or.inl (.root hw href)
  intro b o _ ho
  apply ho.places.mono
  intro c hc
  exact Or.inl ⟨c, hperm.mem_iff.mp hc, rfl, Nat.le_refl _⟩

theorem relog (hs : p.Sound held) (log : List LogRecord) :
    Sound { p with heap := { p.heap with log } } held := by
  obtain ⟨released, haccounts⟩ := hs.regular.accounts
  have hregular : Heap.Regular { p.heap with log } p.arenas p.cursors p.threads :=
    hs.regular.change ⟨rfl, rfl⟩ (fun _ h => h)
      ⟨released, haccounts.sameBlocks ⟨rfl, rfl, rfl, rfl, rfl⟩⟩ hs.regular.cursors
  exact hs.carry hregular rfl rfl (fun h => h) hs.outside (fun _ _ _ _ => rfl)
    (fun _ ho => ho.places) fun w hw href => Or.inl (.root hw href)

theorem mapAt (hs : p.Sound held) (place : Nat) :
    Sound { p with heap := { p.heap with nextMapping := place } } held :=
  hs.carry (hs.regular.mapAt place) rfl rfl (fun h => h) hs.outside (fun _ _ _ _ => rfl)
    (fun _ ho => ho.places) fun _ hw href => Or.inl (.root hw href)

theorem openArena (hs : p.Sound held) (hmap : p.heap.MayMapBeside p.threads pageSize)
    (number : Nat) (r : LogRecord) :
    Sound { p with
      heap := (p.heap.openArena.placePinned (Vm.threadImage number)).2.note r
      arenas := p.arenas + 1
      threads := p.heap.nextMapping :: p.threads } held := by
  have hlength : (Vm.threadImage number).length = 2 := rfl
  have hpage : alignUp pageSize pageSize = 4096 := rfl
  let t := p.heap.nextMapping
  let m' := p.heap.memory.writeAll t (Vm.threadImage number)
  have hread : ∀ {b}, b < t ∨ t + 4096 ≤ b → m'.read b = p.heap.memory.read b := by
    intro b hb
    exact Memory.read_writeAll_of_ne _ _ fun i hi => by omega
  refine hs.carry (hs.regular.openArena hmap _ r) rfl rfl ?_ ?_ ?_ ?_
    fun w hw href => Or.inl (.root hw href)
  · rintro b (hbuiltin | hb)
    · exact Or.inl hbuiltin
    · exact Or.inr (List.mem_cons_of_mem _ hb)
  · intro b hout
    change (m'.header b).IsOutside
    have hold : p.Outside b → (b < t ∨ t + 4096 ≤ b) → (m'.header b).IsOutside := by
      intro hout hb
      rw [Memory.header, hread hb]
      exact hs.outside hout
    rcases hout with ⟨id, hid, rfl⟩ | hb
    · have hoff := hmap.off_builtins id hid
      rw [hpage] at hoff
      exact hold (Or.inl ⟨id, hid, rfl⟩) hoff.symm
    · rcases List.mem_cons.mp hb with rfl | hb
      · right
        exact Memory.header_writeAll p.heap.memory p.heap.nextMapping _ _
      · have hoff := hmap.off_threads b hb
        rw [hpage] at hoff
        unfold pageSize at hoff
        exact hold (Or.inr hb) (by omega)
  · intro b o _ ho i hi
    have hoff := ho.places.apart_mapping hmap.toMayMap
    rw [ObjectRecord.stop, ho.address_eq, hpage] at hoff
    exact hread (by omega)
  · exact fun _ ho => ho.places

theorem outside_ne (hs : p.Sound held) {b t : Nat} (ht : t = 0 ∨ t ∈ p.threads)
    (hout : p.Outside b) :
    t + 8 ≠ b := by
  have hdvd : ∀ {t}, t = 0 ∨ t ∈ p.threads → 4096 ∣ t := by
    rintro t (rfl | ht)
    · exact Nat.dvd_zero _
    · exact (hs.regular.threads t ht).1.aligned
  have haligned := hdvd ht
  rcases hout with ⟨id, hid, rfl⟩ | hb
  · rcases ht with rfl | ht
    · unfold Builtin.address
      omega
    · have hoff := (hs.regular.threads t ht).1.off_builtins id hid
      unfold pageSize at hoff
      omega
  · have haligned' := hdvd (Or.inr hb)
    omega

theorem closeArena (hs : p.Sound held) {arenas : Nat} (harenas : p.arenas = arenas + 1)
    {arena : Arena} {others : List Cursor}
    (hcursors : p.cursors = arena.cursor.toList ++ others) {t : Nat} (ht : t = 0 ∨ t ∈ p.threads)
    (r : LogRecord) :
    Sound { p with
      heap := ({ p.heap with memory := p.heap.memory.write (t + 8) 0 }.note r).closeArena arena
      arenas
      cursors := others } held := by
  have hregular : (({ p.heap with memory := p.heap.memory.write (t + 8) 0 } : Heap).note r).Regular
      (arenas + 1) (arena.cursor.toList ++ others) p.threads := by
    rw [← harenas, ← hcursors]
    exact (hs.regular.withMemory _).note r
  have hread : ∀ {b}, t + 8 ≠ b →
      (p.heap.memory.write (t + 8) 0).read b = p.heap.memory.read b :=
    fun hne => Memory.read_write_of_ne _ _ hne
  refine hs.carry hregular.closeArena rfl rfl (fun h => h) ?_ ?_ ?_
    fun w hw href => Or.inl (.root hw href)
  · intro b hout
    change ((p.heap.memory.write (t + 8) 0).header b).IsOutside
    rw [Memory.header, hread (hs.outside_ne ht hout)]
    exact hs.outside hout
  · intro b o _ ho i hi
    apply hread
    have hpage : 16 ≤ pageSize := by decide
    rcases ht with rfl | ht
    · have hstart := ho.places.pageSize_le hs.regular
      rw [ho.address_eq] at hstart
      omega
    · have hapart := ho.places.thread_apart hs.regular ht
      rw [ObjectRecord.stop, ho.address_eq] at hapart
      omega
  · intro b o _ ho
    apply ho.places.mono
    intro c hc
    rw [hcursors]
    exact Or.inl ⟨c, List.mem_append_right _ hc, rfl, Nat.le_refl _⟩

end Sound

variable {R H : Type}

def after (p : Inventory) (others : List Cursor) (m : Mutator R H) : Inventory :=
  { p with heap := m.heap, cursors := m.arena.cursor.toList ++ others }

def surroundings (p : Inventory) (others : List Cursor) (roots : R) (held : List Value) :
    Surroundings R where
  arenas := p.arenas
  others
  threads := p.threads
  memory := p.heap.memory
  roots
  kept start stop := ∃ a o, p.heap.memory.Reaches held a ∧ p.Holds a o ∧ o.address = start ∧
    o.stop = stop

structure Outlasts (p : Inventory) (others : List Cursor) (held : List Value)
    (m m' : Mutator R H) : Prop where
  roots_eq : m'.roots = m.roots
  read : ∀ a, m'.heap.memory.read a = m.heap.memory.read a
  sound : (p.after others m').Sound held

namespace Sound

variable {p : Inventory} {others : List Cursor} {held : List Value} {m m' : Mutator R H}

theorem safe (hs : (p.after others m).Sound held) :
    Mutator.Safe ((p.after others m).surroundings others m.roots held) m := by
  refine ⟨hs.regular, fun _ => rfl, rfl, ?_⟩
  rintro start stop ⟨a, o, -, ho, rfl, rfl⟩
  exact ho.places

theorem outlasts (hs : (p.after others m).Sound held)
    (hm : Mutator.Safe ((p.after others m).surroundings others m.roots held) m') :
    p.Outlasts others held m m' := by
  refine ⟨hm.roots_eq, hm.read, ?_⟩
  refine hs.carry hm.regular rfl rfl (fun h => h) ?_ (fun _ _ _ _ => hm.read _) ?_
    fun w hw href => Or.inl (.root hw href)
  · intro a hout
    change (m'.heap.memory.header a).IsOutside
    rw [Memory.header, hm.read]
    exact hs.outside hout
  · intro a o ha ho
    exact hm.placed ⟨a, o, ha, ho, rfl, rfl⟩

variable [RootSet R]

theorem rooted (hs : (p.after others m).Sound held) (hroots : RootSet.toList m.roots ⊆ held)
    (hall : p.arenas ≤ 1 → held ⊆ RootSet.toList m.roots) :
    ((p.after others m).surroundings others m.roots held).Rooted := by
  refine ⟨?_, ?_, ?_⟩
  · rintro start stop ⟨a, o, -, ho, rfl, rfl⟩
    have hpos := ho.length_pos
    unfold ObjectRecord.stop
    omega
  · intro _
    exact (hs.mono fun v hv href => Or.inl (.root (hroots hv) href)).markable
  · rintro hone start stop ⟨a, o, ha, ho, rfl, rfl⟩
    rw [ho.address_eq]
    exact ⟨ha.mono (hall hone), ho.unpinned⟩

variable [LawfulRootSet R]

theorem collect (hs : (p.after others m).Sound held) (hroots : RootSet.toList m.roots ⊆ held)
    (hall : p.arenas ≤ 1 → held ⊆ RootSet.toList m.roots) :
    p.Outlasts others held m (Mutator.collect .blocks m).state :=
  hs.outlasts ((Mutator.collect_safe (hs.rooted hroots hall)).state hs.safe)

theorem allocate (hs : (p.after others m).Sound held) (hroots : RootSet.toList m.roots ⊆ held)
    (hall : p.arenas ≤ 1 → held ⊆ RootSet.toList m.roots) {size : Nat} (hsize : 8 ∣ size)
    (hmap : m.heap.settings.largeSize ≤ size → m.heap.MayMapBeside p.threads size) :
    match Mutator.allocate .blocks (.ofWords size) m with
    | .ok a m' => p.Outlasts others held m m' ∧ 8 ∣ a ∧ a + size ≤ Mapping.addressLimit ∧
        (p.after others m').Clear held a (a + size)
    | .error _ m' => p.Outlasts others held m m' := by
  have hallocate := Mutator.allocate_safe (H := H) (hs.rooted hroots hall) hsize m ⟨hs.safe, hmap⟩
  cases hr : Mutator.allocate .blocks (.ofWords size) m with
  | error f m' =>
    rw [hr] at hallocate
    exact hs.outlasts hallocate
  | ok a m' =>
    rw [hr] at hallocate
    obtain ⟨hm, hroom⟩ := hallocate
    have houtlasts := hs.outlasts hm
    refine ⟨houtlasts, hroom.aligned, hroom.stop_le, hroom.places, ?_⟩
    intro b o hb ho
    have hb' : (p.after others m).heap.memory.Reaches held b := hb.congr hm.read
    obtain ⟨o', ho'⟩ := (hs.owned hb').resolve_left (houtlasts.sound.not_outside ho)
    have hsame : o = o' := by
      apply Option.some.inj
      rw [← ho.owner_eq, ← ho'.owner_eq]
      rfl
    subst hsame
    exact hroom.apart ⟨b, o, hb', ho', rfl, rfl⟩

end Sound

end Inventory

end VmSupport
