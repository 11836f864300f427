import VmSupport.Binding.Descriptor
import VmSupport.Keyword.Registry
import VmSupport.Proofs.ValueEncoding

namespace VmSupport

namespace Value

theorem keyword_inj {id id' : UInt32} : keyword id = keyword id' ↔ id = id' := by
  constructor
  · intro h
    apply Option.some.inj
    rw [← keywordId?_keyword, h, keywordId?_keyword]
  · exact congrArg keyword

end Value

def CallDescriptor.withKeywords (d : CallDescriptor) (slots : List (Value × UInt32)) :
    Except Fault CallDescriptor :=
  slots.foldlM (fun d (keyword, slot) => d.withKeyword keyword slot) d

theorem CallDescriptor.entries_withKeywords {d d' : CallDescriptor}
    {entries : List (UInt32 × UInt32)}
    (h : d.withKeywords (entries.map fun (id, slot) => (Value.keyword id, slot)) = .ok d') :
    d'.keywords.entries = d.keywords.entries ++ entries := by
  induction entries generalizing d with
  | nil =>
    cases h
    rw [List.append_nil]
  | cons entry entries ih =>
    obtain ⟨id, slot⟩ := entry
    change (d.withKeyword (Value.keyword id) slot >>= fun d =>
      d.withKeywords (entries.map fun (id, slot) => (Value.keyword id, slot))) = .ok d' at h
    simp only [withKeyword, Value.keywordId?_keyword] at h
    split at h
    · have hrest := ih h
      rw [hrest, List.append_assoc]
      rfl
    · contradiction

namespace KeywordRegistry

inductive Operation
  | intern (name : String)
  | lookup (name : String)
  | nameOf (keyword : Value)

def perform (r : KeywordRegistry) : Operation → KeywordRegistry
  | .intern name => (r.intern name).2
  | .lookup _ | .nameOf _ => r

def run (ops : List Operation) : KeywordRegistry := ops.foldl perform empty

def Operation.interned? : Operation → Option String
  | .intern name => some name
  | .lookup _ | .nameOf _ => none

def internedNames (ops : List Operation) : List String :=
  (ops.filterMap Operation.interned?).eraseDups

variable {ops more : List Operation} {r : KeywordRegistry} {ns : List String} {name : String}

theorem mem_internedNames : name ∈ internedNames ops ↔ .intern name ∈ ops := by
  rw [internedNames, List.mem_eraseDups, List.mem_filterMap]
  constructor
  · rintro ⟨op, hop, h⟩
    cases op with
    | intern name' =>
      cases h
      exact hop
    | lookup | nameOf => contradiction
  · intro h
    exact ⟨_, h, rfl⟩

theorem getElem?_internedNames_append {i : Nat} (more : List Operation)
    (hi : (internedNames ops)[i]? = some name) :
    (internedNames (ops ++ more))[i]? = some name := by
  obtain ⟨hlt, -⟩ := List.getElem?_eq_some_iff.mp hi
  unfold internedNames at hi hlt ⊢
  rw [List.filterMap_append, List.eraseDups_append, List.getElem?_append_left hlt, hi]

theorem run_append_singleton (ops : List Operation) (op : Operation) :
    run (ops ++ [op]) = (run ops).perform op := by
  simp only [run, List.foldl_append, List.foldl_cons, List.foldl_nil]

theorem eraseDups_append_singleton (names : List String) (name : String) :
    (names ++ [name]).eraseDups =
      if name ∈ names then names.eraseDups else names.eraseDups ++ [name] := by
  rw [List.eraseDups_append, List.removeAll, List.filter_cons, List.filter_nil]
  by_cases h : name ∈ names
  · simp [h]
  · simp [h, List.eraseDups_cons]

theorem internedNames_append_intern (ops : List Operation) (name : String) :
    internedNames (ops ++ [.intern name]) =
      if name ∈ internedNames ops then internedNames ops else internedNames ops ++ [name] := by
  simp only [internedNames, List.mem_eraseDups]
  rw [← eraseDups_append_singleton, List.filterMap_append]
  rfl

theorem internedNames_append_of_none (ops : List Operation) {op : Operation}
    (h : op.interned? = none) : internedNames (ops ++ [op]) = internedNames ops := by
  simp only [internedNames, List.filterMap_append, List.filterMap_cons, h, List.filterMap_nil,
    List.append_nil]

theorem lookup?_eq_some {v : Value} :
    r.lookup? name = some v ↔ ∃ id, r.ids[name]? = some id ∧ Value.keyword id = v :=
  Option.map_eq_some_iff

theorem lookup?_intern (r : KeywordRegistry) (name : String) :
    (r.intern name).2.lookup? name = some (r.intern name).1 := by
  cases h : r.lookup? name with
  | some v => simp only [intern, h]
  | none =>
    have hids : r.ids[name]? = none := Option.map_eq_none_iff.mp h
    simp only [intern, h, getOrAdd, hids]
    simp [lookup?]

structure Numbers (r : KeywordRegistry) (ns : List String) : Prop where
  names_eq : r.names.toList = ns
  nodup : ns.Nodup
  ids : ∀ {name id}, r.ids[name]? = some id ↔ ∃ i, ns[i]? = some name ∧ id = UInt32.ofNat i

namespace Numbers

theorem empty : empty.Numbers [] := ⟨rfl, List.nodup_nil, by simp [KeywordRegistry.empty]⟩

variable {i : Nat}

theorem size_eq (h : r.Numbers ns) : r.size = ns.length := by
  rw [← h.names_eq, Array.length_toList, size]

theorem index_inj (h : r.Numbers ns) {j : Nat} (hi : ns[i]? = some name) (hj : ns[j]? = some name) :
    i = j := by
  obtain ⟨hlt, -⟩ := List.getElem?_eq_some_iff.mp hi
  exact (List.getElem?_inj hlt h.nodup).mp (hi.trans hj.symm)

theorem ids_eq_none (h : r.Numbers ns) (hname : name ∉ ns) : r.ids[name]? = none := by
  rw [Option.eq_none_iff_forall_ne_some]
  intro id hid
  obtain ⟨i, hi, -⟩ := h.ids.mp hid
  exact hname (List.mem_of_getElem? hi)

theorem lookup?_eq (h : r.Numbers ns) (hi : ns[i]? = some name) :
    r.lookup? name = some (Value.keyword (UInt32.ofNat i)) :=
  lookup?_eq_some.mpr ⟨_, h.ids.mpr ⟨i, hi, rfl⟩, rfl⟩

theorem intern_eq (h : r.Numbers ns) (hi : ns[i]? = some name) :
    r.intern name = (Value.keyword (UInt32.ofNat i), r) := by
  simp only [intern, h.lookup?_eq hi]

theorem mem_of_lookup? (h : r.Numbers ns) {v : Value} (hv : r.lookup? name = some v) :
    name ∈ ns := by
  obtain ⟨id, hid, -⟩ := lookup?_eq_some.mp hv
  obtain ⟨i, hi, -⟩ := h.ids.mp hid
  exact List.mem_of_getElem? hi

theorem getElem?_concat_eq_some {name' : String} :
    (ns ++ [name])[i]? = some name' ↔ ns[i]? = some name' ∨ i = ns.length ∧ name = name' := by
  rcases Nat.lt_trichotomy i ns.length with hlt | rfl | hgt
  · simp only [List.getElem?_append_left hlt, hlt.ne, false_and, or_false]
  · simp only [List.getElem?_concat_length, Option.some.injEq, List.getElem?_eq_none le_rfl,
      reduceCtorEq, true_and, false_or]
  · have hle : (ns ++ [name]).length ≤ i := by
      rw [List.length_append]
      exact hgt
    simp only [List.getElem?_eq_none hle, List.getElem?_eq_none hgt.le, hgt.ne', reduceCtorEq,
      false_and, or_false]

theorem push (h : r.Numbers ns) (hname : name ∉ ns) : (r.intern name).2.Numbers (ns ++ [name]) := by
  have hids := h.ids_eq_none hname
  have hintern : (r.intern name).2 =
      ⟨r.names.push name, r.ids.insert name (UInt32.ofNat ns.length)⟩ := by
    simp only [intern, lookup?, hids, Option.map_none, getOrAdd, h.size_eq]
  rw [hintern]
  refine ⟨?_, ?_, fun {name' id} => ?_⟩
  · rw [Array.toList_push, h.names_eq]
  · exact List.nodup_append.mpr ⟨h.nodup, List.nodup_singleton name, fun a ha b hb hab =>
      hname (List.mem_singleton.mp hb ▸ hab ▸ ha)⟩
  · rw [Std.HashMap.getElem?_insert]
    simp only [getElem?_concat_eq_some]
    by_cases hsame : name = name'
    · subst hsame
      rw [if_pos (beq_self_eq_true _), Option.some.injEq]
      constructor
      · rintro rfl
        exact ⟨ns.length, Or.inr ⟨rfl, rfl⟩, rfl⟩
      · rintro ⟨i, hi | ⟨rfl, -⟩, rfl⟩
        · exact absurd (List.mem_of_getElem? hi) hname
        · rfl
    · rw [if_neg (by simpa using hsame), h.ids]
      constructor
      · rintro ⟨i, hi, rfl⟩
        exact ⟨i, Or.inl hi, rfl⟩
      · rintro ⟨i, hi | ⟨-, rfl⟩, rfl⟩
        · exact ⟨i, hi, rfl⟩
        · exact absurd rfl hsame

theorem name?_eq (h : r.Numbers ns) (v : Value) :
    r.name? v = v.keywordId?.bind fun id => ns[id.toNat]? := by
  rw [name?, ← h.names_eq]
  simp only [Array.getElem?_toList]

theorem getElem?_iff (h : r.Numbers ns) (hfew : ns.length ≤ 2 ^ 32) {id : UInt32} :
    ns[id.toNat]? = some name ↔ r.lookup? name = some (Value.keyword id) := by
  constructor
  · intro hid
    rw [h.lookup?_eq hid, UInt32.ofNat_toNat]
  · intro hlookup
    obtain ⟨id', hid', heq⟩ := lookup?_eq_some.mp hlookup
    rw [Value.keyword_inj] at heq
    subst heq
    obtain ⟨i, hi, rfl⟩ := h.ids.mp hid'
    obtain ⟨hlt, -⟩ := List.getElem?_eq_some_iff.mp hi
    rwa [UInt32.toNat_ofNat', Nat.mod_eq_of_lt (by omega)]

theorem name?_eq_some (h : r.Numbers ns) (hfew : ns.length ≤ 2 ^ 32) {v : Value} :
    r.name? v = some name ↔
      ∃ id, v.keywordId? = some id ∧ r.lookup? name = some (Value.keyword id) := by
  simp only [h.name?_eq, Option.bind_eq_some_iff, h.getElem?_iff hfew]

theorem keyword_eq_iff (h : r.Numbers ns) (hfew : ns.length ≤ 2 ^ 32) {name' : String} {v v' : Value}
    (hv : r.lookup? name = some v) (hv' : r.lookup? name' = some v') : v = v' ↔ name = name' := by
  obtain ⟨id, -, rfl⟩ := lookup?_eq_some.mp hv
  obtain ⟨id', -, rfl⟩ := lookup?_eq_some.mp hv'
  have hid := (h.getElem?_iff hfew).mpr hv
  have hid' := (h.getElem?_iff hfew).mpr hv'
  constructor
  · intro heq
    rw [Value.keyword_inj.mp heq, hid'] at hid
    exact (Option.some.inj hid).symm
  · rintro rfl
    rw [hv] at hv'
    exact Option.some.inj hv'

theorem lookup_ids (h : r.Numbers ns) (hfew : ns.length ≤ 2 ^ 32) {idOf : String → UInt32}
    {slots : List (String × UInt32)}
    (hslots : ∀ entry ∈ slots, r.lookup? entry.1 = some (Value.keyword (idOf entry.1)))
    (id : UInt32) :
    (slots.map fun (name, slot) => (idOf name, slot)).lookup id =
      ns[id.toNat]?.bind fun name => slots.lookup name := by
  induction slots with
  | nil => cases ns[id.toNat]? <;> rfl
  | cons entry slots ih =>
    obtain ⟨name, slot⟩ := entry
    have hname := (h.getElem?_iff hfew).mpr (hslots _ List.mem_cons_self)
    have hrest := ih fun entry hentry => hslots entry (List.mem_cons_of_mem _ hentry)
    simp only [List.map_cons, List.lookup_cons]
    by_cases hid : id = idOf name
    · subst hid
      simp only [hname, Option.bind_some, beq_self_eq_true]
    · rw [beq_false_of_ne hid, hrest]
      cases hget : ns[id.toNat]? with
      | none => rfl
      | some name' =>
        have hne : name' ≠ name := by
          rintro rfl
          exact hid (UInt32.toNat_inj.mp (h.index_inj hget hname))
        simp only [Option.bind_some, beq_false_of_ne hne]

end Numbers

theorem numbers_run (ops : List Operation) : (run ops).Numbers (internedNames ops) := by
  induction ops using List.reverseRecOn with
  | nil => exact Numbers.empty
  | append_singleton ops op ih =>
    rw [run_append_singleton]
    cases op with
    | intern name =>
      rw [internedNames_append_intern, perform]
      split
      · rename_i hmem
        obtain ⟨i, hi⟩ := List.getElem?_of_mem hmem
        rw [ih.intern_eq hi]
        exact ih
      · rename_i hnew
        exact ih.push hnew
    | lookup | nameOf =>
      rw [internedNames_append_of_none ops rfl]
      exact ih

theorem lookup?_run_append (hname : .intern name ∈ ops) (more : List Operation) :
    (run (ops ++ more)).lookup? name = (run ops).lookup? name := by
  obtain ⟨i, hi⟩ := List.getElem?_of_mem (mem_internedNames.mpr hname)
  have hlater := getElem?_internedNames_append more hi
  rw [(numbers_run ops).lookup?_eq hi, (numbers_run (ops ++ more)).lookup?_eq hlater]

theorem name?_run_append {v : Value} (hv : (run ops).name? v = some name) (more : List Operation) :
    (run (ops ++ more)).name? v = some name := by
  rw [(numbers_run _).name?_eq, Option.bind_eq_some_iff] at hv ⊢
  obtain ⟨id, hid, hi⟩ := hv
  exact ⟨id, hid, getElem?_internedNames_append more hi⟩

theorem exists_intern_eq (hname : .intern name ∈ ops) :
    ∃ id, (run ops).lookup? name = some (Value.keyword id) ∧
      (run ops).intern name = (Value.keyword id, run ops) := by
  obtain ⟨i, hi⟩ := List.getElem?_of_mem (mem_internedNames.mpr hname)
  exact ⟨_, (numbers_run ops).lookup?_eq hi, (numbers_run ops).intern_eq hi⟩

theorem lookup?_of_interned {before after : List Operation}
    (hops : ops = before ++ .intern name :: after) :
    (run ops).lookup? name = some ((run before).intern name).1 := by
  have hmem : .intern name ∈ before ++ [.intern name] :=
    List.mem_append_right _ List.mem_cons_self
  rw [hops, List.append_cons, lookup?_run_append hmem, run_append_singleton]
  exact lookup?_intern _ _

theorem lookup?_run_eq_some {v : Value} :
    (run ops).lookup? name = some v ↔ .intern name ∈ ops ∧ ∀ before after,
      ops = before ++ .intern name :: after → ((run before).intern name).1 = v := by
  constructor
  · intro hv
    refine ⟨mem_internedNames.mp ((numbers_run ops).mem_of_lookup? hv), fun before after hops => ?_⟩
    rw [lookup?_of_interned hops] at hv
    exact Option.some.inj hv
  · rintro ⟨hmem, hall⟩
    obtain ⟨before, after, hops⟩ := List.append_of_mem hmem
    rw [lookup?_of_interned hops, hall before after hops]

theorem lookup?_withKeywords (hfew : (internedNames ops).length ≤ 2 ^ 32) {d d' : CallDescriptor}
    (hd : d.keywords = .empty) {slots : List (String × UInt32)}
    (hslots : ∀ entry ∈ slots, .intern entry.1 ∈ ops)
    (hd' : d.withKeywords (slots.map fun (name, slot) => (((run ops).intern name).1, slot)) =
      .ok d') (v : Value) :
    d'.keywords.lookup? v = ((run ops).name? v).bind fun name => slots.lookup name := by
  let idOf (name : String) : UInt32 := ((run ops).ids[name]?).getD 0
  have hid : ∀ entry ∈ slots, (run ops).lookup? entry.1 = some (Value.keyword (idOf entry.1)) ∧
      ((run ops).intern entry.1).1 = Value.keyword (idOf entry.1) := by
    intro entry hentry
    obtain ⟨id, hlookup, hintern⟩ := exists_intern_eq (hslots entry hentry)
    obtain ⟨id', hid', heq⟩ := lookup?_eq_some.mp hlookup
    simp only [idOf, hid', Option.getD_some, hlookup, hintern, heq, and_self]
  have hkeywords : (slots.map fun (name, slot) => (((run ops).intern name).1, slot)) =
      (slots.map fun (name, slot) => (idOf name, slot)).map
        fun (id, slot) => (Value.keyword id, slot) := by
    rw [List.map_map]
    apply List.map_congr_left
    intro entry hentry
    simp only [Function.comp_apply, (hid entry hentry).2]
  rw [hkeywords] at hd'
  have hentries := CallDescriptor.entries_withKeywords hd'
  have hnumbers := numbers_run ops
  rw [KeywordTable.lookup?, hentries, hd, hnumbers.name?_eq]
  cases v.keywordId? with
  | none => rfl
  | some id => exact hnumbers.lookup_ids hfew (fun entry hentry => (hid entry hentry).1) id

/-- After any operations, with no more names than there are ids: the names are numbered in the order
of their first interning; keywords are equal exactly when their names are; a name is found if it was
interned, as the keyword that every interning of it returned; a keyword has the name that is found
under its id; later operations change none of this for the names that are there; and a table of
interned names finds an argument by its name. -/
theorem interning_bijective (ops : List Operation) (hfew : (internedNames ops).length ≤ 2 ^ 32) :
    let r := run ops
    r.size = (internedNames ops).length ∧
    (∀ i name, (internedNames ops)[i]? = some name →
      ∃ id : UInt32, id.toNat = i ∧ r.lookup? name = some (Value.keyword id)) ∧
    (∀ name name' v v', r.lookup? name = some v → r.lookup? name' = some v' →
      (v = v' ↔ name = name')) ∧
    (∀ name v, r.lookup? name = some v ↔ .intern name ∈ ops ∧ ∀ before after,
      ops = before ++ .intern name :: after → ((run before).intern name).1 = v) ∧
    (∀ v name, r.name? v = some name ↔
      ∃ id, v.keywordId? = some id ∧ r.lookup? name = some (Value.keyword id)) ∧
    (∀ name, .intern name ∈ ops → ∀ more,
      ((run (ops ++ more)).intern name).1 = (r.intern name).1 ∧
      (run (ops ++ more)).lookup? name = r.lookup? name ∧
      ∀ v, r.name? v = some name → (run (ops ++ more)).name? v = some name) ∧
    ∀ (d d' : CallDescriptor) (slots : List (String × UInt32)), d.keywords = .empty →
      (∀ entry ∈ slots, .intern entry.1 ∈ ops) →
      d.withKeywords (slots.map fun (name, slot) => ((r.intern name).1, slot)) = .ok d' →
      ∀ v, d'.keywords.lookup? v = (r.name? v).bind fun name => slots.lookup name := by
  intro r
  have hnumbers := numbers_run ops
  refine ⟨hnumbers.size_eq, fun i name hi => ?_, fun name name' v v' => hnumbers.keyword_eq_iff hfew,
    fun name v => lookup?_run_eq_some, fun v name => hnumbers.name?_eq_some hfew,
    fun name hname more => ?_,
    fun d d' slots hd hslots hd' => lookup?_withKeywords hfew hd hslots hd'⟩
  · obtain ⟨hlt, -⟩ := List.getElem?_eq_some_iff.mp hi
    refine ⟨UInt32.ofNat i, ?_, hnumbers.lookup?_eq hi⟩
    rw [UInt32.toNat_ofNat', Nat.mod_eq_of_lt (by omega)]
  · obtain ⟨id, hlookup, hintern⟩ := exists_intern_eq hname
    obtain ⟨id', hlookup', hintern'⟩ := exists_intern_eq (List.mem_append_left more hname)
    rw [lookup?_run_append hname, hlookup] at hlookup'
    refine ⟨?_, lookup?_run_append hname more, fun v hv => name?_run_append hv more⟩
    rw [hintern', hintern, Option.some.inj hlookup']

theorem interning_bijective_of_two :
    let ops : List Operation := [.intern "x", .lookup "y", .intern "y", .nameOf .nil, .intern "x"]
    let slots : List (String × UInt32) := [("y", 3), ("x", 4), ("y", 1)]
    let d : CallDescriptor := ⟨2, 1, 5, .none, 0, .empty⟩
    internedNames ops = ["x", "y"] ∧ (run ops).size = 2 ∧ ∃ d' v,
      d.withKeywords (slots.map fun (name, slot) => (((run ops).intern name).1, slot)) = .ok d' ∧
      (run ops).lookup? "y" = some v ∧ d'.keywords.lookup? v = some 3 := by
  intro ops slots d
  have hnames : internedNames ops = ["x", "y"] := by decide
  obtain ⟨hsize, -, -, -, hname, -, htable⟩ := interning_bijective ops (by rw [hnames]; decide)
  have hinterned : ∀ entry ∈ slots, .intern entry.1 ∈ ops := by
    intro entry hentry
    rw [← mem_internedNames, hnames]
    revert entry
    decide
  obtain ⟨x, -, hx⟩ := exists_intern_eq (hinterned ("x", 4) (by decide))
  obtain ⟨y, hlookup, hy⟩ := exists_intern_eq (hinterned ("y", 3) (by decide))
  have hbuilt : d.withKeywords (slots.map fun (name, slot) => (((run ops).intern name).1, slot)) =
      .ok { d with keywords := ⟨[(y, 3), (x, 4), (y, 1)]⟩ } := by
    simp only [slots, List.map_cons, List.map_nil, hx, hy]
    simp only [CallDescriptor.withKeywords, CallDescriptor.withKeyword, Value.keywordId?_keyword,
      List.foldlM_cons, List.foldlM_nil]
    rfl
  have hfound : (run ops).name? (Value.keyword y) = some "y" :=
    (hname _ "y").mpr ⟨y, Value.keywordId?_keyword y, hlookup⟩
  refine ⟨hnames, by rw [hsize, hnames]; rfl, _, _, hbuilt, hlookup, ?_⟩
  rw [htable d _ slots rfl hinterned hbuilt, hfound]
  decide

end KeywordRegistry

end VmSupport
