import GlobalsJs.Sql.EnsureSql

/-!
# What a request says of the collection

The request names the global of the collection when no other class name is given. The
properties of a list of objects are looked for in the list itself and not in the objects,
and of an index only the first field is recorded. What a call fills in stays in the
description for the next one.
-/

namespace GlobalsJs.Sql

open Ecma Collection

theorem lookup_reverse_isSome {l : List (JsString × JsString)} {f : JsString} :
    (l.reverse.lookup f).isSome ↔ f ∈ l.map Prod.fst := by
  rw [List.lookup_isSome_iff, List.mem_map]
  constructor
  · intro ⟨e, he, hf⟩
    exact ⟨e, List.mem_reverse.mp he, (eq_of_beq hf).symm⟩
  · intro ⟨e, he, hf⟩
    exact ⟨e, List.mem_reverse.mpr he, beq_iff_eq.mpr hf.symm⟩

theorem mem_of_lookup_reverse {l : List (JsString × JsString)} {f x : JsString}
    (h : l.reverse.lookup f = some x) : (f, x) ∈ l := by
  obtain ⟨as, bs, heq, -⟩ := List.lookup_eq_some_iff.mp h
  rw [← List.mem_reverse, heq]
  exact List.mem_append_right as List.mem_cons_self

section
variable (round : Rounding) (collection : Collection) (object : Prototype) (m : Meta)

def wanted : List (JsString × JsString) :=
  match m.properties, object with
  | some properties, _ => properties.map fun p => (p.name, p.type)
  | none, .object ps => ps.map fun p => (p.1, typeName round p.2)
  | none, .list objects => objects.flatMap fun ps => ps.map fun p => (p.1, typeName round p.2)

/-- The record of a request that describes the collection. -/
structure Describes (record : List JsString → Option JsString) : Prop where
  classname : record [js "classname"] =
    some (m.package.getD (js "gdb") ++ js "." ++ m.classname.getD collection.name)
  globalname : record [js "globalname"] = some collection.name
  properties : ∀ f, (record [js "properties", f]).isSome ↔ f ∈ (wanted round object m).map Prod.fst
  types : ∀ f type, record [js "properties", f] = some type → (f, type) ∈ wanted round object m
  indicies : ∀ f, (record [js "indicies", f]).isSome ↔ f ∈ collection.defined
  others : ∀ path, (record path).isSome → path = [js "classname"] ∨ path = [js "globalname"] ∨
    ∃ f, path = [js "properties", f] ∨ path = [js "indicies", f]

/-- The names of the properties can be subscripts, and the positions of a list happen to be the
fields of its objects, none of them a number throughout. -/
def Listed : Prop :=
  match m.properties, object with
  | some properties, _ => ∀ p ∈ properties, p.name ≠ []
  | none, .object ps => ∀ p ∈ ps, p.1 ≠ []
  | none, .list objects =>
    (∀ f, (∃ ps ∈ objects, f ∈ keys ps) ↔ ∃ i < objects.length, f = natText i) ∧
      ∀ i < objects.length, ∃ ps ∈ objects, ∃ v, (natText i, v) ∈ ps ∧ ∀ n, v ≠ .num n

def firstFields (collection : Collection) : List JsString :=
  collection.indexes.map fun index => textOf ((index_key index).map .str)

/-- The collection can be described: no other class name is given, the properties are listed, and
every indexed field is the first of its index. -/
structure Describable : Prop where
  classname : ∀ c ∈ m.classname, c = collection.name
  properties : Listed object m
  indexes : ∀ f, f ∈ collection.defined ↔ f ≠ [] ∧ f ∈ firstFields collection

variable {round collection object m}

theorem typeName_eq_string {v : Json} : typeName round v = js "%Library.String" ↔ ∀ n, v ≠ .num n := by
  cases v with
  | num n =>
    refine iff_of_false ?_ fun h => h n rfl
    rw [typeName]
    split_ifs <;> decide
  | null | bool | str | arr | obj => simp [typeName]

theorem listed_self {l : List (JsString × JsString)} :
    ((∀ f, (if f = [] then none else l.reverse.lookup f).isSome ↔ f ∈ l.map Prod.fst) ∧
      ∀ f x, (if f = [] then none else l.reverse.lookup f) = some x → (f, x) ∈ l) ↔
        ∀ e ∈ l, e.1 ≠ [] := by
  constructor
  · intro ⟨hnames, _⟩ e he hempty
    have hname := (hnames e.1).mpr (List.mem_map_of_mem he)
    rw [if_pos hempty] at hname
    cases hname
  · intro h
    have hnames : [] ∉ l.map Prod.fst := by
      rw [List.mem_map]
      exact fun ⟨e, he, hempty⟩ => h e he hempty
    refine ⟨fun f => ?_, fun f x hx => ?_⟩
    · split_ifs with hf
      · subst hf
        exact iff_of_false (by simp) hnames
      · exact lookup_reverse_isSome
    · split_ifs at hx
      exact mem_of_lookup_reverse hx

theorem types_list {objects : List Props} (hnone : m.properties = none) :
    (m.filled round collection (.list objects)).types =
      (List.range objects.length).map fun i => (natText i, js "%Library.String") := by
  refine List.ext_getElem ?_ fun i _ _ => ?_
  · simp [Filled.types, Meta.filled, hnone, Prototype.enumerate]
  · simp [Filled.types, Meta.filled, hnone, Prototype.enumerate, typed, typeName]

theorem listed_list {objects : List Props} (hnone : m.properties = none) :
    ((∀ f, (if f = [] then none else (m.filled round collection (.list objects)).types.reverse.lookup f).isSome ↔
        f ∈ (wanted round (.list objects) m).map Prod.fst) ∧
      ∀ f x, (if f = [] then none else (m.filled round collection (.list objects)).types.reverse.lookup f) = some x →
        (f, x) ∈ wanted round (.list objects) m) ↔ Listed (.list objects) m := by
  have hposition : ∀ f, (if f = [] then none else
      (m.filled round collection (.list objects)).types.reverse.lookup f).isSome ↔
        ∃ i < objects.length, f = natText i := by
    intro f
    split_ifs with hf
    · subst hf
      refine iff_of_false (by simp) fun h => ?_
      obtain ⟨i, -, hi⟩ := h
      exact natText_ne_nil i hi.symm
    · rw [lookup_reverse_isSome, types_list hnone, List.map_map, List.mem_map]
      constructor
      · intro h
        obtain ⟨i, hi, hname⟩ := h
        exact ⟨i, List.mem_range.mp hi, hname.symm⟩
      · intro h
        obtain ⟨i, hi, hname⟩ := h
        exact ⟨i, List.mem_range.mpr hi, hname.symm⟩
  have hwanted : ∀ f x, (f, x) ∈ wanted round (.list objects) m ↔
      ∃ ps ∈ objects, ∃ v, (f, v) ∈ ps ∧ typeName round v = x := by
    intro f x
    simp [wanted, hnone]
  have hfields : ∀ f, f ∈ (wanted round (.list objects) m).map Prod.fst ↔ ∃ ps ∈ objects, f ∈ keys ps := by
    intro f
    simp [wanted, hnone, keys]
  have htype : ∀ f x, (if f = [] then none else (m.filled round collection (.list objects)).types.reverse.lookup f) =
      some x → x = js "%Library.String" := by
    intro f x hx
    split_ifs at hx
    have hmem := mem_of_lookup_reverse hx
    rw [types_list hnone] at hmem
    obtain ⟨i, -, hi⟩ := List.mem_map.mp hmem
    exact (Prod.mk.inj hi).2.symm
  simp only [hposition, hfields, hwanted, Listed, hnone]
  constructor
  · intro h
    obtain ⟨hnames, htypes⟩ := h
    refine ⟨fun f => (hnames f).symm, fun i hi => ?_⟩
    obtain ⟨x, hx⟩ := Option.isSome_iff_exists.mp ((hposition (natText i)).mpr ⟨i, hi, rfl⟩)
    obtain ⟨ps, hps, v, hv, hstring⟩ := htypes _ x hx
    rw [htype _ x hx] at hstring
    exact ⟨ps, hps, v, hv, typeName_eq_string.mp hstring⟩
  · intro h
    obtain ⟨hnames, hstrings⟩ := h
    refine ⟨fun f => (hnames f).symm, fun f x hx => ?_⟩
    obtain ⟨i, hi, rfl⟩ := (hposition f).mp (by rw [hx]; rfl)
    obtain ⟨ps, hps, v, hv, hstring⟩ := hstrings i hi
    exact ⟨ps, hps, v, hv, (typeName_eq_string.mpr hstring).trans (htype _ x hx).symm⟩

theorem listed_iff :
    ((∀ f, (if f = [] then none else (m.filled round collection object).types.reverse.lookup f).isSome ↔
        f ∈ (wanted round object m).map Prod.fst) ∧
      ∀ f x, (if f = [] then none else (m.filled round collection object).types.reverse.lookup f) = some x →
        (f, x) ∈ wanted round object m) ↔ Listed object m := by
  cases hm : m.properties with
  | some properties =>
    have hwanted : wanted round object m = (m.filled round collection object).types := by
      simp [wanted, hm, Filled.types, Meta.filled]
    rw [hwanted, listed_self, ← hwanted]
    simp [wanted, Listed, hm]
  | none =>
    cases object with
    | list objects => exact listed_list hm
    | object ps =>
      have hwanted : wanted round (.object ps) m = (m.filled round collection (.object ps)).types := by
        simp [wanted, hm, Filled.types, Meta.filled, Prototype.enumerate, typed]
      rw [hwanted, listed_self, ← hwanted]
      simp only [wanted, Listed, hm, List.forall_mem_map]

theorem orders_fst : (m.filled round collection object).orders.map Prod.fst = firstFields collection := by
  simp [Filled.orders, Meta.filled, firstFields]

variable (round collection object m)

/-- The request describes the collection when it can be described, and only then. -/
theorem ensureSQL_describes_iff {s : SqlNodes} (hfresh : s.Fresh) :
    Describes round collection object m ((ensureSQL round collection object m s).2.record (s.counter + 1)) ↔
      Describable collection object m := by
  rw [(record_ensureSQL round collection object m hfresh).1]
  have hglobal : m.classname.getD collection.name = collection.name ↔ ∀ c ∈ m.classname, c = collection.name := by
    cases m.classname <;> simp
  have hindex : (∀ f, ((m.filled round collection object).record [js "indicies", f]).isSome ↔ f ∈ collection.defined) ↔
      ∀ f, f ∈ collection.defined ↔ f ≠ [] ∧ f ∈ firstFields collection := by
    refine forall_congr' fun f => ?_
    rw [Filled.record_index]
    split_ifs with hf
    · simp [hf]
    · rw [lookup_reverse_isSome, orders_fst, and_iff_right hf]
      exact iff_comm
  have hlisted := @listed_iff round collection object m
  constructor
  · intro h
    refine ⟨hglobal.mp ?_, hlisted.mp ⟨fun f => ?_, fun f x hx => ?_⟩, hindex.mp h.indicies⟩
    · have hname := h.globalname
      rw [Filled.record_globalname] at hname
      exact Option.some.inj hname
    · rw [← Filled.record_property]
      exact h.properties f
    · rw [← Filled.record_property] at hx
      exact h.types f x hx
  · intro h
    obtain ⟨hnames, htypes⟩ := hlisted.mpr h.properties
    refine ⟨Filled.record_classname _, ?_, fun f => ?_, fun f x hx => ?_, hindex.mpr h.indexes,
      fun path hpath => Filled.record_isSome _ hpath⟩
    · rw [Filled.record_globalname]
      exact congrArg some (hglobal.mpr h.classname)
    · rw [Filled.record_property]
      exact hnames f
    · rw [Filled.record_property] at hx
      exact htypes f x hx

end

theorem fresh_empty : (⟨0, ∅⟩ : SqlNodes).Fresh := fun _ _ _ => rfl

def people : Collection := ⟨js "people", []⟩
def notes : Collection := ⟨js "notes", []⟩
def ann : Prototype := .object [(js "name", .str (js "Ann"))]

def noMeta : Meta := ⟨none, none, none, none⟩

def folkMeta : Meta := { noMeta with classname := some (js "Folk") }

theorem ensureSQL_describes_people :
    Describes JsNumber.finite people ann noMeta
        ((ensureSQL JsNumber.finite people ann noMeta ⟨0, ∅⟩).2.record 1) ↔ Describable people ann noMeta :=
  ensureSQL_describes_iff _ _ _ _ fresh_empty

theorem ensureSQL_names_folk : ¬ ∀ (round : Rounding) (collection : Collection) (object : Prototype) (m : Meta)
    (s : SqlNodes), s.Fresh →
      Describes round collection object m ((ensureSQL round collection object m s).2.record (s.counter + 1)) := by
  intro h
  have hglobal := (h JsNumber.finite people ann folkMeta ⟨0, ∅⟩ fresh_empty).globalname
  rw [(record_ensureSQL _ _ _ _ fresh_empty).1, Filled.record_globalname] at hglobal
  exact absurd hglobal (by decide)

inductive Arguments
  | description (m : ℕ)
  | callback (f : ℕ)
  | both (m f : ℕ)

/-- Where the description of the class is. -/
def Arguments.described : Arguments → ℕ
  | .description m => m
  | .callback f => f
  | .both m _ => m

/-- The descriptions that objects and functions of the caller hold. -/
abbrev Heap := ℕ → Meta

structure SqlCall where
  collection : Collection
  object : Prototype
  arguments : Arguments

def SqlCall.run (round : Rounding) (call : SqlCall) (h : Heap) (s : SqlNodes) : Heap × SqlNodes :=
  let (m, s) := ensureSQL round call.collection call.object (h call.arguments.described) s
  (Function.update h call.arguments.described m, s)

/-- The second request is recorded as it would be without the first, under the number after. -/
def Independent (round : Rounding) (first second : SqlCall) (h : Heap) (s : SqlNodes) : Prop :=
  let (h', s') := first.run round h s
  (second.run round h' s').2.record (s'.counter + 1) = (second.run round h s).2.record (s.counter + 1)

def Prototype.typeOf (round : Rounding) (object : Prototype) (f : JsString) : Option JsString :=
  if f = [] then none
  else (object.enumerate.map fun p => (p.1, typeName round p.2)).reverse.lookup f

/-- Two calls with one description ask for the same of what it leaves out. -/
structure Agree (round : Rounding) (first second : SqlCall) (m : Meta) : Prop where
  classname : m.classname = none → first.collection.name = second.collection.name
  properties : m.properties = none → first.object.typeOf round = second.object.typeOf round

section
variable {round : Rounding}

theorem record_eq_iff {m n : Filled} (hpackage : m.package = n.package) (hindicies : m.indicies = n.indicies) :
    m.record = n.record ↔ m.classname = n.classname ∧
      ∀ f ≠ [], m.types.reverse.lookup f = n.types.reverse.lookup f := by
  constructor
  · intro h
    refine ⟨?_, fun f hf => ?_⟩
    · have hname := congrFun h [js "globalname"]
      rw [Filled.record_globalname, Filled.record_globalname] at hname
      exact Option.some.inj hname
    · have htype := congrFun h [js "properties", f]
      rwa [Filled.record_property, Filled.record_property, if_neg hf, if_neg hf] at htype
  · intro ⟨hname, htypes⟩
    funext path
    rw [Filled.record, Filled.record]
    split_ifs with hpath
    · rfl
    · have hunder : (under (js "properties") m.types).reverse.lookup path =
          (under (js "properties") n.types).reverse.lookup path := by
        by_cases hlength : path.length = 2
        · obtain ⟨k, f, rfl⟩ := List.length_eq_two.mp hlength
          have hf : f ≠ [] := fun hf => hpath (by simp [hf])
          rw [lookup_under, lookup_under, htypes f hf]
        · rw [lookup_under_length _ _ hlength, lookup_under_length _ _ hlength]
      rw [Filled.entries_lookup, Filled.entries_lookup, hunder, Filled.orders, Filled.orders, hindicies,
        hpackage, hname]

theorem typeOf_eq_iff {o p : Prototype} : o.typeOf round = p.typeOf round ↔ ∀ f ≠ [],
    (o.enumerate.map fun p => (p.1, typeName round p.2)).reverse.lookup f =
      (p.enumerate.map fun p => (p.1, typeName round p.2)).reverse.lookup f := by
  constructor
  · intro h f hf
    have htype := congrFun h f
    rwa [Prototype.typeOf, Prototype.typeOf, if_neg hf, if_neg hf] at htype
  · intro h
    funext f
    rw [Prototype.typeOf, Prototype.typeOf]
    split_ifs with hf
    · rfl
    · exact h f hf

theorem agree_iff {first second : SqlCall} {m : Meta} :
    ((m.filled round first.collection first.object).toMeta.filled round second.collection second.object).record =
      (m.filled round second.collection second.object).record ↔ Agree round first second m := by
  have hname : (m.classname.getD first.collection.name = m.classname.getD second.collection.name) ↔
      (m.classname = none → first.collection.name = second.collection.name) := by
    cases m.classname <;> simp
  have htypes : (∀ f ≠ [], ((m.filled round first.collection first.object).toMeta.filled round
        second.collection second.object).types.reverse.lookup f =
          (m.filled round second.collection second.object).types.reverse.lookup f) ↔
      (m.properties = none → first.object.typeOf round = second.object.typeOf round) := by
    rw [typeOf_eq_iff]
    cases hproperties : m.properties with
    | some properties => simp [Filled.types, Filled.toMeta, Meta.filled, hproperties]
    | none => simp [Filled.types, Filled.toMeta, Meta.filled, hproperties, typed, Function.comp_def]
  have hrecords := record_eq_iff
    (m := (m.filled round first.collection first.object).toMeta.filled round second.collection second.object)
    (n := m.filled round second.collection second.object) rfl rfl
  refine hrecords.trans ((and_congr hname htypes).trans ?_)
  exact ⟨fun h => ⟨h.1, h.2⟩, fun h => ⟨h.classname, h.properties⟩⟩

theorem run_described (first : SqlCall) (h : Heap) (s : SqlNodes) :
    (first.run round h s).1 = Function.update h first.arguments.described
      ((h first.arguments.described).filled round first.collection first.object).toMeta := by
  rw [SqlCall.run, ensureSQL_eq]

theorem independent_records (round : Rounding) (first second : SqlCall) (h : Heap) {s : SqlNodes}
    (hfresh : s.Fresh) : Independent round first second h s ↔
      ((Function.update h first.arguments.described ((h first.arguments.described).filled round
        first.collection first.object).toMeta second.arguments.described).filled round second.collection
          second.object).record =
        ((h second.arguments.described).filled round second.collection second.object).record := by
  have hrecord : ∀ (h : Heap) {s : SqlNodes}, s.Fresh → (second.run round h s).2.record (s.counter + 1) =
      ((h second.arguments.described).filled round second.collection second.object).record :=
    fun h _ hs => (record_ensureSQL round second.collection second.object _ hs).1
  obtain ⟨-, -, hfresh'⟩ := record_ensureSQL round first.collection first.object
    (h first.arguments.described) hfresh
  rw [← run_described first h s, ← hrecord h hfresh, ← hrecord (first.run round h s).1 hfresh']
  rfl

/-- Two requests are independent when they have two descriptions, or agree on what the one
description leaves out, and only then. -/
theorem ensureSQL_independent_iff (round : Rounding) (first second : SqlCall) (h : Heap) {s : SqlNodes}
    (hfresh : s.Fresh) : Independent round first second h s ↔
      (first.arguments.described = second.arguments.described →
        Agree round first second (h second.arguments.described)) := by
  rw [independent_records round first second h hfresh]
  by_cases hcell : first.arguments.described = second.arguments.described
  · rw [hcell, Function.update_self, agree_iff]
    simp
  · rw [Function.update_of_ne (Ne.symm hcell)]
    exact iff_of_true rfl fun heq => absurd heq hcell

end

def askPeople : SqlCall := ⟨people, ann, .description 0⟩
def askNotes : SqlCall := ⟨notes, ann, .description 0⟩

theorem ensureSQL_independent_people :
    Independent JsNumber.finite askPeople askNotes (fun _ => noMeta) ⟨0, ∅⟩ ↔
      (askPeople.arguments.described = askNotes.arguments.described →
        Agree JsNumber.finite askPeople askNotes noMeta) :=
  ensureSQL_independent_iff JsNumber.finite askPeople askNotes (fun _ => noMeta) fresh_empty

theorem ensureSQL_notes_as_people : ¬ ∀ (round : Rounding) (first second : SqlCall) (h : Heap) (s : SqlNodes),
    s.Fresh → Independent round first second h s := by
  intro hall
  have hrecords := (independent_records _ askPeople askNotes _ fresh_empty).mp
    (hall JsNumber.finite askPeople askNotes (fun _ => noMeta) ⟨0, ∅⟩ fresh_empty)
  have hglobal := congrFun hrecords [js "globalname"]
  rw [Filled.record_globalname, Filled.record_globalname] at hglobal
  exact absurd hglobal (by decide)

end GlobalsJs.Sql
