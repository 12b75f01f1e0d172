import GlobalsJs.Collection.Definitions
import GlobalsJs.Lists.Table

/-!
# Asking for a class

`ensureSQL` writes a request for a class under a new number in `^globalsjs.sql("in")`. What
the caller's description leaves out is filled in first, in the description itself. One
reference is pushed and popped through the writes.
-/

namespace GlobalsJs.Sql

open Ecma Cache

/-- The number at `^globalsjs.sql("in")`, and the nodes of the global. -/
structure SqlNodes where
  counter : ℕ
  nodes : Table (List JsString) JsString

def sqlGlobal : JsString := js "globalsjs.sql"

namespace SqlNodes

def increment (s : SqlNodes) : ℕ × SqlNodes := (s.counter + 1, { s with counter := s.counter + 1 })

def put (s : SqlNodes) (path : List JsString) (data : JsString) : SqlNodes :=
  if [] ∈ path then s else { s with nodes := s.nodes.insert path data }

def set (s : SqlNodes) (ref : GloRef) (data : JsString) : SqlNodes :=
  if ref.global = sqlGlobal then s.put (ref.subscripts.map textOf) data else s

/-- What is recorded for a request. -/
def record (s : SqlNodes) (id : ℕ) (path : List JsString) : Option JsString :=
  s.nodes.lookup (js "in" :: natText id :: path)

def Fresh (s : SqlNodes) : Prop := ∀ id, s.counter < id → ∀ path, s.record id path = none

end SqlNodes

def push (ref : GloRef) (subscript : Option Json) : GloRef :=
  { ref with subscripts := ref.subscripts ++ [subscript] }

def popped (ref : GloRef) : GloRef := { ref with subscripts := ref.subscripts.dropLast }

structure SqlProperty where
  name : JsString
  type : JsString

structure SqlIndex where
  name : Option JsString
  value : Option Json

structure Meta where
  package : Option JsString
  classname : Option JsString
  properties : Option (List SqlProperty)
  indicies : Option (List SqlIndex)

structure Filled where
  package : JsString
  classname : JsString
  properties : List SqlProperty
  indicies : List SqlIndex

def Filled.toMeta (m : Filled) : Meta := ⟨some m.package, some m.classname, some m.properties, some m.indicies⟩

inductive Prototype
  | object (ps : Props)
  | list (objects : List Props)

/-- `for (var prop in object)`: of a list, the positions. -/
def Prototype.enumerate : Prototype → Props
  | .object ps => ps
  | .list objects => objects.zipIdx.map fun p => (natText p.2, .obj p.1)

def mathRound : JsNumber → JsNumber
  | .finite d =>
    if 0 ≤ d.exp then .finite d
    else .finite ⟨(2 * d.coeff + 10 ^ (-d.exp).toNat) / (2 * 10 ^ (-d.exp).toNat), 0⟩
  | x => x

section
variable (round : Rounding)

def typeName : Json → JsString
  | .num n =>
    if (numberOf round n.text).eq (mathRound (numberOf round n.text)) then js "%Library.Integer"
    else js "%Library.Double"
  | _ => js "%Library.String"

def typed (p : JsString × Json) : SqlProperty := ⟨p.1, typeName round p.2⟩

def Meta.filled (m : Meta) (self : Collection) (object : Prototype) : Filled where
  package := m.package.getD (js "gdb")
  classname := m.classname.getD self.name
  properties := m.properties.getD (object.enumerate.map (typed round))
  indicies := self.indexes.map fun index =>
    ⟨Collection.index_key index, get index ((Collection.index_key index).getD (js "undefined"))⟩

def setEach : List (Option JsString × JsString) → GloRef × SqlNodes → GloRef × SqlNodes
  | [], w => w
  | (name, data) :: entries, (glo_ref, s) =>
    let glo_ref := push glo_ref (name.map .str)
    let s := s.set glo_ref data
    setEach entries (popped glo_ref, s)

/-- The description as it is afterwards, and the global. -/
def ensureSQL (self : Collection) (object : Prototype) (m : Meta) (s : SqlNodes) : Meta × SqlNodes :=
  let filled := m.filled round self object
  let (transaction_id, s) := s.increment
  let glo_ref : GloRef := ⟨sqlGlobal, []⟩
  let glo_ref := push glo_ref (some (.str (js "in")))
  let glo_ref := push glo_ref (some (.ofInt transaction_id))
  let glo_ref := push glo_ref (some (.str (js "classname")))
  let s := s.set glo_ref (filled.package ++ js "." ++ filled.classname)
  let glo_ref := popped glo_ref
  let glo_ref := push glo_ref (some (.str (js "globalname")))
  let s := s.set glo_ref filled.classname
  let glo_ref := popped glo_ref
  let glo_ref := push glo_ref (some (.str (js "properties")))
  let (glo_ref, s) := setEach (filled.properties.map fun p => (some p.name, p.type)) (glo_ref, s)
  let glo_ref := popped glo_ref
  let glo_ref := push glo_ref (some (.str (js "indicies")))
  let (_, s) := setEach (filled.indicies.map fun i => (i.name, textOf i.value)) (glo_ref, s)
  (filled.toMeta, s)

end

namespace SqlNodes

def puts (s : SqlNodes) (entries : List (List JsString × JsString)) : SqlNodes :=
  entries.foldl (fun s e => s.put e.1 e.2) s

theorem puts_append (s : SqlNodes) (es fs : List (List JsString × JsString)) :
    s.puts (es ++ fs) = (s.puts es).puts fs := List.foldl_append

theorem put_counter (s : SqlNodes) (path : List JsString) (data : JsString) :
    (s.put path data).counter = s.counter := by
  rw [put]
  split_ifs <;> rfl

theorem puts_counter (s : SqlNodes) (es : List (List JsString × JsString)) :
    (s.puts es).counter = s.counter := by
  induction es generalizing s with
  | nil => rfl
  | cons e es ih => exact (ih _).trans (put_counter s e.1 e.2)

theorem puts_lookup (s : SqlNodes) (es : List (List JsString × JsString)) {path : List JsString}
    (hpath : [] ∉ path) :
    (s.puts es).nodes.lookup path = (es.reverse.lookup path).or (s.nodes.lookup path) := by
  induction es generalizing s with
  | nil => rfl
  | cons e es ih =>
    obtain ⟨p, data⟩ := e
    rw [puts, List.foldl_cons, ← puts, ih, List.reverse_cons, List.lookup_append, Option.or_assoc]
    congr 1
    by_cases hp : path = p
    · subst hp
      rw [put, if_neg hpath, AList.lookup_insert]
      simp
    · have hlookup : (s.put p data).nodes.lookup path = s.nodes.lookup path := by
        rw [put]
        split_ifs
        · rfl
        · exact AList.lookup_insert_ne hp
      rw [hlookup]
      simp [List.lookup_cons, beq_false_of_ne hp]

theorem puts_lookup_empty (s : SqlNodes) (es : List (List JsString × JsString)) {path : List JsString}
    (hpath : [] ∈ path) : (s.puts es).nodes.lookup path = s.nodes.lookup path := by
  induction es generalizing s with
  | nil => rfl
  | cons e es ih =>
    rw [puts, List.foldl_cons, ← puts, ih, put]
    split_ifs with he
    · rfl
    · exact AList.lookup_insert_ne fun heq => he (heq ▸ hpath)

end SqlNodes

def Filled.types (m : Filled) : List (JsString × JsString) := m.properties.map fun p => (p.name, p.type)

def Filled.orders (m : Filled) : List (JsString × JsString) :=
  m.indicies.map fun i => (textOf (i.name.map .str), textOf i.value)

def under (head : JsString) (names : List (JsString × JsString)) : List (List JsString × JsString) :=
  names.map fun e => ([head, e.1], e.2)

def Filled.entries (m : Filled) : List (List JsString × JsString) :=
  [([js "classname"], m.package ++ js "." ++ m.classname), ([js "globalname"], m.classname)] ++
    under (js "properties") m.types ++ under (js "indicies") m.orders

def Filled.record (m : Filled) (path : List JsString) : Option JsString :=
  if [] ∈ path then none else m.entries.reverse.lookup path

@[simp] theorem popped_push (ref : GloRef) (x : Option Json) : popped (push ref x) = ref := by
  simp [popped, push]

theorem setEach_eq (entries : List (Option JsString × JsString)) (path : List (Option Json)) (s : SqlNodes) :
    setEach entries (⟨sqlGlobal, path⟩, s) = (⟨sqlGlobal, path⟩,
      s.puts (entries.map fun e => (path.map textOf ++ [textOf (e.1.map .str)], e.2))) := by
  induction entries generalizing s with
  | nil => rfl
  | cons e entries ih =>
    rw [setEach, popped_push, ih]
    simp [SqlNodes.set, SqlNodes.puts, push]

section
variable (round : Rounding) (self : Collection) (object : Prototype) (m : Meta)

theorem ensureSQL_eq (s : SqlNodes) : ensureSQL round self object m s =
    ((m.filled round self object).toMeta, s.increment.2.puts ((m.filled round self object).entries.map
      fun e => (js "in" :: natText (s.counter + 1) :: e.1, e.2))) := by
  rw [ensureSQL]
  dsimp only [push, popped, SqlNodes.increment]
  rw [setEach_eq]
  dsimp only
  rw [setEach_eq]
  simp only [Filled.entries, under, Filled.types, Filled.orders, List.map_append, SqlNodes.puts_append,
    List.map_map, Function.comp_def]
  rfl

end

theorem lookup_map_injective {α β : Type} [BEq α] [LawfulBEq α] {f : α → α} (hf : Function.Injective f)
    (l : List (α × β)) (a : α) : (l.map fun e => (f e.1, e.2)).lookup (f a) = l.lookup a := by
  induction l with
  | nil => rfl
  | cons e l ih =>
    obtain ⟨b, x⟩ := e
    by_cases ha : a = b
    · simp [ha]
    · simp [List.lookup_cons, beq_false_of_ne ha, beq_false_of_ne (hf.ne ha), ih]

theorem record_ensureSQL (round : Rounding) (self : Collection) (object : Prototype) (m : Meta)
    {s : SqlNodes} (hfresh : s.Fresh) :
    (ensureSQL round self object m s).2.record (s.counter + 1) = (m.filled round self object).record ∧
      (ensureSQL round self object m s).2.counter = s.counter + 1 ∧
      (ensureSQL round self object m s).2.Fresh := by
  have hcounter : (ensureSQL round self object m s).2.counter = s.counter + 1 := by
    rw [ensureSQL_eq]
    exact SqlNodes.puts_counter _ _
  have hempty : ∀ id (path : List JsString), [] ∈ js "in" :: natText id :: path ↔ [] ∈ path := by
    intro id path
    rw [List.mem_cons, List.mem_cons, or_iff_right (by decide), or_iff_right (natText_ne_nil id).symm]
  refine ⟨funext fun path => ?_, hcounter, fun id hid path => ?_⟩
  · rw [ensureSQL_eq, SqlNodes.record, Filled.record]
    have hnone : s.increment.2.nodes.lookup (js "in" :: natText (s.counter + 1) :: path) = none :=
      hfresh _ (Nat.lt_succ_self _) path
    have hunder : Function.Injective fun p : List JsString => js "in" :: natText (s.counter + 1) :: p :=
      fun p q h => (List.cons.inj (List.cons.inj h).2).2
    split_ifs with hpath
    · rw [SqlNodes.puts_lookup_empty _ _ ((hempty _ _).mpr hpath), hnone]
    · rw [SqlNodes.puts_lookup _ _ ((hempty _ _).not.mpr hpath), hnone, Option.or_none, ← List.map_reverse]
      exact lookup_map_injective hunder _ path
  · rw [hcounter] at hid
    rw [ensureSQL_eq, SqlNodes.record]
    have hnone : s.increment.2.nodes.lookup (js "in" :: natText id :: path) = none :=
      hfresh _ (Nat.lt_of_succ_lt hid) path
    by_cases hpath : [] ∈ path
    · rw [SqlNodes.puts_lookup_empty _ _ ((hempty _ _).mpr hpath), hnone]
    · rw [SqlNodes.puts_lookup _ _ ((hempty _ _).not.mpr hpath), Option.or_eq_none_iff]
      refine ⟨List.lookup_eq_none_iff.mpr fun e he => ?_, hnone⟩
      rw [List.mem_reverse, List.mem_map] at he
      obtain ⟨e, -, rfl⟩ := he
      have hne : natText id ≠ natText (s.counter + 1) := natText_inj.not.mpr (by omega)
      simp [hne]

theorem lookup_under (head : JsString) (names : List (JsString × JsString)) (k f : JsString) :
    (under head names).reverse.lookup [k, f] = if k = head then names.reverse.lookup f else none := by
  rw [under, ← List.map_reverse]
  split_ifs with hk
  · subst hk
    induction names.reverse with
    | nil => rfl
    | cons e names ih =>
      obtain ⟨g, x⟩ := e
      by_cases hf : f = g
      · simp [hf]
      · simp [List.lookup_cons, beq_false_of_ne hf, ih]
  · refine List.lookup_eq_none_iff.mpr fun e he => ?_
    obtain ⟨e, -, rfl⟩ := List.mem_map.mp he
    simp [hk]

theorem lookup_under_length (head : JsString) (names : List (JsString × JsString)) {path : List JsString}
    (hpath : path.length ≠ 2) : (under head names).reverse.lookup path = none := by
  refine List.lookup_eq_none_iff.mpr fun e he => ?_
  rw [under, ← List.map_reverse] at he
  obtain ⟨e, -, rfl⟩ := List.mem_map.mp he
  rw [bne_iff_ne]
  exact fun heq => hpath (congrArg List.length heq)

namespace Filled
variable (m : Filled)

theorem entries_lookup (path : List JsString) : m.entries.reverse.lookup path =
    ((under (js "indicies") m.orders).reverse.lookup path).or
      (((under (js "properties") m.types).reverse.lookup path).or
        ([([js "globalname"], m.classname), ([js "classname"], m.package ++ js "." ++ m.classname)].lookup path)) := by
  rw [entries, List.reverse_append, List.reverse_append, List.lookup_append, List.lookup_append]
  rfl

theorem record_classname : m.record [js "classname"] = some (m.package ++ js "." ++ m.classname) := by
  rw [record, if_neg (by decide), entries_lookup, lookup_under_length _ _ (by decide),
    lookup_under_length _ _ (by decide)]
  rfl

theorem record_globalname : m.record [js "globalname"] = some m.classname := by
  rw [record, if_neg (by decide), entries_lookup, lookup_under_length _ _ (by decide),
    lookup_under_length _ _ (by decide)]
  rfl

theorem empty_mem_pair {k : JsString} (hk : [] ≠ k) (f : JsString) : [] ∈ [k, f] ↔ f = [] := by
  rw [List.mem_cons, List.mem_singleton, or_iff_right hk, eq_comm]

theorem record_property (f : JsString) :
    m.record [js "properties", f] = if f = [] then none else m.types.reverse.lookup f := by
  have hother : js "properties" ≠ js "indicies" := by decide
  have hlast : [([js "globalname"], m.classname), ([js "classname"], m.package ++ js "." ++ m.classname)].lookup
      [js "properties", f] = none := List.lookup_eq_none_iff.mpr (by simp)
  rw [record, entries_lookup, lookup_under, lookup_under, hlast]
  simp only [empty_mem_pair (show [] ≠ js "properties" by decide), hother, if_false, if_true, Option.none_or,
    Option.or_none]

theorem record_index (f : JsString) :
    m.record [js "indicies", f] = if f = [] then none else m.orders.reverse.lookup f := by
  have hother : js "indicies" ≠ js "properties" := by decide
  have hlast : [([js "globalname"], m.classname), ([js "classname"], m.package ++ js "." ++ m.classname)].lookup
      [js "indicies", f] = none := List.lookup_eq_none_iff.mpr (by simp)
  rw [record, entries_lookup, lookup_under, lookup_under, hlast]
  simp only [empty_mem_pair (show [] ≠ js "indicies" by decide), hother, if_false, if_true, Option.or_none]

theorem record_isSome {path : List JsString} (h : (m.record path).isSome) : path = [js "classname"] ∨
    path = [js "globalname"] ∨ ∃ f, path = [js "properties", f] ∨ path = [js "indicies", f] := by
  rw [record] at h
  split_ifs at h
  · cases h
  · obtain ⟨e, he, hpath⟩ := List.lookup_isSome_iff.mp h
    obtain rfl : path = e.1 := eq_of_beq hpath
    rw [List.mem_reverse, entries, List.mem_append, List.mem_append] at he
    rcases he with (he | he) | he
    · rcases List.mem_pair.mp he with rfl | rfl
      · exact .inl rfl
      · exact .inr (.inl rfl)
    · obtain ⟨p, -, rfl⟩ := List.mem_map.mp he
      exact .inr (.inr ⟨p.1, .inl rfl⟩)
    · obtain ⟨p, -, rfl⟩ := List.mem_map.mp he
      exact .inr (.inr ⟨p.1, .inr rfl⟩)

end Filled

end GlobalsJs.Sql
