import GlobalsJs.Noble.Generator
import GlobalsJs.Noble.Headers

/-!
# From a class file to a class

A class file has a line for the class, and lines, properties and methods behind it in any order. When
the bodies can be read, the class in the dictionary is the one that is written: its properties in
their order, its methods, and behind them its class methods.
-/

namespace GlobalsJs.Noble

open Ecma Pieces Brackets

/-- `class Name extends Super {` -/
structure ClassLine where
  keyword : JsString
  spelled : keyword.map lowerCase = js "class"
  name : JsString
  name_ne : name ≠ []
  name_units : name.all isClassUnit
  extending : JsString
  extending_units : space ∉ extending ∧ newline ∉ extending
  super : JsString
  super_units : super.all isClassUnit

def ClassLine.text (c : ClassLine) : JsString :=
  c.keyword ++ space :: (c.name ++ space :: (c.extending ++ space :: (c.super ++ [space, lbrace])))

structure PropertyLine where
  keyword : JsString
  spelled : keyword.map lowerCase = js "property"
  name : JsString
  name_units : name.all isClassUnit
  type : Typing
  rest : JsString
  rest_units : newline ∉ rest

def PropertyLine.text (p : PropertyLine) : JsString :=
  p.keyword ++ space :: (p.name ++ p.type.text ++ semicolon :: p.rest)

/-- A method that the dictionary can be told: its parameters are plain, and a return type is given or
nothing is taken for one. No line of the body has two braces of one kind. -/
structure MethodSource where
  header : Header
  plain : ∀ p ∈ header.params, p.Plain
  typed : header.returnType.isSome ∨ header.Untyped
  body : List JsString
  body_units : ∀ l ∈ body, newline ∉ l
  balanced : Balanced lbrace rbrace body.flatten
  single : ∀ l ∈ body, l.count lbrace ≤ 1 ∧ l.count rbrace ≤ 1

inductive Member
  | property (p : PropertyLine)
  | method (m : MethodSource)
  | line (text : JsString) (units : newline ∉ text)
    (other : lineType text ∉ [js "class", js "property", js "method", js "classmethod"])

structure ClassSource where
  header : ClassLine
  members : List Member

def MethodSource.lines (m : MethodSource) : List JsString := m.header.text :: (m.body ++ [[rbrace]])

def Member.lines : Member → List JsString
  | .property p => [p.text]
  | .method m => m.lines
  | .line text _ _ => [text]

def ClassSource.lines (c : ClassSource) : List JsString := c.header.text :: c.members.flatMap Member.lines

def ClassSource.text (c : ClassSource) : JsString := LineReader.wire newline c.lines

def PropertyLine.definition (p : PropertyLine) : PropertyDefinition := ⟨p.name, p.type.className⟩

def MethodSource.definition (m : MethodSource) : MethodDefinition where
  name := m.header.name
  returnType := (m.header.returnType.map Typing.className).getD []
  formalSpec := translatedSpec m.header.params
  implementation := m.body

def Member.property? : Member → Option PropertyLine
  | .property p => some p
  | .method _ | .line _ _ _ => none

def Member.method? (kind : MethodKind) : Member → Option MethodSource
  | .method m => if m.header.kind = kind then some m else none
  | .property _ | .line _ _ _ => none

namespace ClassSource

def properties (c : ClassSource) : List PropertyLine := c.members.filterMap Member.property?

def methods (c : ClassSource) (kind : MethodKind) : List MethodSource := c.members.filterMap (Member.method? kind)

def definition (c : ClassSource) : ClassDefinition where
  name := c.header.name
  procedureBlock := true
  super := c.header.super
  properties := c.properties.map PropertyLine.definition
  methods := (c.methods .method ++ c.methods .classmethod).map MethodSource.definition

structure Full (c : ClassSource) : Prop where
  properties : c.properties ≠ []
  methods : ∀ kind, c.methods kind ≠ []
  bodies : ∀ kind, ∀ m ∈ c.methods kind, m.body ≠ []

end ClassSource

theorem clean_head {w : JsString} (hw : Clean w) (hne : w ≠ []) (t : JsString) : stripLeft (w ++ t) = w ++ t := by
  obtain ⟨c, rest, rfl⟩ := List.exists_cons_of_ne_nil hne
  have hc : isStripped c = false := isStripped_of_classUnit (hw c List.mem_cons_self)
  simp [stripLeft, hc]

theorem ne_nil_of_lowerCase {w word : JsString} (h : w.map lowerCase = word) (hword : word ≠ []) : w ≠ [] := by
  rintro rfl
  exact hword h.symm

theorem lineType_word {w word : JsString} (h : w.map lowerCase = word) (hword : word.all isLetter)
    (hne : word ≠ []) (t : JsString) :
    lineType (w ++ space :: t) = word ∧ stripLeft (w ++ space :: t) = w ++ space :: t := by
  have hclean : Clean w := clean_of_lowerCase h hword
  have hstrip := clean_head hclean (ne_nil_of_lowerCase h hne) (space :: t)
  refine ⟨?_, hstrip⟩
  rw [lineType, hstrip, piece_one_append (hclean.notMem (by decide)), h]

section
variable {c : ClassLine} {p : PropertyLine}

theorem ClassLine.name_clean : Clean c.name := List.all_eq_true.mp c.name_units

theorem ClassLine.super_clean : Clean c.super := List.all_eq_true.mp c.super_units

theorem PropertyLine.name_clean : Clean p.name := List.all_eq_true.mp p.name_units

theorem ClassLine.recorded (c : ClassLine) (cdef : Cdef) : recordLine cdef c.text =
    { cdef with className := some c.name, supers := some c.super } := by
  obtain ⟨htype, hstrip⟩ := lineType_word c.spelled (by decide) (by decide)
    (c.name ++ space :: (c.extending ++ space :: (c.super ++ [space, lbrace])))
  have hkeyword : space ∉ c.keyword := (clean_of_lowerCase c.spelled (by decide)).notMem (by decide)
  have hname : space ∉ c.name := c.name_clean.notMem (by decide)
  have hsuper : space ∉ c.super := c.super_clean.notMem (by decide)
  have hpieces : piece space 2 c.text = c.name ∧ piece space 4 c.text = c.super := by
    rw [text]
    constructor
    · rw [piece_succ_append hkeyword, piece_one_append hname]
    · rw [piece_succ_append hkeyword, piece_succ_append hname, piece_succ_append c.extending_units.1,
        piece_one_append hsuper]
  rw [text] at hpieces ⊢
  rw [recordLine, if_pos htype, hstrip]
  simp only [hpieces]

theorem PropertyLine.recorded (p : PropertyLine) (cdef : Cdef) : recordLine cdef p.text =
    { cdef with properties := cdef.properties ++ [(p.name, p.type.className)] } := by
  obtain ⟨htype, hstrip⟩ := lineType_word p.spelled (by decide) (by decide)
    (p.name ++ p.type.text ++ semicolon :: p.rest)
  have hclean : Clean p.keyword := clean_of_lowerCase p.spelled (by decide)
  have hkeyword : space ∉ p.keyword := hclean.notMem (by decide)
  have hname : space ∉ p.name := p.name_clean.notMem (by decide)
  have has : space ∉ p.type.as := p.type.as_clean.notMem (by decide)
  have hclass : space ∉ p.type.className := Clean.notMem p.type.className_clean (by decide)
  have hends : semicolon ∉ p.keyword ++ space :: (p.name ++ p.type.text) := by
    have hunits : ∀ w, Clean w → semicolon ∉ w := fun w hw => hw.notMem (by decide)
    simp [Typing.text, hunits _ hclean, hunits _ p.name_clean, hunits _ p.type.as_clean,
      hunits _ p.type.className_clean, show semicolon ≠ space by decide]
  have hline : piece semicolon 1 p.text = p.keyword ++ space :: (p.name ++ p.type.text) := by
    have htext : p.text = (p.keyword ++ space :: (p.name ++ p.type.text)) ++ semicolon :: p.rest := by
      simp [text]
    rw [htext, piece_one_append hends]
  have hpieces : piece space 2 (p.keyword ++ space :: (p.name ++ p.type.text)) = p.name ∧
      piece space 4 (p.keyword ++ space :: (p.name ++ p.type.text)) = p.type.className := by
    rw [Typing.text]
    constructor
    · rw [piece_succ_append hkeyword, piece_one_append hname]
    · rw [piece_succ_append hkeyword, piece_succ_append hname, piece_succ_append has, piece_one_self hclass]
  have hnot : lineType p.text ≠ js "class" := by
    rw [text, htype]
    decide
  rw [text] at hline hnot ⊢
  rw [recordLine, if_neg hnot, if_pos htype, hstrip]
  simp only [hline, hpieces]

end

theorem MethodSource.kind_recorded (m : MethodSource) :
    methodKind (lineType m.header.text) = some m.header.kind := by
  rw [m.header.lineType_text, methodKind_word]

def MethodSource.toText (m : MethodSource) : MethodText where
  kind := m.header.kind
  header := m.header.text
  begins := m.kind_recorded
  opened := ⟨m.header.front ++ [space], by simp [Header.text]⟩
  body := m.body
  balanced := m.balanced
  indent := []
  indent_blank := rfl
  trail := []
  trail_blank := rfl

def MethodSource.entry (m : MethodSource) : MethodDef :=
  ⟨⟨m.header.name, formalSpec m.header.params, m.header.typeRead⟩, m.body⟩

theorem MethodSource.entry_definition (m : MethodSource) : m.entry.definition = m.definition := by
  have hspec : translateFormalSpec (formalSpec m.header.params) = translatedSpec m.header.params := by
    rw [translateFormalSpec_formalSpec, translatedSpec]
    refine congrArg _ (List.map_congr_left fun p hp => ?_)
    exact translate_plain (m.plain p hp)
  rw [entry, MethodDef.definition, definition, hspec, m.header.typeRead_iff.mpr m.typed]

theorem other_kind {line : JsString}
    (h : lineType line ∉ [js "class", js "property", js "method", js "classmethod"]) :
    methodKind (lineType line) = none := by
  simp only [List.mem_cons, List.not_mem_nil, or_false, not_or] at h
  rw [methodKind, if_neg h.2.2.1, if_neg h.2.2.2]

theorem other_recorded {line : JsString}
    (h : lineType line ∉ [js "class", js "property", js "method", js "classmethod"]) (cdef : Cdef) :
    recordLine cdef line = cdef := by
  simp only [List.mem_cons, List.not_mem_nil, or_false, not_or] at h
  rw [recordLine, if_neg h.1, if_neg h.2.1]

theorem ClassLine.kind_none (c : ClassLine) : methodKind (lineType c.text) = none := by
  rw [text, (lineType_word c.spelled (by decide) (by decide) _).1]
  decide

theorem PropertyLine.kind_none (p : PropertyLine) : methodKind (lineType p.text) = none := by
  rw [text, (lineType_word p.spelled (by decide) (by decide) _).1]
  decide

def Member.item : Member → Item
  | .property p => .line p.text p.kind_none
  | .method m => .method m.toText
  | .line text _ other => .line text (other_kind other)

theorem Member.item_lines (m : Member) : m.item.lines = m.lines := by
  cases m with
  | property p => rfl
  | method m => rfl
  | line text units other => rfl

def ClassSource.items (c : ClassSource) : List Item :=
  .line c.header.text c.header.kind_none :: c.members.map Member.item

theorem ClassSource.items_lines (c : ClassSource) : c.items.flatMap Item.lines = c.lines := by
  rw [items, List.flatMap_cons, List.flatMap_map, lines]
  simp only [Member.item_lines]
  rfl

def ClassSource.cdef (c : ClassSource) : Cdef where
  className := some c.header.name
  supers := some c.header.super
  properties := c.properties.map fun p => (p.name, p.type.className)
  methods kind := (c.methods kind).map MethodSource.entry

theorem members_recorded (header : ClassLine) (before members : List Member) :
    (members.map Member.item).foldl Item.record (ClassSource.mk header before).cdef =
      (ClassSource.mk header (before ++ members)).cdef := by
  induction members generalizing before with
  | nil => rw [List.append_nil]; rfl
  | cons m members ih =>
    have hstep : m.item.record (ClassSource.mk header before).cdef =
        (ClassSource.mk header (before ++ [m])).cdef := by
      rw [ClassSource.cdef, ClassSource.cdef]
      simp only [ClassSource.properties, ClassSource.methods, List.filterMap_append, List.map_append]
      cases m with
      | property p =>
        refine (p.recorded _).trans ?_
        simp [Member.property?, List.filterMap_cons, Member.method?]
      | method m =>
        rw [Member.item, Item.record, Cdef.addMethod]
        simp only [Cdef.mk.injEq, true_and]
        refine ⟨by simp [Member.property?], funext fun kind => ?_⟩
        by_cases hkind : kind = m.header.kind
        · subst hkind
          simp [MethodSource.toText, MethodSource.entry, m.header.methodHeader_text, Member.method?]
        · simp [MethodSource.toText, Function.update_of_ne hkind, Ne.symm hkind, Member.method?]
      | line text units other =>
        refine (other_recorded other _).trans ?_
        simp [Member.property?, List.filterMap_cons, Member.method?]
    rw [List.map_cons, List.foldl_cons, hstep, ih, List.append_assoc]
    rfl

theorem newline_lines (c : ClassSource) : ∀ l ∈ c.lines, newline ∉ l := by
  have hunits : ∀ w, Clean w → newline ∉ w := fun w hw => hw.notMem (by decide)
  refine List.forall_mem_cons.mpr ⟨?_, fun l hl => ?_⟩
  · have hkeyword : newline ∉ c.header.keyword := hunits _ (clean_of_lowerCase c.header.spelled (by decide))
    simp [ClassLine.text, hkeyword, hunits _ c.header.name_clean, hunits _ c.header.super_clean,
      c.header.extending_units.2, show newline ≠ space by decide, show newline ≠ lbrace by decide]
  · obtain ⟨m, -, hl⟩ := List.mem_flatMap.mp hl
    cases m with
    | property p =>
      obtain rfl := List.mem_singleton.mp hl
      have hkeyword : newline ∉ p.keyword := hunits _ (clean_of_lowerCase p.spelled (by decide))
      simp [PropertyLine.text, Typing.text, hkeyword, hunits _ p.name_clean, hunits _ p.type.as_clean,
        hunits _ p.type.className_clean, p.rest_units, show newline ≠ space by decide,
        show newline ≠ semicolon by decide]
    | method m =>
      rw [Member.lines, MethodSource.lines, List.mem_cons, List.mem_append, List.mem_singleton] at hl
      rcases hl with rfl | hl | rfl
      · have hfront : newline ∉ m.header.front :=
          Header.notMem_front (by decide) (by decide) (by decide) (by decide) (by decide)
        simp [Header.text, hfront, show newline ≠ space by decide, show newline ≠ lbrace by decide]
      · exact m.body_units l hl
      · decide
    | line text units other =>
      obtain rfl := List.mem_singleton.mp hl
      exact units

section
variable (c : ClassSource) {source : Source} {fuel : ℕ}

theorem mem_methods {m : MethodSource} (hm : .method m ∈ c.members) : m ∈ c.methods m.header.kind :=
  List.mem_filterMap.mpr ⟨.method m, hm, if_pos rfl⟩

theorem ClassSource.read (hsource : source = .reader ∨ ∀ kind, c.methods kind = [])
    (hfuel : c.lines.length < fuel) : loadAndCompileClass source fuel c.text = (c.cdef, .ok ()) := by
  have hmethods : ∀ m, .method m ∈ c.items → source = .reader ∧ Counted 1 m.body := by
    intro m hm
    rw [items, List.mem_cons, List.mem_map] at hm
    rcases hm with hm | ⟨member, hmember, hm⟩
    · cases hm
    · cases member with
      | property p => cases hm
      | line text units other => cases hm
      | method m' =>
        obtain rfl : m'.toText = m := Item.method.inj hm
        refine ⟨hsource.resolve_right fun hnone => ?_, MethodText.counted_of_single _ m'.single⟩
        have hmem := mem_methods c hmember
        rw [hnone] at hmem
        cases hmem
  have hread : readClass source fuel .empty (c.items.flatMap Item.lines) =
      (c.items.foldl Item.record .empty, .ok ()) := readClass_items hmethods .empty (by rwa [c.items_lines])
  rw [loadAndCompileClass, text, fileLines_wire (newline_lines c), ← c.items_lines, hread, items, List.foldl_cons]
  refine congrArg (·, Except.ok ()) ?_
  exact (congrArg (List.foldl Item.record · _) (c.header.recorded _)).trans (members_recorded c.header [] c.members)

theorem ClassSource.cdef_definition : c.cdef.definition c.header.name c.header.super = c.definition := by
  have hentry : MethodDef.definition ∘ MethodSource.entry = MethodSource.definition :=
    funext MethodSource.entry_definition
  simp only [Cdef.definition, cdef, definition, ← List.map_append, List.map_map, hentry]
  rfl

theorem ClassSource.cdef_full : c.cdef.Full ↔ c.Full := by
  constructor
  · intro h
    refine ⟨fun hnil => ?_, fun kind hnil => ?_, fun kind m hm => ?_⟩
    · exact h.properties (List.map_eq_nil_iff.mpr hnil)
    · exact h.methods kind (List.map_eq_nil_iff.mpr hnil)
    · exact h.bodies kind m.entry (List.mem_map_of_mem hm)
  · intro h
    refine ⟨fun hnil => ?_, fun kind hnil => ?_, fun kind => ?_⟩
    · exact h.properties (List.map_eq_nil_iff.mp hnil)
    · exact h.methods kind (List.map_eq_nil_iff.mp hnil)
    · exact List.forall_mem_map.mpr (h.bodies kind)

/-- The class that is written is in the dictionary afterwards if it is full. If it is not, the class
that was there is gone, and no other comes in its place. -/
theorem class_file_compiled {answers : Answers} (haccepts : answers.Accepting)
    (hsource : source = .reader ∨ ∀ kind, c.methods kind = []) (hfuel : c.lines.length < fuel) (s : Installed) :
    let r := compileClass answers source fuel c.text s
    (c.Full → r.2 = .ok () ∧ r.1.oddDEF = Function.update s.oddDEF c.header.name (some c.definition) ∧
      r.1.compiled = s.compiled ++ [c.header.name]) ∧
    (¬ c.Full → r = (s.delete answers c.header.name, .error .undefined)) := by
  intro r
  have hr : r = generateClass answers c.cdef s := by
    change compileClass answers source fuel c.text s = _
    rw [compileClass, c.read hsource hfuel]
  have hnamed : c.cdef.className = some c.header.name := rfl
  have hsupers : c.cdef.supers = some c.header.super := rfl
  rw [hr, generateClass, hnamed]
  dsimp only
  rw [if_neg c.header.name_ne, ← c.cdef_full]
  constructor
  · intro hfull
    rw [defineClass_full haccepts hfull hsupers, c.cdef_definition]
    have hsaved : (s.delete answers c.header.name).save answers c.definition =
        { s.delete answers c.header.name with
          oddDEF := Function.update (s.delete answers c.header.name).oddDEF c.header.name (some c.definition) } :=
      if_pos (haccepts.saves _)
    dsimp only
    rw [hsaved]
    refine ⟨rfl, funext fun name => ?_, ?_⟩
    · by_cases hname : name = c.header.name
      · subst hname
        simp [Installed.compile]
      · simp [Installed.compile, delete_oddDEF, hname]
    · rw [Installed.compile, (delete_compiled answers s c.header.name).1]
  · intro hfull
    rw [defineClass_not_full haccepts hfull hsupers]

end

def asString : Typing := ⟨js "as", by decide, js "%Library.String", by decide⟩

def getSubjects : MethodSource where
  header :=
    { kind := .method, keyword := js "method", spelled := by decide, name := js "getSubjects",
      name_units := by decide,
      params := [⟨false, some ⟨.output, js "Output", by decide⟩, js "subjects", by decide, by decide, none⟩],
      returnType := none, returnType_ne := by simp }
  plain := by
    refine List.forall_mem_singleton.mpr ⟨rfl, fun k hk => ?_, by simp⟩
    obtain rfl := Option.some.inj hk
    decide
  typed := by
    refine .inr ⟨rfl, by decide, List.forall_mem_singleton.mpr ⟨rfl, by decide⟩⟩
  body := [js "    set subjects = ..Subject"]
  body_units := by decide
  balanced := by decide
  single := by decide

def version : MethodSource where
  header :=
    { kind := .classmethod, keyword := js "classmethod", spelled := by decide, name := js "version",
      name_units := by decide, params := [], returnType := some asString, returnType_ne := by decide }
  plain := by simp
  typed := .inl rfl
  body := [js "    return $ZV"]
  body_units := by decide
  balanced := by decide
  single := by decide

def book : ClassSource where
  header := ⟨js "class", by decide, js "foo.book", by decide, by decide, js "extends", by decide,
    js "%Library.Persistent", by decide⟩
  members := [.property ⟨js "property", by decide, js "Title", by decide, asString, [], by decide⟩,
    .method getSubjects, .method version, .line (js "\x7d") (by decide) (by decide)]

def noClasses : Installed := ⟨fun _ => none, [], []⟩

theorem accepting_yes : Answers.yes.Accepting :=
  ⟨fun _ => rfl, fun _ _ => rfl, fun _ _ => rfl, fun _ => rfl⟩

theorem class_file_compiled_book :
    (compileClass Answers.yes .reader 20 book.text noClasses).1.oddDEF (js "foo.book") = some book.definition := by
  have hfull : book.Full := by
    refine ⟨by decide, fun kind => ?_, fun kind => ?_⟩
    · cases kind <;> decide
    · cases kind
      · exact List.forall_mem_singleton.mpr (by decide)
      · exact List.forall_mem_singleton.mpr (by decide)
  obtain ⟨-, hclasses, -⟩ := (class_file_compiled book accepting_yes (.inl rfl)
    (by decide : book.lines.length < 20) noClasses).1 hfull
  exact congrFun hclasses (js "foo.book")

example : book.definition.methods.map (fun m => (m.name, m.returnType, m.formalSpec)) =
    [(js "getSubjects", [], js "*subjects"), (js "version", js "%Library.String", [])] := by decide

example : (compileClass Answers.yes .unset 20 (ClassSource.mk book.header []).text
    ⟨fun _ => some book.definition, [], []⟩).1.oddDEF (js "foo.book") = none := by decide

end GlobalsJs.Noble
