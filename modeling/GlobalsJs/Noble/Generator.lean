import GlobalsJs.Noble.Bodies

/-!
# Generating a class from a file

`loadAndCompileClass` deletes the class of the name that it has read, and fills a new definition
from `cdef`. The loops run to what `cdef` holds at a name, and a name at which nothing was recorded
is undefined, so a class without properties, without methods or with an empty body is deleted and
not generated. `loadAndCompile` does one file after the other.
-/

namespace GlobalsJs.Noble

open Ecma Pieces

structure PropertyDefinition where
  name : JsString
  type : JsString
deriving DecidableEq

structure MethodDefinition where
  name : JsString
  returnType : JsString
  formalSpec : JsString
  implementation : List JsString
deriving DecidableEq

structure ClassDefinition where
  name : JsString
  procedureBlock : Bool
  super : JsString
  properties : List PropertyDefinition
  methods : List MethodDefinition
deriving DecidableEq

/-- What the system answers: whether it makes, takes, saves and deletes definitions. No status is
looked at, but a definition that is not made cannot be filled. -/
structure Answers where
  creates : JsString → Bool
  takesProperty : ClassDefinition → PropertyDefinition → Bool
  takesMethod : ClassDefinition → MethodDefinition → Bool
  saves : ClassDefinition → Bool
  deletes : JsString → Bool
  createsRoutine : JsString → Bool
  getFilename : JsString → JsString

def Answers.yes : Answers :=
  ⟨fun _ => true, fun _ _ => true, fun _ _ => true, fun _ => true, fun _ => true, fun _ => true, id⟩

/-- The class dictionary `^oddDEF`, the classes that were compiled, and the routines that were saved
and compiled. -/
structure Installed where
  oddDEF : JsString → Option ClassDefinition
  compiled : List JsString
  routines : List (JsString × List JsString)

inductive Trap
  | reading (e : Stop)
  | undefined
  | subscript
  | invalidOref
deriving DecidableEq

section
variable (answers : Answers)

def Installed.delete (s : Installed) (className : JsString) : Installed :=
  if (s.oddDEF className).isSome ∧ answers.deletes className then
    { s with oddDEF := Function.update s.oddDEF className none }
  else s

def Installed.save (s : Installed) (classDef : ClassDefinition) : Installed :=
  if answers.saves classDef then
    { s with oddDEF := Function.update s.oddDEF classDef.name (some classDef) }
  else s

def Installed.compile (s : Installed) (className : JsString) : Installed :=
  { s with compiled := s.compiled ++ [className] }

def insertProperty (classDef : ClassDefinition) (p : JsString × JsString) : ClassDefinition :=
  let pdef : PropertyDefinition := ⟨p.1, p.2⟩
  if answers.takesProperty classDef pdef then { classDef with properties := classDef.properties ++ [pdef] }
  else classDef

def insertProperties (properties : List (JsString × JsString)) (classDef : ClassDefinition) :
    Except Trap ClassDefinition :=
  if properties = [] then .error .undefined
  else .ok (properties.foldl (insertProperty answers) classDef)

def methodDefinition (m : MethodDef) : Except Trap MethodDefinition :=
  if m.implementation = [] then .error .undefined
  else .ok ⟨m.methodName, m.returnType, translateFormalSpec m.formalSpec, m.implementation⟩

def insertMethod (classDef : ClassDefinition) (m : MethodDef) : Except Trap ClassDefinition := do
  let mdef ← methodDefinition m
  if answers.takesMethod classDef mdef then return { classDef with methods := classDef.methods ++ [mdef] }
  else return classDef

def insertMethods (methods : List MethodDef) (classDef : ClassDefinition) : Except Trap ClassDefinition :=
  if methods = [] then .error .undefined
  else methods.foldlM (insertMethod answers) classDef

def defineClass (cdef : Cdef) (className : JsString) : Except Trap ClassDefinition := do
  if answers.creates className then
    let supers ← cdef.supers.elim (throw Trap.undefined) pure
    let classDef ← insertProperties answers cdef.properties ⟨className, true, supers, [], []⟩
    let classDef ← insertMethods answers (cdef.methods .method) classDef
    insertMethods answers (cdef.methods .classmethod) classDef
  else throw .invalidOref

def generateClass (cdef : Cdef) (s : Installed) : Installed × Except Trap Unit :=
  match cdef.className with
  | none => (s, .error .undefined)
  | some className =>
    if className = [] then (s, .error .subscript)
    else
      let s := s.delete answers className
      match defineClass answers cdef className with
      | .error e => (s, .error e)
      | .ok classDef => ((s.save answers classDef).compile className, .ok ())

def compileClass (source : Source) (fuel : ℕ) (text : JsString) (s : Installed) : Installed × Except Trap Unit :=
  match loadAndCompileClass source fuel text with
  | (_, .error e) => (s, .error (.reading e))
  | (cdef, .ok _) => generateClass answers cdef s

def loadAndCompileMac (file text : JsString) (s : Installed) : Installed × Except Trap Unit :=
  let routineName := answers.getFilename file
  if answers.createsRoutine routineName then
    ({ s with routines := s.routines ++ [(routineName, fileLines text)] }, .ok ())
  else (s, .error .invalidOref)

def extension (f : JsString) : JsString := piece dot (pieceCount dot f) f

/-- The files are done one after the other, from a system that has the text of each. -/
def loadAndCompile (source : Source) (fuel : ℕ) (textOf : JsString → JsString) :
    List JsString → Installed → Installed × Except Trap Unit
  | [], s => (s, .ok ())
  | f :: files, s =>
    let r := if extension f = js "cls" then compileClass answers source fuel (textOf f) s
      else if extension f = js "mac" then loadAndCompileMac answers f (textOf f) s
      else (s, .ok ())
    match r.2 with
    | .error e => (r.1, .error e)
    | .ok _ => loadAndCompile source fuel textOf files r.1

end

theorem delete_oddDEF (answers : Answers) (s : Installed) (className name : JsString) :
    (s.delete answers className).oddDEF name =
      if name = className ∧ answers.deletes className then none else s.oddDEF name := by
  rw [Installed.delete]
  by_cases hname : name = className
  · subst hname
    cases hdef : s.oddDEF name with
    | none => simp [hdef]
    | some c =>
      by_cases hdeletes : answers.deletes name = true
      · simp [hdeletes]
      · simp [hdeletes, hdef]
  · rw [if_neg (show ¬ (name = className ∧ answers.deletes className) from fun h => hname h.1)]
    split_ifs
    · exact Function.update_of_ne hname _ _
    · rfl

@[simp] theorem delete_compiled (answers : Answers) (s : Installed) (className : JsString) :
    (s.delete answers className).compiled = s.compiled ∧ (s.delete answers className).routines = s.routines := by
  rw [Installed.delete]
  split_ifs <;> exact ⟨rfl, rfl⟩

structure Cdef.Full (cdef : Cdef) : Prop where
  properties : cdef.properties ≠ []
  methods : ∀ lt, cdef.methods lt ≠ []
  bodies : ∀ lt, ∀ m ∈ cdef.methods lt, m.implementation ≠ []

def MethodDef.definition (m : MethodDef) : MethodDefinition :=
  ⟨m.methodName, m.returnType, translateFormalSpec m.formalSpec, m.implementation⟩

def Cdef.definition (cdef : Cdef) (className supers : JsString) : ClassDefinition where
  name := className
  procedureBlock := true
  super := supers
  properties := cdef.properties.map fun p => ⟨p.1, p.2⟩
  methods := (cdef.methods .method ++ cdef.methods .classmethod).map MethodDef.definition

/-- Nothing is refused; whether the old class could be deleted does not matter. -/
structure Answers.Accepting (answers : Answers) : Prop where
  creates : ∀ name, answers.creates name
  takesProperty : ∀ c p, answers.takesProperty c p
  takesMethod : ∀ c m, answers.takesMethod c m
  saves : ∀ c, answers.saves c

section
variable {answers : Answers}

theorem insertProperties_eq (haccepts : answers.Accepting) {properties : List (JsString × JsString)}
    (hne : properties ≠ []) (classDef : ClassDefinition) : insertProperties answers properties classDef =
      .ok { classDef with properties := classDef.properties ++ properties.map fun p => ⟨p.1, p.2⟩ } := by
  rw [insertProperties, if_neg hne]
  refine congrArg Except.ok ?_
  clear hne
  induction properties generalizing classDef with
  | nil => simp
  | cons p properties ih =>
    rw [List.foldl_cons, insertProperty, if_pos (haccepts.takesProperty _ _), ih]
    simp

theorem foldlM_insertMethod (haccepts : answers.Accepting) {methods : List MethodDef}
    (hbodies : ∀ m ∈ methods, m.implementation ≠ []) (classDef : ClassDefinition) :
    methods.foldlM (insertMethod answers) classDef =
      .ok { classDef with methods := classDef.methods ++ methods.map MethodDef.definition } := by
  induction methods generalizing classDef with
  | nil => simp [pure, Except.pure]
  | cons m methods ih =>
    obtain ⟨hm, hrest⟩ := List.forall_mem_cons.mp hbodies
    have hstep : insertMethod answers classDef m =
        .ok { classDef with methods := classDef.methods ++ [m.definition] } := by
      rw [insertMethod, methodDefinition, if_neg hm]
      exact if_pos (haccepts.takesMethod _ _)
    rw [List.foldlM_cons, hstep]
    refine (ih hrest _).trans ?_
    simp

theorem insertMethods_eq (haccepts : answers.Accepting) {methods : List MethodDef} (hne : methods ≠ [])
    (hbodies : ∀ m ∈ methods, m.implementation ≠ []) (classDef : ClassDefinition) :
    insertMethods answers methods classDef =
      .ok { classDef with methods := classDef.methods ++ methods.map MethodDef.definition } := by
  rw [insertMethods, if_neg hne]
  exact foldlM_insertMethod haccepts hbodies classDef

theorem insertMethods_cases (methods : List MethodDef) (classDef : ClassDefinition) :
    insertMethods answers methods classDef = .error .undefined ∨
      methods ≠ [] ∧ ∀ m ∈ methods, m.implementation ≠ [] := by
  rw [insertMethods]
  split_ifs with hnil
  · exact .inl rfl
  · suffices h : methods.foldlM (insertMethod answers) classDef = .error .undefined ∨
        ∀ m ∈ methods, m.implementation ≠ [] from h.imp_right fun h => ⟨hnil, h⟩
    clear hnil
    induction methods generalizing classDef with
    | nil => exact .inr fun m hm => absurd hm List.not_mem_nil
    | cons m methods ih =>
      rw [List.foldlM_cons]
      by_cases hm : m.implementation = []
      · refine .inl ?_
        rw [insertMethod, methodDefinition, if_pos hm]
        rfl
      · obtain ⟨next, hnext⟩ : ∃ next, insertMethod answers classDef m = .ok next := by
          rw [insertMethod, methodDefinition, if_neg hm]
          by_cases htakes : answers.takesMethod classDef m.definition
          · exact ⟨_, if_pos htakes⟩
          · exact ⟨_, if_neg htakes⟩
        rw [hnext]
        refine (ih next).imp_right fun hrest => ?_
        exact List.forall_mem_cons.mpr ⟨hm, hrest⟩

theorem defineClass_full (haccepts : answers.Accepting) {cdef : Cdef} (hfull : cdef.Full) {supers : JsString}
    (hsupers : cdef.supers = some supers) (className : JsString) :
    defineClass answers cdef className = .ok (cdef.definition className supers) := by
  rw [defineClass, if_pos (haccepts.creates className), hsupers]
  change (insertProperties answers cdef.properties _ >>= _) = _
  rw [insertProperties_eq haccepts hfull.properties]
  change (insertMethods answers (cdef.methods .method) _ >>= _) = _
  rw [insertMethods_eq haccepts (hfull.methods .method) (hfull.bodies .method)]
  change insertMethods answers (cdef.methods .classmethod) _ = _
  rw [insertMethods_eq haccepts (hfull.methods .classmethod) (hfull.bodies .classmethod)]
  simp [Cdef.definition]

theorem defineClass_not_full (haccepts : answers.Accepting) {cdef : Cdef} (hfull : ¬ cdef.Full) {supers : JsString}
    (hsupers : cdef.supers = some supers) (className : JsString) :
    defineClass answers cdef className = .error .undefined := by
  rw [defineClass, if_pos (haccepts.creates className), hsupers]
  change (insertProperties answers cdef.properties _ >>= _) = _
  by_cases hproperties : cdef.properties = []
  · rw [hproperties]
    rfl
  rw [insertProperties_eq haccepts hproperties]
  change (insertMethods answers (cdef.methods .method) _ >>= _) = _
  generalize (⟨className, true, supers, _, _⟩ : ClassDefinition) = classDef
  rcases insertMethods_cases (cdef.methods .method) classDef with herror | ⟨hmethods, hbodies⟩
  · rw [herror]
    rfl
  rw [insertMethods_eq haccepts hmethods hbodies]
  change insertMethods answers (cdef.methods .classmethod) _ = _
  refine (insertMethods_cases _ _).resolve_right fun hclass => hfull ?_
  refine ⟨hproperties, fun lt => ?_, fun lt => ?_⟩
  · cases lt with
    | method => exact hmethods
    | classmethod => exact hclass.1
  · cases lt with
    | method => exact hbodies
    | classmethod => exact hclass.2

theorem readClass_unset {fuel : ℕ} {cdef final : Cdef} {lines : List JsString}
    (h : readClass .unset fuel cdef lines = (final, .ok ())) : final.methods = cdef.methods := by
  induction fuel generalizing cdef lines with
  | zero => cases (Prod.ext_iff.mp h).2
  | succ fuel ih =>
    cases lines with
    | nil =>
      cases h
      rfl
    | cons line rest =>
      rw [readClass] at h
      cases hkind : methodKind (lineType line) with
      | none =>
        rw [hkind] at h
        rw [ih h, recordLine_methods]
      | some lt =>
        rw [hkind] at h
        cases hbody : readBody .unset fuel 1 [] rest with
        | error e =>
          rw [hbody] at h
          cases (Prod.ext_iff.mp h).2
        | ok r => exact absurd hbody (readBody_unset fuel one_ne_zero [] rest r)

variable (answers) in
theorem defineClass_methods {cdef : Cdef} (hmethods : cdef.methods .method = []) (className : JsString) :
    ∃ e, defineClass answers cdef className = .error e := by
  rw [defineClass]
  split_ifs
  · cases cdef.supers with
    | none => exact ⟨_, rfl⟩
    | some supers =>
      change ∃ e, (insertProperties answers cdef.properties _ >>= _) = .error e
      cases insertProperties answers cdef.properties _ with
      | error e => exact ⟨e, rfl⟩
      | ok classDef =>
        rw [hmethods]
        exact ⟨_, rfl⟩
  · exact ⟨_, rfl⟩

/-- No class is added or changed. -/
structure Installed.Spared (s t : Installed) : Prop where
  compiled : t.compiled = s.compiled
  classes : ∀ name, t.oddDEF name = s.oddDEF name ∨ t.oddDEF name = none

theorem Installed.Spared.refl (s : Installed) : s.Spared s := ⟨rfl, fun _ => .inl rfl⟩

theorem Installed.Spared.trans {s t u : Installed} (hst : s.Spared t) (htu : t.Spared u) : s.Spared u := by
  refine ⟨htu.compiled.trans hst.compiled, fun name => ?_⟩
  rcases htu.classes name with hkept | hgone
  · rw [hkept]
    exact hst.classes name
  · exact .inr hgone

theorem spared_delete (answers : Answers) (s : Installed) (className : JsString) :
    s.Spared (s.delete answers className) := by
  refine ⟨(delete_compiled answers s className).1, fun name => ?_⟩
  rw [delete_oddDEF]
  split_ifs
  · exact .inr rfl
  · exact .inl rfl

theorem compileClass_unset (answers : Answers) (fuel : ℕ) (text : JsString) (s : Installed) :
    let r := compileClass answers .unset fuel text s
    (∃ e, r.2 = .error e) ∧ s.Spared r.1 ∧ r.1.routines = s.routines := by
  rw [compileClass]
  rcases hread : loadAndCompileClass .unset fuel text with ⟨cdef, e | u⟩
  · exact ⟨⟨_, rfl⟩, .refl s, rfl⟩
  · have hmethods : cdef.methods .method = [] := congrFun (readClass_unset hread) .method
    dsimp only
    rw [generateClass]
    cases cdef.className with
    | none => exact ⟨⟨_, rfl⟩, .refl s, rfl⟩
    | some className =>
      obtain ⟨e, he⟩ := defineClass_methods answers hmethods className
      dsimp only
      rw [he]
      split_ifs
      · exact ⟨⟨_, rfl⟩, .refl s, rfl⟩
      · exact ⟨⟨_, rfl⟩, spared_delete answers s className, (delete_compiled answers s className).2⟩

/-- The routines that are saved: those of the files before the first class file. -/
def routinesBefore (answers : Answers) (textOf : JsString → JsString) (files : List JsString) :
    List (JsString × List JsString) :=
  ((files.takeWhile fun f => extension f ≠ js "cls").filter fun f => extension f = js "mac").map fun f =>
    (answers.getFilename f, fileLines (textOf f))

theorem routinesBefore_class (answers : Answers) (textOf : JsString → JsString) {f : JsString}
    (hf : extension f = js "cls") (files : List JsString) : routinesBefore answers textOf (f :: files) = [] := by
  rw [routinesBefore, List.takeWhile_cons_of_neg (by simp [hf])]
  rfl

theorem routinesBefore_other (answers : Answers) (textOf : JsString → JsString) {f : JsString}
    (hf : extension f ≠ js "cls") (files : List JsString) : routinesBefore answers textOf (f :: files) =
      (if extension f = js "mac" then [(answers.getFilename f, fileLines (textOf f))] else []) ++
        routinesBefore answers textOf files := by
  rw [routinesBefore, List.takeWhile_cons_of_pos (by simp [hf]), List.filter_cons]
  by_cases hmac : extension f = js "mac"
  · simp only [hmac, decide_true, if_true]
    rfl
  · simp only [hmac, decide_false, if_false]
    rfl

/-- No class is ever generated. A class file ends the loop over the files, and those behind it are
not looked at. -/
theorem loadAndCompile_generates_none (hroutines : ∀ name, answers.createsRoutine name) (fuel : ℕ)
    (textOf : JsString → JsString) (files : List JsString) (s : Installed) :
    let r := loadAndCompile answers .unset fuel textOf files s
    s.Spared r.1 ∧ r.1.routines = s.routines ++ routinesBefore answers textOf files ∧
      (r.2 = .ok () ↔ ∀ f ∈ files, extension f ≠ js "cls") := by
  induction files generalizing s with
  | nil => exact ⟨.refl s, (List.append_nil _).symm, iff_of_true rfl (by simp)⟩
  | cons f files ih =>
    rw [loadAndCompile]
    by_cases hclass : extension f = js "cls"
    · obtain ⟨⟨e, he⟩, hspared, hkept⟩ := compileClass_unset answers fuel (textOf f) s
      rw [if_pos hclass, he, routinesBefore_class answers textOf hclass, List.append_nil]
      exact ⟨hspared, hkept, iff_of_false (by simp) fun h => h f List.mem_cons_self hclass⟩
    rw [if_neg hclass, routinesBefore_other answers textOf hclass]
    by_cases hmac : extension f = js "mac"
    · obtain ⟨t, ht⟩ : ∃ t : Installed, t = { s with
          routines := s.routines ++ [(answers.getFilename f, fileLines (textOf f))] } := ⟨_, rfl⟩
      have hload : loadAndCompileMac answers f (textOf f) s = (t, .ok ()) := by
        rw [ht]
        exact if_pos (hroutines _)
      have hadded : s.Spared t := by
        rw [ht]
        exact ⟨rfl, fun _ => .inl rfl⟩
      obtain ⟨hspared, hkept, hends⟩ := ih t
      rw [if_pos hmac, if_pos hmac, hload]
      refine ⟨hadded.trans hspared, ?_, ?_⟩
      · rw [ht] at hkept ⊢
        rw [hkept, List.append_assoc]
      · rw [hends, List.forall_mem_cons]
        exact (and_iff_right hclass).symm
    · obtain ⟨hspared, hkept, hends⟩ := ih s
      rw [if_neg hmac, if_neg hmac]
      refine ⟨hspared, hkept, ?_⟩
      rw [hends, List.forall_mem_cons]
      exact (and_iff_right hclass).symm

end

theorem loadAndCompile_generates_none_footest :
    let r := loadAndCompile Answers.yes .unset 9 (fun _ => js "q") [js "footest.mac", js "foo.book.cls", js "more.mac"]
      ⟨fun _ => none, [], []⟩
    r.1.routines = [(js "footest.mac", [js "q"])] ∧ r.2 ≠ .ok () := by
  intro r
  obtain ⟨-, hroutines, hends⟩ := loadAndCompile_generates_none (fun _ => rfl : ∀ name, Answers.yes.createsRoutine name)
    9 (fun _ => js "q") [js "footest.mac", js "foo.book.cls", js "more.mac"] ⟨fun _ => none, [], []⟩
  refine ⟨hroutines.trans (by decide), fun hok => ?_⟩
  exact hends.mp hok (js "foo.book.cls") (by decide) (by decide)

end GlobalsJs.Noble
