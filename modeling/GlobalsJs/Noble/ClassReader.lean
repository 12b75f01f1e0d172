import Mathlib.Data.List.DropRight
import GlobalsJs.Lists.Pieces
import GlobalsJs.Noble.FormalSpec
import GlobalsJs.Stream.LineReader

/-!
# Reading a class file

`loadAndCompileClass` reads a class file line by line into the array `cdef`, from which it
generates the class. The bodies of the methods are read by an inner loop from the variable
`source`, and the lines that set this variable are commented out.
-/

namespace GlobalsJs.Noble

open Ecma Pieces

def isStripped (c : CodeUnit) : Bool := (9 ≤ c && c ≤ 13) || c = space || c = 160

def stripLeft (s : JsString) : JsString := s.dropWhile isStripped
def stripRight (s : JsString) : JsString := s.rdropWhile isStripped

inductive MethodKind
  | method
  | classmethod
deriving DecidableEq

def MethodKind.word : MethodKind → JsString
  | .method => js "method"
  | .classmethod => js "classmethod"

structure MethodHeader where
  methodName : JsString
  formalSpec : JsString
  returnType : JsString
deriving DecidableEq

structure MethodDef extends MethodHeader where
  implementation : List JsString
deriving DecidableEq

/-- The array `cdef`. A method without lines has no `implementation`. -/
structure Cdef where
  className : Option JsString
  supers : Option JsString
  properties : List (JsString × JsString)
  methods : MethodKind → List MethodDef

def Cdef.empty : Cdef := ⟨none, none, [], fun _ => []⟩

def Cdef.addMethod (cdef : Cdef) (lt : MethodKind) (m : MethodDef) : Cdef :=
  { cdef with methods := Function.update cdef.methods lt (cdef.methods lt ++ [m]) }

def lineType (line : JsString) : JsString := (piece space 1 (stripLeft line)).map lowerCase

def methodKind (lineType : JsString) : Option MethodKind :=
  if lineType = js "method" then some .method
  else if lineType = js "classmethod" then some .classmethod
  else none

def recordLine (cdef : Cdef) (line : JsString) : Cdef :=
  if lineType line = js "class" then
    let line := stripLeft line
    { cdef with className := some (piece space 2 line), supers := some (piece space 4 line) }
  else if lineType line = js "property" then
    let line := piece semicolon 1 (stripLeft line)
    { cdef with properties := cdef.properties ++ [(piece space 2 line, piece space 4 line)] }
  else cdef

def methodHeader (line : JsString) : MethodHeader :=
  let line := piece lbrace 1 (stripLeft line)
  let line := stripRight line
  let m1 := piece rparen 1 line
  let methodNameAndSignature := pieces space 2 (pieceCount space m1) m1
  let methodName := piece lparen 1 methodNameAndSignature
  let formalSpec := piece rparen 1 (piece lparen 2 methodNameAndSignature)
  let returnType := if js "as" <:+: line.map lowerCase then piece space (pieceCount space line) line else []
  ⟨methodName, formalSpec, returnType⟩

/-- What the variable `source` holds: nothing, as the code leaves it, or the reader of the file
that the lines that are commented out would open. -/
inductive Source
  | unset
  | reader
deriving DecidableEq

/-- A reading ends with the error of a call on nothing, or it had not ended when it was given up. -/
inductive Stop
  | undefined (name : JsString)
  | running
deriving DecidableEq

/-- `source.ReadLine()`, from the lines that are left. Behind the last line there are empty ones. -/
def readLine : Source → List JsString → Except Stop (JsString × List JsString)
  | .unset, _ => .error (.undefined (js "source"))
  | .reader, [] => .ok ([], [])
  | .reader, line :: rest => .ok (line, rest)

def countLine (done : ℤ) (cl : JsString) : ℤ :=
  let done := if lbrace ∈ cl then done + 1 else done
  if rbrace ∈ cl then done - 1 else done

def readBody (source : Source) :
    ℕ → ℤ → List JsString → List JsString → Except Stop (List JsString × List JsString)
  | 0, _, _, _ => .error .running
  | fuel + 1, done, cls, rest =>
    if done = 0 then .ok (cls, rest)
    else do
      let (cl, rest) ← readLine source rest
      let done := countLine done cl
      readBody source fuel done (if done = 0 then cls else cls ++ [cl]) rest

/-- The outer loop. At the end of the file `read` raises an error. The `break` behind it leaves no loop, it
is a breakpoint of the debugger, so that the body is run once more: on the empty line that a read at the end
of a file leaves, as is assumed here, of which nothing is recorded. -/
def readClass (source : Source) : ℕ → Cdef → List JsString → Cdef × Except Stop Unit
  | 0, cdef, _ => (cdef, .error .running)
  | _ + 1, cdef, [] => (cdef, .ok ())
  | fuel + 1, cdef, line :: rest =>
    match methodKind (lineType line) with
    | none => readClass source fuel (recordLine cdef line) rest
    | some lt =>
      match readBody source fuel 1 [] rest with
      | .error e => (cdef.addMethod lt ⟨methodHeader line, []⟩, .error e)
      | .ok (cls, rest) =>
        readClass source fuel (cdef.addMethod lt ⟨methodHeader line, cls⟩) rest

/-- The lines of a text. What follows the last line end is a line unless it is empty. -/
def fileLines (text : JsString) : List JsString :=
  let lines := text.splitOn newline
  if lines.getLast? = some [] then lines.dropLast else lines

def loadAndCompileClass (source : Source) (fuel : ℕ) (text : JsString) : Cdef × Except Stop Unit :=
  readClass source fuel .empty (fileLines text)

theorem fileLines_wire {lines : List JsString} (hlines : ∀ l ∈ lines, newline ∉ l) :
    fileLines (LineReader.wire newline lines) = lines := by
  rw [fileLines, LineReader.splitOn_wire hlines]
  simp

@[simp] theorem addMethod_self (cdef : Cdef) (lt : MethodKind) (m : MethodDef) :
    (cdef.addMethod lt m).methods lt = cdef.methods lt ++ [m] := Function.update_self lt _ _

theorem addMethod_other (cdef : Cdef) {lt k : MethodKind} (m : MethodDef) (hk : k ≠ lt) :
    (cdef.addMethod lt m).methods k = cdef.methods k := Function.update_of_ne hk _ _

@[simp] theorem recordLine_methods (cdef : Cdef) (line : JsString) :
    (recordLine cdef line).methods = cdef.methods := by
  rw [recordLine]
  split_ifs <;> rfl

theorem methodKind_word (k : MethodKind) : methodKind k.word = some k := by
  cases k <;> decide

theorem addMethod_keeps (cdef : Cdef) (lt : MethodKind) (m : MethodDef) (k : MethodKind) :
    cdef.methods k <+: (cdef.addMethod lt m).methods k := by
  by_cases hk : k = lt
  · subst hk
    rw [addMethod_self]
    exact List.prefix_append _ _
  · rw [addMethod_other cdef m hk]

theorem readClass_keeps (source : Source) (fuel : ℕ) (cdef : Cdef) (lines : List JsString)
    (k : MethodKind) : cdef.methods k <+: (readClass source fuel cdef lines).1.methods k := by
  induction fuel generalizing cdef lines with
  | zero => exact List.prefix_rfl
  | succ fuel ih =>
    cases lines with
    | nil => exact List.prefix_rfl
    | cons line rest =>
      rw [readClass]
      cases methodKind (lineType line) with
      | none =>
        have hrest := ih (recordLine cdef line) rest
        rwa [recordLine_methods] at hrest
      | some lt =>
        cases readBody source fuel 1 [] rest with
        | error e => exact addMethod_keeps cdef lt _ k
        | ok r => exact (addMethod_keeps cdef lt _ k).trans (ih _ _)

theorem readClass_header {line : JsString} {lt : MethodKind} (hline : methodKind (lineType line) = some lt)
    (source : Source) (fuel : ℕ) (cdef : Cdef) (rest : List JsString) :
    ∃ cls, ((readClass source (fuel + 1) cdef (line :: rest)).1.methods lt)[(cdef.methods lt).length]? =
      some ⟨methodHeader line, cls⟩ := by
  have hentry : ∀ (m : MethodDef) (ms : List MethodDef), cdef.methods lt ++ [m] <+: ms →
      ms[(cdef.methods lt).length]? = some m := by
    intro m ms hprefix
    obtain ⟨more, rfl⟩ := hprefix
    rw [List.append_assoc, List.getElem?_append_right (le_refl _), Nat.sub_self]
    rfl
  rw [readClass, hline]
  cases readBody source fuel 1 [] rest with
  | error e => exact ⟨[], hentry _ _ (by rw [addMethod_self])⟩
  | ok r =>
    refine ⟨r.1, hentry _ _ ?_⟩
    have hprefix := readClass_keeps source fuel (cdef.addMethod lt ⟨methodHeader line, r.1⟩) r.2 lt
    rwa [addMethod_self] at hprefix

end GlobalsJs.Noble
