import GlobalsJs.Calls.Program
import GlobalsJs.Ecma.Number
import GlobalsJs.Gdbsession.GlbRef

/-!
# The shell

`processInputMain` is called for each line. It gives the line to the function in `STATE`, or looks
for a command when `STATE` is undefined. The two tables are objects of the language, which have
the members of `Object.prototype` beside their own. The database and the conversion to capital
letters are parameters.
-/

namespace GlobalsJs.Gdbsession

open Ecma Pieces Calls

inductive ObjectMember
  | constructor | toString | toLocaleString | valueOf | hasOwnProperty | isPrototypeOf
  | propertyIsEnumerable | __defineGetter__ | __defineSetter__ | __lookupGetter__
  | __lookupSetter__ | __proto__
deriving DecidableEq

namespace ObjectMember

def name : ObjectMember → JsString
  | constructor => js "constructor"
  | toString => js "toString"
  | toLocaleString => js "toLocaleString"
  | valueOf => js "valueOf"
  | hasOwnProperty => js "hasOwnProperty"
  | isPrototypeOf => js "isPrototypeOf"
  | propertyIsEnumerable => js "propertyIsEnumerable"
  | __defineGetter__ => js "__defineGetter__"
  | __defineSetter__ => js "__defineSetter__"
  | __lookupGetter__ => js "__lookupGetter__"
  | __lookupSetter__ => js "__lookupSetter__"
  | __proto__ => js "__proto__"

def all : List ObjectMember :=
  [constructor, toString, toLocaleString, valueOf, hasOwnProperty, isPrototypeOf, propertyIsEnumerable,
    __defineGetter__, __defineSetter__, __lookupGetter__, __lookupSetter__, __proto__]

def named (key : JsString) : Option ObjectMember := all.find? fun m => m.name = key

/-- Whether the call with one string raises an error: `__proto__` is no function, two of the
functions want a second argument, and some want an object that they are called on. -/
def raises (asMethod : Bool) : ObjectMember → Bool
  | __proto__ | __defineGetter__ | __defineSetter__ => true
  | toLocaleString | valueOf | hasOwnProperty | isPrototypeOf | propertyIsEnumerable => !asMethod
  | constructor | toString | __lookupGetter__ | __lookupSetter__ => false

end ObjectMember

inductive Program
  | percent_G
  | inherited (m : ObjectMember)
deriving DecidableEq

inductive Handler
  | SET
  | KILL
  | DO
  | HALT
  | HELP
  | program (p : Program)
deriving DecidableEq

def commandTable : List (JsString × Handler) :=
  [(js "S", .SET), (js "SET", .SET), (js "K", .KILL), (js "KILL", .KILL), (js "D", .DO), (js "DO", .DO),
    (js "H", .HALT), (js "HALT", .HALT), (js "?", .HELP), (js "HELP", .HELP)]

def programTable : List (JsString × Program) := [(js "^%G", .percent_G)]

def COMMANDS (key : JsString) : Option Handler :=
  (commandTable.lookup key).or ((ObjectMember.named key).map fun m => .program (.inherited m))

def PROGRAMS (key : JsString) : Option Program :=
  (programTable.lookup key).or ((ObjectMember.named key).map .inherited)

structure ConnInfo where
  path : JsString
  username : JsString
  password : JsString
  «namespace» : JsString

structure DirectoryOpts where
  lo : Option JsString
  hi : Option JsString

structure Node where
  global : Option JsString
  subscripts : Option (List Json)
  data : Option Json
  defined : Option Json

inductive CacheCall
  | connect (conninfo : ConnInfo)
  | set (glo_ref : GlbRef)
  | kill (glo_ref : GlbRef)
  | global_directory (opts : DirectoryOpts)
  | data (glo_ref : Node)
  | get (glo_ref : Node)
  | next_node (glo_ref : Node)
  | close

@[reducible] def CacheCall.Result : CacheCall → Type
  | .connect _ | .close => Unit
  | .set _ | .kill _ => Option Json
  | .global_directory _ => List JsString
  | .data _ | .get _ | .next_node _ => Node

inductive Output
  | text (s : JsString)
  | date
  | glo_ref (r : GlbRef)
  | result (v : Option Json)
  | conninfo (c : ConnInfo)

/-- Reading and writing the variables of the module, writing to the console, and using the
database. -/
inductive Call
  | state
  | setState (h : Option Handler)
  | first
  | setFirst (b : Bool)
  | write (o : Output)
  | cache (c : CacheCall)

def Call.Reply : Call → Type
  | .state => Option Handler
  | .first => Bool
  | .cache c => Except JsError c.Result
  | _ => Unit

/-- A line ends with an exception or with the process, or it had not ended when it was given up. -/
inductive Stop
  | exit
  | error (e : JsError)
  | running
deriving DecidableEq

abbrev Act := Prog Call Call.Reply Stop

def getState : Act (Option Handler) := .call .state .ret
def setState (h : Option Handler) : Act Unit := .call (.setState h) .ret
def percent_G_first : Act Bool := .call .first .ret
def setPercentGFirst (b : Bool) : Act Unit := .call (.setFirst b) .ret
def write (text : JsString) : Act Unit := .call (.write (.text text)) .ret
def dir (o : Output) : Act Unit := .call (.write o) .ret

def log (text : JsString) : Act Unit := do
  write text
  write [newline]

def cache (c : CacheCall) : Act c.Result := .call (.cache c) fun r => Prog.lift (r.mapError Stop.error)

def raise (e : JsError) : Act Unit := .throw (.error e)

structure Casing where
  toUpperCase : JsString → JsString
  upper : ∀ s, ∀ c ∈ toUpperCase s, ¬ (97 ≤ c ∧ c ≤ 122)

def Casing.ascii : Casing where
  toUpperCase s := s.map fun c => if 97 ≤ c ∧ c ≤ 122 then c - 32 else c
  upper s c hc := by
    obtain ⟨d, -, rfl⟩ := List.mem_map.mp hc
    simp only [UInt16.le_iff_toNat_le]
    split_ifs with hd
    · have hle : (32 : UInt16) ≤ d := UInt16.le_iff_toNat_le.mpr (Nat.le_trans (by decide) hd.1)
      rw [UInt16.toNat_sub_of_le _ _ hle]
      simp only [UInt16.reduceToNat] at hd ⊢
      omega
    · exact hd

/-- The settings of the shell, and the number of rounds after which the loop over the nodes of a
global is given up. -/
structure Shell where
  ABOUT : JsString
  globalsdb_home : JsString
  casing : Casing
  fuel : ℕ

section Functions
variable (sh : Shell)

def Shell.main_prompt : JsString := sh.globalsdb_home ++ [greater]

def DESCRIPTION : JsString :=
  js "interactive node.js based repl session for globalsdb - just like good old mumps"

def toMain : Act Unit := do
  setState none
  write sh.main_prompt

def HELP : Act Unit := do
  log sh.ABOUT
  log DESCRIPTION
  log (js "availble commands:")
  commandTable.forM fun c => write (c.1 ++ [space])
  log (js "\navailble programs:")
  programTable.forM fun p => write (p.1 ++ [space])
  log []
  toMain sh

def HALT : Act Unit := .throw .exit

def Shell.conninfo : ConnInfo := ⟨sh.globalsdb_home, js "_system", js "SYS", js "SAMPLES"⟩

def open_connection : Act Unit := do
  log (js "globalsdb_home=" ++ sh.globalsdb_home)
  dir (.conninfo sh.conninfo)
  cache (.connect sh.conninfo)

def showFailure (result : Option Json) : Act Unit := do
  let ok ← Prog.lift ((member result (js "ok")).mapError Stop.error)
  if truthy ok then return
  else dir (.result result)

def SET (cmd : JsString) : Act Unit :=
  match parse_glb_ref cmd with
  | none => toMain sh
  | some glo_ref => do
    dir (.glo_ref glo_ref)
    open_connection sh
    let result ← cache (.set glo_ref)
    showFailure result
    cache .close
    toMain sh

def KILL (cmd : JsString) : Act Unit :=
  match parse_glb_ref cmd with
  | none => toMain sh
  | some glo_ref => do
    open_connection sh
    write (js "about to kill-->")
    dir (.glo_ref glo_ref)
    let result ← cache (.kill glo_ref)
    showFailure result
    cache .close
    toMain sh

/-- The names are printed three to a line, in columns of 32 units and a blank. -/
def directoryText (names : List JsString) : JsString :=
  (List.range ((names.length + 2) / 3)).flatMap fun i =>
    (((names.drop (3 * i)).take 3).flatMap fun global =>
      global ++ List.replicate (1 + (32 - global.length)) space) ++ [newline]

def star : CodeUnit := 42
def question : CodeUnit := 63

def directoryOpts (global : JsString) : DirectoryOpts :=
  if star ∈ global then
    let base := piece star 1 global
    let hi := List.replicate (1 + (32 - base.length)) 90
    ⟨some base, some (base ++ hi)⟩
  else ⟨none, none⟩

def glb_dir_dump (global : JsString) : Act Unit := do
  let result ← cache (.global_directory (directoryOpts global))
  log (js "\tGlobal Directory Display of " ++ sh.globalsdb_home)
  write (js "\t\t")
  dir .date
  log []
  log []
  write (directoryText result)
  log (newline :: (natText result.length ++ js " globals listed"))

def global_directory_dump (global : JsString) : Act Unit := do
  cache (.connect sh.conninfo)
  glb_dir_dump sh global
  cache .close

def format_glb_output (glo_ref : Node) : JsString :=
  js "^" ++ glo_ref.global.getD (js "undefined") ++
    (glo_ref.subscripts.map fun subs => lparen :: (Json.joinText subs ++ [rparen])).getD [] ++
    equals :: textOf glo_ref.data

def definedIs (glo_ref : Node) (n : ℤ) : Bool := looseEqual JsNumber.finite glo_ref.defined (some (.ofInt n))

def spin : ℕ → Node → Act Unit
  | 0, _ => .throw .running
  | fuel + 1, glo_ref => do
    let glo_ref ← cache (.next_node glo_ref)
    if definedIs glo_ref 0 then return
    else if glo_ref.global.isNone then return
    else do
      log (format_glb_output glo_ref)
      spin fuel glo_ref

def nodeOf (global : JsString) : Node :=
  let ss := global.splitOn lparen
  match readSubscripts ss with
  | none => ⟨some global, some [], none, none⟩
  | some subs => ⟨some (ss.getD 0 []), some (subs.map .str), none, none⟩

def dumpNode (dd glo_ref : Node) : Act Node :=
  if definedIs dd 1 || definedIs dd 11 then do
    let glo_ref ← cache (.get glo_ref)
    log (format_glb_output glo_ref)
    return glo_ref
  else return glo_ref

def dumpRest (dd glo_ref : Node) : Act Unit :=
  if definedIs dd 0 then return
  else spin sh.fuel glo_ref

def global_dump (global : JsString) : Act Unit := do
  let glo_ref := nodeOf global
  cache (.connect sh.conninfo)
  let dd ← cache (.data glo_ref)
  let glo_ref ← dumpNode dd glo_ref
  dumpRest sh dd glo_ref
  cache .close

def showGlobals (global : JsString) : Act Unit :=
  if global = [question] ∨ star ∈ global then global_directory_dump sh global
  else global_dump sh global

def gprompt : JsString := js "Global ^"

def percent_G (cmd : JsString) : Act Unit := do
  if ← percent_G_first then
    write gprompt
    setPercentGFirst false
  else if cmd = js "undefined" then
    -- now if just return at prompt, then back to main loop...
    setState none
    setPercentGFirst true
    write sh.main_prompt
  else do
    showGlobals sh cmd
    write gprompt

def callProgram (asMethod : Bool) (cmd : JsString) : Program → Act Unit
  | .percent_G => percent_G sh cmd
  | .inherited m => if m.raises asMethod then raise .typeError else pure ()

def programName (cmd : JsString) : JsString := (cmd.splitOn space)[1]?.getD (js "undefined")

def DO (cmd : JsString) : Act Unit :=
  match PROGRAMS (programName cmd) with
  | none => pure ()
  | some program => do
    setState (some (.program program))
    callProgram sh true cmd program

def callHandler (asMethod : Bool) (cmd : JsString) : Handler → Act Unit
  | .SET => SET sh cmd
  | .KILL => KILL sh cmd
  | .DO => DO sh cmd
  | .HALT => HALT
  | .HELP => HELP sh
  | .program p => callProgram sh asMethod cmd p

def substring (cmd : JsString) (start stop : ℤ) : JsString :=
  let start := min start.toNat cmd.length
  let stop := min stop.toNat cmd.length
  (cmd.take (max start stop)).drop (min start stop)

def isTrimWhite (c : CodeUnit) : Bool := isWhite c || c = 8203

def trim (s : JsString) : JsString := (s.dropWhile isTrimWhite).rdropWhile isTrimWhite

def command (cmd : JsString) : JsString := trim (substring cmd 1 (cmd.length - 1))

def Shell.first (cmd : JsString) : JsString := sh.casing.toUpperCase (piece space 1 cmd)

def processInputMain (cmd : JsString) : Act Unit := do
  let cmd := command cmd
  let first := sh.first cmd
  match ← getState with
  | some h => callHandler sh false cmd h
  | none =>
    match COMMANDS first with
    | some h => do
      setState (some h)
      callHandler sh true cmd h
    | none => toMain sh

end Functions

structure Session (σ : Type) where
  STATE : Option Handler
  percent_G_first : Bool
  written : List Output
  database : σ

def Session.start {σ : Type} (database : σ) : Session σ := ⟨none, true, [], database⟩

abbrev Cache (σ : Type) := (c : CacheCall) → σ → σ × Except JsError c.Result

def answer {σ : Type} (db : Cache σ) : Prog.Handler Call Call.Reply (Session σ)
  | .state, s => (s, s.STATE)
  | .setState h, s => ({ s with STATE := h }, ())
  | .first, s => (s, s.percent_G_first)
  | .setFirst b, s => ({ s with percent_G_first := b }, ())
  | .write o, s => ({ s with written := s.written ++ [o] }, ())
  | .cache c, s => ({ s with database := (db c s.database).1 }, (db c s.database).2)

structure Step (σ : Type) where
  before : Session σ
  line : JsString
  after : Session σ
  result : Except Stop Unit

def step {σ : Type} (sh : Shell) (db : Cache σ) (s : Session σ) (line : JsString) : Step σ :=
  let r := Prog.run (answer db) (processInputMain sh line) s
  ⟨s, line, r.1, r.2⟩

section Steps
variable {σ : Type} (sh : Shell) (db : Cache σ) (s : Session σ) (line : JsString)

theorem step_after : (step sh db s line).after = (Prog.run (answer db) (processInputMain sh line) s).1 := rfl

theorem step_result : (step sh db s line).result = (Prog.run (answer db) (processInputMain sh line) s).2 := rfl

end Steps

def Step.isLast {σ : Type} (st : Step σ) : Bool :=
  match st.result with
  | .error .exit | .error .running => true
  | _ => false

/-- The lines are read one after the other, errors or not. -/
def steps {σ : Type} (sh : Shell) (db : Cache σ) : Session σ → List JsString → List (Step σ)
  | _, [] => []
  | s, line :: lines =>
    let st := step sh db s line
    st :: if st.isLast then [] else steps sh db st.after lines

section Stored
variable {σ : Type} (sh : Shell) (db : Cache σ)

variable {db} in
theorem run_cache {c : CacheCall} {s : Session σ} {d : σ} {r : c.Result} (h : db c s.database = (d, .ok r)) :
    Prog.run (answer db) (cache c) s = ({ s with database := d }, .ok r) := by
  rw [cache, Prog.run_call, answer, h]
  rfl

theorem run_showFailure {result ok : Option Json} (h : member result (js "ok") = .ok ok) (s : Session σ) :
    ∃ out, Prog.run (answer db) (showFailure result) s = ({ s with written := s.written ++ out }, .ok ()) := by
  rw [showFailure, h]
  change ∃ out, Prog.run (answer db) (if truthy ok then pure () else dir (.result result)) s = _
  split_ifs
  · refine ⟨[], ?_⟩
    rw [List.append_nil]
    rfl
  · exact ⟨[.result result], rfl⟩

theorem run_open_connection {s : Session σ} {opened : σ}
    (hconnect : db (.connect sh.conninfo) s.database = (opened, .ok ())) :
    ∃ out, Prog.run (answer db) (open_connection sh) s =
      ({ s with written := s.written ++ out, database := opened }, .ok ()) := by
  have hlog : ∀ (text : JsString) (t : Session σ), Prog.run (answer db) (log text) t =
      ({ t with written := t.written ++ [.text text] ++ [.text [newline]] }, .ok ()) := fun _ _ => rfl
  have hdir : ∀ (o : Output) (t : Session σ), Prog.run (answer db) (dir o) t =
      ({ t with written := t.written ++ [o] }, .ok ()) := fun _ _ => rfl
  rw [open_connection, Prog.run_bind_ok (hlog _ s), Prog.run_bind_ok (hdir _ _), run_cache (by exact hconnect)]
  exact ⟨[.text (js "globalsdb_home=" ++ sh.globalsdb_home), .text [newline], .conninfo sh.conninfo],
    by simp only [List.append_assoc, List.cons_append, List.nil_append]⟩

theorem run_SET (c : SetText) {s : Session σ} {opened stored closed : σ} {result ok : Option Json}
    (hconnect : db (.connect sh.conninfo) s.database = (opened, .ok ()))
    (hset : db (.set ⟨c.name, c.subscripts, some (piece equals 1 c.data)⟩) opened = (stored, .ok result))
    (hmember : member result (js "ok") = .ok ok) (hclose : db .close stored = (closed, .ok ())) :
    ∃ out, Prog.run (answer db) (SET sh c.text) s =
      (⟨none, s.percent_G_first, s.written ++ (out ++ [.text sh.main_prompt]), closed⟩, .ok ()) := by
  have hdir : ∀ o : Output, Prog.run (answer db) (dir o) s =
      ({ s with written := s.written ++ [o] }, .ok ()) := fun _ => rfl
  have hmain : ∀ t : Session σ, Prog.run (answer db) (toMain sh) t =
      (⟨none, t.percent_G_first, t.written ++ [.text sh.main_prompt], t.database⟩, .ok ()) := fun _ => rfl
  obtain ⟨out, hopen⟩ := run_open_connection sh db
    (s := { s with written := s.written ++ [.glo_ref ⟨c.name, c.subscripts, some (piece equals 1 c.data)⟩] }) hconnect
  obtain ⟨out', hshow⟩ := run_showFailure db hmember
    (⟨s.STATE, s.percent_G_first,
      s.written ++ [.glo_ref ⟨c.name, c.subscripts, some (piece equals 1 c.data)⟩] ++ out, stored⟩ : Session σ)
  rw [SET, c.parse_text]
  dsimp only
  rw [Prog.run_bind_ok (hdir _), Prog.run_bind_ok hopen, Prog.run_bind_ok (run_cache (by exact hset)),
    Prog.run_bind_ok hshow, Prog.run_bind_ok (run_cache (by exact hclose)), hmain]
  exact ⟨[.glo_ref ⟨c.name, c.subscripts, some (piece equals 1 c.data)⟩] ++ out ++ out',
    by simp only [List.append_assoc]⟩

end Stored

end GlobalsJs.Gdbsession
