import GlobalsJs.Ecma.Value
import GlobalsJs.Globalsd.Message

/-!
# The daemon: one request, one data event

`onRequest` is the request handler with its exceptions; effects that happened
before an exception stay. The methods it finds on `Db.prototype` and
`Collection.prototype` are parameters. `onData` is the listener for the data
events of a socket. The text kept between events belongs to the server and not to
the socket, as `partial_object` does. `calls` records what `onRequest` was given.
-/

namespace GlobalsJs.Globalsd
open Ecma

/-- What a method gives back, as far as the response writer can tell. -/
inductive Returned
  | undefined
  | json (v : Json)
  | list (items : List (Option Json))
  | unprintable

/-- The functions on the two prototypes by name. The second kind also gets the
property of `db` that it is called on. -/
structure Api (σ : Type) where
  db : JsString → Option (σ → Option Json → σ × Except JsError Returned)
  collection : JsString → Option (σ → JsString → Option Json → σ × Except JsError Returned)

structure Daemon (σ ι : Type) where
  store : σ
  clients : List (JsString × List JsString)
  written : List (ι × JsString)

def ackProp : JsString := js "~*-globalsdb-*~"
def INVALID_REQUEST_RESPONSE : JsString := js "400\n"
abbrev END_OF_MESSAGE : CodeUnit := newline

def arrayFunctions : List JsString :=
  ["toString", "toLocaleString", "join", "pop", "push", "concat", "reverse", "shift", "unshift",
    "slice", "splice", "sort", "filter", "forEach", "some", "every", "map", "indexOf",
    "lastIndexOf", "reduce", "reduceRight"].map js

/-- `self.clients` is an array: under these names it has members that are not lists. -/
def arrayMembers : List JsString :=
  js "length" :: js "constructor" :: arrayFunctions ++ objectFunctions

def canLog (name : Json) : Bool := name.convertible && !arrayMembers.contains name.toText

section Handlers
variable {S α β : Type} (s : S)

theorem run_bind (x : ExceptT JsError (StateM S) α) (f : α → ExceptT JsError (StateM S) β) :
    (x >>= f).run.run s =
      match x.run.run s with
      | (.ok a, t) => (f a).run.run t
      | (.error e, t) => (.error e, t) := by
  rw [ExceptT.run_bind, StateT.run_bind]
  rcases x.run.run s with ⟨a | a, t⟩ <;> rfl

theorem run_lift (x : Except JsError α) :
    (liftM x : ExceptT JsError (StateM S) α).run.run s = (x, s) := by
  cases x <;> rfl

theorem liftM_ok (a : α) : (liftM (Except.ok a : Except JsError α) : ExceptT JsError (StateM S) α) = pure a :=
  rfl

theorem run_modify (g : S → S) :
    (modify g : ExceptT JsError (StateM S) Unit).run.run s = (.ok (), g s) := rfl

theorem run_get : (MonadState.get : ExceptT JsError (StateM S) S).run.run s = (.ok s, s) := rfl

theorem run_set (t : S) : (set t : ExceptT JsError (StateM S) Unit).run.run s = (.ok (), t) := rfl

theorem run_pure (a : α) : (pure a : ExceptT JsError (StateM S) α).run.run s = (.ok a, s) := rfl

end Handlers

section Request
variable {σ ι : Type}

abbrev Act (σ ι : Type) := ExceptT JsError (StateM (Daemon σ ι))

def socketWrite (socket : ι) (text : JsString) : Act σ ι Unit :=
  modify fun d => { d with written := d.written ++ [(socket, text)] }

def bad_request (socket : ι) : Act σ ι Unit := socketWrite socket INVALID_REQUEST_RESPONSE

def valid (r : Option Json) : Except JsError Bool := do
  let op ← member r (js "op")
  return op.isSome

def pushClient (name text : JsString) :
    List (JsString × List JsString) → List (JsString × List JsString)
  | [] => [(name, [text])]
  | (n, ts) :: cs => if n = name then (n, ts ++ [text]) :: cs else (n, ts) :: pushClient name text cs

def logClient (req : Json) : Act σ ι Unit := do
  match ← member (some req) (js "header") with
  | none => return
  | some header =>
    match ← member (some header) (js "name") with
    | none => return
    | some name =>
      let key ← convert (some name)
      if key ∈ arrayMembers then throw .typeError
      modify fun d => { d with clients := pushClient key (Json.stringify req) d.clients }

theorem run_logClient {req header name : Json} (hheader : member (some req) (js "header") = .ok (some header))
    (hname : member (some header) (js "name") = .ok (some name)) (d : Daemon σ ι) :
    (logClient req).run.run d =
      if canLog name then
        (.ok (), { d with clients := pushClient name.toText (Json.stringify req) d.clients })
      else (.error .typeError, d) := by
  unfold logClient canLog
  simp only [hheader, hname, liftM_ok, pure_bind]
  cases hconv : name.convertible with
  | false =>
    have hkey : convert (some name) = .error .typeError := by simp [convert, hconv]
    rw [hkey]
    rfl
  | true =>
    have hkey : convert (some name) = .ok name.toText := by simp [convert, hconv]
    simp only [hkey, liftM_ok, pure_bind, Bool.true_and]
    by_cases hmem : name.toText ∈ arrayMembers
    · simp only [hmem, List.contains_eq_mem, decide_true, Bool.not_true, Bool.false_eq_true, if_true, if_false]
      rfl
    · simp only [hmem, List.contains_eq_mem, decide_false, Bool.not_false, if_true, if_false]
      rfl

def call (f : σ → σ × Except JsError Returned) : Act σ ι Returned := do
  let d ← get
  set { d with store := (f d.store).1 }
  (f d.store).2

/-- The header line; an `id` of `undefined` is left out of its text. -/
def ack (id result_count : Option Json) : Json :=
  .obj [(ackProp, .obj ((id.map fun v => (js "id", v)).toList ++
    (result_count.map fun v => (js "result_count", v)).toList))]

def writeLine (socket : ι) (v : Json) : Act σ ι Unit := do
  socketWrite socket (Json.stringify v)
  socketWrite socket (js "\n")

/-- A value without JSON text makes `socket.write` throw. -/
def writeItem (socket : ι) : Option Json → Act σ ι Unit
  | some v => writeLine socket v
  | none => throw .typeError

def respond (socket : ι) (req : Json) (result : Returned) : Act σ ι Unit := do
  let header ← member (some req) (js "header")
  let id ← member header (js "id")
  match result with
  | .undefined | .json .null => throw .typeError
  | .list items =>
    writeLine socket (ack id (some (.ofInt items.length)))
    items.forM (writeItem socket)
  | .json (.arr xs) =>
    writeLine socket (ack id (some (.ofInt xs.length)))
    xs.forM (writeLine socket)
  | .unprintable =>
    writeLine socket (ack id (some (.ofInt 1)))
    throw .typeError
  | .json v =>
    match ← member (some v) (js "forEach") with
    | some _ =>
      -- an object with a property `forEach` is taken for a list
      writeLine socket (ack id (← member (some v) (js "length")))
      throw .typeError
    | none =>
      writeLine socket (ack id (some (.ofInt 1)))
      writeLine socket v

def onRequest (api : Api σ) (req : Json) (socket : ι) : Act σ ι Unit := do
  let data ← member (some req) (js "data")
  unless ← valid data do
    bad_request socket
    return
  logClient req
  let collection ← member data (js "collection")
  let op ← member data (js "op")
  let params ← member data (js "params")
  if truthy collection then
    match api.collection (← convert op) with
    | none => bad_request socket
    | some operation =>
      let name ← convert collection
      let result ← call fun s => operation s name params
      respond socket req result
  else
    match api.db (← convert op) with
    | none => throw .typeError
    | some operation =>
      let result ← call fun s => operation s params
      respond socket req result

end Request

structure Call (ι : Type) where
  socket : ι
  request : Json
  completed : Bool

structure Server (σ ι : Type) where
  daemon : Daemon σ ι
  calls : List (Call ι)

variable {σ ι : Type}

def finished {α : Type} : Except JsError α → Bool
  | .ok _ => true
  | .error _ => false

def handle (api : Api σ) (c : ι) (s : Server σ ι) (o : Json) : Server σ ι × Bool :=
  let r := (onRequest api o c).run.run s.daemon
  (⟨r.2, s.calls ++ [⟨c, o, finished r.1⟩]⟩, finished r.1)

/-- The server between two events: the second component is `partial_object`. -/
abbrev Listening (σ ι : Type) := Server σ ι × JsString

def onData (api : Api σ) (c : ι) (st : Listening σ ι) (data : JsString) : Listening σ ι :=
  LineReader.feed (parsed (handle api c)) END_OF_MESSAGE st data

end GlobalsJs.Globalsd
