import GlobalsJs.Ecma.Number
import GlobalsJs.Globalsd.Daemon

/-!
# The client of the daemon

`send` numbers a request, remembers its callback and writes one line. The listener
for the data events reads acknowledgements and results and calls the callback of the
request that the last acknowledgement named. `called` records those calls. Counts are
compared as exact numbers.
-/

namespace GlobalsJs.Globalsd
open Ecma

inductive ResultMode
  | batch | stream
deriving DecidableEq

structure Client (κ : Type) where
  port : Json
  host : Json
  name : Json
  resultMode : ResultMode
  nextId : ℕ
  dataCallbacks : List (JsString × κ)
  default_datacb : κ

def orElse (a : Option Json) (b : Json) : Json := if truthy a then a.getD b else b

section
variable {κ : Type}

def Client.new (machine : JsString) (default_datacb : κ) (options : Option Json) :
    Except JsError (Client κ) := do
  match options with
  | some (.obj _) | some (.arr _) | some .null =>
    let port ← member options (js "port")
    let host ← member options (js "host")
    let name ← member options (js "name")
    let resultMode ← member options (js "resultMode")
    return {
      port := orElse port (.ofInt 11115)
      host := orElse host (.str (js "localhost"))
      name := orElse name (.str machine)
      -- an invalid mode is reported and ignored
      resultMode := if resultMode = some (.str (js "stream")) then .stream else .batch
      nextId := 0
      dataCallbacks := []
      default_datacb }
  | _ => return {
      port := .ofInt 12101
      host := .str (js "localhost")
      name := .str machine
      resultMode := .batch
      nextId := 0
      dataCallbacks := []
      default_datacb }

def assign (k : JsString) (v : κ) : List (JsString × κ) → List (JsString × κ)
  | [] => [(k, v)]
  | (l, w) :: ps => if l = k then (k, v) :: ps else (l, w) :: assign k v ps

def Client.message (self : Client κ) (ts : JsString) (data : Json) : Json :=
  .obj [(js "header", .obj [(js "id", .ofInt self.nextId), (js "name", self.name),
    (js "ts", .str ts)]), (js "data", data)]

def Client.send (self : Client κ) (ts : JsString) (data : Json) (callback : Option κ) :
    Client κ × JsString :=
  ({ self with
      nextId := self.nextId + 1
      dataCallbacks := assign (natText self.nextId) (callback.getD self.default_datacb)
        self.dataCallbacks },
    Json.stringify (self.message ts data) ++ [END_OF_MESSAGE])

structure Invocation (κ : Type) where
  callback : κ
  info : Json
  data : Json

/-- The variables that the listener shares between events. -/
structure Reader (κ : Type) where
  batch_result_counter : ℕ
  batch_result_size : Option Json
  current_result_msg_id : Option Json
  batch : List Json
  called : List (Invocation κ)

def Reader.initial : Reader κ := ⟨0, some (.ofInt 0), some (.str []), [], []⟩

abbrev Decode (κ : Type) := ExceptT JsError (StateM (Reader κ))

def isACKObject (obj : Json) : Except JsError Bool := do
  return (← member (some obj) ackProp).isSome

def isZeroCount : Option Json → Bool
  | some (.num n) => n.isZero
  | _ => false

def countEq (counter : ℕ) (size : Option Json) : Bool :=
  looseEq JsNumber.finite (.num (.finite ⟨counter, 0⟩))
    (match size with
    | none => .undefined
    | some v => v.prim JsNumber.finite)

def callBack (self : Client κ) (info data : Json) : Decode κ Unit := do
  let s : Reader κ ← get
  match self.dataCallbacks.lookup (textOf s.current_result_msg_id) with
  | none => throw .typeError
  | some callback => set { s with called := s.called ++ [Invocation.mk callback info data] }

def emptyInfo : Json := .obj [(js "count", .ofInt 0)]

def onObject (self : Client κ) (o : Json) : Decode κ Unit := do
  if ← isACKObject o then
    let ack ← member (some o) ackProp
    let size ← member ack (js "result_count")
    modify fun s => { s with batch_result_size := size, batch_result_counter := 0 }
    let id ← member ack (js "id")
    modify fun s => { s with current_result_msg_id := id }
    if isZeroCount size then
      callBack self emptyInfo (.arr [])
    modify fun s => { s with batch := [] }
  else
    modify fun s => { s with batch_result_counter := s.batch_result_counter + 1 }
    match self.resultMode with
    | .stream => callBack self (.obj []) o
    | .batch =>
      modify fun s => { s with batch := s.batch ++ [o] }
      let s ← get
      if countEq s.batch_result_counter s.batch_result_size then
        callBack self (.obj []) (.arr s.batch)

def handleObject (self : Client κ) (s : Reader κ) (o : Json) : Reader κ × Bool :=
  let r := (onObject self o).run.run s
  (r.2, finished r.1)

def Client.onData (self : Client κ) (st : Reader κ × JsString) (data : JsString) :
    Reader κ × JsString :=
  LineReader.feed (parsed (handleObject self)) newline st data

end

end GlobalsJs.Globalsd
