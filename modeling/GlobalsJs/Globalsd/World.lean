import GlobalsJs.Stream.Link
import GlobalsJs.Globalsd.RoundTrip
import GlobalsJs.Globalsd.Bytes

/-!
# The daemon and its clients

A client may send at any time, and the text on its way in either direction arrives in chunks of
any length. `sequential` performs requests one after the other on the store, without any wire.
-/

namespace GlobalsJs.Globalsd
open Ecma LineReader

/-- The values of a result that the response writer comes to the end of. -/
def Returned.values : Returned → Option (List Json)
  | .undefined | .unprintable | .json .null => none
  | .list items => if items.all Option.isSome then some (items.filterMap id) else none
  | .json (.arr xs) => some xs
  | .json (.obj ps) => if (get ps (js "forEach")).isNone then some [.obj ps] else none
  | .json v => some [v]

section
variable {σ ι κ : Type}

/-- The function that the daemon calls for a request with this data. -/
def method (api : Api σ) (data : Option Json) : Option (σ → σ × Except JsError Returned) := do
  let op ← (member data (js "op")).toOption
  let op ← op
  let opName ← (convert (some op)).toOption
  let collection ← (member data (js "collection")).toOption
  let params ← (member data (js "params")).toOption
  if truthy collection then
    let operation ← api.collection opName
    let name ← (convert collection).toOption
    return fun s => operation s name params
  else
    let operation ← api.db opName
    return fun s => operation s params

def performBy (f : σ → σ × Except JsError Returned) (s : σ) : σ × List Json :=
  match (f s).2 with
  | .ok r => ((f s).1, r.values.getD [])
  | .error _ => ((f s).1, [])

def perform (api : Api σ) (s : σ) (req : Json) : σ × List Json :=
  match (member (some req) (js "data")).toOption.bind (method api) with
  | none => (s, [])
  | some f => performBy f s

def sequential (api : Api σ) : σ → List (ι × Json) → σ × List (ι × List Json)
  | s, [] => (s, [])
  | s, (c, req) :: reqs =>
    let r := perform api s req
    let rest := sequential api r.1 reqs
    (rest.1, (c, r.2) :: rest.2)

def answersTo [DecidableEq ι] (c : ι) (answers : List (ι × List Json)) : List (List Json) :=
  (answers.filter (·.1 = c)).map (·.2)

structure Sending (κ : Type) where
  ts : JsString
  data : Json
  callback : Option κ

namespace Client
variable (self : Client κ)

def sendAll (rs : List (Sending κ)) : Client κ :=
  rs.foldl (fun self r => (self.send r.ts r.data r.callback).1) self

def messages (self : Client κ) : List (Sending κ) → List Json
  | [] => []
  | r :: rs => self.message r.ts r.data :: (self.send r.ts r.data r.callback).1.messages rs

def callbackOf (r : Sending κ) : κ := r.callback.getD self.default_datacb

def invocations (callback : κ) (vs : List Json) : List (Invocation κ) :=
  if vs = [] then [⟨callback, emptyInfo, .arr []⟩]
  else match self.resultMode with
    | .batch => [⟨callback, .obj [], .arr vs⟩]
    | .stream => vs.map fun v => ⟨callback, .obj [], v⟩

def expected (rs : List (Sending κ)) (answers : List (List Json)) : List (Invocation κ) :=
  (List.zipWith (fun r vs => self.invocations (self.callbackOf r) vs) rs answers).flatten

def Fresh : Prop := self.nextId = 0 ∧ self.dataCallbacks = []

end Client

def responseLines : ℕ → List (List Json) → List Json
  | _, [] => []
  | n, vs :: answers =>
    ack (some (.ofInt n)) (some (.ofInt vs.length)) :: vs ++ responseLines (n + 1) answers

/-- `requests` has what every client has sent so far. -/
structure World (σ ι κ : Type) where
  clients : ι → Client κ
  requests : ι → List (Sending κ)
  readers : ι → Reader κ × JsString
  server : Listening σ ι
  toServer : ι → JsString
  toClient : ι → JsString

inductive Event (ι κ : Type)
  | send (c : ι) (r : Sending κ)
  | toServer (c : ι) (n : ℕ)
  | toClient (c : ι) (n : ℕ)

namespace World

def start (clients : ι → Client κ) (s : σ) : World σ ι κ where
  clients := clients
  requests _ := []
  readers _ := (Reader.initial, [])
  server := (⟨⟨s, [], []⟩, []⟩, [])
  toServer _ := []
  toClient _ := []

variable [DecidableEq ι]

/-- The next `n` units of a text on its way arrive together. What the daemon writes meanwhile is
on its way to the clients. -/
def step (api : Api σ) (w : World σ ι κ) : Event ι κ → World σ ι κ
  | .send c r =>
    let sent := (w.clients c).send r.ts r.data r.callback
    { w with
      clients := Function.update w.clients c sent.1
      requests := Function.update w.requests c (w.requests c ++ [r])
      toServer := Function.update w.toServer c (w.toServer c ++ sent.2) }
  | .toServer c n =>
    let server := Globalsd.onData api c w.server ((w.toServer c).take n)
    { w with
      server := server
      toServer := Function.update w.toServer c ((w.toServer c).drop n)
      toClient := fun d => w.toClient d ++
        (sent server.1.daemon d).drop (sent w.server.1.daemon d).length }
  | .toClient c n =>
    { w with
      readers := Function.update w.readers c ((w.clients c).onData (w.readers c) ((w.toClient c).take n))
      toClient := Function.update w.toClient c ((w.toClient c).drop n) }

def run (api : Api σ) (w : World σ ι κ) (events : List (Event ι κ)) : World σ ι κ := events.foldl (step api) w

end World

def Server.order (s : Server σ ι) : List (ι × Json) := s.calls.map fun k => (k.socket, k.request)

/-- Logging does not fail, and from stores with the invariant the method comes back with values
that the client can tell from headers. -/
structure Regular (api : Api σ) (I : σ → Prop) (client : Client κ) (data : Json) : Prop where
  named : canLog client.name = true
  name_wf : client.name.WF
  data_wf : data.WF
  performs : ∃ f, method api (some data) = some f ∧ ∀ s, I s → I (f s).1 ∧
    ∃ r vs, (f s).2 = .ok r ∧ r.values = some vs ∧ ∀ v ∈ vs, v.WF ∧ Transparent v

/-- Requests are sent as `Q` says. No request of another connection is half arrived when text for one
connection arrives at the daemon, and no number is cut on the way back. -/
def Allowed [DecidableEq ι] (api : Api σ) (Q : Client κ → Json → Prop) (clients : ι → Client κ) (s : σ)
    (w : World σ ι κ) : Event ι κ → Prop
  | .send c r => Q (w.clients c) r.data
  | .toServer c _ => ∀ d ≠ c,
    ¬ Torn (fun _ => True) newline (((clients d).messages (w.requests d)).map Json.stringify) (w.toServer d)
  | .toClient c n => ¬ Torn (fun p => parses p = true) newline
    ((responseLines 0 (answersTo c (sequential api s w.server.1.order).2)).map Json.stringify) ((w.toClient c).drop n)

def Admissible [DecidableEq ι] (api : Api σ) (Q : Client κ → Json → Prop) (clients : ι → Client κ) (s : σ) :
    World σ ι κ → List (Event ι κ) → Prop
  | _, [] => True
  | w, e :: es => Allowed api Q clients s w e ∧ Admissible api Q clients s (w.step api e) es

theorem Admissible.mono [DecidableEq ι] {api : Api σ} {Q Q' : Client κ → Json → Prop} {clients : ι → Client κ}
    {s : σ} (hQ : ∀ client data, Q client data → Q' client data) {w : World σ ι κ} {events : List (Event ι κ)}
    (h : Admissible api Q clients s w events) : Admissible api Q' clients s w events := by
  induction events generalizing w with
  | nil => trivial
  | cons e events ih =>
    refine ⟨?_, ih h.2⟩
    cases e with
    | send c r => exact hQ _ _ h.1
    | toServer c n => exact h.1
    | toClient c n => exact h.1

end

end GlobalsJs.Globalsd
