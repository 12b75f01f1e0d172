import GlobalsJs.Globalsd.Remote

/-!
# The response writer

For a request that names a method of a collection, what goes to the socket is the header
line and the lines of the result, as far as the writer comes. It does not come far with
results that are no value, and a property `forEach` makes it count by `length`.
-/

namespace GlobalsJs.Globalsd
open Ecma Cache Query Collection LineReader

section
variable {σ ι : Type}

/-- The text that went to a socket. -/
def sent [DecidableEq ι] (d : Daemon σ ι) (socket : ι) : JsString :=
  (d.written.filter fun w => w.1 = socket).flatMap Prod.snd

def lineWrites (socket : ι) (vs : List Json) : List (ι × JsString) :=
  vs.flatMap fun v => [(socket, Json.stringify v), (socket, js "\n")]

def Writes (socket : ι) (p : Act σ ι Unit) (vs : List Json) (r : Except JsError Unit) : Prop :=
  ∀ d, p.run.run d = (r, { d with written := d.written ++ lineWrites socket vs })

variable {socket : ι}

theorem text_lineWrites (vs : List Json) :
    (lineWrites socket vs).flatMap Prod.snd = wire newline (vs.map Json.stringify) := by
  induction vs with
  | nil => rfl
  | cons v vs ih =>
    have hnewline : js "\n" = [newline] := rfl
    rw [List.map_cons, wire_cons, ← ih, lineWrites, List.flatMap_cons, List.flatMap_append, lineWrites]
    simp [hnewline]

theorem sent_lineWrites [DecidableEq ι] {d e : Daemon σ ι} {vs : List Json}
    (h : e.written = d.written ++ lineWrites socket vs) :
    sent e socket = sent d socket ++ wire newline (vs.map Json.stringify) := by
  have hall : (lineWrites socket vs).filter (fun w => w.1 = socket) = lineWrites socket vs := by
    rw [List.filter_eq_self]
    intro w hw
    obtain ⟨v, _, hw⟩ := List.mem_flatMap.mp hw
    simp only [List.mem_cons, List.not_mem_nil, or_false] at hw
    rcases hw with rfl | rfl <;> simp
  rw [sent, h, List.filter_append, hall, List.flatMap_append, text_lineWrites, sent]

theorem Writes.pure : Writes (σ := σ) socket (pure ()) [] (.ok ()) := fun d => by
  rw [run_pure, lineWrites, List.flatMap_nil, List.append_nil]

theorem Writes.throw (e : JsError) : Writes (σ := σ) socket (throw e) [] (.error e) := fun d => by
  rw [lineWrites, List.flatMap_nil, List.append_nil]
  rfl

theorem Writes.bind {p : Act σ ι Unit} {f : Unit → Act σ ι Unit} {vs ws : List Json}
    {r : Except JsError Unit} (hp : Writes socket p vs (.ok ())) (hf : Writes socket (f ()) ws r) :
    Writes socket (p >>= f) (vs ++ ws) r := by
  intro d
  have happend : lineWrites socket (vs ++ ws) = lineWrites socket vs ++ lineWrites socket ws :=
    List.flatMap_append
  rw [run_bind, hp]
  refine (hf _).trans ?_
  rw [happend, ← List.append_assoc]

theorem writes_line (v : Json) : Writes (σ := σ) socket (writeLine socket v) [v] (.ok ()) := by
  intro d
  rw [writeLine, run_bind, socketWrite, run_modify]
  refine (run_modify _ _).trans ?_
  rw [List.append_assoc]
  rfl

theorem writes_lines (vs : List Json) :
    Writes (σ := σ) socket (vs.forM (writeLine socket)) vs (.ok ()) := by
  induction vs with
  | nil => exact .pure
  | cons v vs ih => exact (writes_line v).bind ih

/-- A list is written up to the first element that is missing. -/
def written (items : List (Option Json)) : List Json := (items.takeWhile Option.isSome).filterMap id

theorem writes_items (items : List (Option Json)) :
    ∃ r, Writes (σ := σ) socket (items.forM (writeItem socket)) (written items) r := by
  induction items with
  | nil => exact ⟨_, .pure⟩
  | cons o items ih =>
    cases o with
    | none =>
      exact ⟨.error .typeError, Writes.throw .typeError⟩
    | some v =>
      obtain ⟨r, hr⟩ := ih
      exact ⟨r, (writes_line v).bind hr⟩

/-- The lines for a result. -/
def answer (id : Option Json) : Returned → List Json
  | .undefined | .json .null => []
  | .list items => ack id (some (.ofInt items.length)) :: written items
  | .json (.arr xs) => ack id (some (.ofInt xs.length)) :: xs
  | .unprintable => [ack id (some (.ofInt 1))]
  | .json (.obj ps) =>
    match get ps (js "forEach") with
    | some _ => [ack id (get ps (js "length"))]
    | none => [ack id (some (.ofInt 1)), .obj ps]
  | .json v => [ack id (some (.ofInt 1)), v]

theorem value_writes (id : Option Json) {v : Json} {f n : Option Json}
    (hfound : member (some v) (js "forEach") = .ok f) (hlength : member (some v) (js "length") = .ok n) :
    ∃ r, Writes (σ := σ) socket (do
        match ← (member (some v) (js "forEach") : Except JsError (Option Json)) with
        | some _ =>
          writeLine socket (ack id (← (member (some v) (js "length") : Except JsError (Option Json))))
          throw .typeError
        | none =>
          writeLine socket (ack id (some (.ofInt 1)))
          writeLine socket v)
      (match f with
      | some _ => [ack id n]
      | none => [ack id (some (.ofInt 1)), v]) r := by
  simp only [hfound, hlength, liftM_ok, pure_bind]
  cases f with
  | none => exact ⟨.ok (), (writes_line _).bind (writes_line v)⟩
  | some _ => exact ⟨.error .typeError, (writes_line _).bind (.throw .typeError)⟩

theorem respond_writes {req header : Json} {id : Option Json}
    (hheader : member (some req) (js "header") = .ok (some header))
    (hid : member (some header) (js "id") = .ok id) (result : Returned) :
    ∃ r, Writes (σ := σ) socket (respond socket req result) (answer id result) r := by
  unfold respond
  simp only [hheader, hid, liftM_ok, pure_bind]
  cases result with
  | undefined => exact ⟨.error .typeError, .throw .typeError⟩
  | list items =>
    obtain ⟨r, hr⟩ : ∃ r, Writes (σ := σ) socket (items.forM (writeItem socket)) (written items) r :=
      writes_items items
    exact ⟨r, (writes_line _).bind hr⟩
  | unprintable => exact ⟨.error .typeError, (writes_line _).bind (.throw .typeError)⟩
  | json v =>
    cases v with
    | null => exact ⟨.error .typeError, .throw .typeError⟩
    | arr xs => exact ⟨.ok (), (writes_line _).bind (writes_lines xs)⟩
    | bool | num | str => exact value_writes id (f := none) (n := none) rfl rfl
    | obj ps => exact value_writes id rfl rfl

/-- A request with an identifier that names a method of a collection. -/
structure Accepted (api : Api σ) (req : Json) where
  header : Json
  id : Json
  data : Json
  collection : Json
  op : Json
  params : Option Json
  collectionName : JsString
  opName : JsString
  operation : σ → JsString → Option Json → σ × Except JsError Returned
  hasHeader : member (some req) (js "header") = .ok (some header)
  hasId : member (some header) (js "id") = .ok (some id)
  hasData : member (some req) (js "data") = .ok (some data)
  hasCollection : member (some data) (js "collection") = .ok (some collection)
  named : truthy (some collection) = true
  hasOp : member (some data) (js "op") = .ok (some op)
  hasParams : member (some data) (js "params") = .ok params
  namesCollection : convert (some collection) = .ok collectionName
  namesOp : convert (some op) = .ok opName
  found : api.collection opName = some operation

def logs (header : Json) : Bool :=
  match member (some header) (js "name") with
  | .ok (some name) => canLog name
  | _ => true

namespace Accepted
variable {api : Api σ} {req : Json}

/-- What the operation does to a store, and how it ends. -/
def performs (a : Accepted api req) (s : σ) : σ × Except JsError Returned :=
  a.operation s a.collectionName a.params

/-- The lines that the request is answered with when the operation ends like this. -/
def answered (a : Accepted api req) (outcome : Except JsError Returned) : List Json :=
  if logs a.header then
    match outcome with
    | .ok r => answer (some a.id) r
    | .error _ => []
  else []

theorem run_logClient (a : Accepted api req) (d : Daemon σ ι) :
    (logs a.header = false ∧ (logClient req).run.run d = (.error .typeError, d)) ∨
      (logs a.header = true ∧ ∃ clients, (logClient req).run.run d = (.ok (), { d with clients })) := by
  obtain ⟨name, hname⟩ : ∃ name, member (some a.header) (js "name") = .ok name := by
    have hid := a.hasId
    cases hheader : a.header with
    | null => rw [hheader] at hid; cases hid
    | bool | num | str | arr | obj => exact ⟨_, rfl⟩
  cases name with
  | none =>
    refine .inr ⟨by simp only [logs, hname], d.clients, ?_⟩
    unfold logClient
    simp only [a.hasHeader, hname, liftM_ok, pure_bind]
    rfl
  | some name =>
    have hlogs : logs a.header = canLog name := by simp only [logs, hname]
    rw [hlogs, Globalsd.run_logClient a.hasHeader hname d]
    cases canLog name with
    | false => exact .inl ⟨rfl, rfl⟩
    | true => exact .inr ⟨rfl, _, rfl⟩

theorem onRequest_eq (a : Accepted api req) (socket : ι) : onRequest api req socket = (do
    logClient req
    let result ← call a.performs
    respond socket req result) := by
  have hvalid : valid (some a.data) = .ok true := by
    rw [valid, a.hasOp]
    rfl
  unfold onRequest
  simp only [a.hasData, hvalid, a.hasCollection, a.hasOp, a.hasParams, liftM_ok, pure_bind, a.named, if_true,
    a.namesOp, a.namesCollection, a.found]
  rfl

theorem written_eq (a : Accepted api req) (socket : ι) (d : Daemon σ ι) :
    ((onRequest api req socket).run.run d).2.written =
      d.written ++ lineWrites socket (a.answered (a.performs d.store).2) := by
  have hnil : d.written ++ lineWrites socket [] = d.written := List.append_nil _
  rw [a.onRequest_eq, run_bind]
  unfold answered
  rcases a.run_logClient d with ⟨hlogs, hlog⟩ | ⟨hlogs, clients, hlog⟩
  · rw [hlog, hlogs, if_neg Bool.false_ne_true, hnil]
  rw [hlog, hlogs, if_pos rfl]
  dsimp only
  have hcall : (call (ι := ι) a.performs).run.run { d with clients } =
      ((a.performs d.store).2, { d with store := (a.performs d.store).1, clients }) := rfl
  rw [run_bind, hcall]
  cases hresult : (a.performs d.store).2 with
  | error e => exact hnil.symm
  | ok r =>
    obtain ⟨x, hx⟩ : ∃ x, Writes (σ := σ) socket (respond socket req r) _ x :=
      respond_writes a.hasHeader a.hasId r
    dsimp only
    rw [hx]

end Accepted

/-- The socket got one header line with the identifier and a count, as many lines of JSON text,
and nothing else. -/
def WellAnswered [DecidableEq ι] (socket : ι) (id : Json) (d e : Daemon σ ι) : Prop :=
  ∃ lines : List JsString, (∀ l ∈ lines, newline ∉ l ∧ (Json.parse l).isSome) ∧
    sent e socket = sent d socket ++
      wire newline (Json.stringify (ack (some id) (some (.ofInt lines.length))) :: lines)

def Returned.WF : Returned → Prop
  | .json v => v.WF
  | .list items => ∀ v, some v ∈ items → v.WF
  | .undefined | .unprintable => True

/-- The writer comes to the end of the result, and counts it right. -/
def Returned.Respondable : Returned → Prop
  | .undefined | .unprintable | .json .null => False
  | .list items => ∀ o ∈ items, o.isSome
  | .json (.obj ps) => get ps (js "forEach") = none ∨ get ps (js "length") = some (.ofInt 0)
  | .json _ => True

/-- Logging does not fail, and the operation returns something that can be responded with. -/
def Answerable (header : Json) (outcome : Except JsError Returned) : Prop :=
  logs header = true ∧ ∃ r, outcome = .ok r ∧ r.Respondable

theorem ack_inj {id : Json} {m n : Option Json} (h : ack (some id) m = ack (some id) n) : m = n := by
  cases m <;> cases n <;> simp_all [ack]

theorem wf_ack {id : Json} {count : Option Json} (hid : id.WF) (hcount : ∀ v, count = some v → v.WF) :
    (ack (some id) count).WF := by
  have hkeys : js "id" ≠ js "result_count" := by decide
  cases count with
  | none => simp [ack, Json.WF, Json.WFProps, keys, hid]
  | some v => simp [ack, Json.WF, Json.WFProps, keys, hid, hkeys, hcount v rfl]

theorem written_wf {items : List (Option Json)} (h : ∀ v, some v ∈ items → v.WF) :
    ∀ v ∈ written items, v.WF := by
  intro v hv
  obtain ⟨o, ho, rfl⟩ := List.mem_filterMap.mp hv
  exact h v ((List.takeWhile_prefix _).subset ho)

theorem answer_wf {id : Json} (hid : id.WF) {r : Returned} (hr : r.WF) :
    ∀ v ∈ answer (some id) r, v.WF := by
  have hcount : ∀ n : ℤ, (ack (some id) (some (.ofInt n))).WF := fun n =>
    wf_ack hid fun v hv => Option.some.inj hv ▸ Json.wf_ofInt n
  have hvalue : ∀ v : Json, v.WF → ∀ u ∈ [ack (some id) (some (.ofInt 1)), v], u.WF :=
    fun v hv => List.forall_mem_cons.mpr ⟨hcount 1, List.forall_mem_singleton.mpr hv⟩
  cases r with
  | undefined => exact fun v hv => absurd hv List.not_mem_nil
  | unprintable => exact List.forall_mem_singleton.mpr (hcount 1)
  | list items => exact List.forall_mem_cons.mpr ⟨hcount _, written_wf hr⟩
  | json v =>
    cases v with
    | null => exact fun v hv => absurd hv List.not_mem_nil
    | arr xs => exact List.forall_mem_cons.mpr ⟨hcount _, (Json.wf_arr_iff xs).mp hr⟩
    | bool | num | str => exact hvalue _ hr
    | obj ps =>
      rw [answer]
      cases get ps (js "forEach") with
      | none => exact hvalue _ hr
      | some _ => exact List.forall_mem_singleton.mpr (wf_ack hid fun v hv => Json.wf_of_get hr.2 hv)

theorem wellAnswered_iff [DecidableEq ι] {socket : ι} {id : Json} (hid : id.WF) {d e : Daemon σ ι}
    {vs : List Json} (hvs : ∀ v ∈ vs, v.WF) (h : e.written = d.written ++ lineWrites socket vs) :
    WellAnswered socket id d e ↔
      ∃ rest, vs = ack (some id) (some (.ofInt (rest.length : ℕ))) :: rest := by
  have hlines : ∀ ws : List Json, ∀ l ∈ ws.map Json.stringify, newline ∉ l := by
    intro ws l hl
    obtain ⟨v, _, rfl⟩ := List.mem_map.mp hl
    exact Json.newline_notMem_stringify v
  rw [WellAnswered, sent_lineWrites h]
  constructor
  · rintro ⟨lines, hls, hwire⟩
    have htexts := wire_inj (hlines vs) (fun l hl => by
      rcases List.mem_cons.mp hl with rfl | hl
      · exact Json.newline_notMem_stringify _
      · exact (hls l hl).1) (List.append_cancel_left hwire)
    cases vs with
    | nil => cases htexts
    | cons v vs =>
      obtain ⟨hv, hvs'⟩ := List.cons_eq_cons.mp htexts
      have hparsed := congrArg Json.parse hv
      rw [Json.parse_stringify (hvs v List.mem_cons_self), Json.parse_stringify (wf_ack hid fun v hv =>
        Option.some.inj hv ▸ Json.wf_ofInt _)] at hparsed
      refine ⟨vs, ?_⟩
      rw [Option.some.inj hparsed, ← hvs', List.length_map]
  · rintro ⟨rest, rfl⟩
    refine ⟨rest.map Json.stringify, fun l hl => ⟨hlines rest l hl, ?_⟩, by simp⟩
    obtain ⟨v, hv, rfl⟩ := List.mem_map.mp hl
    rw [Json.parse_stringify (hvs v (List.mem_cons_of_mem _ hv))]
    rfl

theorem written_length_iff (items : List (Option Json)) :
    (written items).length = items.length ↔ ∀ o ∈ items, o.isSome := by
  induction items with
  | nil => simp [written]
  | cons o items ih =>
    cases o with
    | none => simp [written]
    | some v =>
      have hcons : written (some v :: items) = v :: written items := by simp [written]
      rw [hcons, List.length_cons, List.length_cons, List.forall_mem_cons, ← ih]
      simp

theorem answer_counts_iff (id : Json) (r : Returned) :
    (∃ rest, answer (some id) r = ack (some id) (some (.ofInt (rest.length : ℕ))) :: rest) ↔
      r.Respondable := by
  have hcount : ∀ (n : ℕ) (vs : List Json),
      (∃ rest, ack (some id) (some (.ofInt n)) :: vs =
        ack (some id) (some (.ofInt (rest.length : ℕ))) :: rest) ↔ n = vs.length := by
    intro n vs
    constructor
    · rintro ⟨rest, heq⟩
      obtain ⟨hack, rfl⟩ := List.cons_eq_cons.mp heq
      exact Json.ofInt_nat_inj.mp (Option.some.inj (ack_inj hack))
    · rintro rfl
      exact ⟨vs, rfl⟩
  have hnone : ¬ ∃ rest, ([] : List Json) = ack (some id) (some (.ofInt (rest.length : ℕ))) :: rest := by
    rintro ⟨rest, heq⟩
    cases heq
  cases r with
  | undefined => exact iff_of_false hnone not_false
  | unprintable => exact (hcount 1 []).trans (by simp [Returned.Respondable])
  | list items =>
    refine (hcount _ _).trans ?_
    rw [eq_comm, written_length_iff]
    rfl
  | json v =>
    cases v with
    | null => exact iff_of_false hnone not_false
    | arr xs => exact (hcount _ _).trans (by simp [Returned.Respondable])
    | bool | num | str => exact (hcount 1 [_]).trans (by simp [Returned.Respondable])
    | obj ps =>
      rw [answer, Returned.Respondable]
      cases hget : get ps (js "forEach") with
      | none => exact (hcount 1 [_]).trans (by simp)
      | some _ =>
        rw [or_iff_right (by simp)]
        constructor
        · rintro ⟨rest, heq⟩
          obtain ⟨hack, rfl⟩ := List.cons_eq_cons.mp heq
          exact ack_inj hack
        · intro hlength
          exact ⟨[], by rw [hlength]; rfl⟩

/-- Whatever the operation does: its outcome is an input here. -/
theorem one_response_iff [DecidableEq ι] {api : Api σ} {req : Json} (a : Accepted api req) (hid : a.id.WF)
    (socket : ι) (d : Daemon σ ι) {t : σ} {outcome : Except JsError Returned}
    (hperforms : a.performs d.store = (t, outcome)) (houtcome : ∀ r, outcome = .ok r → r.WF) :
    WellAnswered socket a.id d ((onRequest api req socket).run.run d).2 ↔ Answerable a.header outcome := by
  have hwf : ∀ v ∈ a.answered outcome, v.WF := by
    intro v hv
    unfold Accepted.answered at hv
    split_ifs at hv
    · cases outcome with
      | error e => cases hv
      | ok r => exact answer_wf hid (houtcome r rfl) v hv
    · cases hv
  have hnone : ¬ ∃ rest, ([] : List Json) = ack (some a.id) (some (.ofInt (rest.length : ℕ))) :: rest := by
    rintro ⟨rest, heq⟩
    cases heq
  have hwritten := a.written_eq socket d
  rw [hperforms] at hwritten
  rw [wellAnswered_iff hid hwf hwritten, Answerable]
  unfold Accepted.answered
  cases hlogs : logs a.header with
  | false => exact iff_of_false hnone (by simp)
  | true =>
    rw [if_pos rfl, and_iff_right rfl]
    cases outcome with
    | error e => exact iff_of_false hnone (by simp)
    | ok r =>
      refine (answer_counts_iff a.id r).trans ?_
      simp

end

def peopleApi : Api Disk :=
  serverApi Disk.binding Realm.bare 5 (fun name =>
    if name = Collection.people.name then some Collection.people else none)
    fun _ => none

def ask (op : JsString) (params : List (Option Json)) : Json :=
  (asking .batch).message [] (Request.data ⟨op, Collection.people.name, params⟩)

def asked (op : JsString) (params : List (Option Json))
    {operation : Disk → JsString → Option Json → Disk × Except JsError Returned}
    (found : peopleApi.collection op = some operation) : Accepted peopleApi (ask op params) where
  header := .obj [(js "id", .ofInt 1), (js "name", .str (js "shell")), (js "ts", .str [])]
  id := .ofInt 1
  data := Request.data ⟨op, Collection.people.name, params⟩
  collection := .str Collection.people.name
  op := .str op
  params := some (.arr (params.map fun o => o.getD .null))
  collectionName := Collection.people.name
  opName := op
  operation := operation
  hasHeader := rfl
  hasId := rfl
  hasData := rfl
  hasCollection := rfl
  named := rfl
  hasOp := rfl
  hasParams := rfl
  namesCollection := rfl
  namesOp := rfl
  found := found

theorem one_response_count :
    let a := asked (js "count") [] rfl
    WellAnswered () a.id ⟨Disk.empty, [], []⟩
        ((onRequest peopleApi (ask (js "count") []) ()).run.run ⟨Disk.empty, [], []⟩).2 ↔
      Answerable a.header (.ok (.json (.ofInt 0))) := by
  intro a
  refine one_response_iff a trivial () ⟨Disk.empty, [], []⟩ (t := Disk.empty) rfl fun r hr => ?_
  obtain rfl : Returned.json (.ofInt 0) = r := Except.ok.inj hr
  trivial

/-- Adding a new object returns nothing, and the daemon fails before the first line. -/
theorem add_unanswered :
    let a := asked (js "add") [some (.obj (ann 30))] rfl
    ¬ WellAnswered () a.id ⟨Disk.empty, [], []⟩
      ((onRequest peopleApi (ask (js "add") [some (.obj (ann 30))]) ()).run.run ⟨Disk.empty, [], []⟩).2 := by
  rintro a ⟨lines, -, hsent⟩
  have hwritten : ((onRequest peopleApi (ask (js "add") [some (.obj (ann 30))]) ()).run.run
      ⟨Disk.empty, [], []⟩).2.written = [] := by decide +kernel
  rw [sent, hwritten, wire_cons] at hsent
  have hlen := congrArg List.length hsent
  simp [sent] at hlen

end GlobalsJs.Globalsd
