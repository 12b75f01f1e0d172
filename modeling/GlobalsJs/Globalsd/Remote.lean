import GlobalsJs.Collection.IndexedFind
import GlobalsJs.Globalsd.ClientReader

/-!
# Collections behind the daemon

A collection of a remote database sends its calls to the daemon, which calls the method of
that name on its own collection with the list of parameters as the only argument. The
methods that take a list for its last element undo the wrapping.
-/

namespace GlobalsJs
open Ecma Cache Query Globalsd

namespace Collection

structure Request where
  op : JsString
  collection : JsString
  params : List (Option Json)

def Request.data (self : Request) : Json :=
  .obj [(js "op", .str self.op), (js "collection", .str self.collection),
    (js "params", .arr (self.params.map fun o => o.getD .null))]

def remote_find (self : Collection) (query : Option Json) : Prog Request := do
  return ⟨js "find", self.name, [pop query]⟩

/-- The callback of `findOne` is wrapped into one that takes the first object of the result. -/
def remote_findOne (self : Collection) (query : Option Json) : Prog Request :=
  self.remote_find query

def remote_add (self : Collection) (object : Option Json) : Prog Request := do
  return ⟨js "add", self.name, [object]⟩

def remote_save (self : Collection) (object : Option Json) : Prog Request := do
  let object := pop object
  if isEmptyObject object then callBack (some emptyError) (some (.obj []))
  match ← member object idKey with
  | none => self.remote_add object
  | some _ => return ⟨js "save", self.name, [object]⟩

def remote_remove (self : Collection) (object : Option Json) : Prog Request := do
  return ⟨js "remove", self.name, [pop object]⟩

def returned : Option Json → Returned
  | none => .undefined
  | some v => .json v

def operations (realm : Realm) (fuel : ℕ) : List (JsString × (Collection → Option Json → Prog Returned)) :=
  [(js "find", fun c params => do return .list (← c.find realm fuel params)),
    (js "findOne", fun c params => do return returned (← c.findOne realm fuel params)),
    (js "count", fun c _ => do return .json (← c.count)),
    (js "add", fun c params => do return returned (← c.add params).returned),
    (js "save", fun c params => do return returned (← c.save params).returned),
    (js "remove", fun c params => do return returned (← c.remove params).returned)]

def withoutCollection (op : JsString) (params : Option Json) : Except JsError Returned :=
  if op = js "save" ∧ isEmptyObject (pop params) then .ok (.json emptyError) else .error .typeError

section
variable {σ ι : Type}

/-- A call that never returns has no response, like one that throws. -/
def outcome (b : Binding σ) (p : Prog Returned) (s : σ) : σ × Except JsError Returned :=
  let r := Calls.Prog.run b p s
  (r.1, r.2.mapError fun
    | .error e => e
    | .running => .error (js "running"))

def serverApi (b : Binding σ) (realm : Realm) (fuel : ℕ) (collections : JsString → Option Collection)
    (db : JsString → Option (σ → Option Json → σ × Except JsError Returned)) : Api σ where
  db := db
  collection op := ((operations realm fuel).lookup op).map fun operation s name params =>
    match collections name with
    | none => (s, withoutCollection op params)
    | some c => outcome b (operation c params) s

def served (b : Binding σ) (p : Prog Returned) (req : Json) (socket : ι) : Act σ ι Unit := do
  logClient req
  let result ← Globalsd.call (outcome b p)
  respond socket req result

variable {κ : Type} (b : Binding σ) (realm : Realm) (fuel : ℕ) {collections : JsString → Option Collection}
  (db : JsString → Option (σ → Option Json → σ × Except JsError Returned))

theorem onRequest_message {self : Collection} (hname : self.name ≠ [])
    (hexists : collections self.name = some self) {operation : Collection → Option Json → Prog Returned}
    {op : JsString} (hop : (operations realm fuel).lookup op = some operation) (client : Client κ)
    (ts : JsString) (params : List (Option Json)) (socket : ι) :
    let req := client.message ts (Request.data ⟨op, self.name, params⟩)
    onRequest (serverApi b realm fuel collections db) req socket =
      served b (operation self (some (.arr (params.map fun o => o.getD .null)))) req socket := by
  intro req
  have hcollection : truthy (some (.str self.name)) = true := by simpa [truthy] using hname
  have hlookup : (serverApi b realm fuel collections db).collection op = some fun s name params =>
      match collections name with
      | none => (s, withoutCollection op params)
      | some c => outcome b (operation c params) s := by
    change ((operations realm fuel).lookup op).map _ = _
    rw [hop]
    rfl
  have hdata : member (some req) (js "data") = .ok (some (Request.data ⟨op, self.name, params⟩)) := rfl
  have hvalid : valid (some (Request.data ⟨op, self.name, params⟩)) = .ok true := rfl
  have hname : member (some (Request.data ⟨op, self.name, params⟩)) (js "collection") =
      .ok (some (.str self.name)) := rfl
  have hparams : member (some (Request.data ⟨op, self.name, params⟩)) (js "params") =
      .ok (some (.arr (params.map fun o => o.getD .null))) := rfl
  have hopRead : member (some (Request.data ⟨op, self.name, params⟩)) (js "op") = .ok (some (.str op)) := rfl
  have htext : ∀ s, convert (some (.str s)) = .ok s := fun s => rfl
  unfold onRequest
  simp only [hdata, hvalid, hname, hparams, hopRead, liftM_ok, pure_bind, hcollection, if_true, htext,
    hlookup, hexists, served]

/-- The one request that `p` sends makes the daemon run the call `direct`. -/
def Asks (collections : JsString → Option Collection) (p : Prog Request) (direct : Prog Returned) : Prop :=
  ∃ r, p = pure r ∧ ∀ (κ ι : Type) (client : Client κ) (ts : JsString) (socket : ι),
    onRequest (serverApi b realm fuel collections db) (client.message ts r.data) socket =
      served b direct (client.message ts r.data) socket

theorem exists_pop {v : Json} (hv : isEmptyObject (some v) = false) : ∃ w, pop (some v) = some w := by
  cases v with
  | arr xs =>
    have hne : xs ≠ [] := by simpa [isEmptyObject] using hv
    exact ⟨_, List.getLast?_eq_some_getLast hne⟩
  | null | bool | num | str | obj => exact ⟨_, rfl⟩

theorem asks_popped {self : Collection} (hname : self.name ≠ []) (hexists : collections self.name = some self)
    {op : JsString} {method : Collection → Option Json → Prog Returned}
    (hop : (operations realm fuel).lookup op = some method)
    (hpop : ∀ q q', pop q = pop q' → method self q = method self q') {v w : Json}
    (hw : pop (some v) = some w) :
    Asks b realm fuel db collections (pure ⟨op, self.name, [pop (some v)]⟩) (method self (some v)) := by
  refine ⟨_, rfl, fun κ ι client ts socket => ?_⟩
  rw [onRequest_message b realm fuel db hname hexists hop, hw]
  exact congrArg (fun p => served b p _ socket) (hpop (some (.arr [w])) (some v) (by rw [hw]; rfl))

/-- `find`, `remove`, and `save` of an object with an identifier, have on the server the effect
and the result of the same call made there; `findOne` has those of `find`, whose first object it
returns. -/
theorem remote_calls_agree {self : Collection} (hname : self.name ≠ [])
    (hexists : collections self.name = some self) {v : Json} (hv : isEmptyObject (some v) = false) :
    Asks b realm fuel db collections (self.remote_find (some v))
        (do return .list (← self.find realm fuel (some v))) ∧
      Asks b realm fuel db collections (self.remote_findOne (some v))
        (do return .list (← self.find realm fuel (some v))) ∧
      self.findOne realm fuel (some v) = (do
        return (← self.find realm fuel (some v)).headD (some (.obj []))) ∧
      Asks b realm fuel db collections (self.remote_remove (some v))
        (do return returned (← self.remove (some v)).returned) ∧
      ((∃ ps id, pop (some v) = some (.obj ps) ∧ get ps idKey = some id) →
        Asks b realm fuel db collections (self.remote_save (some v))
          (do return returned (← self.save (some v)).returned)) := by
  obtain ⟨w, hw⟩ := exists_pop hv
  have hfind := asks_popped b realm fuel db hname hexists (rfl : (operations realm fuel).lookup (js "find") = some _)
    (fun q q' h => by simp only [find, h]) hw
  refine ⟨hfind, hfind, rfl, ?_, ?_⟩
  · exact asks_popped b realm fuel db hname hexists (rfl : (operations realm fuel).lookup (js "remove") = some _)
      (fun q q' h => by simp only [remove, h]) hw
  · rintro ⟨ps, id, hps, hid⟩
    have hne : isEmptyObject (some (.obj ps)) = false := by
      cases ps with
      | nil => cases hid
      | cons p ps => rfl
    have hsave := asks_popped b realm fuel db hname hexists (rfl : (operations realm fuel).lookup (js "save") = some _)
      (fun q q' h => by unfold save; rw [h]) hw
    have hrequest : self.remote_save (some v) = pure ⟨js "save", self.name, [pop (some v)]⟩ := by
      have hread : member (some (.obj ps)) idKey = .ok (some id) := congrArg Except.ok hid
      rw [remote_save, hps]
      simp only [hne, hread]
      rfl
    rw [hrequest]
    exact hsave

end

theorem remote_calls_agree_residents :
    let v : Json := .obj (ann 30 ++ [(idKey, .ofInt 1)])
    Asks Disk.binding Realm.bare 5 (fun _ => none) (fun _ => some people) (people.remote_find (some v))
        (do return .list (← people.find Realm.bare 5 (some v))) ∧
      Asks Disk.binding Realm.bare 5 (fun _ => none) (fun _ => some people) (people.remote_findOne (some v))
        (do return .list (← people.find Realm.bare 5 (some v))) ∧
      people.findOne Realm.bare 5 (some v) = (do
        return (← people.find Realm.bare 5 (some v)).headD (some (.obj []))) ∧
      Asks Disk.binding Realm.bare 5 (fun _ => none) (fun _ => some people) (people.remote_remove (some v))
        (do return returned (← people.remove (some v)).returned) ∧
      Asks Disk.binding Realm.bare 5 (fun _ => none) (fun _ => some people) (people.remote_save (some v))
        (do return returned (← people.save (some v)).returned) := by
  intro v
  let collections : JsString → Option Collection := fun _ => some people
  have hexists : collections people.name = some people := rfl
  obtain ⟨hfind, hfindOne, hfirst, hremove, hsave⟩ := remote_calls_agree Disk.binding Realm.bare 5 (fun _ => none)
    (show people.name ≠ [] by decide) hexists (rfl : isEmptyObject (some v) = false)
  exact ⟨hfind, hfindOne, hfirst, hremove, hsave ⟨ann 30 ++ [(idKey, .ofInt 1)], .ofInt 1, rfl, rfl⟩⟩

/-- `findOne` asks for all residents of the city, and the daemon sends them all. -/
theorem findOne_asks_for_all :
    let query : Json := .obj [(js "city", .ofInt 1)]
    ¬ Asks Disk.binding Realm.bare 5 (fun _ => none) (fun _ => some people) (people.remote_findOne (some query))
      (do return returned (← people.findOne Realm.bare 5 (some query))) := by
  rintro query ⟨r, hr, hserved⟩
  obtain rfl : (⟨js "find", people.name, [some query]⟩ : Request) = r := by
    have hfind : people.remote_findOne (some query) = .ret ⟨js "find", people.name, [some query]⟩ := rfl
    rw [hfind] at hr
    exact Calls.Prog.ret.inj hr
  have hrun := congrArg (fun p => ((p.run.run ⟨residents, [], []⟩).2.written.map Prod.snd).length)
    (hserved Bool Unit (asking .batch) [] ())
  revert hrun
  decide +kernel

end Collection

end GlobalsJs
