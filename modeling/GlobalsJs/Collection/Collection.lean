import GlobalsJs.Cache.Binding
import GlobalsJs.Query.Query

/-!
# Collections

The methods of a local collection as programs of cache calls, each in the style that
returns a value and in the style that calls back. Objects of the caller are passed by
value; where a method changes the object it was given, `Ended` carries it back.
Fields are own properties. The loops over a level of the database are bounded by fuel.
-/

namespace GlobalsJs
open Ecma Cache Query

structure Collection where
  name : JsString
  indexes : List Props

def COLLECTION_INDEX_IDENTIFIER : JsString := js "1gdb"
def COLLECTION_SYSTEM_IDENTIFIER : JsString := js "5gdb"

def idKey : JsString := js "__ID"

def isEmptyObject : Option Json → Bool
  | some (.obj ps) => ps.isEmpty
  | some (.arr xs) => xs.isEmpty
  | some (.str s) => s.isEmpty
  | _ => true

/-- A list stands for its last element. -/
def pop : Option Json → Option Json
  | some (.arr xs) => xs.getLast?
  | object => object

/-- What is returned, and the caller's object afterwards. -/
structure Ended where
  returned : Option Json
  object : Option Json

def callBack (error result : Option Json) : Prog Unit := do
  let _ ← (Call.callback error result).sync

namespace Collection
variable (self : Collection)

def index_global : JsString := self.name ++ COLLECTION_INDEX_IDENTIFIER

def system_global : JsString := self.name ++ COLLECTION_SYSTEM_IDENTIFIER

def index_glo_ref (subscripts : List (Option Json)) : GloRef := ⟨self.index_global, subscripts⟩

def system_glo_ref (subscripts : List (Option Json)) : GloRef := ⟨self.system_global, subscripts⟩

inductive IndexOperation
  | SAVE | REMOVE
deriving DecidableEq

def index_key (index : Props) : Option JsString := index.head?.map Prod.fst

def update_entry (operation : IndexOperation) (o : Option Json) (index : Props) : Prog Unit := do
  match ← member o ((index_key index).getD (js "undefined")) with
  | none => return
  | some value =>
    let id ← member o idKey
    let glo_ref := self.index_glo_ref [(index_key index).map .str, some value, id]
    match operation with
    | .SAVE => let _ ← (Call.set glo_ref (.str [])).sync
    | .REMOVE => let _ ← (Call.kill glo_ref).sync

def update_index (operation : IndexOperation) (obj : Option Json) : Prog Unit := do
  match obj, operation with
  | none, .REMOVE =>
    let _ ← (Call.kill (self.index_glo_ref [])).sync
    let _ ← (Call.kill (self.system_glo_ref [some (.str (js "index"))])).sync
  | some (.arr os), _ =>
    os.forM fun o => self.indexes.forM (self.update_entry operation (some o))
  | o, _ => self.indexes.forM (self.update_entry operation o)

def build_index_glo_ref_from_query (query : Json) : Except JsError (Option GloRef) := do
  let ps ← entries query
  return (ps.find? fun p => self.indexes.any fun index => p.1 ∈ keys index).map fun p =>
    self.index_glo_ref [some (.str p.1), some p.2, some (.ofInt 0)]

/-- `while ( (ref = order(ref)).result != '' )` -/
def order_ids : ℕ → GloRef → Prog (List Json)
  | 0, _ => .throw .running
  | n + 1, ref => do
    let r ← (Call.order ref).sync
    if isEnd r.result then return []
    return r.result :: (← order_ids n ⟨r.global, r.subscripts⟩)

def query_subscripts : Option Json → Except JsError (Option Json)
  | none => .ok none
  | query => member query (js "subscripts")

/-- `subscripts.push(0)` on the list that the query shares, and the query after it. -/
def push_zero (query subscripts : Option Json) : Except JsError (List (Option Json) × Option Json) :=
  match subscripts, query with
  | none, _ => .ok ([some (.ofInt 0)], query)
  | some (.arr xs), some (.obj ps) => .ok ((xs ++ [Json.ofInt 0]).map some,
      some (.obj (put ps (js "subscripts") (.arr (xs ++ [Json.ofInt 0])))))
  | some _, _ => .error .typeError

def filter_results (realm : Realm) (query : Json) (results : List (Option Json)) :
    Except JsError (List (Option Json)) := do
  -- a row that is missing fails like `null`
  return (← run realm query (results.map fun o => o.getD .null)).map some

def retrieve_all (ids : List Json) : Prog (List (Option Json)) :=
  ids.mapM fun id => (Call.retrieve ⟨self.name, [some id]⟩).sync

def index_ids (fuel : ℕ) (query : Option Json) : Prog (List Json) := do
  match query with
  | none => return []
  | some q =>
    match ← self.build_index_glo_ref_from_query q with
    | none => return []
    | some ref => order_ids fuel ref

def select (realm : Realm) (query : Option Json) (ids : List Json) : Prog (List (Option Json)) := do
  let results ← self.retrieve_all ids
  match query with
  | some q => if isEmptyObject query then return results else filter_results realm q results
  | none => return results

def find (realm : Realm) (fuel : ℕ) (query : Option Json) : Prog (List (Option Json)) := do
  let query := pop query
  let subscripts ← query_subscripts query
  let ids ← self.index_ids fuel query
  if ids = [] then
    let (id_subscripts, query) ← push_zero query subscripts
    let ids ← order_ids fuel ⟨self.name, id_subscripts⟩
    self.select realm query ids
  else self.select realm query ids

def findOne (realm : Realm) (fuel : ℕ) (query : Option Json) : Prog (Option Json) := do
  let results ← self.find realm fuel query
  return results.headD (some (.obj []))

def count : Prog Json := do
  let data ← (Call.get ⟨self.name, []⟩).sync
  return if truthy data then data.getD .null else .ofInt 0

/-- `object.__ID = id`. A list gets a property beside its elements. -/
def withID (object id : Option Json) : Except JsError Json :=
  match object, id with
  | none, _ | some .null, _ => .error .typeError
  | some (.obj ps), some id => .ok (.obj (put ps idKey id))
  | some (.arr xs), some id => do return .obj (put (← entries (.arr xs)) idKey id)
  | some o, _ => .ok o

def indexed (object : Option Json) (stored : Json) : Option Json :=
  match object with
  | some (.arr xs) => some (.arr xs)
  | _ => some stored

/-- The identifier of a new object. `callback(error,...)` names no variable of the function, so that it
throws as long as no global `error` is there; a connection that fails in `Server.connect` leaves one. -/
def next_id : Prog (Option Json) := do
  let result ← (Call.increment ⟨self.name, []⟩).sync
  if ← isOk result then member (some result) (js "data")
  else .throw (.error (.referenceError (js "error")))

def add (object : Option Json) : Prog Ended := do
  let stored ← withID object (← self.next_id)
  let status ← (Call.update ⟨self.name, [← member (some stored) idKey]⟩ stored).sync
  if isZeroStatus status then
    self.update_index .SAVE (indexed object stored)
    return ⟨none, some stored⟩
  else return ⟨some status, some stored⟩

def emptyError : Json := .obj [(js "error", .str (js "save object was empty"))]

def save (object : Option Json) : Prog Ended := do
  let object := pop object
  if isEmptyObject object then return ⟨some emptyError, object⟩
  match ← member object idKey with
  | none => self.add object
  | some id =>
    let status ← (Call.update ⟨self.name, [some id]⟩ (object.getD .null)).sync
    if isZeroStatus status then self.update_index .SAVE object
    return ⟨some status, object⟩

def fetch_glo_ref_from_object (object : Option Json) : Except JsError GloRef := do
  match ← member object idKey with
  | none => throw (JsError.error (js "object unformatted"))
  | some id => return ⟨self.name, [some id]⟩

def drop_collection : Prog Unit := do
  let _ ← (Call.killGlobal self.name).sync

def remove (object : Option Json) : Prog Ended := do
  let object := pop object
  if !truthy object then
    self.drop_collection
    return ⟨none, object⟩
  let result ← (Call.kill (← self.fetch_glo_ref_from_object object)).sync
  if ← isOk result then self.update_index .REMOVE object
  return ⟨some result, object⟩

/-- `spin_find` keeps a row when one of its fields equals what the query has there. -/
def spin_match (realm : Realm) (query : Json) (fields : Props) : Except JsError Bool := do
  let rs ← fields.mapM fun p => do
    let wanted ← member (some query) p.1
    return wanted.isSome && looseEqual realm.round wanted (some p.2)
  return rs.any id

def spin_find (realm : Realm) (query : Option Json) : ℕ → GloRef → Prog Unit
  | 0, _ => .throw .running
  | n + 1, glo_ref => do
    let r ← (Call.order glo_ref).sync
    -- these loops compare with `!==`
    if r.result = .str [] then return
    let gr : GloRef := ⟨r.global, r.subscripts⟩
    let found ← (Call.retrieve gr).async
    let keep ← match query with
      | none => pure true
      | some q => if isEmptyObject query then pure true else
          (do spin_match realm q (← entries (found.result.getD .null)) : Except JsError Bool)
    if keep then callBack found.error found.result
    spin_find realm query n gr

def order_async : Option GloRef → Prog (Option Json × Ordered)
  | some ref => do
    let r ← (Call.order ref).async
    return (r.error, r.result)
  | none => do
    let r ← Call.orderNothing.async
    return (r.error, r.result)

/-- Without an index on a queried field the loop starts from an empty object. -/
def spin_find_index : ℕ → Option GloRef → Prog Unit
  | 0, _ => .throw .running
  | n + 1, glo_ref => do
    let r ← order_async glo_ref
    if truthy r.1 then callBack r.1 (some (.obj []))
    else if r.2.result = .str [] then
      let _ ← Call.close.sync
    else
      let found ← (Call.retrieve ⟨self.name, [some r.2.result]⟩).async
      callBack found.error found.result
      spin_find_index n (some ⟨r.2.global, r.2.subscripts⟩)

def find_async (realm : Realm) (fuel : ℕ) (query : Option Json) : Prog Unit := do
  let query := pop query
  let subscripts ← query_subscripts query
  if !isEmptyObject query ∧ self.indexes ≠ [] then
    self.spin_find_index fuel (← self.build_index_glo_ref_from_query (query.getD .null))
  else
    let (id_subscripts, query) ← push_zero query subscripts
    spin_find realm query fuel ⟨self.name, id_subscripts⟩

/-- `NaN` is `none`. -/
def count_async : Prog Unit := do
  let r ← (Call.get ⟨self.name, []⟩).async
  callBack r.error r.result

def add_async (object : Option Json) : Prog (Option Json) := do
  let stored ← withID object (← self.next_id)
  let r ← (Call.update ⟨self.name, [← member (some stored) idKey]⟩ stored).async
  self.update_index .SAVE (indexed object stored)
  callBack r.error (some stored)
  return some stored

def save_async (object : Option Json) : Prog (Option Json) := do
  let object := pop object
  -- the error is reported, and then the method goes on
  if isEmptyObject object then callBack (some emptyError) (some (.obj []))
  match ← member object idKey with
  | none => self.add_async object
  | some id =>
    let r ← (Call.update ⟨self.name, [some id]⟩ (object.getD .null)).async
    self.update_index .SAVE object
    callBack r.error none
    return object

def remove_async (object : Option Json) : Prog Unit := do
  let object := pop object
  if !truthy object then
    let r ← (Call.killGlobal self.name).async
    callBack r.error (some r.result)
  else
    let _ ← (Call.kill (← self.fetch_glo_ref_from_object object)).async
    let _ ← (Call.kill (self.system_glo_ref [])).async
    let r ← (Call.kill (self.index_glo_ref [])).async
    callBack r.error (some r.result)

inductive Style
  | sync | async

inductive Method
  | add (ps : Props)
  | save (ps : Props)
  | remove (ps : Props)
  | removeAll

/-- The method takes a new identifier. -/
def Method.Adds : Method → Prop
  | .add _ => True
  | .save ps => get ps idKey = none
  | .remove _ | .removeAll => False

end Collection

end GlobalsJs
