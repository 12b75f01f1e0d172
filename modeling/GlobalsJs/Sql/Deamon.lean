import GlobalsJs.Sql.ClassGen
import GlobalsJs.Cache.Disk

/-!
# The loop that generates classes

The requests stand under their numbers in `^globalsjs.sql("in")`. A pass takes one after
the other and merges its properties and indexes into arrays that it never clears, so a
request is generated from everything that was recorded up to it.
-/

namespace GlobalsJs.Sql
open Ecma

structure Arrays (κ : Type) where
  properties : Table κ JsString
  indicies : Table κ JsString

structure Request (κ : Type) extends Arrays κ where
  classname : Option JsString
  globalname : Option JsString

/-- The global `^globalsjs.sql`. -/
structure SqlGlobal (κ : Type) where
  enabled : Option JsString
  stop : Bool
  requests : Table ℕ (Request κ)
  lastid : Option ℕ
  out : Table ℕ (Request κ)
  sleeptime : Option JsString
  log : List JsString

/-- A node under `("in")`. The texts come after the numbers, and nothing after the last one. -/
inductive Node
  | id (n : ℕ)
  | lastid
  | nothing

structure Handled (κ : Type) where
  id : ℕ
  classname : JsString
  globalname : JsString
  arrays : Arrays κ
  generated : Generated

inductive Ending
  | quit
  | slept
  | trapped (trap : Trap)
  | running
deriving DecidableEq

structure Pass (κ : Type) where
  state : SqlGlobal κ
  handled : List (Handled κ)
  ending : Ending

section
variable {κ : Type} [DecidableEq κ]

/-- `Merge`: what is merged comes before what was there. -/
def Arrays.merge (arrays new : Arrays κ) : Arrays κ where
  properties := new.properties ∪ arrays.properties
  indicies := new.indicies ∪ arrays.indicies

def Request.mergedInto (request old : Request κ) : Request κ where
  toArrays := old.toArrays.merge request.toArrays
  classname := request.classname <|> old.classname
  globalname := request.globalname <|> old.globalname

namespace SqlGlobal

def deamonLog (q : SqlGlobal κ) (message : JsString) : SqlGlobal κ :=
  { q with log := q.log ++ [message] }

def order (q : SqlGlobal κ) (n : ℕ) : Node :=
  match Table.order q.requests.keys (some n) with
  | some k => .id k
  | none => if q.lastid.isSome then .lastid else .nothing

def moved (q : SqlGlobal κ) (nextid : ℕ) : SqlGlobal κ :=
  match q.requests.lookup nextid with
  | none => q
  | some request =>
    { q with
      requests := q.requests.erase nextid
      out := q.out.insert nextid (((q.out.lookup nextid).map request.mergedInto).getD request) }

def logErrors (q : SqlGlobal κ) (err : List JsString) : SqlGlobal κ :=
  err.foldl (fun q e => q.deamonLog (js "Error: " ++ e)) q

def settle (q : SqlGlobal κ) (nextid : ℕ) : Status → SqlGlobal κ
  | .error err => { q.logErrors err with lastid := some nextid }
  | .ok _ =>
    { (q.deamonLog (js "node " ++ natText nextid ++ js " completed successfully")).moved nextid with
      lastid := some nextid }

end SqlGlobal

end

def Pass.after {κ : Type} (h : Handled κ) (p : Pass κ) : Pass κ := { p with handled := h :: p.handled }

section
variable {κ : Type} [LinearOrder κ] (text : κ → JsString) (dictionary : ℕ → Dictionary)

/-- The `While` loop, from the node it is about to look at. What the dictionary answers may
change from one request to the next. -/
def spin : ℕ → Node → Arrays κ → SqlGlobal κ → Pass κ
  | 0, _, _, q => ⟨q, [], .running⟩
  | _ + 1, .lastid, _, q =>
    ⟨q.deamonLog (js "Sleeping for " ++ q.sleeptime.getD (js "30") ++ js " seconds"), [], .slept⟩
  | _ + 1, .nothing, _, q => ⟨q.deamonLog (js "Start processing in node:"), [], .trapped .subscript⟩
  | fuel + 1, .id nextid, arrays, q =>
    let started := q.deamonLog (js "Start processing in node:" ++ natText nextid)
    match q.requests.lookup nextid with
    | some ⟨recorded, some classname, some globalname⟩ =>
      let arrays := arrays.merge recorded
      match generateClass text (dictionary nextid) classname arrays.properties arrays.indicies
          globalname with
      | .error trap => ⟨started, [], .trapped trap⟩
      | .ok generated =>
        let settled := started.settle nextid generated.status
        (spin fuel (settled.order nextid) arrays settled).after
          ⟨nextid, classname, globalname, arrays, generated⟩
    | _ => ⟨started, [], .trapped .undefined⟩

/-- One pass, in a job that has no arrays yet. `last` is what `^globaljs.sql("in","lastid")`
holds, a global of another name than the one that the loop writes to. -/
def deamon (last : Option ℕ) (q : SqlGlobal κ) : Pass κ :=
  if q.enabled = some (js "0") then
    ⟨(q.deamonLog (js "Attempted to start, but not enabled.")).deamonLog
      (js "Check ^globalsjs.sql(\"control\",\"enabled\")"), [], .quit⟩
  else if q.stop then
    ⟨{ q.deamonLog (js "Got stop signal, deamon stopping") with stop := false }, [], .quit⟩
  else
    let started := q.deamonLog (js "Start")
    spin text dictionary (q.requests.keys.length + 1) (started.order (last.getD 0)) ⟨∅, ∅⟩ started

end

end GlobalsJs.Sql
