import GlobalsJs.Calls.Program
import GlobalsJs.Ecma.Number
import Mathlib.Order.Basic
import Mathlib.Data.Set.Finite.Basic

/-!
# The binding to the database

The module `cache` is not part of the repository. A binding is anything that answers
the calls that the program makes; `Lawful` says what the program relies on. The laws
are about a view of the database: the number at the root of a global, the objects
under its first subscripts, and the nodes that were set. How the binding turns values
into subscripts is a parameter, and so is the order of the subscripts.
-/

namespace GlobalsJs.Cache
open Ecma

structure GloRef where
  global : JsString
  subscripts : List (Option Json)

/-- The calls on `cacheConnection`, and of the caller's callback. `killGlobal` is a kill
that is given a name, and `orderNothing` an order that is given an empty object. -/
inductive Call
  | set (ref : GloRef) (data : Json)
  | kill (ref : GloRef)
  | killGlobal (name : JsString)
  | increment (ref : GloRef)
  | update (node : GloRef) (object : Json)
  | order (ref : GloRef)
  | orderNothing
  | retrieve (ref : GloRef)
  | get (ref : GloRef)
  | close
  | callback (error result : Option Json)

structure Ordered where
  global : JsString
  subscripts : List (Option Json)
  result : Json

/-- What a call gives back: of `retrieve` the property `object`, of `get` the property `data`. -/
def Call.Result : Call → Type
  | .order _ | .orderNothing => Ordered
  | .retrieve _ | .get _ => Option Json
  | .callback _ _ => Unit
  | _ => Json

def Call.global : Call → Option JsString
  | .set ref _ | .kill ref | .increment ref | .order ref | .retrieve ref | .get ref => some ref.global
  | .update node _ => some node.global
  | .killGlobal name => some name
  | .orderNothing | .close | .callback _ _ => none

/-- What a callback gets. A synchronous caller sees the result only. -/
structure Reply (c : Call) where
  error : Option Json
  result : c.Result

abbrev Binding (σ : Type) := Calls.Prog.Handler Call Reply σ

/-- A run ends with an exception, or it had not ended when it was given up. -/
inductive Stop
  | error (e : JsError)
  | running
deriving DecidableEq

abbrev Prog := Calls.Prog Call Reply Stop

instance : MonadLift (Except JsError) Prog where
  monadLift x := Calls.Prog.lift (x.mapError Stop.error)

/-- What a callback was given. -/
structure Callback where
  error : Option Json
  result : Option Json

def recording {σ : Type} (b : Binding σ) : Binding (σ × List Callback)
  | .callback error result, s => ((s.1, s.2 ++ [⟨error, result⟩]), ⟨none, ()⟩)
  | c, s => (((b c s.1).1, s.2), (b c s.1).2)

def Call.async (c : Call) : Prog (Reply c) := .call c fun r => .ret r

def Call.sync (c : Call) : Prog c.Result := .call c fun r => .ret r.result

def isOk (result : Json) : Except JsError Bool := do
  return looseEqual JsNumber.finite (← member (some result) (js "ok")) (some (.ofInt 1))

def isZeroStatus (result : Json) : Bool := looseEqual JsNumber.finite (some result) (some (.ofInt 0))

def isEnd (result : Json) : Bool := looseEqual JsNumber.finite (some result) (some (.str []))

/-- Values that may be subscripts. -/
def Scalar : Json → Prop
  | .num _ | .bool _ => True
  | .str s => s ≠ []
  | _ => False

theorem scalar_ofInt (n : ℤ) : Scalar (.ofInt n) := trivial

@[ext] structure Globals (κ : Type) where
  root : JsString → Option ℕ
  object : JsString → κ → Option Props
  node : JsString → List κ → Prop

namespace Globals
variable {κ : Type}

def Child (g : Globals κ) (name : JsString) (path : List κ) (k : κ) : Prop :=
  (∃ rest, g.node name (path ++ k :: rest)) ∨ (path = [] ∧ (g.object name k).isSome)

def SameAt (g h : Globals κ) (name : JsString) : Prop :=
  g.root name = h.root name ∧ g.object name = h.object name ∧ g.node name = h.node name

theorem SameAt.refl (g : Globals κ) (name : JsString) : g.SameAt g name := ⟨rfl, rfl, rfl⟩

theorem SameAt.trans {g h i : Globals κ} {name : JsString} (hgh : g.SameAt h name)
    (hhi : h.SameAt i name) : g.SameAt i name :=
  ⟨hgh.1.trans hhi.1, hgh.2.1.trans hhi.2.1, hgh.2.2.trans hhi.2.2⟩

section
variable [DecidableEq κ]

def setNode (g : Globals κ) (name : JsString) (path : List κ) : Globals κ :=
  { g with node := fun n p => g.node n p ∨ (n = name ∧ p = path) }

def kill (g : Globals κ) (name : JsString) (path : List κ) : Globals κ where
  root n := if n = name ∧ path = [] then none else g.root n
  object n k := if n = name ∧ path <+: [k] then none else g.object n k
  node n p := g.node n p ∧ ¬ (n = name ∧ path <+: p)

def increment (g : Globals κ) (name : JsString) : Globals κ :=
  { g with root := fun n => if n = name then some ((g.root name).getD 0 + 1) else g.root n }

def update (g : Globals κ) (name : JsString) (k : κ) (ps : Props) : Globals κ :=
  { g with object := fun n l => if n = name ∧ l = k then some ps else g.object n l }

end

end Globals

/-- The binding as the program relies on it, when no call fails. -/
structure Lawful {σ κ : Type} [LinearOrder κ] (b : Binding σ) (view : σ → Globals κ)
    (sub : Json → κ) : Prop where
  sub_str : ∀ s t, sub (.str s) = sub (.str t) → s = t
  sub_lt : ∀ m n : ℕ, m < n → sub (.ofInt m) < sub (.ofInt n)
  no_error : ∀ c s, (b c s).2.error = none
  set : ∀ s name (subs : List Json) data, (∀ x ∈ subs, Scalar x) →
    view (b (.set ⟨name, subs.map some⟩ data) s).1 = (view s).setNode name (subs.map sub)
  kill : ∀ s name (subs : List Json), (∀ x ∈ subs, Scalar x) →
    view (b (.kill ⟨name, subs.map some⟩) s).1 = (view s).kill name (subs.map sub)
  set_elsewhere : ∀ s ref data name, name ≠ ref.global →
    (view (b (.set ref data) s).1).SameAt (view s) name
  kill_elsewhere : ∀ s ref name, name ≠ ref.global →
    (view (b (.kill ref) s).1).SameAt (view s) name
  kill_ok : ∀ s ref, isOk (b (.kill ref) s).2.result = .ok true
  killGlobal : ∀ s name, view (b (.killGlobal name) s).1 = (view s).kill name []
  increment : ∀ s name, view (b (.increment ⟨name, []⟩) s).1 = (view s).increment name
  increment_ok : ∀ s ref, isOk (b (.increment ref) s).2.result = .ok true
  increment_data : ∀ s name, member (some (b (.increment ⟨name, []⟩) s).2.result) (js "data") =
    .ok (some (.ofInt (((view s).root name).getD 0 + 1 : ℕ)))
  update : ∀ s name id ps, Scalar id →
    view (b (.update ⟨name, [some id]⟩ (.obj ps)) s).1 = (view s).update name (sub id) ps
  update_ok : ∀ s node object, isZeroStatus (b (.update node object) s).2.result = true
  retrieve : ∀ s name id ps, Scalar id → (view s).object name (sub id) = some ps →
    (b (.retrieve ⟨name, [some id]⟩) s).2.result = some (.obj ps)
  get_root : ∀ s name, (b (.get ⟨name, []⟩) s).2.result = ((view s).root name).map fun n => .ofInt n
  order : ∀ s name (subs : List Json) x k, Scalar x →
    (subs = [] ∨ ∀ l, (view s).object name l = none) →
    IsLeast {l | (view s).Child name (subs.map sub) l ∧ sub x < l} k →
    let r := (b (.order ⟨name, (subs ++ [x]).map some⟩) s).2.result
    r.global = name ∧ r.subscripts = (subs ++ [r.result]).map some ∧ Scalar r.result ∧
      sub r.result = k ∧ isEnd r.result = false
  order_end : ∀ s name (subs : List Json) x, Scalar x →
    (subs = [] ∨ ∀ l, (view s).object name l = none) →
    (∀ l, (view s).Child name (subs.map sub) l → ¬ sub x < l) →
    (b (.order ⟨name, (subs ++ [x]).map some⟩) s).2.result.result = .str []
  reads : ∀ s ref, (b (.order ref) s).1 = s ∧ (b (.retrieve ref) s).1 = s ∧ (b (.get ref) s).1 = s
  callback : ∀ s error result, (b (.callback error result) s).1 = s
  finite : ∀ s name (path : List κ), {l | (view s).Child name path l}.Finite

/-- A call changes no other global than the one it is about. -/
def Local {σ κ : Type} (b : Binding σ) (view : σ → Globals κ) : Prop :=
  ∀ c s name, c.global ≠ some name → (view (b c s).1).SameAt (view s) name

/-- A node stays when another one is set, whatever the subscripts are. -/
def SetKeeps {σ κ : Type} (b : Binding σ) (view : σ → Globals κ) : Prop :=
  ∀ s ref data name p, (view s).node name p → (view (b (.set ref data) s).1).node name p

/-- A scan of a level that starts from the empty text visits the level from its first subscript
on, and a subscript that it gives back may be used as a text. -/
structure Starting {σ κ : Type} [LinearOrder κ] (b : Binding σ) (view : σ → Globals κ)
    (sub : Json → κ) : Prop where
  order_first : ∀ s name (subs : List Json) k, (∀ l, (view s).object name l = none) →
    IsLeast {l | (view s).Child name (subs.map sub) l} k →
    let r := (b (.order ⟨name, (subs ++ [Json.str []]).map some⟩) s).2.result
    r.global = name ∧ r.subscripts = (subs ++ [r.result]).map some ∧ Scalar r.result ∧
      sub r.result = k ∧ isEnd r.result = false
  order_none : ∀ s name (subs : List Json), (∀ l, (view s).object name l = none) →
    (∀ l, ¬ (view s).Child name (subs.map sub) l) →
    (b (.order ⟨name, (subs ++ [Json.str []]).map some⟩) s).2.result.result = .str []
  order_text : ∀ s ref, let r := (b (.order ref) s).2.result.result
    sub (.str r.toText) = sub r

end GlobalsJs.Cache
