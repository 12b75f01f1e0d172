import GlobalsJs.Sql.Described
import GlobalsJs.Sql.Passes

/-!
# Asking while the loop runs

`ensureSQL` takes a number and then writes the nodes of its request one after the other, and nothing keeps
the loop from coming to a request before all of it is there. Any number of calls are under way, and the loop
is between two of its rounds.
-/

namespace GlobalsJs.Sql

open Ecma Cache

section
variable {κ : Type} [DecidableEq κ] (sub : JsString → κ)

def Request.blank : Request κ := ⟨⟨∅, ∅⟩, none, none⟩

def Request.node (r : Request κ) : List JsString → Option JsString
  | [k] => if k = js "classname" then r.classname else if k = js "globalname" then r.globalname else none
  | [k, f] =>
    if k = js "properties" then r.properties.lookup (sub f)
    else if k = js "indicies" then r.indicies.lookup (sub f)
    else none
  | _ => none

/-- A node is written. A subscript may not be empty. -/
def Request.put (r : Request κ) (path : List JsString) (data : JsString) : Request κ :=
  if [] ∈ path then r
  else match path with
  | [k] =>
    if k = js "classname" then { r with classname := some data }
    else if k = js "globalname" then { r with globalname := some data }
    else r
  | [k, f] =>
    if k = js "properties" then { r with properties := r.properties.insert (sub f) data }
    else if k = js "indicies" then { r with indicies := r.indicies.insert (sub f) data }
    else r
  | _ => r

def Request.puts (r : Request κ) (entries : List (List JsString × JsString)) : Request κ :=
  entries.foldl (fun r e => r.put sub e.1 e.2) r

def SqlGlobal.put (q : SqlGlobal κ) (id : ℕ) (path : List JsString) (data : JsString) : SqlGlobal κ :=
  if [] ∈ path then q
  else { q with requests := q.requests.insert id (((q.requests.lookup id).getD .blank).put sub path data) }

/-- A call that has taken its number, and how many of its writes it has made. -/
structure Asking where
  description : Filled
  made : ℕ

namespace Asking

def rest (c : Asking) : List (List JsString × JsString) := c.description.entries.drop c.made

def request (c : Asking) : Request κ := Request.puts sub .blank (c.description.entries.take c.made)

/-- Something of the request is written, and something is not. -/
def Half (c : Asking) : Prop := 0 < c.made ∧ ∃ e ∈ c.rest, [] ∉ e.1

def Whole (c : Asking) : Prop := 0 < c.made ∧ ∀ e ∈ c.rest, [] ∈ e.1

instance (c : Asking) : Decidable c.Half := inferInstanceAs (Decidable (0 < c.made ∧ ∃ e ∈ c.rest, [] ∉ e.1))

end Asking

end

/-- The calls by their numbers, and the loop before a round, if it runs. -/
structure Site (κ : Type) where
  counter : ℕ
  calls : ℕ → Option Asking
  sql : SqlGlobal κ
  loop : Option (Node × Arrays κ)
  handled : List (Handled κ)
  traps : List Trap

inductive Event
  | ask (collection : Collection) (object : Prototype) (m : Meta)
  | write (id : ℕ)
  | start
  | round (dictionary : ℕ → Dictionary)

namespace Site

section
variable {κ : Type} [LinearOrder κ] (round : Rounding) (text : κ → JsString) (sub : JsString → κ)

def write (s : Site κ) (id : ℕ) : Site κ :=
  match s.calls id with
  | none => s
  | some c =>
    match c.rest with
    | [] => s
    | e :: _ =>
      { s with
        calls := Function.update s.calls id (some { c with made := c.made + 1 })
        sql := s.sql.put sub id e.1 e.2 }

def start (s : Site κ) : Site κ :=
  if s.loop.isSome then s
  else if s.sql.enabled = some (js "0") then
    let attempted := s.sql.deamonLog (js "Attempted to start, but not enabled.")
    { s with sql := attempted.deamonLog (js "Check ^globalsjs.sql(\"control\",\"enabled\")") }
  else if s.sql.stop then
    { s with sql := { s.sql.deamonLog (js "Got stop signal, deamon stopping") with stop := false } }
  else
    let started := s.sql.deamonLog (js "Start")
    { s with sql := started, loop := some (started.order 0, ⟨∅, ∅⟩) }

/-- One round of the loop. -/
def turn (dictionary : ℕ → Dictionary) (s : Site κ) : Site κ :=
  match s.loop with
  | none => s
  | some (.lastid, _) =>
    { s with
      sql := s.sql.deamonLog (js "Sleeping for " ++ s.sql.sleeptime.getD (js "30") ++ js " seconds")
      loop := none }
  | some (.nothing, _) =>
    { s with
      sql := s.sql.deamonLog (js "Start processing in node:")
      loop := none
      traps := s.traps ++ [.subscript] }
  | some (.id nextid, arrays) =>
    let started := s.sql.deamonLog (js "Start processing in node:" ++ natText nextid)
    match s.sql.requests.lookup nextid with
    | some ⟨recorded, some classname, some globalname⟩ =>
      let arrays := arrays.merge recorded
      match generateClass text (dictionary nextid) classname arrays.properties arrays.indicies
          globalname with
      | .error trap => { s with sql := started, loop := none, traps := s.traps ++ [trap] }
      | .ok generated =>
        let settled := started.settle nextid generated.status
        { s with
          sql := settled
          loop := some (settled.order nextid, arrays)
          handled := s.handled ++ [⟨nextid, classname, globalname, arrays, generated⟩] }
    | _ => { s with sql := started, loop := none, traps := s.traps ++ [.undefined] }

def step (s : Site κ) : Event → Site κ
  | .ask collection object m =>
    { s with
      counter := s.counter + 1
      calls := Function.update s.calls (s.counter + 1) (some ⟨m.filled round collection object, 0⟩) }
  | .write id => s.write sub id
  | .start => s.start
  | .round dictionary => s.turn text dictionary

def run (s : Site κ) (es : List Event) : Site κ := es.foldl (step round text sub) s

def nextid (s : Site κ) : Option ℕ :=
  match s.loop with
  | some (.id k, _) => some k
  | _ => none

/-- The loop does not come to a request that is half written. -/
def CalmAt (s : Site κ) : Event → Prop
  | .round _ => ∀ k ∈ s.nextid, ∀ c ∈ s.calls k, ¬ c.Half
  | _ => True

def Calm : Site κ → List Event → Prop
  | _, [] => True
  | s, e :: es => s.CalmAt e ∧ Calm (s.step round text sub e) es

instance (s : Site κ) : (e : Event) → Decidable (s.CalmAt e)
  | .round _ => inferInstanceAs (Decidable (∀ k ∈ s.nextid, ∀ c ∈ s.calls k, ¬ c.Half))
  | .ask .. | .write _ | .start => .isTrue trivial

instance decidableCalm : (s : Site κ) → (es : List Event) → Decidable (s.Calm round text sub es)
  | _, [] => .isTrue trivial
  | s, e :: es =>
    have : Decidable ((s.step round text sub e).Calm round text sub es) := decidableCalm _ es
    inferInstanceAs (Decidable (s.CalmAt e ∧ (s.step round text sub e).Calm round text sub es))

def generated (s : Site κ) : List ℕ := (s.handled.filter fun h => h.generated.status.isOk).map Handled.id

/-- No request is written yet, and no pass runs. -/
structure Fresh (s : Site κ) : Prop where
  working : s.sql.Working
  calls : ∀ k, s.calls k = none
  requests : s.sql.requests = ∅
  loop : s.loop = none
  handled : s.handled = []
  traps : s.traps = []

end

end Site

def nothingAsked : Site Subscript := ⟨0, fun _ => none, noRequests, none, [], []⟩

theorem fresh_nothingAsked : nothingAsked.Fresh := ⟨⟨by decide, rfl⟩, fun _ => rfl, rfl, rfl, rfl, rfl⟩

def patient : List Event := [.ask people ann noMeta, .write 1, .write 1, .write 1, .start, .round fun _ => accepting]

def hasty : List Event := [.ask people ann noMeta, .write 1, .write 1, .start, .round fun _ => accepting, .write 1]

def Known (path : List JsString) : Prop := path = [js "classname"] ∨ path = [js "globalname"] ∨
  ∃ f, path = [js "properties", f] ∨ path = [js "indicies", f]

section
variable {κ : Type} [DecidableEq κ] {sub : JsString → κ}

theorem put_void (r : Request κ) {path : List JsString} (hpath : [] ∈ path) (data : JsString) :
    r.put sub path data = r := if_pos hpath

theorem put_node (hsub : Function.Injective sub) (r : Request κ) {p : List JsString} (hp : [] ∉ p)
    (hknown : Known p) (data : JsString) (path : List JsString) :
    (r.put sub p data).node sub path = if path = p then some data else r.node sub path := by
  have hglobal : js "globalname" ≠ js "classname" := by decide
  have hindex : js "indicies" ≠ js "properties" := by decide
  rcases hknown with rfl | rfl | ⟨f, rfl | rfl⟩
  · have hput : r.put sub [js "classname"] data = { r with classname := some data } := (if_neg hp).trans rfl
    rw [hput]
    rcases path with _ | ⟨k, _ | ⟨g, _ | _⟩⟩
    · rfl
    · by_cases hk : k = js "classname" <;> simp [Request.node, hk]
    · simp [Request.node]
    · simp [Request.node]
  · have hput : r.put sub [js "globalname"] data = { r with globalname := some data } := (if_neg hp).trans rfl
    rw [hput]
    rcases path with _ | ⟨k, _ | ⟨g, _ | _⟩⟩
    · rfl
    · by_cases hk : k = js "globalname" <;> simp [Request.node, hk, hglobal]
    · simp [Request.node]
    · simp [Request.node]
  · have hput : r.put sub [js "properties", f] data =
        { r with properties := r.properties.insert (sub f) data } := (if_neg hp).trans rfl
    rw [hput]
    rcases path with _ | ⟨k, _ | ⟨g, _ | _⟩⟩
    · rfl
    · simp [Request.node]
    · by_cases hg : g = f
      · subst hg
        by_cases hk : k = js "properties" <;> simp [Request.node, hk]
      · simp [Request.node, hg, AList.lookup_insert_ne (hsub.ne hg)]
    · simp [Request.node]
  · have hput : r.put sub [js "indicies", f] data = { r with indicies := r.indicies.insert (sub f) data } :=
      (if_neg hp).trans rfl
    rw [hput]
    rcases path with _ | ⟨k, _ | ⟨g, _ | _⟩⟩
    · rfl
    · simp [Request.node]
    · by_cases hg : g = f
      · subst hg
        by_cases hk : k = js "indicies" <;> simp [Request.node, hk, hindex]
      · simp [Request.node, hg, AList.lookup_insert_ne (hsub.ne hg)]
    · simp [Request.node]

theorem puts_node (hsub : Function.Injective sub) (r : Request κ) {es : List (List JsString × JsString)}
    (hknown : ∀ e ∈ es, Known e.1) (path : List JsString) : (r.puts sub es).node sub path =
      if [] ∈ path then r.node sub path else (es.reverse.lookup path).or (r.node sub path) := by
  induction es generalizing r with
  | nil =>
    rw [List.reverse_nil, List.lookup_nil, Option.none_or, ite_self]
    rfl
  | cons e es ih =>
    obtain ⟨p, data⟩ := e
    obtain ⟨hfirst, hrest⟩ := List.forall_mem_cons.mp hknown
    rw [Request.puts, List.foldl_cons, ← Request.puts, ih _ hrest, List.reverse_cons, List.lookup_append,
      Option.or_assoc]
    dsimp only at hfirst ⊢
    by_cases hvoid : [] ∈ p
    · rw [put_void r hvoid]
      split_ifs with hpath
      · rfl
      · have hne : path ≠ p := fun heq => hpath (heq ▸ hvoid)
        simp [List.lookup_cons, beq_false_of_ne hne]
    · rw [put_node hsub r hvoid hfirst]
      by_cases hpath : path = p
      · rw [hpath, if_neg hvoid, if_neg hvoid, if_pos rfl, List.lookup_cons, beq_self_eq_true, Option.some_or]
      · rw [if_neg hpath, List.lookup_cons, beq_false_of_ne hpath]
        rfl

theorem entries_known (m : Filled) : ∀ e ∈ m.entries, Known e.1 := by
  intro e he
  simp only [Filled.entries, under, List.mem_append, List.mem_cons, List.not_mem_nil, or_false, List.mem_map] at he
  rcases he with ((rfl | rfl) | ⟨f, -, rfl⟩) | ⟨f, -, rfl⟩
  · exact .inl rfl
  · exact .inr (.inl rfl)
  · exact .inr (.inr ⟨f.1, .inl rfl⟩)
  · exact .inr (.inr ⟨f.1, .inr rfl⟩)

theorem request_node (hsub : Function.Injective sub) (m : Filled) (path : List JsString) :
    (Request.puts sub .blank m.entries).node sub path = m.record path := by
  have hblank : Request.node sub .blank path = none := by
    rcases path with _ | ⟨k, _ | ⟨g, _ | _⟩⟩ <;> simp [Request.node, Request.blank]
  rw [puts_node hsub _ (entries_known m), hblank, Option.or_none]
  rfl

theorem put_lookup (q : SqlGlobal κ) (id : ℕ) (path : List JsString) (data : JsString) (k : ℕ) :
    (q.put sub id path data).requests.lookup k = if k = id ∧ [] ∉ path
      then some (((q.requests.lookup id).getD .blank).put sub path data) else q.requests.lookup k := by
  rw [SqlGlobal.put]
  by_cases hpath : [] ∈ path
  · rw [if_pos hpath, if_neg fun h => h.2 hpath]
  · rw [if_neg hpath]
    by_cases hk : k = id
    · rw [if_pos ⟨hk, hpath⟩, hk, AList.lookup_insert]
    · rw [if_neg fun h => hk h.1, AList.lookup_insert_ne hk]

variable (sub) in
theorem put_kept (q : SqlGlobal κ) (id : ℕ) (path : List JsString) (data : JsString) :
    (q.put sub id path data).enabled = q.enabled ∧ (q.put sub id path data).stop = q.stop := by
  rw [SqlGlobal.put]
  split_ifs <;> exact ⟨rfl, rfl⟩

namespace Asking
variable {c : Asking} {e : List JsString × JsString} {es : List (List JsString × JsString)}

theorem rest_next (h : c.rest = e :: es) : rest { c with made := c.made + 1 } = es := by
  have hdrop : c.description.entries.drop (c.made + 1) = c.rest.drop 1 := by
    rw [rest, List.drop_drop]
  rw [rest, hdrop, h]
  rfl

theorem request_next (h : c.rest = e :: es) :
    request sub { c with made := c.made + 1 } = (c.request sub).put sub e.1 e.2 := by
  have hat : c.description.entries[c.made]? = some e := by
    have hhead : c.rest[0]? = some e := by rw [h]; rfl
    rwa [rest, List.getElem?_drop, Nat.add_zero] at hhead
  rw [request, request, List.take_add_one, hat, Request.puts, List.foldl_append]
  rfl

variable (sub) in
theorem first_write (hmade : c.made = 0) (h : c.rest = e :: es) : [] ∉ e.1 ∧ c.request sub = .blank := by
  rw [rest, hmade, List.drop_zero] at h
  have hfirst : e = ([js "classname"], c.description.package ++ js "." ++ c.description.classname) :=
    (List.cons.inj h).1.symm
  rw [request, hmade, hfirst]
  exact ⟨show [] ∉ [js "classname"] by decide, rfl⟩

theorem Whole.request_eq (hc : c.Whole) : c.request sub = Request.puts sub .blank c.description.entries := by
  have hvoid : ∀ (es : List (List JsString × JsString)) (r : Request κ), (∀ e ∈ es, [] ∈ e.1) →
      r.puts sub es = r := by
    intro es
    induction es with
    | nil => exact fun _ _ => rfl
    | cons e es ih =>
      intro r hes
      rw [Request.puts, List.foldl_cons, put_void r (hes e List.mem_cons_self)]
      exact ih r fun e' he' => hes e' (List.mem_cons_of_mem _ he')
  have hall : Request.puts sub .blank c.description.entries = (c.request sub).puts sub c.rest := by
    rw [request, Request.puts, Request.puts, Request.puts, ← List.foldl_append, rest, List.take_append_drop]
  rw [hall, hvoid _ _ hc.2]

theorem Whole.recorded (hsub : Function.Injective sub) (hc : c.Whole) : ∃ recorded : Arrays κ,
    c.request sub = ⟨recorded, some (c.description.package ++ js "." ++ c.description.classname),
      some c.description.classname⟩ ∧
    (∀ f, recorded.properties.lookup (sub f) = c.description.record [js "properties", f]) ∧
    ∀ f, recorded.indicies.lookup (sub f) = c.description.record [js "indicies", f] := by
  have hnode : ∀ path, (c.request sub).node sub path = c.description.record path := by
    rw [hc.request_eq]
    exact request_node hsub c.description
  have hclass : (c.request sub).classname = some (c.description.package ++ js "." ++ c.description.classname) :=
    (hnode [js "classname"]).trans c.description.record_classname
  have hglobal : (c.request sub).globalname = some c.description.classname :=
    (hnode [js "globalname"]).trans c.description.record_globalname
  exact ⟨(c.request sub).toArrays, by rw [← hclass, ← hglobal], fun f => hnode [js "properties", f],
    fun f => hnode [js "indicies", f]⟩

theorem Whole.ensureSQL (hsub : Function.Injective sub) (hc : c.Whole) {round : Rounding} {collection : Collection}
    {object : Prototype} {m : Meta} (hm : c.description = m.filled round collection object) {s : SqlNodes}
    (hfresh : s.Fresh) (path : List JsString) : (c.request sub).node sub path =
      (ensureSQL round collection object m s).2.record (s.counter + 1) path := by
  rw [hc.request_eq, request_node hsub, hm, (record_ensureSQL round collection object m hfresh).1]

theorem Whole.next (hc : c.Whole) (h : c.rest = e :: es) : Whole { c with made := c.made + 1 } := by
  refine ⟨Nat.succ_pos _, fun e' he' => hc.2 e' ?_⟩
  rw [rest_next h] at he'
  rw [h]
  exact List.mem_cons_of_mem _ he'

theorem whole_of_not_half (hmade : 0 < c.made) (hc : ¬ c.Half) : c.Whole := by
  refine ⟨hmade, fun e he => ?_⟩
  by_contra hvoid
  exact hc ⟨hmade, e, he, hvoid⟩

end Asking

end

end GlobalsJs.Sql
