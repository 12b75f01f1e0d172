import GlobalsJs.Query.Expression
import GlobalsJs.Lists.Collected

/-!
# Queries over a data set

`new` puts the expressions of a query on a stack, a joiner after the ones it
joins. `execute` runs the stack on every row: a joiner evaluates the results so far,
and a row may be returned once for each joiner. The count that a joiner leaves in the
global `k` is there when later expressions are evaluated, in this row and in the next.
-/

namespace GlobalsJs.Query
open Ecma Collected

/-- A stack holds expressions and, as strings, joiners; an unknown joiner is `undefined`. -/
abbrev Stack := List (Option Json)

def joiners : List (JsString × Connective) := [(js "$and", .and), (js "$or", .or)]

def joinerText (prop : JsString) : Option Json :=
  (joiners.lookup prop).map fun op => .str (connectiveText op)

def push (query : Json) (prop : JsString) (v : Json) : Except JsError Stack :=
  if prop.head? = some dollar then
    match v with
    | .arr xs => .ok (xs.map some ++ [joinerText prop])
    | _ => .error (.referenceError (js "quer"))
  else .ok [some query]

def entries : Json → Except JsError Props
  | .obj ps => .ok ps
  | .arr xs => .ok (xs.zipIdx.map fun p => (natText p.2, p.1))
  | _ => .error .typeError

def new (query : Json) : Except JsError Stack := do
  let ps ← entries query
  return (← ps.mapM fun p => push query p.1 p.2).flatten

/-- One expression on one row; nothing when the row lacks the field. -/
def testRow (realm : Realm) (row : Json) (e : Json) : Except JsError (Option Outcome) := do
  let ps ← entries e
  let fields ← entries row
  match ps.head? with
  | none => return none
  | some (prop, v) =>
    match get fields prop with
    | none => return none
    | some value => return some (← (← Expression.new v).evaluate realm value)

structure RowState where
  eval_results : List Outcome
  hit_joiner : Bool
  results : List Json
  k : Option ℕ

def step (realm : Realm) (row : Json) (st : RowState) :
    Option Json → Except JsError RowState
  | some (.str joiner) => do
    let k := some st.eval_results.length
    let scope := realm.joining (realm.counted k).lookup
    let add_row ← scope.eval (joinTexts joiner (st.eval_results.map (·.text)))
    return { st with
      hit_joiner := true, results := st.results ++ (if add_row.truthy then [row] else []), k }
  | some e => do
    let r ← testRow (realm.counted st.k) row e
    return { st with eval_results := st.eval_results ++ r.toList }
  | none => .error .typeError

/-- What one row contributes, and what it leaves in `k`. Without a joiner the first result
decides. -/
def executeRow (realm : Realm) (stack : Stack) (k : Option ℕ) (row : Json) :
    Except JsError (List Json × Option ℕ) := do
  let st ← stack.foldlM (step realm row) ⟨[], false, [], k⟩
  return (if !st.hit_joiner ∧ st.eval_results.head?.any (·.truthy) then st.results ++ [row]
    else st.results, st.k)

def execute (realm : Realm) (stack : Stack) (data_set : List Json) : Except JsError (List Json) :=
  threaded (executeRow realm stack) none data_set

/-- The last key of a query that is taken for a joiner. -/
def joinMode (query : Json) : Option JsString :=
  (((entries query).toOption.getD []).reverse.find? fun p => p.1.head? = some dollar).map Prod.fst

/-- The constructor assigns the key of a joiner to a global. -/
def Realm.constructed (realm : Realm) (query : Json) : Realm :=
  realm.assign (js "join_mode") ((joinMode query).map .str)

/-- `new Query(query).execute(data_set)` -/
def run (realm : Realm) (query : Json) (data_set : List Json) : Except JsError (List Json) := do
  execute (realm.constructed query) (← new query) data_set

def hasField (row e : Json) : Bool :=
  match entries e, entries row with
  | .ok (p :: _), .ok fields => (get fields p.1).isSome
  | _, _ => false

/-- What the joiners of a stack leave in `k` after a row, with the number of results so far. -/
def leaves (row : Json) : Stack → ℕ → Option ℕ → Option ℕ
  | [], _, k => k
  | some (.str _) :: stack, n, _ => leaves row stack n (some n)
  | some e :: stack, n, k => leaves row stack (if hasField row e then n + 1 else n) k
  | none :: stack, n, k => leaves row stack n k

/-- The rows, each with the `k` that it meets in a run of the query. -/
def counts {α : Type} (query : Json) (row : α → Json) : List α → List (Option ℕ × α) :=
  along (fun k x => leaves (row x) ((new query).toOption.getD []) 0 k) none

variable {realm : Realm}

theorem testRow_obj (realm : Realm) (fields : Props) (prop : JsString) (v : Json) (ps : Props) :
    testRow realm (.obj fields) (.obj ((prop, v) :: ps)) =
      match get fields prop with
      | none => .ok none
      | some value => ((Expression.new v).bind (·.evaluate realm value)).map some := by
  cases hget : get fields prop with
  | none => simp [testRow, entries, bind, Except.bind, pure, Except.pure, hget]
  | some value =>
    cases hnew : Expression.new v with
    | error e => simp [testRow, entries, bind, Except.bind, hget, hnew, Except.map]
    | ok e =>
      cases heval : e.evaluate realm value <;>
        simp [testRow, entries, bind, Except.bind, pure, Except.pure, hget, hnew, heval, Except.map]

theorem testRow_isSome {row e : Json} {r : Option Outcome} (h : testRow realm row e = .ok r) :
    r.isSome = hasField row e := by
  simp only [testRow, hasField] at *
  cases he : entries e with
  | error err => rw [he] at h; cases h
  | ok ps =>
    cases hrow : entries row with
    | error err => rw [he, hrow] at h; cases h
    | ok fields =>
      rw [he, hrow] at h
      cases ps with
      | nil => cases h; rfl
      | cons p ps =>
        cases hget : get fields p.1 with
        | none =>
          simp only [bind, Except.bind, List.head?_cons, hget] at h
          cases h
          simp [hget]
        | some value =>
          simp only [bind, Except.bind, List.head?_cons, hget] at h
          cases hnew : Expression.new p.2 with
          | error err => rw [hnew] at h; cases h
          | ok x =>
            cases heval : x.evaluate realm value with
            | error err => simp [hnew, heval] at h
            | ok o =>
              simp only [hnew, heval, pure, Except.pure, Except.ok.injEq] at h
              simp [← h, hget]

theorem step_test (row : Json) {e : Json} (hobj : ∀ s, e ≠ .str s) (st : RowState) :
    step realm row st (some e) = (testRow (realm.counted st.k) row e).map fun r =>
      { st with eval_results := st.eval_results ++ r.toList } := by
  cases e with
  | str s => exact absurd rfl (hobj s)
  | null | bool | num | arr | obj =>
    simp only [step, bind, Except.bind, pure, Except.pure]
    cases testRow (realm.counted st.k) row _ <;> rfl

theorem foldlM_leaves (row : Json) {stack : Stack} {st st' : RowState}
    (h : stack.foldlM (step realm row) st = .ok st') :
    st'.k = leaves row stack st.eval_results.length st.k := by
  induction stack generalizing st with
  | nil =>
    obtain rfl := Except.ok.inj h
    rfl
  | cons e stack ih =>
    rw [List.foldlM_cons] at h
    cases hstep : step realm row st e with
    | error err => rw [hstep] at h; cases h
    | ok st₁ =>
      rw [hstep] at h
      rw [ih h]
      cases e with
      | none => cases hstep
      | some e =>
        by_cases hstr : ∃ joiner, e = .str joiner
        · obtain ⟨joiner, rfl⟩ := hstr
          simp only [step, bind, Except.bind] at hstep
          split at hstep
          · cases hstep
          · obtain rfl := Except.ok.inj hstep
            rfl
        · have hobj : ∀ s, e ≠ .str s := fun s hs => hstr ⟨s, hs⟩
          rw [step_test row hobj] at hstep
          cases hr : testRow (realm.counted st.k) row e with
          | error err => rw [hr] at hstep; cases hstep
          | ok r =>
            rw [hr] at hstep
            obtain rfl := Except.ok.inj hstep
            rw [leaves.eq_3 _ _ _ _ _ hobj, ← testRow_isSome hr]
            cases r <;> simp

theorem executeRow_leaves {stack : Stack} {k : Option ℕ} {row : Json} {r : List Json × Option ℕ}
    (h : executeRow realm stack k row = .ok r) : r.2 = leaves row stack 0 k := by
  rw [executeRow] at h
  cases hst : stack.foldlM (step realm row) ⟨[], false, [], k⟩ with
  | error err => rw [hst] at h; cases h
  | ok st =>
    rw [hst] at h
    obtain rfl := Except.ok.inj h
    exact foldlM_leaves row hst

def contributes (realm : Realm) (stack : Stack) (k : Option ℕ) (row : Json) : Except JsError (List Json) :=
  (executeRow realm stack k row).map Prod.fst

theorem run_of_new {query : Json} {stack : Stack} (h : new query = .ok stack) {α : Type}
    (row : α → Json) (xs : List α) : run realm query (xs.map row) = collected
      (fun p => contributes (realm.constructed query) stack p.1 (row p.2)) (counts query row xs) := by
  have hnext : ∀ k row r, executeRow (realm.constructed query) stack k row = .ok r →
      r.2 = leaves row stack 0 k := fun _ _ _ h => executeRow_leaves h
  rw [run, h]
  change threaded _ none (xs.map row) = _
  rw [threaded_eq_collected hnext, along_map, collected_map, counts, h]
  rfl

theorem run_of_error {query : Json} {err : JsError} (h : new query = .error err) (data_set : List Json) :
    run realm query data_set = .error err := by
  rw [run, h]
  rfl

theorem foldlM_tests {α : Type} (row : Json) (f : α → Json) {es : List α} {r : α → Option Outcome}
    (hobj : ∀ e ∈ es, ∀ s, f e ≠ .str s) (st : RowState)
    (h : ∀ e ∈ es, testRow (realm.counted st.k) row (f e) = .ok (r e)) :
    (es.map fun e => some (f e)).foldlM (step realm row) st =
      .ok { st with eval_results := st.eval_results ++ es.filterMap r } := by
  induction es generalizing st with
  | nil => simp [pure, Except.pure]
  | cons e es ih =>
    rw [List.map_cons, List.foldlM_cons, step_test row (hobj e List.mem_cons_self),
      h e List.mem_cons_self]
    change (es.map fun e => some (f e)).foldlM (step realm row) _ = _
    refine (ih (fun x hx => hobj x (List.mem_cons_of_mem e hx))
      { st with eval_results := st.eval_results ++ (r e).toList }
      fun x hx => h x (List.mem_cons_of_mem e hx)).trans ?_
    cases hr : r e <;> simp [hr]

theorem foldlM_throws (row : Json) {es : List Json} (hobj : ∀ e ∈ es, ∀ s, e ≠ .str s) (st : RowState)
    (h : ∃ e ∈ es, ∃ err, testRow (realm.counted st.k) row e = .error err) (rest : Stack) :
    ∃ err, (es.map some ++ rest).foldlM (step realm row) st = .error err := by
  induction es generalizing st with
  | nil => simp at h
  | cons e es ih =>
    rw [List.map_cons, List.cons_append, List.foldlM_cons, step_test row (hobj e List.mem_cons_self)]
    cases he : testRow (realm.counted st.k) row e with
    | error err => exact ⟨err, rfl⟩
    | ok r =>
      obtain ⟨x, hx, err, herr⟩ := h
      have hx' : x ∈ es := by
        rcases List.mem_cons.mp hx with rfl | hx
        · rw [he] at herr; cases herr
        · exact hx
      exact ih (fun y hy => hobj y (List.mem_cons_of_mem e hy)) _ ⟨x, hx', err, herr⟩

theorem step_joiner (row : Json) (st : RowState) (op : Connective)
    (hos : ∀ o ∈ st.eval_results, o.Constant) :
    step realm row st (some (.str (connectiveText op))) =
      .ok { st with
        hit_joiner := true
        results := st.results ++
          (if !st.eval_results.isEmpty && op.combine (st.eval_results.map (·.truthy)) then [row]
            else [])
        k := some st.eval_results.length } := by
  have heval : (realm.joining (realm.counted (some st.eval_results.length)).lookup).eval
      (joinTexts (connectiveText op) (st.eval_results.map (·.text))) = .ok (op.joined st.eval_results) :=
    Scope.eval_joinTexts op hos
  simp only [step, heval, bind, Except.bind, pure, Except.pure, op.joined_truthy]

theorem contributes_joined {α : Type} (k : Option ℕ) (row : Json) (op : Connective) (f : α → Json)
    {es : List α} {r : α → Option Bool} (hobj : ∀ e ∈ es, ∀ s, f e ≠ .str s)
    (h : ∀ e ∈ es, testRow (realm.counted k) row (f e) = .ok ((r e).map .bool)) :
    contributes realm ((es.map fun e => some (f e)) ++ [some (.str (connectiveText op))]) k row =
      .ok (if !(es.filterMap r).isEmpty && op.combine (es.filterMap r) then [row] else []) := by
  have htests := foldlM_tests row f hobj ⟨[], false, [], k⟩ h
  have hmap : es.filterMap (fun e => (r e).map Outcome.bool) = (es.filterMap r).map .bool :=
    (List.map_filterMap).symm
  have hconst : ∀ o ∈ (es.filterMap r).map Outcome.bool, o.Constant := by
    intro o ho
    obtain ⟨b, -, rfl⟩ := List.mem_map.mp ho
    exact .inl ⟨b, rfl⟩
  have htruthy : ((es.filterMap r).map Outcome.bool).map (·.truthy) = es.filterMap r :=
    (List.map_map).trans (List.map_id _)
  rw [List.nil_append, hmap] at htests
  rw [contributes, executeRow, List.foldlM_append, htests]
  simp only [bind, Except.bind, List.foldlM_cons, List.foldlM_nil,
    step_joiner row ⟨(es.filterMap r).map .bool, false, [], k⟩ op hconst, pure, Except.pure, htruthy]
  simp [Except.map]

theorem contributes_single (k : Option ℕ) (row : Json) (n : ℕ) {e : Json} {r : Option Bool}
    (hobj : ∀ s, e ≠ .str s) (h : testRow (realm.counted k) row e = .ok (r.map .bool)) :
    contributes realm (List.replicate (n + 1) (some e)) k row =
      .ok (if r = some true then [row] else []) := by
  have htests := foldlM_tests row (fun _ => e)
    (fun (_ : Unit) (_ : _ ∈ List.replicate (n + 1) ()) => hobj) ⟨[], false, [], k⟩ fun _ _ => h
  rw [List.map_replicate] at htests
  rw [contributes, executeRow, htests]
  cases r with
  | none => simp [bind, Except.bind, pure, Except.pure, Except.map]
  | some b =>
    cases b <;>
      simp [bind, Except.bind, pure, Except.pure, Except.map, Outcome.bool, List.replicate_succ]

end GlobalsJs.Query
