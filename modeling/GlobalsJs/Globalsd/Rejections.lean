import GlobalsJs.Globalsd.RoundTrip

/-!
# Rejected requests among the others

The line for a rejected request has no identifier, and the client takes it for one more value
of the response before it: the value goes into the array that the callback of that response
already has. To say so, `batch` is a reference here; reading through the references gives
the listener with copies.
-/

namespace GlobalsJs.Globalsd
open Ecma LineReader

/-- What a callback was given: the data as they were then, and the place of the list among them. -/
structure Handed (κ : Type) where
  callback : κ
  info : Json
  data : Json
  list : Option ℕ

structure Shared (κ : Type) where
  batch_result_counter : ℕ
  batch_result_size : Option Json
  current_result_msg_id : Option Json
  batch : ℕ
  arrays : ℕ → List Json
  fresh : ℕ
  called : List (Handed κ)

namespace Shared
variable {κ : Type}

def initial : Shared κ := ⟨0, some (.ofInt 0), some (.str []), 0, fun _ => [], 1, []⟩

/-- The state with a copy of the array instead of the reference. -/
def view (s : Shared κ) : Reader κ where
  batch_result_counter := s.batch_result_counter
  batch_result_size := s.batch_result_size
  current_result_msg_id := s.current_result_msg_id
  batch := s.arrays s.batch
  called := s.called.map fun h => ⟨h.callback, h.info, h.data⟩

abbrev Step (κ : Type) := ExceptT JsError (StateM (Shared κ))

def callBack (self : Client κ) (info data : Json) (list : Option ℕ) : Step κ Unit := do
  let s : Shared κ ← get
  match self.dataCallbacks.lookup (textOf s.current_result_msg_id) with
  | none => throw .typeError
  | some callback => set { s with called := s.called ++ [Handed.mk callback info data list] }

def onObject (self : Client κ) (o : Json) : Step κ Unit := do
  if ← isACKObject o then
    let ack ← member (some o) ackProp
    let size ← member ack (js "result_count")
    modify fun s => { s with batch_result_size := size, batch_result_counter := 0 }
    let id ← member ack (js "id")
    modify fun s => { s with current_result_msg_id := id }
    if isZeroCount size then
      -- nobody else has this array
      callBack self emptyInfo (.arr []) none
    modify fun s => { s with
      batch := s.fresh, arrays := Function.update s.arrays s.fresh [], fresh := s.fresh + 1 }
  else
    modify fun s => { s with batch_result_counter := s.batch_result_counter + 1 }
    match self.resultMode with
    | .stream => callBack self (.obj []) o none
    | .batch =>
      modify fun s => { s with arrays := Function.update s.arrays s.batch (s.arrays s.batch ++ [o]) }
      let s ← get
      if countEq s.batch_result_counter s.batch_result_size then
        callBack self (.obj []) (.arr (s.arrays s.batch)) (some s.batch)

def handleObject (self : Client κ) (s : Shared κ) (o : Json) : Shared κ × Bool :=
  let r := (onObject self o).run.run s
  (r.2, finished r.1)

def onData (self : Client κ) (st : Shared κ × JsString) (data : JsString) : Shared κ × JsString :=
  LineReader.feed (parsed (handleObject self)) newline st data

variable {self : Client κ}

def Shows {α : Type} (p : Step κ α) (q : Decode κ α) : Prop :=
  ∀ s, q.run.run s.view = ((p.run.run s).1, (p.run.run s).2.view)

namespace Shows
variable {α β : Type}

theorem bind {p : Step κ α} {q : Decode κ α} {f : α → Step κ β} {g : α → Decode κ β} (hp : Shows p q)
    (hf : ∀ a, Shows (f a) (g a)) : Shows (p >>= f) (q >>= g) := by
  intro s
  rw [run_bind, run_bind, hp s]
  generalize p.run.run s = r
  obtain ⟨a | a, t⟩ := r
  · rfl
  · exact hf a t

theorem lift (x : Except JsError α) : Shows (liftM x : Step κ α) (liftM x) := fun s => by
  rw [run_lift, run_lift]

theorem modify {f : Shared κ → Shared κ} {g : Reader κ → Reader κ} (h : ∀ s, g s.view = (f s).view) :
    Shows (modify f) (modify g) := fun s => by
  rw [run_modify, run_modify, h]

end Shows

theorem shows_callBack (info data : Json) (list : Option ℕ) :
    Shows (callBack self info data list) (Globalsd.callBack self info data) := by
  intro s
  unfold callBack Globalsd.callBack
  simp only [run_bind, run_get]
  have hid : s.view.current_result_msg_id = s.current_result_msg_id := rfl
  rw [hid]
  cases self.dataCallbacks.lookup (textOf s.current_result_msg_id) with
  | none => rfl
  | some callback =>
    simp only [run_set, view, List.map_append]
    rfl

theorem shows_onObject (o : Json) : Shows (onObject self o) (Globalsd.onObject self o) := by
  have hreset : Shows (κ := κ)
      (modify fun s => { s with
        batch := s.fresh, arrays := Function.update s.arrays s.fresh [], fresh := s.fresh + 1 })
      (modify fun s => { s with batch := [] }) := .modify fun s => by simp [view]
  unfold onObject Globalsd.onObject
  refine (Shows.lift _).bind fun b => ?_
  cases b with
  | true =>
    simp only [if_true]
    refine (Shows.lift _).bind fun ack => (Shows.lift _).bind fun size => ?_
    refine (Shows.modify fun s => rfl).bind fun _ => (Shows.lift _).bind fun id => ?_
    refine (Shows.modify fun s => rfl).bind fun _ => ?_
    split_ifs
    · exact (shows_callBack _ _ none).bind fun _ => hreset
    · exact hreset
  | false =>
    simp only [Bool.false_eq_true, if_false]
    refine (Shows.modify fun s => rfl).bind fun _ => ?_
    cases self.resultMode with
    | stream => exact shows_callBack _ _ none
    | batch =>
      refine (Shows.modify fun s => by simp [view]).bind fun _ => fun s => ?_
      rw [run_bind, run_bind, run_get, run_get]
      have hcount : countEq s.view.batch_result_counter s.view.batch_result_size =
        countEq s.batch_result_counter s.batch_result_size := rfl
      simp only [hcount]
      split_ifs
      · exact shows_callBack _ _ _ s
      · rfl

theorem view_handleObject (s : Shared κ) (o : Json) :
    Globalsd.handleObject self s.view o = ((handleObject self s o).1.view, (handleObject self s o).2) := by
  unfold handleObject Globalsd.handleObject
  rw [shows_onObject o s]

theorem view_onData (events : List JsString) (st : Shared κ × JsString) :
    (events.foldl self.onData (st.1.view, st.2)).1 = (events.foldl (onData self) st).1.view := by
  refine congrArg Prod.fst (feeds_view (fun s p => ?_) st events)
  rw [parsed, parsed]
  cases Json.parse p with
  | none => rfl
  | some o => exact view_handleObject s o

variable {callback : κ} {id : ℕ}

theorem run_callBack {s : Shared κ} (info data : Json) (list : Option ℕ)
    (hout : self.Outstanding id callback) (hid : s.current_result_msg_id = some (.ofInt id)) :
    (callBack self info data list).run.run s =
      (.ok (), { s with called := s.called ++ [⟨callback, info, data, list⟩] }) := by
  unfold Client.Outstanding at hout
  simp only [callBack, run_bind, run_get, hid, textOf_ofInt, hout, run_set]

theorem handleObject_ack {ps ack : Props} {n : ℕ} (s : Shared κ) (hout : self.Outstanding id callback)
    (hack : get ps ackProp = some (.obj ack)) (hid : get ack (js "id") = some (.ofInt id))
    (hcount : get ack (js "result_count") = some (.ofInt n)) :
    handleObject self s (.obj ps) =
      (⟨0, some (.ofInt n), some (.ofInt id), s.fresh, Function.update s.arrays s.fresh [], s.fresh + 1,
        s.called ++ if n = 0 then [⟨callback, emptyInfo, .arr [], none⟩] else []⟩, true) := by
  unfold handleObject onObject
  simp only [run_bind, isACKObject_obj, hack, Option.isSome_some, run_lift, if_true, member,
    hcount, hid, run_modify, isZeroCount_ofInt, decide_eq_true_eq]
  split_ifs with hn
  · simp only [run_bind, run_callBack emptyInfo (.arr []) none hout, run_modify, finished]
  · simp only [run_modify, finished, List.append_nil]

theorem handleObject_batch {v : Json} {s : Shared κ} {n : ℕ} (hmode : self.resultMode = .batch)
    (hsize : s.batch_result_size = some (.ofInt n)) (hv : isACKObject v = .ok false)
    (hlast : s.batch_result_counter + 1 ≠ n) :
    handleObject self s v =
      ({ s with
          batch_result_counter := s.batch_result_counter + 1
          arrays := Function.update s.arrays s.batch (s.arrays s.batch ++ [v]) }, true) := by
  unfold handleObject onObject
  simp only [run_bind, hv, run_lift, hmode]
  rw [if_neg (by decide)]
  simp only [run_bind, run_modify, run_get, hsize, countEq_ofInt, hlast, decide_false]
  rfl

theorem handleObject_last {v : Json} {s : Shared κ} (hmode : self.resultMode = .batch)
    (hout : self.Outstanding id callback) (hid : s.current_result_msg_id = some (.ofInt id))
    (hsize : s.batch_result_size = some (.ofInt (s.batch_result_counter + 1 : ℕ)))
    (hv : isACKObject v = .ok false) :
    handleObject self s v =
      ({ s with
          batch_result_counter := s.batch_result_counter + 1
          arrays := Function.update s.arrays s.batch (s.arrays s.batch ++ [v])
          called := s.called ++
            [⟨callback, .obj [], .arr (s.arrays s.batch ++ [v]), some s.batch⟩] }, true) := by
  unfold handleObject onObject
  simp only [run_bind, hv, run_lift, hmode]
  rw [if_neg (by decide)]
  simp only [run_bind, run_modify, run_get, hsize, countEq_ofInt, decide_true, if_true,
    run_callBack _ _ _ hout, hid, finished, Function.update_self]

theorem accepts_values (s : Shared κ) {todo : List Json} (hmode : self.resultMode = .batch)
    (hout : self.Outstanding id callback) (hid : s.current_result_msg_id = some (.ofInt id))
    (hsize : s.batch_result_size = some (.ofInt (s.batch_result_counter + todo.length : ℕ)))
    (htodo : todo ≠ []) (hplain : ∀ v ∈ todo, isACKObject v = .ok false) :
    Accepts (handleObject self) s todo { s with
      batch_result_counter := s.batch_result_counter + todo.length
      arrays := Function.update s.arrays s.batch (s.arrays s.batch ++ todo)
      called := s.called ++
        [⟨callback, .obj [], .arr (s.arrays s.batch ++ todo), some s.batch⟩] } := by
  induction todo generalizing s with
  | nil => exact absurd rfl htodo
  | cons v todo ih =>
    have hv := hplain v List.mem_cons_self
    by_cases hnil : todo = []
    · subst hnil
      exact .cons (handleObject_last hmode hout hid hsize hv) (.nil _)
    · have hpos := List.length_pos_of_ne_nil hnil
      have hcount : s.batch_result_counter + 1 + todo.length = s.batch_result_counter + (v :: todo).length := by
        rw [List.length_cons]
        omega
      have hstep := handleObject_batch hmode hsize hv (by omega)
      have hrest := ih { s with
          batch_result_counter := s.batch_result_counter + 1
          arrays := Function.update s.arrays s.batch (s.arrays s.batch ++ [v]) } hid
        (by rw [hcount]; exact hsize) hnil fun w hw => hplain w (List.mem_cons_of_mem v hw)
      dsimp only at hrest
      rw [hcount, Function.update_self, Function.update_idem, List.append_assoc, List.singleton_append] at hrest
      exact .cons hstep hrest

def handed (callback : κ) (vs : List Json) (place : ℕ) : Handed κ :=
  if vs = [] then ⟨callback, emptyInfo, .arr [], none⟩ else ⟨callback, .obj [], .arr vs, some place⟩

/-- The state when the results are in. -/
def after (s : Shared κ) (callback : κ) (r : Result) : Shared κ :=
  ⟨r.values.length, some (.ofInt r.values.length), some (.ofInt r.id), s.fresh,
    Function.update s.arrays s.fresh r.values, s.fresh + 1, s.called ++ [handed callback r.values s.fresh]⟩

@[simp] theorem after_called (s : Shared κ) (r : Result) :
    (s.after callback r).called = s.called ++ [handed callback r.values s.fresh] := rfl

@[simp] theorem after_fresh (s : Shared κ) (r : Result) : (s.after callback r).fresh = s.fresh + 1 := rfl

@[simp] theorem after_batch (s : Shared κ) (r : Result) : (s.after callback r).batch = s.fresh := rfl

@[simp] theorem after_arrays (s : Shared κ) (r : Result) :
    (s.after callback r).arrays = Function.update s.arrays s.fresh r.values := rfl

theorem accepts_answered (s : Shared κ) {r : Result} (hmode : self.resultMode = .batch)
    (hout : self.Outstanding r.id callback) (hr : ∀ v ∈ r.values, Transparent v) :
    Accepts (handleObject self) s r.sent (s.after callback r) := by
  have hack : get [(ackProp, Json.obj [(js "id", .ofInt r.id), (js "result_count", .ofInt r.values.length)])]
      ackProp = some (.obj [(js "id", .ofInt r.id), (js "result_count", .ofInt r.values.length)]) := rfl
  have hstep := handleObject_ack s hout hack rfl rfl
  rw [after, handed]
  by_cases hnil : r.values = []
  · rw [if_pos (List.length_eq_zero_iff.mpr hnil)] at hstep
    rw [if_pos hnil, Result.sent, answer, hnil]
    rw [hnil] at hstep
    exact .cons hstep (.nil _)
  · rw [if_neg (mt (fun h => List.length_eq_zero_iff.mp h) hnil), List.append_nil] at hstep
    rw [if_neg hnil]
    have hrest := accepts_values
      ⟨0, some (.ofInt r.values.length), some (.ofInt r.id), s.fresh, Function.update s.arrays s.fresh [],
        s.fresh + 1, s.called⟩ hmode hout rfl (by rw [Nat.zero_add]) hnil
      fun v hv => (isACKObject_eq_false_iff v).mpr (hr v hv)
    dsimp only at hrest
    rw [Function.update_self, Function.update_idem, List.nil_append, Nat.zero_add] at hrest
    exact .cons hstep hrest

end Shared

/-- How the daemon took a request. -/
inductive Outcome
  | answered (r : Result)
  | rejected (id : ℕ)

namespace Outcome

def id : Outcome → ℕ
  | answered r => r.id
  | rejected id => id

def rejection : Json := .ofInt 400

def sent : Outcome → List Json
  | answered r => r.sent
  | rejected _ => [rejection]

def isRejected : Outcome → Bool
  | answered _ => false
  | rejected _ => true

def answers (os : List Outcome) : List Result :=
  os.filterMap fun
    | answered r => some r
    | rejected _ => none

def rejections (os : List Outcome) : List ℕ :=
  os.filterMap fun
    | answered _ => none
    | rejected id => some id

def ahead (os : List Outcome) : ℕ := (os.takeWhile isRejected).length

end Outcome

open Outcome (answers rejections ahead rejection)

theorem invalid_rejected {σ ι : Type} [DecidableEq ι] (api : Api σ) {req : Json} {data : Option Json}
    (hdata : member (some req) (js "data") = .ok data) (hinvalid : valid data = .ok false) (socket : ι)
    (d : Daemon σ ι) :
    Globalsd.sent ((onRequest api req socket).run.run d).2 socket =
      Globalsd.sent d socket ++ wire newline ([rejection].map Json.stringify) := by
  have htext : INVALID_REQUEST_RESPONSE = wire newline ([rejection].map Json.stringify) := by decide
  have hrun : ((onRequest api req socket).run.run d).2 =
      { d with written := d.written ++ [(socket, INVALID_REQUEST_RESPONSE)] } := by
    unfold onRequest
    simp only [hdata, hinvalid, liftM_ok, pure_bind]
    rfl
  rw [hrun, Globalsd.sent, Globalsd.sent, List.filter_append, List.flatMap_append, ← htext]
  simp

section
variable {κ : Type} {self : Client κ}

def Handed.now (arrays : ℕ → List Json) (h : Handed κ) : Json :=
  match h.list with
  | none => h.data
  | some a => .arr (arrays a)

def Handed.report (arrays : ℕ → List Json) (h : Handed κ) : κ × Json × Json :=
  (h.callback, h.data, h.now arrays)

def given (k : ℕ → κ) : List Outcome → List (κ × Json × Json)
  | [] => []
  | .rejected _ :: os => given k os
  | .answered r :: os => (k r.id, .arr r.values,
      .arr (if r.values = [] then [] else r.values ++ List.replicate (ahead os) rejection)) :: given k os

structure Shared.Idle (s : Shared κ) : Prop where
  size : ∃ n : ℕ, s.batch_result_size = some (.ofInt n) ∧ n ≤ s.batch_result_counter
  batch : s.batch < s.fresh

theorem report_handed (callback : κ) (vs : List Json) (place : ℕ) (arrays : ℕ → List Json) :
    (Shared.handed callback vs place).report arrays =
      (callback, .arr vs, .arr (if vs = [] then [] else arrays place)) := by
  rw [Shared.handed]
  split_ifs with hnil
  · rw [hnil]
    rfl
  · rfl

theorem run_outcomes (hmode : self.resultMode = .batch) {k : ℕ → κ} {os : List Outcome}
    (hout : ∀ o ∈ os, self.Outstanding o.id (k o.id))
    (hplain : ∀ r ∈ answers os, ∀ v ∈ r.values, Transparent v) (s : Shared κ) (hs : s.Idle) :
    ∃ t new, Accepts (Shared.handleObject self) s (os.flatMap Outcome.sent) t ∧ t.called = s.called ++ new ∧
      new.map (Handed.report t.arrays) = given k os ∧
      t.arrays s.batch = s.arrays s.batch ++ List.replicate (ahead os) rejection ∧
      ∀ a < s.fresh, a ≠ s.batch → t.arrays a = s.arrays a := by
  induction os generalizing s with
  | nil =>
    exact ⟨s, [], .nil s, (List.append_nil _).symm, rfl, (List.append_nil _).symm, fun _ _ _ => rfl⟩
  | cons o os ih =>
    have ih := ih fun o ho => hout o (List.mem_cons_of_mem _ ho)
    cases o with
    | rejected id =>
      obtain ⟨n, hsize, hn⟩ := hs.size
      have hstep := Shared.handleObject_batch (v := rejection) hmode hsize rfl (by omega)
      obtain ⟨t, new, hrest, hcalled, hreport, hlist, hframe⟩ :=
        ih hplain (Shared.handleObject self s rejection).1
          (by rw [hstep]; exact ⟨⟨n, hsize, Nat.le_succ_of_le hn⟩, hs.batch⟩)
      rw [hstep] at hcalled hlist hframe
      dsimp only at hcalled hlist hframe
      refine ⟨t, new, .cons (by rw [hstep]) hrest, hcalled, hreport, ?_, fun a ha hbatch => ?_⟩
      · rw [hlist, Function.update_self, List.append_assoc]
        rfl
      · rw [hframe a ha hbatch, Function.update_of_ne hbatch]
    | answered r =>
      have hr := Shared.accepts_answered s hmode (hout _ List.mem_cons_self) (hplain r List.mem_cons_self)
      obtain ⟨t, new, hrest, hcalled, hreport, hlist, hframe⟩ :=
        ih (fun r hr => hplain r (List.mem_cons_of_mem _ hr)) (s.after (k r.id) r)
          ⟨⟨_, rfl, le_rfl⟩, Nat.lt_succ_self _⟩
      rw [Shared.after_batch, Shared.after_arrays, Function.update_self] at hlist
      have holder : ∀ a < s.fresh, t.arrays a = s.arrays a := by
        intro a ha
        have hfresh : a ≠ s.fresh := ne_of_lt ha
        rw [hframe a (Nat.lt_succ_of_lt ha) hfresh, Shared.after_arrays, Function.update_of_ne hfresh]
      refine ⟨t, _ :: new, hr.append hrest, by rw [hcalled, Shared.after_called, List.append_assoc]; rfl, ?_,
        ?_, fun a ha _ => holder a ha⟩
      · rw [List.map_cons, hreport, report_handed, hlist]
        rfl
      · rw [holder s.batch hs.batch]
        exact (List.append_nil _).symm

/-- Each answered request's callback is called once, with its results, in a list that stays as it
was, and nobody else's is. -/
def Undisturbed (k : ℕ → κ) (os : List Outcome) (s : Shared κ) : Prop :=
  (s.called.map (Handed.report s.arrays)).Perm
    ((answers os).map fun r => (k r.id, .arr r.values, .arr r.values))

def AllCalled (k : ℕ → κ) (os : List Outcome) (s : Shared κ) : Prop :=
  ∃ others : List (κ × Json × Json), others.map Prod.fst = (rejections os).map k ∧
    (s.called.map (Handed.report s.arrays)).Perm
      ((answers os).map (fun r => (k r.id, .arr r.values, .arr r.values)) ++ others)

def Apart : List Outcome → Prop
  | [] => True
  | .rejected _ :: os => Apart os
  | .answered r :: os => (r.values = [] ∨ ahead os = 0) ∧ Apart os

theorem apart_of_no_rejections {os : List Outcome} (h : rejections os = []) : Apart os := by
  induction os with
  | nil => trivial
  | cons o os ih =>
    cases o with
    | rejected id => cases h
    | answered r =>
      refine ⟨?_, ih h⟩
      cases os with
      | nil => exact .inr rfl
      | cons o os =>
        cases o with
        | rejected id => cases h
        | answered r' => exact .inr rfl

theorem given_length (k : ℕ → κ) (os : List Outcome) : (given k os).length = (answers os).length := by
  induction os with
  | nil => rfl
  | cons o os ih =>
    cases o with
    | rejected id => exact ih
    | answered r => exact congrArg Nat.succ ih

def listed (c : κ × Json × Json) : ℕ :=
  match c.2.2 with
  | .arr vs => vs.length
  | _ => 0

theorem listed_given (k : ℕ → κ) (os : List Outcome) :
    (((answers os).map fun r => (k r.id, Json.arr r.values, Json.arr r.values)).map listed).sum ≤
        ((given k os).map listed).sum ∧
      (((given k os).map listed).sum =
        (((answers os).map fun r => (k r.id, Json.arr r.values, Json.arr r.values)).map listed).sum →
          Apart os) := by
  induction os with
  | nil => exact ⟨le_rfl, fun _ => trivial⟩
  | cons o os ih =>
    cases o with
    | rejected id => exact ih
    | answered r =>
      have hlisted : listed (k r.id, Json.arr r.values, Json.arr (if r.values = [] then [] else
          r.values ++ List.replicate (ahead os) rejection)) =
          r.values.length + if r.values = [] then 0 else ahead os := by
        split_ifs with hnil
        · simp [listed, hnil]
        · simp [listed]
      have hanswers : answers (.answered r :: os) = r :: answers os := rfl
      have hown : listed (k r.id, Json.arr r.values, Json.arr r.values) = r.values.length := rfl
      rw [given, hanswers, List.map_cons, List.map_cons, List.map_cons, List.sum_cons, List.sum_cons, hlisted, hown]
      refine ⟨Nat.add_le_add (Nat.le_add_right _ _) ih.1, fun hsum => ?_⟩
      have hnone : (if r.values = [] then 0 else ahead os) = 0 := by omega
      refine ⟨?_, ih.2 (by omega)⟩
      by_cases hnil : r.values = []
      · exact .inl hnil
      · exact .inr (by rwa [if_neg hnil] at hnone)

theorem given_eq {k : ℕ → κ} {os : List Outcome} (h : Apart os) :
    given k os = (answers os).map fun r => (k r.id, Json.arr r.values, Json.arr r.values) := by
  induction os with
  | nil => rfl
  | cons o os ih =>
    cases o with
    | rejected id => exact ih h
    | answered r =>
      have hanswers : answers (.answered r :: os) = r :: answers os := rfl
      rw [given, hanswers, List.map_cons, ih h.2]
      congr 3
      rcases h.1 with hnil | hahead
      · rw [if_pos hnil, hnil]
      · rw [hahead, List.replicate_zero, List.append_nil]
        refine congrArg Json.arr ?_
        split_ifs with hnil
        · exact hnil.symm
        · rfl

theorem initial_idle : (Shared.initial : Shared κ).Idle := ⟨⟨0, rfl, le_rfl⟩, Nat.zero_lt_one⟩

theorem called_transparent (hmode : self.resultMode = .batch) (events : List JsString) {h : Handed κ}
    (hh : h ∈ (events.foldl (Shared.onData self) (Shared.initial, [])).1.called) :
    ∃ vs, h.data = .arr vs ∧ ∀ v ∈ vs, Transparent v := by
  have hfiltered : Filtered (events.foldl self.onData (Shared.initial.view, [])).1 := by
    refine feeds_keep (fun s p hs => ?_) ?_ _
    · rw [parsed]
      cases Json.parse p with
      | none => exact hs
      | some o => exact filtered_handleObject hmode s o hs
    · exact ⟨fun v hv => absurd hv List.not_mem_nil, fun i hi => absurd hi List.not_mem_nil⟩
  rw [Shared.view_onData events (Shared.initial, [])] at hfiltered
  exact hfiltered.called _ (List.mem_map_of_mem hh)

/-- The callbacks of the answered requests get their own results in lists that stay as they are
exactly when no rejection directly follows a response with objects; the callback of a rejected
request is never called. -/
theorem rejections_disturb_iff (hmode : self.resultMode = .batch) {k : ℕ → κ} {os : List Outcome}
    (hout : ∀ o ∈ os, self.Outstanding o.id (k o.id)) {events : List (List JsString)}
    (hcut : events.flatten = (os.flatMap Outcome.sent).map Json.stringify) :
    let s := ((events.map (wire newline)).foldl (Shared.onData self) (Shared.initial, [])).1
    (AllCalled k os s ↔ rejections os = [] ∧ ∀ r ∈ answers os, ∀ v ∈ r.values, Transparent v) ∧
      (Undisturbed k os s ↔ Apart os ∧ ∀ r ∈ answers os, ∀ v ∈ r.values, Transparent v) := by
  intro s
  have hneeds : ∀ others : List (κ × Json × Json), (s.called.map (Handed.report s.arrays)).Perm
      ((answers os).map (fun r => (k r.id, .arr r.values, .arr r.values)) ++ others) →
      ∀ r ∈ answers os, ∀ v ∈ r.values, Transparent v := by
    intro others h r hr v hv
    have hmem := h.symm.subset (List.mem_append_left others
      (List.mem_map_of_mem (f := fun r : Result => (k r.id, Json.arr r.values, Json.arr r.values)) hr))
    obtain ⟨c, hc, hreport⟩ := List.mem_map.mp hmem
    obtain ⟨vs, hdata, hall⟩ := called_transparent hmode _ hc
    obtain rfl : vs = r.values :=
      Json.arr.inj (hdata.symm.trans (congrArg (fun c => c.2.1) hreport))
    exact hall v hv
  have hexact : (∀ r ∈ answers os, ∀ v ∈ r.values, Transparent v) →
      s.called.map (Handed.report s.arrays) = given k os := by
    intro hplain
    obtain ⟨t, new, ht, hcalled, hreport, -⟩ := run_outcomes hmode hout hplain _ initial_idle
    have hwf : ∀ v ∈ os.flatMap Outcome.sent, v.WF := by
      intro v hv
      obtain ⟨o, _, hv⟩ := List.mem_flatMap.mp hv
      cases o with
      | answered r => exact sent_wf r v hv
      | rejected id =>
        obtain rfl := List.mem_singleton.mp hv
        exact Json.wf_ofInt 400
    have hs : s = t := congrArg Prod.fst (ht.events hwf hcut)
    rw [hs, hcalled]
    exact hreport
  refine ⟨⟨?_, ?_⟩, ⟨?_, ?_⟩⟩
  · rintro ⟨others, hothers, hperm⟩
    have hplain := hneeds others hperm
    refine ⟨?_, hplain⟩
    have hlen := hperm.length_eq
    rw [hexact hplain, given_length, List.length_append, List.length_map] at hlen
    have hnone : others = [] := List.length_eq_zero_iff.mp (by omega)
    rw [hnone] at hothers
    exact List.map_eq_nil_iff.mp hothers.symm
  · rintro ⟨hnone, hplain⟩
    refine ⟨[], by rw [hnone]; rfl, ?_⟩
    rw [hexact hplain, given_eq (apart_of_no_rejections hnone), List.append_nil]
  · intro h
    have hplain := hneeds [] (by rwa [List.append_nil])
    refine ⟨(listed_given k os).2 ?_, hplain⟩
    have hsum := (h.map listed).sum_nat
    rwa [hexact hplain] at hsum
  · rintro ⟨hapart, hplain⟩
    rw [Undisturbed, hexact hplain, given_eq hapart]

end

def askingTwice : Client Bool := ((asking .batch).send [] (.obj []) (some false)).1

def onePerson : Result := ⟨0, [person.json], List.forall_mem_singleton.mpr person.wf⟩

def secondRejected : List Outcome := [.answered onePerson, .rejected 1]

theorem outstanding_secondRejected : ∀ o ∈ secondRejected, askingTwice.Outstanding o.id (o.id == 0) := by
  intro o ho
  have hfirst : onePerson.id = 0 := rfl
  rcases List.mem_cons.mp ho with rfl | ho
  · exact (send_outstanding _ _ _ _ _ _).mpr
      ((if_neg (by decide)).mpr ((send_outstanding _ _ _ _ _ _).mpr ((if_pos hfirst).mpr rfl)))
  · obtain rfl := List.mem_singleton.mp ho
    exact (send_outstanding _ _ _ _ _ _).mpr ((if_pos rfl).mpr rfl)

theorem rejections_disturb_second :
    let events := [(secondRejected.flatMap Outcome.sent).map Json.stringify]
    let s := ((events.map (wire newline)).foldl (Shared.onData askingTwice) (Shared.initial, [])).1
    let k := fun id : ℕ => id == 0
    (AllCalled k secondRejected s ↔ rejections secondRejected = [] ∧
        ∀ r ∈ answers secondRejected, ∀ v ∈ r.values, Transparent v) ∧
      (Undisturbed k secondRejected s ↔ Apart secondRejected ∧
        ∀ r ∈ answers secondRejected, ∀ v ∈ r.values, Transparent v) :=
  rejections_disturb_iff rfl outstanding_secondRejected (by simp)

/-- The list of the first request gets a `400`, and the second request's callback no call. -/
theorem rejection_disturbs :
    let events := [(secondRejected.flatMap Outcome.sent).map Json.stringify]
    let s := ((events.map (wire newline)).foldl (Shared.onData askingTwice) (Shared.initial, [])).1
    let k := fun id : ℕ => id == 0
    ¬ AllCalled k secondRejected s ∧ ¬ Undisturbed k secondRejected s := by
  intro events s k
  have hreport : s.called.map (Handed.report s.arrays) =
      [(true, .arr onePerson.values, .arr (onePerson.values ++ [rejection]))] := by decide +kernel
  have hnot : ∀ others : List (Bool × Json × Json), ¬ (s.called.map (Handed.report s.arrays)).Perm
      ((answers secondRejected).map (fun r => (k r.id, .arr r.values, .arr r.values)) ++ others) := by
    intro others h
    rw [hreport] at h
    have hmem := h.symm.subset List.mem_cons_self
    obtain heq := List.mem_singleton.mp hmem
    exact absurd (congrArg (fun c => listed c) heq) (by decide)
  refine ⟨?_, fun h => hnot [] (by rwa [List.append_nil])⟩
  rintro ⟨others, -, h⟩
  exact hnot others h

end GlobalsJs.Globalsd
