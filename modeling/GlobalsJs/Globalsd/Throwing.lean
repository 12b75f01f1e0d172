import GlobalsJs.Globalsd.RoundTrip

/-!
# Callbacks that throw

The client calls back inside the `try` block that is meant for incomplete packets. The line
of a callback that throws is kept like the beginning of a packet, and goes in front of the first
line of the next event, which is lost. An event that ends with another line forgets it.
-/

namespace GlobalsJs.Globalsd
open Ecma LineReader

section
variable {κ : Type}

/-- Whether a call throws, after the calls before it. -/
abbrev Throws (κ : Type) := List (Invocation κ) → Invocation κ → Bool

def callThrowing (self : Client κ) (throws : Throws κ) (info data : Json) : Decode κ Unit := do
  let s : Reader κ ← get
  match self.dataCallbacks.lookup (textOf s.current_result_msg_id) with
  | none => throw .typeError
  | some callback =>
    set { s with called := s.called ++ [Invocation.mk callback info data] }
    if throws s.called ⟨callback, info, data⟩ then
      throw (.error [])

def onObjectWith (mode : ResultMode) (call : Json → Json → Decode κ Unit) (o : Json) : Decode κ Unit := do
  if ← isACKObject o then
    let ack ← member (some o) ackProp
    let size ← member ack (js "result_count")
    modify fun s => { s with batch_result_size := size, batch_result_counter := 0 }
    let id ← member ack (js "id")
    modify fun s => { s with current_result_msg_id := id }
    if isZeroCount size then
      call emptyInfo (.arr [])
    modify fun s => { s with batch := [] }
  else
    modify fun s => { s with batch_result_counter := s.batch_result_counter + 1 }
    match mode with
    | .stream => call (.obj []) o
    | .batch =>
      modify fun s => { s with batch := s.batch ++ [o] }
      let s ← get
      if countEq s.batch_result_counter s.batch_result_size then
        call (.obj []) (.arr s.batch)

theorem onObject_eq (self : Client κ) (o : Json) :
    onObject self o = onObjectWith self.resultMode (callBack self) o := rfl

def handleThrowing (self : Client κ) (throws : Throws κ) (s : Reader κ) (o : Json) : Reader κ × Bool :=
  let r := (onObjectWith self.resultMode (callThrowing self throws) o).run.run s
  (r.2, finished r.1)

def Client.onDataThrowing (self : Client κ) (throws : Throws κ) (st : Reader κ × JsString) (data : JsString) :
    Reader κ × JsString :=
  LineReader.feed (parsed (handleThrowing self throws)) newline st data

def Client.current (self : Client κ) (s : Reader κ) : Option κ :=
  self.dataCallbacks.lookup (textOf s.current_result_msg_id)

def quiet (throws : Throws κ) (called : List (Invocation κ)) : Option (Invocation κ) → Bool
  | none => true
  | some c => !throws called c

variable {self : Client κ} {callback : κ}

theorem run_callThrowing (throws : Throws κ) {s : Reader κ} (info data : Json) (hcur : self.current s = some callback) :
    (callThrowing self throws info data).run.run s =
      (if throws s.called ⟨callback, info, data⟩ then .error (.error []) else .ok (),
        { s with called := s.called ++ [⟨callback, info, data⟩] }) := by
  unfold Client.current at hcur
  simp only [callThrowing, run_bind, run_get, hcur, run_set]
  split_ifs <;> rfl

theorem run_callThrowing_none (throws : Throws κ) {s : Reader κ} (info data : Json) (hcur : self.current s = none) :
    (callThrowing self throws info data).run.run s = (.error .typeError, s) := by
  unfold Client.current at hcur
  simp only [callThrowing, run_bind, run_get, hcur]
  rfl

theorem handleThrowing_ack (throws : Throws κ) {ps ack : Props} {n id : ℕ} (s : Reader κ) (hout : self.Outstanding id callback)
    (hack : get ps ackProp = some (.obj ack)) (hid : get ack (js "id") = some (.ofInt id))
    (hcount : get ack (js "result_count") = some (.ofInt n)) :
    let call := if n = 0 then some ⟨callback, emptyInfo, .arr []⟩ else none
    handleThrowing self throws s (.obj ps) =
      (⟨0, some (.ofInt n), some (.ofInt id), if quiet throws s.called call then [] else s.batch,
        s.called ++ call.toList⟩, quiet throws s.called call) := by
  intro call
  unfold handleThrowing onObjectWith
  simp only [run_bind, isACKObject_obj, hack, Option.isSome_some, run_lift, if_true, member,
    hcount, hid, run_modify, isZeroCount_ofInt, decide_eq_true_eq]
  by_cases hn : n = 0
  · have hcall : call = some ⟨callback, emptyInfo, .arr []⟩ := if_pos hn
    have hcur : self.current ⟨0, some (.ofInt n), some (.ofInt id), s.batch, s.called⟩ = some callback := hout
    simp only [if_pos hn, run_bind, run_callThrowing throws emptyInfo (.arr []) hcur, hcall, quiet]
    cases throws s.called ⟨callback, emptyInfo, .arr []⟩ <;> rfl
  · have hcall : call = none := if_neg hn
    simp only [if_neg hn, run_modify, finished, hcall, quiet, if_true, Option.toList_none, List.append_nil]

theorem handleThrowing_stream (throws : Throws κ) {v : Json} {s : Reader κ} (hmode : self.resultMode = .stream)
    (hcur : self.current s = some callback) (hv : isACKObject v = .ok false) :
    handleThrowing self throws s v =
      ({ s with
          batch_result_counter := s.batch_result_counter + 1
          called := s.called ++ [⟨callback, .obj [], v⟩] },
        quiet throws s.called (some ⟨callback, .obj [], v⟩)) := by
  unfold handleThrowing onObjectWith
  simp only [run_bind, hv, run_lift, hmode]
  rw [if_neg (by decide)]
  have hcur' : self.current { s with batch_result_counter := s.batch_result_counter + 1 } = some callback := hcur
  simp only [run_bind, run_modify, run_callThrowing throws _ _ hcur', quiet]
  cases throws s.called ⟨callback, .obj [], v⟩ <;> rfl

theorem handleThrowing_batch (throws : Throws κ) {v : Json} {s : Reader κ} {n : ℕ} (hmode : self.resultMode = .batch)
    (hcur : self.current s = some callback) (hsize : s.batch_result_size = some (.ofInt n))
    (hv : isACKObject v = .ok false) :
    let call := if s.batch_result_counter + 1 = n then some ⟨callback, .obj [], .arr (s.batch ++ [v])⟩ else none
    handleThrowing self throws s v =
      ({ s with
          batch_result_counter := s.batch_result_counter + 1
          batch := s.batch ++ [v]
          called := s.called ++ call.toList }, quiet throws s.called call) := by
  intro call
  unfold handleThrowing onObjectWith
  simp only [run_bind, hv, run_lift, hmode]
  rw [if_neg (by decide)]
  simp only [run_bind, run_modify, run_get, hsize, countEq_ofInt, decide_eq_true_eq]
  have hcur' : self.current ⟨s.batch_result_counter + 1, some (.ofInt n), s.current_result_msg_id,
    s.batch ++ [v], s.called⟩ = some callback := hcur
  by_cases hn : s.batch_result_counter + 1 = n
  · have hcall : call = some ⟨callback, .obj [], .arr (s.batch ++ [v])⟩ := if_pos hn
    simp only [if_pos hn, run_callThrowing throws _ _ hcur', hcall, quiet]
    cases throws s.called ⟨callback, .obj [], .arr (s.batch ++ [v])⟩ <;> rfl
  · have hcall : call = none := if_neg hn
    simp only [if_neg hn, run_pure, finished, hcall, quiet, Option.toList_none, List.append_nil]

/-- A line of a response, and the call that it leads to. -/
structure Turn (κ : Type) where
  line : Line
  call : Option (Invocation κ)

def objectCall (mode : ResultMode) (callback : κ) (done : List Json) (o : Line) (os : List Line) :
    Option (Invocation κ) :=
  match mode with
  | .stream => some ⟨callback, .obj [], o.json⟩
  | .batch => if os = [] then some ⟨callback, .obj [], .arr (done ++ [o.json])⟩ else none

def objectTurns (mode : ResultMode) (callback : κ) : List Json → List Line → List (Turn κ)
  | _, [] => []
  | done, o :: os =>
    ⟨o, objectCall mode callback done o os⟩ :: objectTurns mode callback (done ++ [o.json]) os

def Response.turns (r : Response) (mode : ResultMode) (callback : κ) : List (Turn κ) :=
  ⟨r.header, if r.objects = [] then some ⟨callback, emptyInfo, .arr []⟩ else none⟩ ::
    objectTurns mode callback [] r.objects

def Client.turns (self : Client κ) (k : ℕ → κ) (rs : List Response) : List (Turn κ) :=
  rs.flatMap fun r => r.turns self.resultMode (k r.id)

def callsOf (ts : List (Turn κ)) : List (Invocation κ) := ts.filterMap Turn.call

theorem objectTurns_lines (mode : ResultMode) (callback : κ) (done : List Json) (os : List Line) :
    (objectTurns mode callback done os).map Turn.line = os := by
  induction os generalizing done with
  | nil => rfl
  | cons o os ih => exact congrArg (o :: ·) (ih _)

theorem objectTurns_calls (mode : ResultMode) (callback : κ) (done : List Json) {os : List Line}
    (hne : os ≠ []) : callsOf (objectTurns mode callback done os) = match mode with
      | .batch => [⟨callback, .obj [], .arr (done ++ os.map Line.json)⟩]
      | .stream => os.map fun o => ⟨callback, .obj [], o.json⟩ := by
  induction os generalizing done with
  | nil => exact absurd rfl hne
  | cons o os ih =>
    by_cases hnil : os = []
    · subst hnil
      cases mode <;> rfl
    · have ih := ih (done ++ [o.json]) hnil
      cases mode with
      | stream => exact congrArg _ ih
      | batch =>
        have hquiet : objectCall .batch callback done o os = none := if_neg hnil
        rw [callsOf, objectTurns, hquiet, List.filterMap_cons_none rfl]
        refine ih.trans ?_
        rw [List.map_cons, List.append_assoc, List.singleton_append]

theorem turns_calls (r : Response) (mode : ResultMode) (callback : κ) :
    callsOf (r.turns mode callback) = r.answer mode callback := by
  unfold Response.turns Response.answer
  split_ifs with hnil
  · rw [hnil]
    rfl
  · exact objectTurns_calls mode callback [] hnil

theorem client_turns_calls (k : ℕ → κ) (rs : List Response) :
    callsOf (self.turns k rs) = rs.flatMap fun r => r.answer self.resultMode (k r.id) := by
  induction rs with
  | nil => rfl
  | cons r rs ih =>
    rw [Client.turns, List.flatMap_cons, List.flatMap_cons, ← ih, ← turns_calls, callsOf, List.filterMap_append]
    rfl

theorem client_turns_lines (k : ℕ → κ) (rs : List Response) :
    (self.turns k rs).map Turn.line = rs.flatMap Response.lines := by
  induction rs with
  | nil => rfl
  | cons r rs ih =>
    rw [Client.turns, List.flatMap_cons, List.flatMap_cons, List.map_append, Response.turns, List.map_cons,
      objectTurns_lines]
    exact congrArg _ ih

def Spent (s : Reader κ) : Prop :=
  ∃ n : ℕ, s.batch_result_size = some (.ofInt n) ∧ n ≤ s.batch_result_counter

structure Collecting (s : Reader κ) (done : List Json) (todo : ℕ) : Prop where
  size : s.batch_result_size = some (.ofInt (s.batch_result_counter + todo : ℕ))
  batch : s.batch = done

/-- The lines of the turns are what comes next. -/
inductive Place (self : Client κ) (k : ℕ → κ) (s : Reader κ) : List (Turn κ) → Prop
  | between (rs : List Response) : (∀ r ∈ rs, self.Outstanding r.id (k r.id)) → Place self k s (self.turns k rs)
  | within {callback : κ} {done : List Json} {o : Line} {os : List Line} (rs : List Response) :
      (∀ r ∈ rs, self.Outstanding r.id (k r.id)) → self.current s = some callback →
      (∀ l ∈ o :: os, get l.props ackProp = none) →
      (self.resultMode = .batch → Collecting s done (o :: os).length) →
      Place self k s (objectTurns self.resultMode callback done (o :: os) ++ self.turns k rs)

theorem Place.objects {k : ℕ → κ} {s : Reader κ} {done : List Json} {os : List Line} {rs : List Response}
    (hout : ∀ r ∈ rs, self.Outstanding r.id (k r.id)) (hcur : self.current s = some callback)
    (hplain : ∀ l ∈ os, get l.props ackProp = none)
    (hbatch : self.resultMode = .batch → os ≠ [] → Collecting s done os.length) :
    Place self k s (objectTurns self.resultMode callback done os ++ self.turns k rs) := by
  cases os with
  | nil => exact .between rs hout
  | cons o os => exact .within rs hout hcur hplain fun hmode => hbatch hmode (List.cons_ne_nil o os)

structure Turned (client : Client κ) (k : ℕ → κ) (throws : Throws κ) (s : Reader κ) (t : Turn κ)
    (ts : List (Turn κ)) (r : Reader κ × Bool) : Prop where
  taken : r.2 = quiet throws s.called t.call
  called : r.1.called = s.called ++ t.call.toList
  place : Place client k r.1 ts
  after_call : ∀ c, t.call = some c →
    client.current r.1 = some c.callback ∧ (client.resultMode = .batch → Spent r.1)

theorem turned_header {k : ℕ → κ} (throws : Throws κ) (s : Reader κ) {r : Response} {rs : List Response}
    (hout : ∀ r' ∈ r :: rs, self.Outstanding r'.id (k r'.id)) :
    Turned self k throws s
      ⟨r.header, if r.objects = [] then some ⟨k r.id, emptyInfo, .arr []⟩ else none⟩
      (objectTurns self.resultMode (k r.id) [] r.objects ++ self.turns k rs)
      (handleThrowing self throws s r.header.json) := by
  obtain ⟨ack, hack, hid, hcount⟩ := r.acknowledges
  have hr := hout r List.mem_cons_self
  have hstep := handleThrowing_ack throws s hr hack hid hcount
  have hzero : r.objects.length = 0 ↔ r.objects = [] := List.length_eq_zero_iff
  simp only [hzero] at hstep
  rw [Line.json, hstep]
  refine ⟨rfl, rfl, .objects (fun r' hr' => hout r' (List.mem_cons_of_mem r hr')) hr r.plain fun _ hne => ?_,
    fun c hc => ?_⟩
  · refine ⟨by rw [Nat.zero_add], ?_⟩
    rw [if_neg hne]
    rfl
  · split_ifs at hc with hnil
    obtain rfl := Option.some.inj hc
    exact ⟨hr, fun _ => ⟨0, by rw [hnil]; rfl, le_rfl⟩⟩

theorem turned_object {k : ℕ → κ} (throws : Throws κ) {s : Reader κ} {done : List Json} {o : Line}
    {os : List Line} {rs : List Response} (hout : ∀ r ∈ rs, self.Outstanding r.id (k r.id))
    (hcur : self.current s = some callback) (hplain : ∀ l ∈ o :: os, get l.props ackProp = none)
    (hbatch : self.resultMode = .batch → Collecting s done (o :: os).length) :
    Turned self k throws s ⟨o, objectCall self.resultMode callback done o os⟩
      (objectTurns self.resultMode callback (done ++ [o.json]) os ++ self.turns k rs)
      (handleThrowing self throws s o.json) := by
  have hv := isACKObject_line (hplain o List.mem_cons_self)
  have hrest : ∀ l ∈ os, get l.props ackProp = none := fun l hl => hplain l (List.mem_cons_of_mem o hl)
  have hmodes : self.resultMode = .stream ∨ self.resultMode = .batch := by
    cases self.resultMode
    · exact .inr rfl
    · exact .inl rfl
  rcases hmodes with hmode | hmode
  · have hnot : self.resultMode ≠ .batch := by simp [hmode]
    have hcall : objectCall self.resultMode callback done o os = some ⟨callback, .obj [], o.json⟩ := by
      rw [hmode, objectCall]
    rw [hcall, handleThrowing_stream throws hmode hcur hv]
    refine ⟨rfl, rfl, .objects hout hcur hrest fun h => absurd h hnot, fun c hc => ?_⟩
    obtain rfl := Option.some.inj hc
    exact ⟨hcur, fun h => absurd h hnot⟩
  · obtain ⟨hsize, hdone⟩ := hbatch hmode
    have hlast : s.batch_result_counter + 1 = s.batch_result_counter + (o :: os).length ↔ os = [] := by
      rw [List.length_cons, ← List.length_eq_zero_iff]
      omega
    have hcount : s.batch_result_counter + 1 + os.length = s.batch_result_counter + (o :: os).length := by
      rw [List.length_cons]
      omega
    have hstep := handleThrowing_batch throws hmode hcur hsize hv
    simp only [hlast, hdone] at hstep
    have hcall : objectCall self.resultMode callback done o os =
        if os = [] then some ⟨callback, .obj [], .arr (done ++ [o.json])⟩ else none := by
      rw [hmode, objectCall]
    rw [hcall, hstep]
    refine ⟨rfl, rfl, .objects hout hcur hrest fun _ _ => ⟨?_, rfl⟩, fun c hc => ?_⟩
    · exact hsize.trans (by rw [hcount])
    · split_ifs at hc with hnil
      obtain rfl := Option.some.inj hc
      exact ⟨hcur, fun _ => ⟨_, hsize, by rw [hnil]; exact le_rfl⟩⟩

theorem turned {k : ℕ → κ} {s : Reader κ} {t : Turn κ} {ts : List (Turn κ)} (h : Place self k s (t :: ts))
    (throws : Throws κ) : Turned self k throws s t ts (handleThrowing self throws s t.line.json) := by
  generalize hturns : t :: ts = us at h
  cases h with
  | between rs hout =>
    cases rs with
    | nil => cases hturns
    | cons r rs =>
      obtain ⟨rfl, rfl⟩ := List.cons.inj hturns
      exact turned_header throws s hout
  | within rs hout hcur hplain hbatch =>
    obtain ⟨rfl, rfl⟩ := List.cons.inj hturns
    exact turned_object throws hout hcur hplain hbatch

def thrown (throws : Throws κ) : List (Invocation κ) → List (Turn κ) → Option (Invocation κ)
  | _, [] => none
  | called, [t] => t.call.filter (throws called)
  | called, t :: u :: ts => thrown throws (called ++ t.call.toList) (u :: ts)

def Left (self : Client κ) (st : Reader κ × JsString) : Option (Invocation κ) → Prop
  | none => st.2 = []
  | some c => (∃ l : Line, st.2 = l.text) ∧ self.current st.1 = some c.callback ∧
      (self.resultMode = .batch → Spent st.1)

def offered (self : Client κ) (throws : Throws κ) (st : Reader κ × JsString) (ts : List (Turn κ)) :
    Reader κ × JsString :=
  ts.foldl (fun st t => piece (parsed (handleThrowing self throws)) st t.line.text) st

theorem callsOf_cons (t : Turn κ) (ts : List (Turn κ)) : callsOf (t :: ts) = t.call.toList ++ callsOf ts := by
  rw [callsOf, List.filterMap_cons]
  cases t.call <;> rfl

theorem callsOf_append (ts us : List (Turn κ)) : callsOf (ts ++ us) = callsOf ts ++ callsOf us :=
  List.filterMap_append

theorem left_thrown {k : ℕ → κ} {throws : Throws κ} {s : Reader κ} {t : Turn κ} {ts : List (Turn κ)}
    (h : Place self k s (t :: ts)) (kept : JsString) :
    Left self (piece (parsed (handleThrowing self throws)) (s, kept) t.line.text)
      (t.call.filter (throws s.called)) := by
  have hturned := turned h throws
  rw [piece_line, hturned.taken]
  cases hcall : t.call with
  | none => rfl
  | some c =>
    cases hthrows : throws s.called c with
    | false => simp [Option.filter_some, hthrows, Left, quiet]
    | true =>
      simp only [Option.filter_some, hthrows, if_true, Left, quiet]
      exact ⟨⟨t.line, rfl⟩, hturned.after_call c hcall⟩

theorem offered_in_turn {k : ℕ → κ} (throws : Throws κ) {s : Reader κ} {t : Turn κ} {ts rest : List (Turn κ)}
    (h : Place self k s (t :: ts ++ rest)) (kept : JsString) :
    let st := offered self throws (s, kept) (t :: ts)
    st.1.called = s.called ++ callsOf (t :: ts) ∧ Place self k st.1 rest ∧
      Left self st (thrown throws s.called (t :: ts)) := by
  induction ts generalizing s t kept with
  | nil =>
    have hturned := turned h throws
    refine ⟨?_, ?_, left_thrown h kept⟩
    · rw [callsOf_cons, offered, List.foldl_cons, piece_line, List.foldl_nil, hturned.called]
      simp [callsOf]
    · rw [offered, List.foldl_cons, piece_line]
      exact hturned.place
  | cons u ts ih =>
    have hturned := turned h throws
    obtain ⟨hcalled, hplace, hleft⟩ := ih hturned.place
      (if (handleThrowing self throws s t.line.json).2 then [] else t.line.text)
    have hcons : offered self throws (s, kept) (t :: u :: ts) =
        offered self throws ((handleThrowing self throws s t.line.json).1,
          if (handleThrowing self throws s t.line.json).2 then [] else t.line.text) (u :: ts) := by
      rw [offered, List.foldl_cons, piece_line]
      rfl
    rw [hturned.called] at hcalled hleft
    rw [hcons, callsOf_cons, ← List.append_assoc]
    exact ⟨hcalled, hplace, hleft⟩

end

end GlobalsJs.Globalsd
