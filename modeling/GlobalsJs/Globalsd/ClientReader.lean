import GlobalsJs.Globalsd.Client

/-!
# Responses reach their callbacks

A response is an acknowledgement line and as many object lines as it announces.
Whatever the cut of the stream, the client calls the callback of each request with
exactly the objects of its response, in the order of the responses. The five shared
variables matter within a response only: the next acknowledgement sets them anew.
-/

namespace GlobalsJs.Globalsd
open Ecma LineReader

/-- What the daemon writes for one request. -/
structure Response where
  id : ℕ
  header : Line
  objects : List Line
  acknowledges : ∃ ack, get header.props ackProp = some (.obj ack) ∧
    get ack (js "id") = some (.ofInt id) ∧
    get ack (js "result_count") = some (.ofInt objects.length)
  plain : ∀ o ∈ objects, get o.props ackProp = none

def Response.lines (r : Response) : List Line := r.header :: r.objects

variable {κ : Type}

/-- The calls that a response is for. -/
def Response.answer (r : Response) (mode : ResultMode) (callback : κ) : List (Invocation κ) :=
  if r.objects = [] then [⟨callback, emptyInfo, .arr []⟩]
  else
    match mode with
    | .batch => [⟨callback, .obj [], .arr (r.objects.map Line.json)⟩]
    | .stream => r.objects.map fun o => ⟨callback, .obj [], o.json⟩

/-- A response to the request `id` is for `callback`. -/
def Client.Outstanding (self : Client κ) (id : ℕ) (callback : κ) : Prop :=
  self.dataCallbacks.lookup (natText id) = some callback

theorem lookup_assign (k l : JsString) (v : κ) (ps : List (JsString × κ)) :
    (assign k v ps).lookup l = if l = k then some v else ps.lookup l := by
  induction ps with
  | nil => by_cases h : l = k <;> simp [assign, h, List.lookup_cons, beq_false_of_ne]
  | cons p ps ih =>
    obtain ⟨m, w⟩ := p
    by_cases hm : m = k
    · subst hm
      by_cases hl : l = m <;> simp [assign, hl, List.lookup_cons, beq_false_of_ne]
    · by_cases hl : l = m
      · simp [assign, hm, hl]
      · simp [assign, hm, List.lookup_cons, beq_false_of_ne hl, ih]

theorem send_outstanding (self : Client κ) (ts : JsString) (data : Json) (callback : κ) (id : ℕ)
    (c : κ) : (self.send ts data (some callback)).1.Outstanding id c ↔
      if id = self.nextId then c = callback else self.Outstanding id c := by
  simp only [Client.Outstanding, Client.send, Option.getD_some, lookup_assign, natText_inj]
  split_ifs
  · rw [Option.some_inj, eq_comm]
  · rfl

theorem countEq_ofInt (n m : ℕ) : countEq n (some (.ofInt m)) = decide (n = m) := by
  simp [countEq, prim_ofInt, looseEq, Prim.toNumber, JsNumber.eq, Decimal.scaled]

theorem isZeroCount_ofInt (m : ℕ) : isZeroCount (some (.ofInt m)) = decide (m = 0) :=
  isZero_ofInt_nat m

theorem textOf_ofInt (n : ℕ) : textOf (some (.ofInt n)) = natText n := rfl

theorem isACKObject_obj (ps : Props) : isACKObject (.obj ps) = .ok (get ps ackProp).isSome := rfl

theorem isACKObject_line {l : Line} (hplain : get l.props ackProp = none) : isACKObject l.json = .ok false := by
  rw [Line.json, isACKObject_obj, hplain]
  rfl

section
variable {self : Client κ} {callback : κ} {id : ℕ}

theorem run_callBack {s : Reader κ} (info data : Json)
    (hout : self.Outstanding id callback)
    (hid : s.current_result_msg_id = some (.ofInt id)) :
    (callBack self info data).run.run s =
      (.ok (), { s with called := s.called ++ [⟨callback, info, data⟩] }) := by
  unfold Client.Outstanding at hout
  simp only [callBack, run_bind, run_get, hid, textOf_ofInt, hout, run_set]

theorem handleObject_ack {ps ack : Props} {n : ℕ} (s : Reader κ)
    (hout : self.Outstanding id callback)
    (hack : get ps ackProp = some (.obj ack)) (hid : get ack (js "id") = some (.ofInt id))
    (hcount : get ack (js "result_count") = some (.ofInt n)) :
    handleObject self s (.obj ps) =
      (⟨0, some (.ofInt n), some (.ofInt id), [],
        s.called ++ if n = 0 then [⟨callback, emptyInfo, .arr []⟩] else []⟩, true) := by
  unfold handleObject onObject
  simp only [run_bind, isACKObject_obj, hack, Option.isSome_some, run_lift, if_true, member,
    hcount, hid, run_modify, isZeroCount_ofInt, decide_eq_true_eq]
  split_ifs with hn
  · simp only [run_bind, run_callBack emptyInfo (.arr []) hout, run_modify, finished]
  · simp only [run_modify, finished, List.append_nil]

theorem handleObject_stream {v : Json} {s : Reader κ} (hmode : self.resultMode = .stream)
    (hout : self.Outstanding id callback)
    (hid : s.current_result_msg_id = some (.ofInt id)) (hv : isACKObject v = .ok false) :
    handleObject self s v =
      ({ s with
          batch_result_counter := s.batch_result_counter + 1
          called := s.called ++ [⟨callback, .obj [], v⟩] }, true) := by
  unfold handleObject onObject
  simp only [run_bind, hv, run_lift, hmode]
  rw [if_neg (by decide)]
  simp only [run_bind, run_modify, run_callBack _ _ hout, hid, finished]

theorem handleObject_batch {v : Json} {s : Reader κ} {n : ℕ} (hmode : self.resultMode = .batch)
    (hout : self.Outstanding id callback)
    (hid : s.current_result_msg_id = some (.ofInt id))
    (hsize : s.batch_result_size = some (.ofInt n)) (hv : isACKObject v = .ok false) :
    handleObject self s v =
      ({ s with
          batch_result_counter := s.batch_result_counter + 1
          batch := s.batch ++ [v]
          called := s.called ++ if s.batch_result_counter + 1 = n then
            [⟨callback, .obj [], .arr (s.batch ++ [v])⟩] else [] }, true) := by
  unfold handleObject onObject
  simp only [run_bind, hv, run_lift, hmode]
  rw [if_neg (by decide)]
  simp only [run_bind, run_modify, run_get, hsize, countEq_ofInt, decide_eq_true_eq]
  split_ifs with hn
  · simp only [run_callBack _ _ hout, hid, finished]
  · simp only [run_pure, finished, List.append_nil]

theorem accepts_stream (s : Reader κ) {vs : List Json} (hmode : self.resultMode = .stream)
    (hout : self.Outstanding id callback)
    (hid : s.current_result_msg_id = some (.ofInt id))
    (hplain : ∀ v ∈ vs, isACKObject v = .ok false) :
    ∃ t, Accepts (handleObject self) s vs t ∧
      t.called = s.called ++ vs.map fun v => ⟨callback, .obj [], v⟩ := by
  induction vs generalizing s with
  | nil => exact ⟨s, .nil s, by simp⟩
  | cons v vs ih =>
    have hstep := handleObject_stream hmode hout hid (hplain v List.mem_cons_self)
    obtain ⟨t, hrest, hcalled⟩ := ih (handleObject self s v).1
      (by rw [hstep]; exact hid) fun w hw => hplain w (List.mem_cons_of_mem v hw)
    refine ⟨t, .cons (by rw [hstep]) hrest, ?_⟩
    rw [hcalled, hstep]
    simp

theorem accepts_batch (s : Reader κ) {n : ℕ} {done todo : List Json}
    (hmode : self.resultMode = .batch)
    (hout : self.Outstanding id callback)
    (hid : s.current_result_msg_id = some (.ofInt id))
    (hsize : s.batch_result_size = some (.ofInt n)) (hn : n = done.length + todo.length)
    (hcounter : s.batch_result_counter = done.length) (hbatch : s.batch = done)
    (hplain : ∀ v ∈ todo, isACKObject v = .ok false) :
    ∃ t, Accepts (handleObject self) s todo t ∧
      t.called = s.called ++ if todo = [] then [] else [⟨callback, .obj [], .arr (done ++ todo)⟩] := by
  induction todo generalizing s done with
  | nil => exact ⟨s, .nil s, by simp⟩
  | cons v todo ih =>
    rw [List.length_cons] at hn
    have hstep := handleObject_batch hmode hout hid hsize (hplain v List.mem_cons_self)
    have hlast : s.batch_result_counter + 1 = n ↔ todo = [] := by
      rw [← List.length_eq_zero_iff]
      omega
    obtain ⟨t, hrest, hcalled⟩ := @ih (handleObject self s v).1 (done ++ [v])
      (by rw [hstep]; exact hid) (by rw [hstep]; exact hsize)
      (by rw [hn, List.length_append, List.length_singleton]; omega)
      (by rw [hstep, List.length_append, List.length_singleton, ← hcounter])
      (by rw [hstep, ← hbatch])
      fun w hw => hplain w (List.mem_cons_of_mem v hw)
    refine ⟨t, .cons (by rw [hstep]) hrest, ?_⟩
    rw [hcalled, hstep, if_neg (List.cons_ne_nil v todo)]
    by_cases htodo : todo = []
    · simp [hlast.mpr htodo, htodo, hbatch]
    · simp [mt hlast.mp htodo, htodo]

theorem accepts_answer (s : Reader κ) {ps ack : Props} {vs : List Json}
    (hout : self.Outstanding id callback) (hack : get ps ackProp = some (.obj ack))
    (hid : get ack (js "id") = some (.ofInt id))
    (hcount : get ack (js "result_count") = some (.ofInt vs.length))
    (hplain : ∀ v ∈ vs, isACKObject v = .ok false) :
    ∃ t, Accepts (handleObject self) s (.obj ps :: vs) t ∧ t.called = s.called ++
      if vs = [] then [⟨callback, emptyInfo, .arr []⟩]
      else match self.resultMode with
        | .batch => [⟨callback, .obj [], .arr vs⟩]
        | .stream => vs.map fun v => ⟨callback, .obj [], v⟩ := by
  have hstep := handleObject_ack s hout hack hid hcount
  by_cases hnil : vs = []
  · subst hnil
    exact ⟨_, .cons hstep (.nil _), rfl⟩
  rw [if_neg (by simpa using hnil), List.append_nil] at hstep
  cases hmode : self.resultMode with
  | stream =>
    obtain ⟨t, hrest, hcalled⟩ := accepts_stream
      ⟨0, some (.ofInt vs.length), some (.ofInt id), [], s.called⟩ hmode hout rfl hplain
    exact ⟨t, .cons hstep hrest, by rw [hcalled, if_neg hnil]⟩
  | batch =>
    obtain ⟨t, hrest, hcalled⟩ := accepts_batch
      ⟨0, some (.ofInt vs.length), some (.ofInt id), [], s.called⟩
      hmode hout rfl rfl (Nat.zero_add _).symm rfl rfl hplain
    exact ⟨t, .cons hstep hrest, by rw [hcalled, if_neg hnil, if_neg hnil, List.nil_append]⟩

theorem handles_response {r : Response} (s : Reader κ)
    (hout : self.Outstanding r.id callback) :
    ∃ t, Handles (handleObject self) s r.lines t ∧
      t.called = s.called ++ r.answer self.resultMode callback := by
  obtain ⟨ack, hack, hid, hcount⟩ := r.acknowledges
  obtain ⟨t, ht, hcalled⟩ := @accepts_answer _ _ _ _ s _ _ (r.objects.map Line.json) hout hack hid
    (by rw [List.length_map]; exact hcount)
    (List.forall_mem_map.mpr fun o ho => isACKObject_line (r.plain o ho))
  refine ⟨t, Accepts.handles ht, ?_⟩
  rw [hcalled]
  simp only [List.map_eq_nil_iff, List.map_map]
  rfl

theorem handles_responses {k : ℕ → κ} {rs : List Response} (s : Reader κ)
    (hout : ∀ r ∈ rs, self.Outstanding r.id (k r.id)) :
    ∃ t, Handles (handleObject self) s (rs.flatMap Response.lines) t ∧
      t.called = s.called ++ rs.flatMap fun r => r.answer self.resultMode (k r.id) := by
  induction rs generalizing s with
  | nil => exact ⟨s, .nil s, by simp⟩
  | cons r rs ih =>
    obtain ⟨t, hr, htcalled⟩ := handles_response s (hout r List.mem_cons_self)
    obtain ⟨u, hrs, hucalled⟩ := ih t fun r' hr' => hout r' (List.mem_cons_of_mem r hr')
    exact ⟨u, hr.append hrs, by rw [hucalled, htcalled]; simp⟩

theorem responses_any_chunking {self : Client κ} {k : ℕ → κ} {rs : List Response}
    {chunks : List JsString} (hcut : chunks.flatten = Line.wire (rs.flatMap Response.lines))
    (hout : ∀ r ∈ rs, self.Outstanding r.id (k r.id)) (s : Reader κ) :
    (chunks.foldl self.onData (s, [])).1.called =
      s.called ++ rs.flatMap fun r => r.answer self.resultMode (k r.id) := by
  obtain ⟨t, hhandles, hcalled⟩ := handles_responses s hout
  have hrun := hhandles.chunks hcut
  rw [← hcalled, ← hrun]
  rfl

end

def asking (mode : ResultMode) : Client Bool :=
  let client : Client Bool :=
    ⟨.ofInt 11115, .str (js "localhost"), .str (js "shell"), mode, 0, [], false⟩
  (client.send [] (.obj []) (some true)).1

def acknowledgement : Message where
  props := [(ackProp, .obj [(js "id", .ofInt 0), (js "result_count", .ofInt 1)])]
  wf := by
    simp only [Json.WF, Json.WFProps, Json.wf_ofInt, keys, and_true, List.map_cons, List.map_nil]
    decide

def person : Message where
  props := [(js "name", .str (js "a"))]
  wf := by
    simp only [Json.WF, Json.WFProps, keys, and_true, List.map_cons, List.map_nil]
    decide

def people : Response where
  id := 0
  header := acknowledgement.line
  objects := [person.line]
  acknowledges := ⟨_, rfl, rfl, rfl⟩
  plain := by simp [person, Message.line, get_cons]; decide

theorem responses_any_chunking_people :
    let text := Line.wire people.lines
    ([text.take 9, text.drop 9].foldl (asking .batch).onData (Reader.initial, [])).1.called =
        [⟨true, .obj [], .arr [person.json]⟩] ∧
      ([text.take 9, text.drop 9].foldl (asking .stream).onData (Reader.initial, [])).1.called =
        [⟨true, .obj [], person.json⟩] := by
  intro text
  have hcut : [text.take 9, text.drop 9].flatten =
      Line.wire ([people].flatMap Response.lines) := by
    simp [text]
  have hout : ∀ mode, ∀ r ∈ [people], (asking mode).Outstanding r.id true := by
    intro mode r hr
    obtain rfl := List.mem_singleton.mp hr
    have hid : people.id = 0 := rfl
    exact (send_outstanding _ _ _ _ _ _).mpr ((if_pos hid).mpr rfl)
  exact ⟨responses_any_chunking (k := fun _ => true) hcut (hout .batch) Reader.initial,
    responses_any_chunking (k := fun _ => true) hcut (hout .stream) Reader.initial⟩

end GlobalsJs.Globalsd
