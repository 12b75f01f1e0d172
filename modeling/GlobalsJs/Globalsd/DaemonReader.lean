import GlobalsJs.Globalsd.Responder

/-!
# The request reader of one connection

Chunking of a stream of requests does not matter as long as no call of `onRequest` throws. A
failing line does no harm inside a data event; as the last line of one it is kept and spoils the
line that opens the next event. Whether a request fails depends on what was done before it, so
that lines are judged in their turn.
-/

namespace GlobalsJs.Globalsd
open Ecma LineReader Cache Collection

variable {σ ι : Type} {api : Api σ} {c : ι}

def onEvent (api : Api σ) (st : Listening σ ι) (event : ι × JsString) : Listening σ ι :=
  onData api event.1 st event.2

/-- None of the calls of `onRequest` that were made since `s` has thrown. -/
def Unbroken (s t : Server σ ι) : Prop := ∀ call ∈ t.calls.drop s.calls.length, call.completed = true

instance (s t : Server σ ι) : Decidable (Unbroken s t) :=
  inferInstanceAs (Decidable (∀ call ∈ t.calls.drop s.calls.length, call.completed = true))

/-- The handler that takes an exception of `onRequest` for a normal return. -/
def tolerant (api : Api σ) (c : ι) (s : Server σ ι) (o : Json) : Server σ ι × Bool :=
  ((handle api c s o).1, true)

def tolerantly (api : Api σ) (st : Listening σ ι) (event : ι × JsString) : Listening σ ι :=
  feed (parsed (tolerant api event.1)) newline st event.2

theorem calls_grow (s₀ s : Server σ ι) (p : JsString) (h : s₀.calls <+: s.calls) :
    s₀.calls <+: (parsed (handle api c) s p).1.calls := by
  rw [parsed]
  cases Json.parse p with
  | none => exact h
  | some o => exact h.trans (List.prefix_append _ _)

theorem unbroken_step {s₀ s : Server σ ι} {p : JsString} (h : s₀.calls <+: s.calls)
    (hafter : Unbroken s₀ (parsed (handle api c) s p).1) :
    Unbroken s₀ s ∧ parsed (handle api c) s p = parsed (tolerant api c) s p := by
  rw [parsed] at hafter ⊢
  rw [parsed]
  cases hparse : Json.parse p with
  | none =>
    rw [hparse] at hafter
    exact ⟨hafter, rfl⟩
  | some o =>
    rw [hparse] at hafter
    have hcalls : (handle api c s o).1.calls = s.calls ++ [⟨c, o, (handle api c s o).2⟩] := rfl
    have hdrop : (handle api c s o).1.calls.drop s₀.calls.length =
        s.calls.drop s₀.calls.length ++ [⟨c, o, (handle api c s o).2⟩] := by
      rw [hcalls, List.drop_append_of_le_length h.length_le]
    refine ⟨fun call hcall => hafter call ?_, ?_⟩
    · exact hdrop ▸ List.mem_append_left _ hcall
    · have hdone : (handle api c s o).2 = true :=
        hafter ⟨c, o, (handle api c s o).2⟩ (hdrop ▸ by simp)
      exact Prod.ext rfl hdone

theorem unbroken_run {s : Server σ ι} {kept : JsString} {events : List (ι × JsString)}
    (h : Unbroken s (events.foldl (onEvent api) (s, kept)).1) :
    events.foldl (onEvent api) (s, kept) = events.foldl (tolerantly api) (s, kept) := by
  suffices hgen : ∀ (events : List (ι × JsString)) (st : Listening σ ι), s.calls <+: st.1.calls →
      Unbroken s (events.foldl (onEvent api) st).1 →
      Unbroken s st.1 ∧ events.foldl (onEvent api) st = events.foldl (tolerantly api) st from
    (hgen events (s, kept) (List.prefix_refl _) h).2
  intro events
  induction events with
  | nil => exact fun st _ h => ⟨h, rfl⟩
  | cons e events ih =>
    intro st hst hafter
    have hgrow : s.calls <+: (onEvent api st e).1.calls :=
      feed_keeps (fun t p ht => calls_grow s t p ht) hst e.2
    obtain ⟨hnext, hrest⟩ := ih (onEvent api st e) hgrow hafter
    obtain ⟨hbefore, hsame⟩ := feed_same (fun t p ht => calls_grow s t p ht)
      (fun t p ht hgood => unbroken_step ht hgood) hst e.2 hnext
    refine ⟨hbefore, ?_⟩
    have hevent : onEvent api st e = tolerantly api st e := hsame
    rw [List.foldl_cons, List.foldl_cons, ← hevent]
    exact hrest

theorem tolerant_smooth (s : Server σ ι) (ms : List Message) :
    Smooth (parsed (tolerant api c)) s (ms.map Message.text) :=
  smooth_texts fun _ _ _ => rfl

theorem foldl_tolerant_calls (s : Server σ ι) (ms : List Message) :
    ∃ new, (ms.foldl (fun s m => (tolerant api c s m.json).1) s).calls = s.calls ++ new ∧
      new.map (fun call => (call.socket, call.request)) = ms.map fun m => (c, m.json) := by
  induction ms generalizing s with
  | nil => exact ⟨[], by simp⟩
  | cons m ms ih =>
    obtain ⟨new, hcalls, hnew⟩ := ih (tolerant api c s m.json).1
    refine ⟨⟨c, m.json, (handle api c s m.json).2⟩ :: new, ?_, ?_⟩
    · rw [List.foldl_cons, hcalls]
      simp [tolerant, handle]
    · rw [List.map_cons, List.map_cons, hnew]

theorem requests_any_chunking (s : Server σ ι) {ms : List Message} {chunks : List JsString}
    (hcut : chunks.flatten = Message.wire ms)
    (hok : Unbroken s (chunks.foldl (onData api c) (s, [])).1) :
    (chunks.foldl (onData api c) (s, [])).1.calls =
        s.calls ++ ms.map (fun m => ⟨c, m.json, true⟩) ∧
      (chunks.foldl (onData api c) (s, [])).2 = [] := by
  have hevents : ∀ step : Listening σ ι → ι × JsString → Listening σ ι,
      (chunks.map (Prod.mk c)).foldl step (s, []) = chunks.foldl (fun st chunk => step st (c, chunk)) (s, []) :=
    fun step => List.foldl_map
  have hrun : chunks.foldl (onData api c) (s, []) =
      chunks.foldl (feed (parsed (tolerant api c)) newline) (s, []) := by
    have hok' : Unbroken s ((chunks.map (Prod.mk c)).foldl (onEvent api) (s, [])).1 := by
      rw [hevents]
      exact hok
    exact (hevents (onEvent api)).symm.trans ((unbroken_run hok').trans (hevents (tolerantly api)))
  have hfeed : chunks.foldl (feed (parsed (tolerant api c)) newline) (s, []) =
      (run (parsed (tolerant api c)) s (ms.map Message.text), []) :=
    feed_chunks_noBlank hcut (fun l hl => by
      obtain ⟨m, -, rfl⟩ := List.mem_map.mp hl
      exact framed_text m) (tolerant_smooth s ms)
  rw [hrun, hfeed, run_texts] at hok ⊢
  obtain ⟨new, hcalls, hnew⟩ := @foldl_tolerant_calls _ _ api c s ms
  rw [Unbroken, hcalls, List.drop_left] at hok
  refine ⟨?_, rfl⟩
  have hdone : new = (new.map fun call => (call.socket, call.request)).map fun x => ⟨x.1, x.2, true⟩ := by
    rw [List.map_map]
    refine (List.map_id new).symm.trans (List.map_congr_left fun call hcall => ?_)
    rw [id, Function.comp_apply, ← hok call hcall]
  rw [hcalls, hdone, hnew, List.map_map]
  rfl

def toPeople (op : JsString) (param : Json) (h : param.WF) : Message where
  props := [(js "header", .obj [(js "id", .ofInt 1), (js "name", .str (js "shell")), (js "ts", .str [])]),
    (js "data", Request.data ⟨op, Collection.people.name, [some param]⟩)]
  wf := by
    simp only [Json.WF, Json.WFProps, Json.WFElems, Json.wf_ofInt, keys, and_true, List.map_cons,
      List.map_nil, Request.data, Option.getD_some, h]
    decide

theorem wf_ann (age : ℤ) : (Json.obj (ann age)).WF := by
  simp only [ann, Json.WF, Json.WFProps, Json.wf_ofInt, keys, and_true, List.map_cons, List.map_nil]
  decide

def saveAnn : Message := toPeople (js "save") (.obj (ann 30)) (wf_ann 30)

def findAnn : Message := toPeople (js "find") (.obj (ann 30)) (wf_ann 30)

theorem requests_any_chunking_people :
    let s : Server Disk Unit := ⟨⟨residents, [], []⟩, []⟩
    let chunks := [findAnn.text.take 9, findAnn.text.drop 9, newline :: findAnn.text ++ [newline]]
    (chunks.foldl (onData peopleApi ()) (s, [])).1.calls =
      [⟨(), findAnn.json, true⟩, ⟨(), findAnn.json, true⟩] := by
  intro s chunks
  have hcut : chunks.flatten = Message.wire [findAnn, findAnn] := by
    simp [chunks, ← List.append_assoc]
  exact (requests_any_chunking s hcut (by decide +kernel)).1

/-- The server after each line has been handled on its own. -/
def oneByOne (api : Api σ) (c : ι) (s : Server σ ι) (lines : List JsString) : Server σ ι :=
  lines.foldl (fun s l => if l = [] then s else (parsed (handle api c) s l).1) s

/-- The requests of the lines that are handled without an exception, each in its turn. -/
def completing (api : Api σ) (c : ι) : Server σ ι → List JsString → List Json
  | _, [] => []
  | s, l :: ls =>
    let after := parsed (handle api c) s l
    (if after.2 then (Json.parse l).toList else []) ++ completing api c after.1 ls

/-- The last line of the event that is not empty is handled without an exception in its turn. -/
def EndsWell (api : Api σ) (c : ι) (s : Server σ ι) (lines : List JsString) : Prop :=
  ∀ l ∈ (lines.filter (· ≠ [])).getLast?,
    (parsed (handle api c) (oneByOne api c s (lines.filter (· ≠ [])).dropLast) l).2 = true

theorem foldl_piece_fst (api : Api σ) (c : ι) (st : Listening σ ι) (lines : List JsString) :
    (lines.foldl (piece (parsed (handle api c))) st).1 = oneByOne api c st.1 lines := by
  induction lines generalizing st with
  | nil => rfl
  | cons l lines ih =>
    rw [List.foldl_cons, ih, oneByOne, oneByOne, List.foldl_cons]
    by_cases hl : l = [] <;> simp [piece, hl]

theorem foldl_piece_filter (st : Listening σ ι) (lines : List JsString) :
    (lines.filter (· ≠ [])).foldl (piece (parsed (handle api c))) st =
      lines.foldl (piece (parsed (handle api c))) st := by
  induction lines generalizing st with
  | nil => rfl
  | cons l lines ih =>
    by_cases hl : l = []
    · simpa [hl] using ih st
    · simpa [hl] using ih _

theorem EndsWell.nothing_kept {s : Server σ ι} {lines : List JsString} (h : EndsWell api c s lines) :
    (lines.foldl (piece (parsed (handle api c))) (s, [])).2 = [] := by
  rw [← foldl_piece_filter]
  rcases List.eq_nil_or_concat' (lines.filter (· ≠ [])) with hnil | ⟨init, l, hl⟩
  · rw [hnil]
    rfl
  · have hmem : l ∈ lines.filter (· ≠ []) := by
      rw [hl]
      simp
    have hne : l ≠ [] := by simpa using (List.mem_filter.mp hmem).2
    have hok := h l (by rw [hl]; simp)
    rw [hl, List.dropLast_concat] at hok
    have hinit := foldl_piece_fst api c (s, []) init
    rw [hl, List.foldl_concat, ← Prod.mk.eta (p := init.foldl _ _), hinit, piece_accepted _ hne hok]

theorem onData_lines (api : Api σ) (c : ι) (s : Server σ ι) {lines : List JsString} (h : ∀ l ∈ lines, newline ∉ l) :
    onData api c (s, []) (wire newline lines) =
      lines.foldl (piece (parsed (handle api c))) (s, []) := feed_wire s h

theorem oneByOne_append (s : Server σ ι) (xs ys : List JsString) :
    oneByOne api c s (xs ++ ys) = oneByOne api c (oneByOne api c s xs) ys := by
  rw [oneByOne, List.foldl_append]
  rfl

theorem events_oneByOne (s : Server σ ι) {events : List (List JsString)}
    (hlines : ∀ e ∈ events, ∀ l ∈ e, newline ∉ l)
    (hends : ∀ before e after, events = before ++ e :: after → after ≠ [] →
      EndsWell api c (oneByOne api c s before.flatten) e) :
    ((events.map (wire newline)).foldl (onData api c) (s, [])).1 =
      oneByOne api c s events.flatten := by
  induction events generalizing s with
  | nil => rfl
  | cons e events ih =>
    have hfirst := onData_lines api c s (hlines e List.mem_cons_self)
    have hstate := foldl_piece_fst api c (s, []) e
    rw [List.map_cons, List.foldl_cons, hfirst, List.flatten_cons, oneByOne_append]
    by_cases hlast : events = []
    · subst hlast
      exact hstate
    · have hkept := (hends [] e events rfl hlast).nothing_kept
      have hevent : e.foldl (piece (parsed (handle api c))) (s, []) = (oneByOne api c s e, []) :=
        Prod.ext hstate hkept
      rw [hevent]
      refine ih _ (fun x hx => hlines x (List.mem_cons_of_mem e hx)) fun before x after hsplit hafter => ?_
      have h := hends (e :: before) x after (by rw [hsplit]; rfl) hafter
      rwa [List.flatten_cons, oneByOne_append] at h

/-- The requests that were handled without an exception, in order. -/
def answered (s : Server σ ι) : List Json := (s.calls.filter (·.completed)).map (·.request)

theorem answered_line (s : Server σ ι) (l : JsString) :
    answered (parsed (handle api c) s l).1 =
      answered s ++ if (parsed (handle api c) s l).2 then (Json.parse l).toList else [] := by
  rw [parsed]
  cases hparse : Json.parse l with
  | none => simp
  | some o =>
    have hcalls : (handle api c s o).1.calls = s.calls ++ [⟨c, o, (handle api c s o).2⟩] := rfl
    simp only [answered, hcalls, List.filter_append, List.map_append]
    cases (handle api c s o).2 <;> simp

theorem answered_oneByOne (s : Server σ ι) (lines : List JsString) :
    answered (oneByOne api c s lines) = answered s ++ completing api c s lines := by
  induction lines generalizing s with
  | nil => simp [oneByOne, completing]
  | cons l lines ih =>
    have hline : (if l = [] then s else (parsed (handle api c) s l).1) = (parsed (handle api c) s l).1 := by
      by_cases hl : l = []
      · subst hl
        rfl
      · rw [if_neg hl]
    have hrest := ih (parsed (handle api c) s l).1
    rw [answered_line, List.append_assoc] at hrest
    rw [oneByOne, List.foldl_cons, hline]
    exact hrest

/-- When every event but the last ends well, each line is handled as if it had come alone: the
requests that are handled without an exception are those of the lines that complete in their
turn, each once and in order. -/
theorem failing_lines_isolated (s : Server σ ι) {events : List (List JsString)}
    (hlines : ∀ e ∈ events, ∀ l ∈ e, newline ∉ l)
    (hends : ∀ before e after, events = before ++ e :: after → after ≠ [] →
      EndsWell api c (oneByOne api c s before.flatten) e) :
    ((events.map (wire newline)).foldl (onData api c) (s, [])).1 =
        oneByOne api c s events.flatten ∧
      answered ((events.map (wire newline)).foldl (onData api c) (s, [])).1 =
        answered s ++ completing api c s events.flatten := by
  have hstate := events_oneByOne s hlines hends
  refine ⟨hstate, ?_⟩
  rw [hstate, answered_oneByOne]

theorem failing_lines_isolated_people :
    let s : Server Disk Unit := ⟨⟨Disk.empty, [], []⟩, []⟩
    let events := [[js "x", saveAnn.text, findAnn.text], [findAnn.text]]
    answered ((events.map (wire newline)).foldl (onData peopleApi ()) (s, [])).1 =
      [findAnn.json, findAnn.json] := by
  intro s events
  have hlines : ∀ e ∈ events, ∀ l ∈ e, newline ∉ l := by
    simp only [events, List.forall_mem_cons, List.not_mem_nil, false_imp_iff, implies_true, and_true]
    exact ⟨⟨by decide, Json.newline_notMem_stringify _, Json.newline_notMem_stringify _⟩,
      Json.newline_notMem_stringify _⟩
  refine (failing_lines_isolated s hlines fun before e after hsplit hafter => ?_).2.trans ?_
  · have lastLine : ([js "x", saveAnn.text, findAnn.text].filter (· ≠ [])).getLast? = some findAnn.text := by
      decide +kernel
    -- only the first event has another one after it
    have hlen := congrArg List.length hsplit
    have hpos := List.length_pos_of_ne_nil hafter
    simp only [events, List.length_cons, List.length_nil, List.length_append] at hlen
    obtain rfl : before = [] := List.length_eq_zero_iff.mp (by omega)
    obtain ⟨rfl, -⟩ := List.cons.inj hsplit
    intro l hl
    obtain rfl : findAnn.text = l := Option.some.inj (lastLine.symm.trans hl)
    decide +kernel
  · decide +kernel

theorem failing_line_spoils_next :
    let s : Server Disk Unit := ⟨⟨residents, [], []⟩, []⟩
    let events := [[js "x"], [findAnn.text]]
    completing peopleApi () s [js "x"] = [] ∧ completing peopleApi () s [findAnn.text] = [findAnn.json] ∧
      answered ((events.map (wire newline)).foldl (onData peopleApi ()) (s, [])).1 = [] := by
  decide +kernel

def directoryApi : Api Unit where
  db op := if op = js "global_directory" then
      some fun s _ => (s, .ok (.json (.obj [(js "1", .str (js "foo"))])))
    else none
  collection _ := none

def idle : Server Unit ι := ⟨⟨(), [], []⟩, []⟩

def directoryRequest (id : ℕ) (name : JsString) : Message where
  props := [(js "header", .obj [(js "id", .ofInt id), (js "name", .str name)]),
    (js "data", .obj [(js "op", .str (js "global_directory")), (js "params", .arr [])])]
  wf := by
    simp only [Json.WF, Json.WFProps, Json.WFElems, Json.wf_ofInt, keys, and_true, List.map_cons,
      List.map_nil]
    decide

end GlobalsJs.Globalsd
