import Mathlib.Algebra.Order.BigOperators.Group.List
import GlobalsJs.Globalsd.Rejections
import GlobalsJs.Globalsd.Throwing

/-!
# What a throwing callback costs

When an event ends with the line of a callback that throws, the next event's first line is lost.
Then there are fewer calls than there should be, or a call goes to another callback; unless the
line was a header in stream mode, and the callback it names is the one that is called anyway.
-/

namespace GlobalsJs.Globalsd
open Ecma LineReader

section
variable {κ : Type} {self : Client κ} {callback : κ}

/-- The data event with these lines. -/
def event (ts : List (Turn κ)) : JsString := Line.wire (ts.map Turn.line)

def ran (self : Client κ) (throws : Throws κ) (s : Reader κ) (ts : List (Turn κ)) : Reader κ :=
  ts.foldl (fun s t => (handleThrowing self throws s t.line.json).1) s

def Whole (kept : JsString) : Prop := ∃ (l : Line) (x : JsString), kept = l.text ++ x

theorem offered_fst (throws : Throws κ) (st : Reader κ × JsString) (ts : List (Turn κ)) :
    (offered self throws st ts).1 = ran self throws st.1 ts := by
  induction ts generalizing st with
  | nil => rfl
  | cons t ts ih =>
    rw [offered, List.foldl_cons, piece_line]
    exact ih _

theorem offered_kept (throws : Throws κ) {st : Reader κ × JsString} (h : st.2 = [] ∨ Whole st.2)
    (ts : List (Turn κ)) :
    (offered self throws st ts).2 = [] ∨ Whole (offered self throws st ts).2 := by
  induction ts generalizing st with
  | nil => exact h
  | cons t ts ih =>
    rw [offered, List.foldl_cons, piece_line]
    refine ih ?_
    dsimp only
    split_ifs
    · exact .inl rfl
    · exact .inr ⟨t.line, [], (List.append_nil _).symm⟩

theorem onDataThrowing_event (throws : Throws κ) (s : Reader κ) (kept : JsString) (t : Turn κ)
    (ts : List (Turn κ)) :
    self.onDataThrowing throws (s, kept) (event (t :: ts)) = offered self throws
      (piece (parsed (handleThrowing self throws)) (s, kept) (kept ++ t.line.text)) ts := by
  have hlines : ∀ m ∈ (ts.map Turn.line).map Line.text, newline ∉ m := by
    rw [List.map_map]
    exact List.forall_mem_map.mpr fun u _ => u.line.one_line
  rw [Client.onDataThrowing, event, Line.wire, List.map_cons, List.map_cons,
    feed_wire_kept s kept t.line.one_line hlines, List.map_map, List.foldl_map]
  rfl

theorem onDataThrowing_first (throws : Throws κ) (s : Reader κ) (t : Turn κ) (ts : List (Turn κ)) :
    self.onDataThrowing throws (s, []) (event (t :: ts)) = offered self throws (s, []) (t :: ts) :=
  onDataThrowing_event throws s [] t ts

theorem onDataThrowing_lost (throws : Throws κ) (s : Reader κ) {kept : JsString} (hkept : Whole kept) (t : Turn κ)
    (ts : List (Turn κ)) :
    self.onDataThrowing throws (s, kept) (event (t :: ts)) =
      offered self throws (s, kept ++ t.line.text) ts := by
  obtain ⟨l, x, rfl⟩ := hkept
  have hno : parsed (handleThrowing self throws) s (l.text ++ x ++ t.line.text) = (s, false) := by
    rw [parsed, parse_glued]
  have hne : l.text ++ x ++ t.line.text ≠ [] := by simp [t.line.text_ne_nil]
  rw [onDataThrowing_event, piece_refused _ hne hno]

theorem Whole.append {kept : JsString} (h : Whole kept) (x : JsString) : Whole (kept ++ x) := by
  obtain ⟨l, y, rfl⟩ := h
  exact ⟨l, y ++ x, List.append_assoc _ _ _⟩

theorem events_ran (throws : Throws κ) {es : List (List (Turn κ))} (hne : ∀ e ∈ es, e ≠ [])
    {st : Reader κ × JsString} (hkept : st.2 = [] ∨ Whole st.2) :
    ∃ ms, ms.Sublist es.flatten ∧
      ((es.map event).foldl (self.onDataThrowing throws) st).1 = ran self throws st.1 ms := by
  induction es generalizing st with
  | nil => exact ⟨[], .refl _, rfl⟩
  | cons e es ih =>
    obtain ⟨s, kept⟩ := st
    obtain ⟨t, ts, rfl⟩ := List.exists_cons_of_ne_nil (hne e List.mem_cons_self)
    have hrest := fun e' he' => hne e' (List.mem_cons_of_mem _ he')
    obtain ⟨us, st, hus, hstep, hstate, hkept'⟩ : ∃ us st, List.Sublist us (t :: ts) ∧
        self.onDataThrowing throws (s, kept) (event (t :: ts)) = st ∧ st.1 = ran self throws s us ∧
        (st.2 = [] ∨ Whole st.2) := by
      rcases hkept with rfl | hkept
      · exact ⟨t :: ts, _, .refl _, onDataThrowing_first throws s t ts, offered_fst throws _ _,
          offered_kept throws (.inl rfl) _⟩
      · exact ⟨ts, _, List.sublist_cons_self t ts, onDataThrowing_lost throws s hkept t ts, offered_fst throws _ _,
          offered_kept throws (.inr (hkept.append _)) _⟩
    obtain ⟨ms, hms, hrun⟩ := ih hrest hkept'
    refine ⟨us ++ ms, hus.append hms, ?_⟩
    rw [List.map_cons, List.foldl_cons, hstep, hrun, hstate]
    exact List.foldl_append.symm

theorem events_ran_lost (throws : Throws κ) {t : Turn κ} {e : List (Turn κ)} {es : List (List (Turn κ))}
    (hne : ∀ e ∈ es, e ≠ []) (s : Reader κ) {kept : JsString} (hkept : Whole kept) :
    ∃ ms, ms.Sublist es.flatten ∧
      ((((t :: e) :: es).map event).foldl (self.onDataThrowing throws) (s, kept)).1 =
        ran self throws s (e ++ ms) := by
  have hkept' : (offered self throws (s, kept ++ t.line.text) e).2 = [] ∨
      Whole (offered self throws (s, kept ++ t.line.text) e).2 :=
    offered_kept throws (.inr (hkept.append t.line.text)) e
  obtain ⟨ms, hms, hrun⟩ := events_ran throws hne hkept'
  refine ⟨ms, hms, ?_⟩
  rw [List.map_cons, List.foldl_cons, onDataThrowing_lost throws s hkept, hrun, offered_fst]
  exact List.foldl_append.symm

def Turn.weight (mode : ResultMode) (t : Turn κ) : ℕ :=
  match mode with
  | .stream => t.call.toList.length
  | .batch => if (get t.line.props ackProp).isSome then 1 else 0

theorem weight_stream (t : Turn κ) : t.weight .stream = t.call.toList.length := rfl

theorem weight_batch (t : Turn κ) :
    t.weight .batch = if (get t.line.props ackProp).isSome then 1 else 0 := rfl

def Due (self : Client κ) (s : Reader κ) (p : ℕ) : Prop :=
  self.resultMode = .batch →
    ∃ n : ℕ, s.batch_result_size = some (.ofInt n) ∧ (s.batch_result_counter < n → 1 ≤ p)

inductive Known (self : Client κ) (k : ℕ → κ) : Turn κ → Prop
  | header (r : Response) : self.Outstanding r.id (k r.id) →
      Known self k ⟨r.header, if r.objects = [] then some ⟨k r.id, emptyInfo, .arr []⟩ else none⟩
  | object {t : Turn κ} : get t.line.props ackProp = none → (self.resultMode = .stream → t.call.isSome) →
      Known self k t

theorem known_objectTurns {k : ℕ → κ} {done : List Json} {os : List Line}
    (hplain : ∀ l ∈ os, get l.props ackProp = none) :
    ∀ t ∈ objectTurns self.resultMode callback done os, Known self k t := by
  induction os generalizing done with
  | nil => exact fun t ht => absurd ht List.not_mem_nil
  | cons o os ih =>
    rw [objectTurns]
    refine List.forall_mem_cons.mpr ⟨.object (hplain o List.mem_cons_self) fun hmode => ?_,
      ih fun l hl => hplain l (List.mem_cons_of_mem o hl)⟩
    rw [hmode]
    rfl

theorem known_turns {k : ℕ → κ} {rs : List Response} (hout : ∀ r ∈ rs, self.Outstanding r.id (k r.id)) :
    ∀ t ∈ self.turns k rs, Known self k t := by
  intro t ht
  obtain ⟨r, hr, ht⟩ := List.mem_flatMap.mp ht
  rcases List.mem_cons.mp ht with rfl | ht
  · exact .header r (hout r hr)
  · exact known_objectTurns r.plain t ht

theorem Place.known {k : ℕ → κ} {s : Reader κ} {ts : List (Turn κ)} (h : Place self k s ts) :
    ∀ t ∈ ts, Known self k t := by
  cases h with
  | between rs hout => exact known_turns hout
  | within rs hout _ hplain _ =>
    exact List.forall_mem_append.mpr ⟨known_objectTurns hplain, known_turns hout⟩

theorem object_length (throws : Throws κ) (s : Reader κ) {v : Json} (hv : isACKObject v = .ok false) :
    let s' := (handleThrowing self throws s v).1
    (self.resultMode = .stream → s'.called.length ≤ s.called.length + 1) ∧
      ∀ n : ℕ, self.resultMode = .batch → s.batch_result_size = some (.ofInt n) →
        s'.batch_result_size = some (.ofInt n) ∧ s'.batch_result_counter = s.batch_result_counter + 1 ∧
        s'.called.length ≤ s.called.length + if s.batch_result_counter + 1 = n then 1 else 0 := by
  cases hcur : self.current s with
  | some callback =>
    refine ⟨fun hmode => ?_, fun n hmode hsize => ?_⟩
    · rw [handleThrowing_stream throws hmode hcur hv]
      simp
    · rw [handleThrowing_batch throws hmode hcur hsize hv]
      refine ⟨hsize, rfl, ?_⟩
      split_ifs <;> simp
  | none =>
    have hgone : ∀ s' : Reader κ, s'.current_result_msg_id = s.current_result_msg_id →
        self.current s' = none := fun s' hs' => by rw [Client.current, hs']; exact hcur
    refine ⟨fun hmode => ?_, fun n hmode hsize => ?_⟩
    · unfold handleThrowing onObjectWith
      simp only [run_bind, hv, run_lift, hmode]
      rw [if_neg (by decide)]
      simp only [run_bind, run_modify, run_callThrowing_none, hgone]
      exact Nat.le_succ _
    · unfold handleThrowing onObjectWith
      simp only [run_bind, hv, run_lift, hmode]
      rw [if_neg (by decide)]
      simp only [run_bind, run_modify, run_get, hsize, countEq_ofInt, decide_eq_true_eq]
      split_ifs
      · simp only [run_callThrowing_none, hgone]
        exact ⟨trivial, trivial, Nat.le_succ _⟩
      · exact ⟨rfl, rfl, le_rfl⟩

theorem due_step {k : ℕ → κ} (throws : Throws κ) {s : Reader κ} {p : ℕ} (hdue : Due self s p) {t : Turn κ}
    (ht : Known self k t) :
    ∃ p', Due self (handleThrowing self throws s t.line.json).1 p' ∧
      (handleThrowing self throws s t.line.json).1.called.length + p' ≤
        s.called.length + p + t.weight self.resultMode := by
  cases ht with
  | header r hr =>
    obtain ⟨ack, hack, hid, hcount⟩ := r.acknowledges
    rw [Line.json, handleThrowing_ack throws s hr hack hid hcount]
    simp only [List.length_eq_zero_iff]
    cases hmode : self.resultMode with
    | stream =>
      refine ⟨p, (fun h => by rw [hmode] at h; cases h), ?_⟩
      rw [weight_stream, List.length_append]
      dsimp only
      omega
    | batch =>
      refine ⟨if r.objects = [] then 0 else 1, fun _ => ⟨_, rfl, fun hpos => ?_⟩, ?_⟩
      · rw [if_neg (List.ne_nil_of_length_pos hpos)]
      · have hheader : (get r.header.props ackProp).isSome = true := by rw [hack]; rfl
        rw [weight_batch, if_pos hheader, List.length_append]
        by_cases hnil : r.objects = []
        · simp only [if_pos hnil, Option.toList_some, List.length_singleton]
          omega
        · simp only [if_neg hnil, Option.toList_none, List.length_nil]
          omega
  | object hplain hcall =>
    have hv := isACKObject_line hplain
    obtain ⟨hstream, hbatch⟩ := @object_length κ self throws s _ hv
    cases hmode : self.resultMode with
    | stream =>
      obtain ⟨c, hc⟩ := Option.isSome_iff_exists.mp (hcall hmode)
      have hlen := hstream hmode
      refine ⟨p, (fun h => by rw [hmode] at h; cases h), ?_⟩
      rw [weight_stream, hc, Option.toList_some, List.length_singleton]
      omega
    | batch =>
      obtain ⟨n, hsize, hpos⟩ := hdue hmode
      obtain ⟨hsize', hcounter, hlen⟩ := hbatch n hmode hsize
      refine ⟨if s.batch_result_counter + 1 < n then 1 else 0, fun _ => ⟨n, hsize', fun h => ?_⟩, ?_⟩
      · rw [hcounter] at h
        rw [if_pos h]
      · rw [weight_batch, hplain]
        split_ifs at hlen ⊢ <;> simp at * <;> omega

theorem due_run {k : ℕ → κ} (throws : Throws κ) {s : Reader κ} {p : ℕ} (hdue : Due self s p) {ts : List (Turn κ)}
    (hts : ∀ t ∈ ts, Known self k t) :
    (ran self throws s ts).called.length ≤
      s.called.length + p + (ts.map (Turn.weight self.resultMode)).sum := by
  induction ts generalizing s p with
  | nil => exact Nat.le_add_right _ _
  | cons t ts ih =>
    obtain ⟨p', hdue', hstep⟩ := due_step throws hdue (hts t List.mem_cons_self)
    have hrest := ih hdue' fun u hu => hts u (List.mem_cons_of_mem t hu)
    rw [ran, List.foldl_cons, List.map_cons, List.sum_cons]
    refine hrest.trans ?_
    omega

theorem called_ahead (throws : Throws κ) (s : Reader κ) (o : Json) :
    s.called <+: (handleThrowing self throws s o).1.called := by
  have hcall : ∀ info data : Json,
      Keeps (fun s' : Reader κ => s.called <+: s'.called) (callThrowing self throws info data) := by
    intro info data s' hs'
    cases hcur : self.current s' with
    | none => rwa [run_callThrowing_none throws info data hcur]
    | some callback =>
      rw [run_callThrowing throws info data hcur]
      exact hs'.trans (List.prefix_append _ _)
  suffices h : Keeps (fun s' => s.called <+: s'.called) (onObjectWith self.resultMode (callThrowing self throws) o)
    from h s List.prefix_rfl
  refine (Keeps.lift _).bind fun b => ?_
  cases b with
  | true =>
    refine (Keeps.lift _).bind fun ack => (Keeps.lift _).bind fun size => ?_
    refine (Keeps.modify fun _ h => by exact h).bind fun _ => (Keeps.lift _).bind fun id => ?_
    refine (Keeps.modify fun _ h => by exact h).bind fun _ => ?_
    dsimp only
    split_ifs
    · exact (hcall _ _).bind fun _ => Keeps.modify fun _ h => by exact h
    · exact Keeps.modify fun _ h => by exact h
  | false =>
    refine Keeps.bind (Keeps.modify fun _ h => by exact h) fun _ => ?_
    cases self.resultMode with
    | stream => exact hcall _ _
    | batch =>
      refine Keeps.bind (Keeps.modify fun _ h => by exact h) fun _ => fun s' hs' => ?_
      rw [run_bind, run_get]
      dsimp only
      split_ifs
      · exact hcall _ _ s' hs'
      · exact hs'

theorem ran_prefix (throws : Throws κ) (s : Reader κ) (ts : List (Turn κ)) :
    s.called <+: (ran self throws s ts).called := by
  induction ts generalizing s with
  | nil => exact List.prefix_rfl
  | cons t ts ih => exact (called_ahead throws s t.line.json).trans (ih _)

theorem calls_weight_stream (ts : List (Turn κ)) :
    (callsOf ts).length = (ts.map (Turn.weight .stream)).sum := by
  induction ts with
  | nil => rfl
  | cons t ts ih =>
    rw [callsOf_cons, List.length_append, ih, List.map_cons, List.sum_cons, weight_stream]

theorem objectTurns_weight_batch {mode : ResultMode} {done : List Json} {os : List Line}
    (hplain : ∀ l ∈ os, get l.props ackProp = none) :
    ((objectTurns mode callback done os).map (Turn.weight .batch)).sum = 0 := by
  induction os generalizing done with
  | nil => rfl
  | cons o os ih =>
    rw [objectTurns, List.map_cons, List.sum_cons, ih fun l hl => hplain l (List.mem_cons_of_mem o hl),
      weight_batch, hplain o List.mem_cons_self]
    rfl

theorem calls_weight_batch (hmode : self.resultMode = .batch) (k : ℕ → κ) (rs : List Response) :
    (callsOf (self.turns k rs)).length = ((self.turns k rs).map (Turn.weight .batch)).sum := by
  induction rs with
  | nil => rfl
  | cons r rs ih =>
    have hanswer : (r.answer .batch (k r.id)).length = 1 := by
      unfold Response.answer
      split_ifs <;> rfl
    have hheader : (get r.header.props ackProp).isSome = true := by
      obtain ⟨ack, hack, -⟩ := r.acknowledges
      rw [hack]
      rfl
    have hcons : self.turns k (r :: rs) = r.turns .batch (k r.id) ++ self.turns k rs := by
      rw [← hmode]
      exact List.flatMap_cons
    have hweight : ((r.turns .batch (k r.id)).map (Turn.weight .batch)).sum = 1 := by
      rw [Response.turns, List.map_cons, List.sum_cons, objectTurns_weight_batch r.plain, weight_batch,
        if_pos hheader]
    rw [hcons, callsOf_append, List.length_append, turns_calls, hanswer, List.map_append, List.sum_append,
      hweight, ih]

/-- The loss of the first line makes no difference: it is a header in stream mode, the line after
it is in the same event, and is for the callback that threw. -/
def Harmless (mode : ResultMode) (c : Invocation κ) : List (Turn κ) → Prop
  | t :: u :: _ => mode = .stream ∧ t.call = none ∧ ∃ d, u.call = some d ∧ d.callback = c.callback
  | _ => False

/-- No event but the last ends with a line whose callback throws, or its loss is harmless. `lost` is
the call with which the event before did. -/
def Safe (mode : ResultMode) (throws : Throws κ) :
    Option (Invocation κ) → List (Invocation κ) → List (List (Turn κ)) → Prop
  | _, _, [] => True
  | lost, called, e :: es => (∀ c, lost = some c → Harmless mode c e) ∧
      Safe mode throws (thrown throws called e) (called ++ callsOf e) es

theorem Place.between_of_spent {k : ℕ → κ} {s : Reader κ} {ts : List (Turn κ)} (h : Place self k s ts)
    (hmode : self.resultMode = .batch) (hspent : Spent s) : ∃ rs, ts = self.turns k rs := by
  cases h with
  | between rs _ => exact ⟨rs, rfl⟩
  | @within _ _ o os rs _ _ _ hbatch =>
    obtain ⟨n, hsize, hle⟩ := hspent
    have hn := Json.ofInt_nat_inj.mp (Option.some.inj (hsize.symm.trans (hbatch hmode).size))
    rw [List.length_cons] at hn
    omega

theorem Place.header_stream {k : ℕ → κ} {s : Reader κ} {t : Turn κ} {ts : List (Turn κ)}
    (h : Place self k s (t :: ts)) (hmode : self.resultMode = .stream) (hcall : t.call = none) :
    ∃ callback u us, ts = u :: us ∧ u.call = some ⟨callback, .obj [], u.line.json⟩ ∧
      get u.line.props ackProp = none ∧ ∀ s', self.current s' = some callback → Place self k s' ts := by
  have hstream : ∀ h : self.resultMode = .batch, False := fun h => by rw [hmode] at h; cases h
  have hobject : ∀ (callback : κ) done (o : Line) os,
      objectCall self.resultMode callback done o os = some ⟨callback, .obj [], o.json⟩ := by
    intro callback done o os
    rw [hmode, objectCall]
  generalize hturns : t :: ts = us at h
  cases h with
  | between rs hout =>
    cases rs with
    | nil => cases hturns
    | cons r rs =>
      obtain ⟨rfl, rfl⟩ := List.cons.inj hturns
      cases hos : r.objects with
      | nil => simp [hos] at hcall
      | cons o os =>
        have hplain : ∀ l ∈ o :: os, get l.props ackProp = none := hos ▸ r.plain
        exact ⟨k r.id, _, _, rfl, hobject _ _ _ _, hplain o List.mem_cons_self, fun s' hs' =>
          .within rs (fun r' hr' => hout r' (List.mem_cons_of_mem r hr')) hs' hplain fun h => (hstream h).elim⟩
  | within rs hout hcur hplain hbatch =>
    obtain ⟨rfl, rfl⟩ := List.cons.inj hturns
    rw [hobject] at hcall
    cases hcall

theorem Place.calls_weight {k : ℕ → κ} {s : Reader κ} {ts : List (Turn κ)} (h : Place self k s ts)
    (hspent : self.resultMode = .batch → Spent s) :
    (callsOf ts).length = (ts.map (Turn.weight self.resultMode)).sum := by
  cases hmode : self.resultMode with
  | stream => exact calls_weight_stream ts
  | batch =>
    obtain ⟨rs, rfl⟩ := h.between_of_spent hmode (hspent hmode)
    exact calls_weight_batch hmode k rs

theorem due_of_spent {s : Reader κ} (hspent : self.resultMode = .batch → Spent s) : Due self s 0 := by
  intro hmode
  obtain ⟨n, hsize, hle⟩ := hspent hmode
  exact ⟨n, hsize, fun h => by omega⟩

theorem few_calls {k : ℕ → κ} (throws : Throws κ) {s : Reader κ} {before ts ms : List (Turn κ)}
    (h : Place self k s (before ++ ts)) (hspent : self.resultMode = .batch → Spent s)
    (hweight : 0 < (before.map (Turn.weight self.resultMode)).sum) (hms : ms.Sublist ts) :
    (ran self throws s ms).called ≠ s.called ++ callsOf (before ++ ts) := by
  intro heq
  have hcalls := h.calls_weight hspent
  have hknown : ∀ t ∈ ms, Known self k t := fun t ht => h.known t (List.mem_append_right before (hms.subset ht))
  have hrun := due_run throws (due_of_spent hspent) hknown
  have hsum := (hms.map (Turn.weight self.resultMode)).sum_le_sum fun _ _ => Nat.zero_le _
  rw [heq, List.length_append, hcalls, List.map_append, List.sum_append] at hrun
  omega

theorem loss_shows {k : ℕ → κ} (throws : Throws κ) {s : Reader κ} {kept : JsString} {c : Invocation κ}
    {t : Turn κ} {e : List (Turn κ)} {es : List (List (Turn κ))} (hne : ∀ e ∈ es, e ≠ [])
    (h : Place self k s (t :: (e ++ es.flatten))) (hkept : Whole kept)
    (hcur : self.current s = some c.callback) (hspent : self.resultMode = .batch → Spent s)
    (hharm : ¬ Harmless self.resultMode c (t :: e)) :
    ((((t :: e) :: es).map event).foldl (self.onDataThrowing throws) (s, kept)).1.called ≠
      s.called ++ callsOf (t :: (e ++ es.flatten)) := by
  obtain ⟨ms, hms, hrun⟩ := events_ran_lost (t := t) (e := e) throws hne s hkept
  by_cases hweight : 0 < t.weight self.resultMode
  · have hplace : Place self k s ([t] ++ (e ++ es.flatten)) := h
    rw [hrun]
    exact few_calls throws hplace hspent (by simpa using hweight) ((List.Sublist.refl e).append hms)
  have hmode : self.resultMode = .stream := by
    cases hmode : self.resultMode with
    | stream => rfl
    | batch =>
      obtain ⟨rs, hrs⟩ := h.between_of_spent hmode (hspent hmode)
      cases rs with
      | nil => cases hrs
      | cons r rs =>
        obtain ⟨rfl, -⟩ := List.cons.inj hrs
        obtain ⟨ack, hack, -⟩ := r.acknowledges
        rw [hmode, weight_batch, hack] at hweight
        exact absurd Nat.zero_lt_one hweight
  have hcall : t.call = none := by
    rw [hmode, weight_stream] at hweight
    cases hcall : t.call with
    | none => rfl
    | some d => simp [hcall] at hweight
  obtain ⟨callback, u, us, hus, hucall, hplain, -⟩ := h.header_stream hmode hcall
  have huweight : 0 < ([t, u].map (Turn.weight self.resultMode)).sum := by
    rw [hmode, List.map_cons, List.map_singleton, List.sum_cons, List.sum_singleton, weight_stream u, hucall]
    exact Nat.lt_add_left _ Nat.zero_lt_one
  cases e with
  | nil =>
    -- the object is lost with its header
    cases es with
    | nil => cases hus
    | cons e es =>
      obtain ⟨v, e, rfl⟩ := List.exists_cons_of_ne_nil (hne e List.mem_cons_self)
      obtain ⟨rfl, rfl⟩ := List.cons.inj hus
      have hplace : Place self k s ([t, v] ++ (e ++ es.flatten)) := h
      obtain ⟨ms, hms, hrun⟩ := @events_ran_lost κ self throws v e es
        (fun e he => hne e (List.mem_cons_of_mem _ he)) s _ (hkept.append t.line.text)
      rw [List.map_cons, List.foldl_cons, onDataThrowing_lost throws s hkept]
      refine fun heq => few_calls throws hplace hspent huweight ((List.Sublist.refl e).append hms) ?_
      rw [← hrun]
      exact heq
  | cons v e =>
    -- the object goes to the callback that threw
    obtain ⟨rfl, -⟩ := List.cons.inj hus
    intro heq
    have hv := isACKObject_line hplain
    have hprefix : (handleThrowing self throws s v.line.json).1.called <+:
        (ran self throws s (v :: e ++ ms)).called := ran_prefix throws _ (e ++ ms)
    rw [← hrun, heq, handleThrowing_stream throws hmode hcur hv, List.cons_append, callsOf_cons,
      hcall, callsOf_cons, hucall, List.prefix_append_right_inj] at hprefix
    have hcallback := (List.cons_prefix_cons.mp hprefix).1
    exact hharm ⟨hmode, hcall, _, hucall, (congrArg Invocation.callback hcallback).symm⟩

theorem events_wire (es : List (List (Turn κ))) :
    (es.map event).flatten = Line.wire (es.flatten.map Turn.line) := by
  induction es with
  | nil => rfl
  | cons e es ih =>
    rw [List.map_cons, List.flatten_cons, ih, List.flatten_cons, List.map_append, event, Line.wire, Line.wire,
      Line.wire, List.map_append]
    exact List.flatMap_append.symm

theorem calls_iff_safe {k : ℕ → κ} (throws : Throws κ) {es : List (List (Turn κ))} (hne : ∀ e ∈ es, e ≠ [])
    {st : Reader κ × JsString} {lost : Option (Invocation κ)} (h : Place self k st.1 es.flatten)
    (hleft : Left self st lost) :
    ((es.map event).foldl (self.onDataThrowing throws) st).1.called = st.1.called ++ callsOf es.flatten ↔
      Safe self.resultMode throws lost st.1.called es := by
  induction es generalizing st lost with
  | nil => exact iff_of_true (List.append_nil _).symm trivial
  | cons e es ih =>
    obtain ⟨s, kept⟩ := st
    have hrest := fun e' he' => hne e' (List.mem_cons_of_mem e he')
    -- an event whose first line is not lost, or is lost and no matter
    have hread : ∀ {t ts kept'}, Place self k s (t :: ts ++ es.flatten) →
        (((es.map event).foldl (self.onDataThrowing throws) (offered self throws (s, kept') (t :: ts))).1.called =
            s.called ++ callsOf (t :: ts ++ es.flatten) ↔
          Safe self.resultMode throws (thrown throws s.called (t :: ts)) (s.called ++ callsOf (t :: ts)) es) := by
      intro t ts kept' hplace
      obtain ⟨hcalled, hplace', hleft'⟩ := offered_in_turn throws hplace kept'
      have hes := ih hrest hplace' hleft'
      rwa [hcalled, List.append_assoc, ← callsOf_append] at hes
    obtain ⟨t, ts, rfl⟩ := List.exists_cons_of_ne_nil (hne e List.mem_cons_self)
    rw [List.map_cons, List.foldl_cons, Safe]
    cases lost with
    | none =>
      obtain rfl : kept = [] := hleft
      rw [onDataThrowing_first]
      exact (hread h).trans (and_iff_right fun c hc => by cases hc).symm
    | some c =>
      obtain ⟨⟨l, hl⟩, hcur, hspent⟩ := hleft
      have hkept : Whole kept := ⟨l, [], hl.trans (List.append_nil _).symm⟩
      by_cases hharm : Harmless self.resultMode c (t :: ts)
      · cases ts with
        | nil => exact hharm.elim
        | cons u ts =>
          have hall : ∀ c', some c = some c' → Harmless self.resultMode c' (t :: u :: ts) :=
            fun c' hc' => Option.some.inj hc' ▸ hharm
          obtain ⟨hmode, hcall, d, hd, hdc⟩ := hharm
          obtain ⟨callback, v, vs, hvs, hvcall, -, hplace⟩ := Place.header_stream h hmode hcall
          obtain ⟨rfl, -⟩ := List.cons.inj hvs
          have hcallback : c.callback = callback := by
            rw [← hdc, Option.some.inj (hd.symm.trans hvcall)]
          have hcalls : callsOf (t :: u :: ts) = callsOf (u :: ts) := by rw [callsOf_cons, hcall]; rfl
          have hthrown : thrown throws s.called (t :: u :: ts) = thrown throws s.called (u :: ts) := by
            rw [thrown, hcall, Option.toList_none, List.append_nil]
          rw [onDataThrowing_lost throws s hkept, List.flatten_cons, callsOf_append, hcalls, hthrown,
            ← callsOf_append]
          exact (hread (hplace s (hcallback ▸ hcur))).trans (and_iff_right hall).symm
      · refine iff_of_false ?_ fun hsafe => hharm (hsafe.1 c rfl)
        exact loss_shows throws hrest h hkept hcur hspent hharm

/-- Events of whole lines lead to the calls that they lead to without exceptions exactly when no event
but the last ends with the line of a callback that throws, or the loss of the next line is harmless. -/
theorem throwing_callbacks_iff {k : ℕ → κ} {rs : List Response}
    (hout : ∀ r ∈ rs, self.Outstanding r.id (k r.id)) (throws : Throws κ) {groups : List (List (Turn κ))}
    (hne : ∀ e ∈ groups, e ≠ []) (hcut : groups.flatten = self.turns k rs) :
    ((groups.map event).foldl (self.onDataThrowing throws) (Reader.initial, [])).1.called =
        ((groups.map event).foldl self.onData (Reader.initial, [])).1.called ↔
      Safe self.resultMode throws none [] groups := by
  have hwire : (groups.map event).flatten = Line.wire (rs.flatMap Response.lines) := by
    rw [← client_turns_lines k rs, ← hcut, events_wire]
  have hplace : Place self k Reader.initial groups.flatten := hcut ▸ .between rs hout
  have hleft : Left self ((Reader.initial : Reader κ), ([] : JsString)) none := rfl
  rw [responses_any_chunking hwire hout, ← client_turns_calls, ← hcut]
  exact calls_iff_safe throws hne hplace hleft

end

def emptyAcknowledgement : Message where
  props := [(ackProp, .obj [(js "id", .ofInt 1), (js "result_count", .ofInt 0)])]
  wf := by
    simp only [Json.WF, Json.WFProps, Json.wf_ofInt, keys, and_true, List.map_cons, List.map_nil]
    decide

def nobody : Response where
  id := 1
  header := emptyAcknowledgement.line
  objects := []
  acknowledges := ⟨_, rfl, rfl, rfl⟩
  plain := fun _ h => absurd h List.not_mem_nil

def firstThrows : Throws Bool := fun _ c => c.callback

def twoEvents : List (List (Turn Bool)) := [people, nobody].map fun r => r.turns .batch (r.id == 0)

theorem outstanding_two : ∀ r ∈ [people, nobody], askingTwice.Outstanding r.id (r.id == 0) := by
  intro r hr
  rcases List.mem_cons.mp hr with rfl | hr
  · exact outstanding_secondRejected (.answered onePerson) List.mem_cons_self
  · obtain rfl := List.mem_singleton.mp hr
    exact outstanding_secondRejected (.rejected 1) (List.mem_cons_of_mem _ (List.mem_singleton_self _))

theorem throwing_callbacks_two :
    ((twoEvents.map event).foldl (askingTwice.onDataThrowing firstThrows) (Reader.initial, [])).1.called =
        ((twoEvents.map event).foldl askingTwice.onData (Reader.initial, [])).1.called ↔
      Safe .batch firstThrows none [] twoEvents :=
  throwing_callbacks_iff (k := fun id => id == 0) outstanding_two firstThrows
    (by simp [twoEvents, Response.turns]) rfl

/-- The second response is lost. -/
theorem throwing_callback_loses_response :
    ((twoEvents.map event).foldl (askingTwice.onDataThrowing firstThrows) (Reader.initial, [])).1.called ≠
      ((twoEvents.map event).foldl askingTwice.onData (Reader.initial, [])).1.called := by
  intro h
  have hlen := congrArg List.length h
  have hthrowing : ((twoEvents.map event).foldl (askingTwice.onDataThrowing firstThrows)
      (Reader.initial, [])).1.called.length = 1 := by decide +kernel
  have hquiet : ((twoEvents.map event).foldl askingTwice.onData (Reader.initial, [])).1.called.length = 2 := by
    decide +kernel
  rw [hthrowing, hquiet] at hlen
  cases hlen

end GlobalsJs.Globalsd
