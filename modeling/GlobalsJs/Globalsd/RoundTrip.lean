import GlobalsJs.Globalsd.Responder

/-!
# Values that come back

The daemon prints a header line and one line for each value of a result, the client tells
headers from values by a property of what it parsed. A value that has that property is
taken for a header, and `null` makes the test fail.
-/

namespace GlobalsJs.Globalsd
open Ecma LineReader

/-- A request and what its method returned. -/
structure Result where
  id : ℕ
  values : List Json
  wf : ∀ v ∈ values, v.WF

/-- What the daemon writes, line by line. -/
def Result.sent (r : Result) : List Json := answer (some (.ofInt r.id)) (.json (.arr r.values))

theorem respond_result {σ ι : Type} [DecidableEq ι] {socket : ι} {req header : Json} (r : Result)
    (hheader : member (some req) (js "header") = .ok (some header))
    (hid : member (some header) (js "id") = .ok (some (.ofInt r.id))) (d : Daemon σ ι) :
    Globalsd.sent ((respond socket req (.json (.arr r.values))).run.run d).2 socket =
      Globalsd.sent d socket ++ wire newline (r.sent.map Json.stringify) := by
  obtain ⟨x, hx⟩ : ∃ x, Writes (σ := σ) socket (respond socket req (.json (.arr r.values))) r.sent x :=
    respond_writes hheader hid (.json (.arr r.values))
  rw [hx]
  exact sent_lineWrites rfl

/-- The client sees that the value is no header. -/
def Transparent (v : Json) : Prop := v ≠ .null ∧ ∀ ps, v = .obj ps → get ps ackProp = none

theorem isACKObject_eq_false_iff (v : Json) : isACKObject v = .ok false ↔ Transparent v := by
  cases v with
  | null => exact iff_of_false (fun h => by cases h) fun h => h.1 rfl
  | bool | num | str | arr =>
    exact iff_of_true rfl ⟨(fun h => by cases h), (fun ps h => by cases h)⟩
  | obj ps => simp [isACKObject_obj, Transparent]

section
variable {κ : Type} {self : Client κ}

structure Filtered (s : Reader κ) : Prop where
  batch : ∀ v ∈ s.batch, Transparent v
  called : ∀ i ∈ s.called, ∃ vs, i.data = .arr vs ∧ ∀ v ∈ vs, Transparent v

def Keeps (I : Reader κ → Prop) {α : Type} (p : Decode κ α) : Prop := ∀ s, I s → I (p.run.run s).2

namespace Keeps
variable {I : Reader κ → Prop} {α β : Type}

theorem bind {p : Decode κ α} {f : α → Decode κ β} (hp : Keeps I p) (hf : ∀ a, Keeps I (f a)) :
    Keeps I (p >>= f) := by
  intro s hs
  have hp := hp s hs
  rw [run_bind]
  generalize p.run.run s = r at hp
  obtain ⟨a | a, t⟩ := r
  · exact hp
  · exact hf a t hp

theorem lift (x : Except JsError α) : Keeps I (liftM x : Decode κ α) := fun s hs => by rwa [run_lift]

theorem modify {g : Reader κ → Reader κ} (hg : ∀ s, I s → I (g s)) : Keeps I (modify g) := hg

end Keeps

theorem keeps_callBack (info : Json) {vs : List Json} (hvs : ∀ v ∈ vs, Transparent v) :
    Keeps Filtered (callBack self info (.arr vs)) := by
  intro s hs
  unfold callBack
  rw [run_bind, run_get]
  dsimp only
  cases self.dataCallbacks.lookup (textOf s.current_result_msg_id) with
  | none => exact hs
  | some callback =>
    refine ⟨hs.batch, fun i hi => ?_⟩
    rcases List.mem_append.mp hi with hi | hi
    · exact hs.called i hi
    · obtain rfl := List.mem_singleton.mp hi
      exact ⟨vs, rfl, hvs⟩

theorem filtered_handleObject (hmode : self.resultMode = .batch) (s : Reader κ) (o : Json)
    (hs : Filtered s) : Filtered (handleObject self s o).1 := by
  suffices h : Keeps Filtered (onObject self o) from h s hs
  have hnoValues : ∀ v ∈ ([] : List Json), Transparent v := fun v hv => absurd hv List.not_mem_nil
  unfold onObject
  cases hack : isACKObject o with
  | error e => exact fun s hs => hs
  | ok b =>
    simp only [liftM_ok, pure_bind]
    cases b with
    | true =>
      rw [if_pos rfl]
      have hreset : Keeps Filtered (modify fun s : Reader κ => { s with batch := [] }) :=
        .modify fun s hs => ⟨hnoValues, hs.called⟩
      refine (Keeps.lift _).bind fun ack => (Keeps.lift _).bind fun size => ?_
      refine (Keeps.modify fun s hs => ⟨hs.batch, hs.called⟩).bind fun _ => (Keeps.lift _).bind fun id => ?_
      refine (Keeps.modify fun s hs => ⟨hs.batch, hs.called⟩).bind fun _ => ?_
      split_ifs
      · exact (keeps_callBack _ hnoValues).bind fun _ => hreset
      · exact hreset
    | false =>
      have ho := (isACKObject_eq_false_iff o).mp hack
      rw [if_neg Bool.false_ne_true, hmode]
      refine Keeps.bind (Keeps.modify fun s hs => ⟨hs.batch, hs.called⟩) fun _ => ?_
      refine Keeps.bind (Keeps.modify fun s hs => ⟨?_, hs.called⟩) fun _ => ?_
      · exact List.forall_mem_append.mpr ⟨hs.batch, List.forall_mem_singleton.mpr ho⟩
      · intro s hs
        rw [run_bind, run_get]
        dsimp only
        split_ifs
        · exact keeps_callBack _ hs.batch s hs
        · exact hs

/-- Every request has its callback called once, with its result, and no other call is made. -/
def Delivered (k : ℕ → κ) (rs : List Result) (called : List (Invocation κ)) : Prop :=
  (called.map fun i => (i.callback, i.data)).Perm (rs.map fun r => (k r.id, Json.arr r.values))

theorem accepts_result (hmode : self.resultMode = .batch) {k : ℕ → κ} {r : Result}
    (hout : self.Outstanding r.id (k r.id)) (hr : ∀ v ∈ r.values, Transparent v) (s : Reader κ) :
    ∃ t, Accepts (handleObject self) s r.sent t ∧ (t.called.map fun i => (i.callback, i.data)) =
      (s.called.map fun i => (i.callback, i.data)) ++ [(k r.id, Json.arr r.values)] := by
  have hack : get [(ackProp, Json.obj [(js "id", .ofInt r.id), (js "result_count", .ofInt r.values.length)])]
      ackProp = some (.obj [(js "id", .ofInt r.id), (js "result_count", .ofInt r.values.length)]) := rfl
  obtain ⟨t, ht, hcalled⟩ := accepts_answer s hout hack rfl rfl
    fun v hv => (isACKObject_eq_false_iff v).mpr (hr v hv)
  refine ⟨t, ht, ?_⟩
  rw [hcalled, hmode, List.map_append]
  congr 1
  split_ifs with hnil
  · rw [hnil]
    rfl
  · rfl

theorem accepts_results (hmode : self.resultMode = .batch) {k : ℕ → κ} {rs : List Result}
    (hout : ∀ r ∈ rs, self.Outstanding r.id (k r.id)) (hrs : ∀ r ∈ rs, ∀ v ∈ r.values, Transparent v)
    (s : Reader κ) :
    ∃ t, Accepts (handleObject self) s (rs.flatMap Result.sent) t ∧
      (t.called.map fun i => (i.callback, i.data)) =
        (s.called.map fun i => (i.callback, i.data)) ++ rs.map fun r => (k r.id, Json.arr r.values) := by
  induction rs generalizing s with
  | nil => exact ⟨s, .nil s, by simp⟩
  | cons r rs ih =>
    obtain ⟨t, ht, htcalled⟩ :=
      accepts_result hmode (hout r List.mem_cons_self) (hrs r List.mem_cons_self) s
    obtain ⟨u, hu, hucalled⟩ := ih (fun r' hr' => hout r' (List.mem_cons_of_mem r hr'))
      (fun r' hr' => hrs r' (List.mem_cons_of_mem r hr')) t
    exact ⟨u, ht.append hu, by rw [hucalled, htcalled]; simp⟩

theorem sent_wf (r : Result) : ∀ v ∈ r.sent, v.WF :=
  answer_wf (Json.wf_ofInt _) (r := .json (.arr r.values)) ((Json.wf_arr_iff r.values).mpr r.wf)

/-- Events of whole lines are decoded to the results exactly when no value passes for a header
and none is `null`. -/
theorem results_decoded_iff (hmode : self.resultMode = .batch) {k : ℕ → κ} {rs : List Result}
    (hout : ∀ r ∈ rs, self.Outstanding r.id (k r.id)) {events : List (List JsString)}
    (hcut : events.flatten = (rs.flatMap Result.sent).map Json.stringify) :
    Delivered k rs ((events.map (wire newline)).foldl self.onData (Reader.initial, [])).1.called ↔
      ∀ r ∈ rs, ∀ v ∈ r.values, Transparent v := by
  constructor
  · intro h r hr v hv
    have hfiltered : Filtered ((events.map (wire newline)).foldl self.onData (Reader.initial, [])).1 := by
      refine feeds_keep (fun s p hs => ?_) ?_ _
      · rw [parsed]
        cases Json.parse p with
        | none => exact hs
        | some o => exact filtered_handleObject hmode s o hs
      · exact ⟨fun v hv => absurd hv List.not_mem_nil, fun i hi => absurd hi List.not_mem_nil⟩
    have hmem := h.symm.subset (List.mem_map_of_mem (f := fun r : Result => (k r.id, Json.arr r.values)) hr)
    obtain ⟨i, hi, hdata⟩ := List.mem_map.mp hmem
    obtain ⟨vs, hvs, hall⟩ := hfiltered.called i hi
    obtain rfl : vs = r.values := Json.arr.inj (hvs.symm.trans (Prod.mk.inj hdata).2)
    exact hall v hv
  · intro hrs
    obtain ⟨t, ht, hcalled⟩ := accepts_results hmode hout hrs Reader.initial
    have hwf : ∀ v ∈ rs.flatMap Result.sent, v.WF := by
      intro v hv
      obtain ⟨r, _, hv⟩ := List.mem_flatMap.mp hv
      exact sent_wf r v hv
    have hrun : (events.map (wire newline)).foldl self.onData (Reader.initial, []) = (t, []) :=
      ht.events hwf hcut
    rw [hrun, Delivered, hcalled]
    exact List.Perm.refl _

end

def found : Result := ⟨0, [.ofInt 7, person.json], List.forall_mem_cons.mpr
  ⟨Json.wf_ofInt 7, List.forall_mem_singleton.mpr person.wf⟩⟩

theorem results_decoded_found :
    let events := [found.sent.map Json.stringify]
    Delivered (fun _ => true) [found]
        ((events.map (wire newline)).foldl (asking .batch).onData (Reader.initial, [])).1.called ↔
      ∀ r ∈ [found], ∀ v ∈ r.values, Transparent v := by
  refine results_decoded_iff rfl (fun r hr => ?_) (by simp)
  obtain rfl := List.mem_singleton.mp hr
  have hid : found.id = 0 := rfl
  exact (send_outstanding _ _ _ _ _ _).mpr ((if_pos hid).mpr rfl)

/-- A stored `null` is not delivered, and the callback is never called. -/
theorem null_undelivered :
    let r : Result := ⟨0, [.null], by simp [Json.WF]⟩
    let events := [r.sent.map Json.stringify]
    ¬ Delivered (fun _ => true) [r]
      ((events.map (wire newline)).foldl (asking .batch).onData (Reader.initial, [])).1.called := by
  intro r events h
  have hcalled : ((events.map (wire newline)).foldl (asking .batch).onData
      (Reader.initial, [])).1.called = [] := by decide +kernel
  rw [hcalled, Delivered] at h
  exact absurd h.length_eq (by simp)

end GlobalsJs.Globalsd
