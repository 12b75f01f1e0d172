import GlobalsJs.Collection.Contents

/-!
# Failing calls

Any of the calls that a method makes may fail; a failing call changes nothing and
says so in its reply. `Spares` says that a method which reports an error has left the
store alone, and `Safe` when it has: what the methods do after a failed call differs
from one to the next.
-/

namespace GlobalsJs
open Ecma Cache Query Calls.Prog

namespace Cache
variable {σ : Type}

def failing (b : Binding σ) (refuse : (c : Call) → Reply c) : Binding (σ × List Bool)
  | .callback _ _, s => (s, ⟨none, ()⟩)
  | c, s =>
    if s.2.headD false then ((s.1, s.2.tail), refuse c)
    else (((b c s.1).1, s.2.tail), (b c s.1).2)

structure Refusal (refuse : (c : Call) → Reply c) : Prop where
  error : ∀ c, truthy (refuse c).error = true
  update : ∀ node object, isZeroStatus (refuse (.update node object)).result = false
  kill : ∀ ref, isOk (refuse (.kill ref)).result = .ok false
  increment : ∀ ref, isOk (refuse (.increment ref)).result = .ok false

/-- A binding some of whose calls fail, beside a record of the callbacks. -/
abbrev recorded (b : Binding σ) (refuse : (c : Call) → Reply c) :
    Binding ((σ × List Bool) × List Callback) :=
  recording (failing b refuse)

def Call.IsCallback : Call → Prop
  | .callback _ _ => True
  | _ => False

theorem recorded_fails {b : Binding σ} {refuse : (c : Call) → Reply c} {c : Call} (hc : ¬ c.IsCallback)
    {s : σ} {fs : List Bool} (hfs : fs.headD false = true) (cs : List Callback) :
    recorded b refuse c ((s, fs), cs) = (((s, fs.tail), cs), refuse c) := by
  cases c with
  | callback error result => exact (hc trivial).elim
  | set | kill | killGlobal | increment | update | order | orderNothing | retrieve | get | close =>
    simp only [recording, failing, hfs, if_true]

theorem recorded_succeeds {b : Binding σ} {refuse : (c : Call) → Reply c} {c : Call}
    (hc : ¬ c.IsCallback) {s : σ} {fs : List Bool} (hfs : fs.headD false = false) (cs : List Callback) :
    recorded b refuse c ((s, fs), cs) = ((((b c s).1, fs.tail), cs), (b c s).2) := by
  cases c with
  | callback error result => exact (hc trivial).elim
  | set | kill | killGlobal | increment | update | order | orderNothing | retrieve | get | close =>
    simp only [recording, failing, hfs, Bool.false_eq_true, if_false]

def Globals.Bare {κ : Type} (g : Globals κ) (name : JsString) : Prop :=
  g.root name = none ∧ (∀ k, g.object name k = none) ∧ ∀ p, ¬ g.node name p

def passed {α : Type} : List α → List Bool → List α
  | [], _ => []
  | x :: xs, fs => if fs.headD false then passed xs fs.tail else x :: passed xs fs.tail

end Cache

namespace Collection

def syncCall (self : Collection) : Method → Prog Ended
  | .add ps => self.add (some (.obj ps))
  | .save ps => self.save (some (.obj ps))
  | .remove ps => self.remove (some (.obj ps))
  | .removeAll => self.remove none

def asyncCall (self : Collection) : Method → Prog (Option Json)
  | .add ps => self.add_async (some (.obj ps))
  | .save ps => self.save_async (some (.obj ps))
  | .remove ps => do
    self.remove_async (some (.obj ps))
    return some (.obj ps)
  | .removeAll => do
    self.remove_async none
    return none

variable {σ κ : Type} [LinearOrder κ] {b : Binding σ} {refuse : (c : Call) → Reply c}
  {view : σ → Globals κ} {sub : Json → κ}

def Unharmed (self : Collection) (g h : Globals κ) : Prop :=
  (g.root self.name).getD 0 ≤ (h.root self.name).getD 0 ∧ h.object self.name = g.object self.name ∧
    h.node self.name = g.node self.name ∧ h.SameAt g self.index_global ∧ h.SameAt g self.system_global

def NoId (object : Option Json) : Prop := ∀ ps, object = some (.obj ps) → get ps idKey = none

def Reports : Method → Ended → Prop
  | .add _, e | .save _, e => ∃ v, e.returned = some v ∧ isZeroStatus v = false
  | .remove _, e | .removeAll, e => ∃ v, e.returned = some v ∧ isOk v ≠ .ok true

/-- If the method reports an error, the store is unharmed and an object that was to be added has
no identifier. -/
def Spares (b : Binding σ) (refuse : (c : Call) → Reply c) (view : σ → Globals κ) (self : Collection)
    (s : σ) (fs : List Bool) (m : Method) : Style → Prop
  | .sync => ∀ t e, run (recorded b refuse) (self.syncCall m) ((s, fs), []) = (t, .ok e) →
    Reports m e → self.Unharmed (view s) (view t.1.1) ∧ (m.Adds → NoId e.object)
  | .async => ∀ t o, run (recorded b refuse) (self.asyncCall m) ((s, fs), []) = (t, o) →
    (∃ c ∈ t.2, truthy c.error = true) →
    self.Unharmed (view s) (view t.1.1) ∧ (m.Adds → ∀ x, o = .ok x → NoId x)

def AddSafe (fs : List Bool) : Prop := fs.headD false = true ∨ fs.tail.headD false = false

/-- When a method spares the store, by the calls that fail. -/
def Safe (self : Collection) (sub : Json → κ) (g : Globals κ) (fs : List Bool) : Style → Method → Prop
  | .sync, .remove _ | .sync, .removeAll | .async, .removeAll => True
  | .sync, .add _ | .async, .add _ => AddSafe fs
  | .sync, .save ps => ps ≠ [] → get ps idKey = none → AddSafe fs
  | .async, .save ps =>
    match get ps idKey with
    | none => if ps = [] then fs.headD false = true else AddSafe fs
    | some id => fs.headD false = false ∨
      ∀ p ∈ passed (self.paths sub ps id) fs.tail, g.node self.index_global p
  | .async, .remove ps => ∀ id, get ps idKey = some id → fs.tail.tail.headD false = false ∨
      ((fs.headD false = true ∨ (g.object self.name (sub id) = none ∧
          ∀ p, [sub id] <+: p → ¬ g.node self.name p)) ∧
        (fs.tail.headD false = true ∨ g.Bare self.system_global))

def Method.Subscripts (self : Collection) : Method → Prop
  | .save ps => ∀ id, get ps idKey = some id → Scalar id ∧ self.SingleField ∧ self.ScalarFields ps
  | .remove ps => ∀ id, get ps idKey = some id → Scalar id
  | .add _ | .removeAll => True

section
variable (law : Lawful b view sub) (href : Refusal refuse)

include href in
theorem run_next_id_fails (self : Collection) {s : σ} {fs : List Bool} (hfs : fs.headD false = true)
    (cs : List Callback) : run (recorded b refuse) self.next_id ((s, fs), cs) =
      (((s, fs.tail), cs), .error (.error (.referenceError (js "error")))) := by
  rw [next_id, run_bind_ok (run_sync _ _), recorded_fails id hfs cs]
  rw [run_bind_ok (a := false) (by rw [run_liftM, href.increment]; rfl)]
  rfl

variable (refuse) in
include law in
theorem run_next_id_succeeds (self : Collection) {s : σ} {fs : List Bool}
    (hfs : fs.headD false = false) (cs : List Callback) :
    ∃ t, run (recorded b refuse) self.next_id ((s, fs), cs) =
      (((t, fs.tail), cs), .ok (some (.ofInt (self.newId (view s))))) ∧
      view t = (view s).increment self.name := by
  refine ⟨(b (.increment ⟨self.name, []⟩) s).1, ?_, law.increment s self.name⟩
  rw [next_id, run_bind_ok (run_sync _ _), recorded_succeeds id hfs cs]
  rw [run_bind_ok (a := true) (by rw [run_liftM, law.increment_ok]; rfl), if_pos rfl]
  exact (run_liftM _ _).trans (by rw [law.increment_data]; rfl)

variable (b refuse) in
theorem run_update_index_recorded (self : Collection) (operation : IndexOperation) (ps : Props)
    (t : σ × List Bool) (cs : List Callback) :
    ∃ u, run (recorded b refuse) (self.update_index operation (some (.obj ps))) (t, cs) =
      ((u, cs), .ok ⟨⟩) := by
  obtain ⟨⟨u, ds⟩, hu, rfl⟩ := run_update_index_keeps (B := recorded b refuse) (I := fun t => t.2 = cs)
    self operation ps (fun _ _ _ ht => ht) (fun _ _ ht => ht) (t := (t, cs)) rfl
  exact ⟨u, hu⟩

theorem run_callBack_recorded (error result : Option Json) (t : σ × List Bool) (cs : List Callback) :
    run (recorded b refuse) (callBack error result) (t, cs) = ((t, cs ++ [⟨error, result⟩]), .ok ⟨⟩) :=
  rfl

omit [LinearOrder κ] in
theorem Unharmed.refl (self : Collection) (g : Globals κ) : self.Unharmed g g :=
  ⟨le_refl _, rfl, rfl, .refl g _, .refl g _⟩

theorem not_noId_stored (ps : Props) (n : ℕ) : ¬ NoId (some (.obj (stored ps n))) := by
  intro h
  have hnone := h _ rfl
  rw [get_stored] at hnone
  cases hnone

include law href

theorem run_add_recorded (self : Collection) (ps : Props) {s : σ} {fs : List Bool}
    (hfs : fs.headD false = false) (cs : List Callback) : ∃ t e,
    run (recorded b refuse) (self.add (some (.obj ps))) ((s, fs), cs) = (t, .ok e) ∧
      e.object = some (.obj (stored ps (self.newId (view s)))) ∧
      ((∃ v, e.returned = some v ∧ isZeroStatus v = false) ↔ fs.tail.headD false = true) := by
  obtain ⟨t, ht, -⟩ := run_next_id_succeeds refuse law self hfs cs
  set n := self.newId (view s)
  rw [run_add_of_id self ps ht, run_bind_ok (run_sync _ _)]
  cases hfail : fs.tail.headD false with
  | true =>
    rw [recorded_fails id hfail cs]
    simp only [href.update, Bool.false_eq_true, if_false]
    exact ⟨_, _, rfl, rfl, iff_of_true ⟨_, rfl, href.update _ _⟩ trivial⟩
  | false =>
    rw [recorded_succeeds id hfail cs]
    simp only [law.update_ok, if_true]
    obtain ⟨u, hu⟩ := run_update_index_recorded b refuse self .SAVE (stored ps n)
      ((b (.update ⟨self.name, [some (.ofInt n)]⟩ (.obj (stored ps n))) t).1, fs.tail.tail) cs
    refine ⟨_, _, run_bind_ok hu _, rfl, iff_of_false ?_ (by simp)⟩
    rintro ⟨v, hv, -⟩
    cases hv

theorem run_add_async_recorded (self : Collection) (ps : Props) {s : σ} {fs : List Bool}
    (hfs : fs.headD false = false) (cs : List Callback) : ∃ t error result,
    run (recorded b refuse) (self.add_async (some (.obj ps))) ((s, fs), cs) =
      ((t, cs ++ [⟨error, result⟩]), .ok (some (.obj (stored ps (self.newId (view s)))))) ∧
      (truthy error = true ↔ fs.tail.headD false = true) := by
  obtain ⟨t, ht, -⟩ := run_next_id_succeeds refuse law self hfs cs
  set n := self.newId (view s)
  rw [run_add_async_of_id self ps ht, run_bind_ok (run_async _ _)]
  cases hfail : fs.tail.headD false with
  | true =>
    rw [recorded_fails id hfail cs]
    obtain ⟨u, hu⟩ := run_update_index_recorded b refuse self .SAVE (stored ps n)
      (t, fs.tail.tail) cs
    refine ⟨u, (refuse (.update ⟨self.name, [some (.ofInt n)]⟩ (.obj (stored ps n)))).error,
      some (.obj (stored ps n)), ?_, iff_of_true (href.error _) rfl⟩
    rw [run_bind_ok hu, run_bind_ok (run_callBack_recorded _ _ u cs)]
    rfl
  | false =>
    rw [recorded_succeeds id hfail cs, law.no_error]
    obtain ⟨u, hu⟩ := run_update_index_recorded b refuse self .SAVE (stored ps n)
      ((b (.update ⟨self.name, [some (.ofInt n)]⟩ (.obj (stored ps n))) t).1, fs.tail.tail) cs
    refine ⟨u, none, some (.obj (stored ps n)), ?_, iff_of_false (by simp [truthy]) (by simp)⟩
    rw [run_bind_ok hu, run_bind_ok (run_callBack_recorded _ _ u cs)]
    rfl

theorem add_spares_iff (self : Collection) (ps : Props) {m : Method} (hm : m.Adds)
    (hreports : ∀ e, Reports m e ↔ ∃ v, e.returned = some v ∧ isZeroStatus v = false)
    (hcall : self.syncCall m = self.add (some (.obj ps))) (s : σ) (fs : List Bool) :
    Spares b refuse view self s fs m .sync ↔ AddSafe fs := by
  unfold Spares
  rw [hcall]
  cases hfs : fs.headD false with
  | true =>
    refine iff_of_true (fun t e hrun => ?_) (.inl hfs)
    rw [add, run_bind_error (run_next_id_fails href self hfs [])] at hrun
    cases hrun
  | false =>
    obtain ⟨t, e, hrun, hobject, hrep⟩ := run_add_recorded law href self ps (s := s) hfs []
    cases hfail : fs.tail.headD false with
    | true =>
      refine iff_of_false (fun h => ?_) (by rw [AddSafe, hfs, hfail]; simp)
      have hnone := (h t e hrun ((hreports e).mpr (hrep.mpr hfail))).2 hm
      rw [hobject] at hnone
      exact not_noId_stored _ _ hnone
    | false =>
      refine iff_of_true (fun t' e' hrun' hrep' => ?_) (.inr hfail)
      rw [hrun] at hrun'
      obtain rfl := Except.ok.inj (Prod.mk.inj hrun').2
      rw [hrep.mp ((hreports e).mp hrep')] at hfail
      cases hfail

theorem add_async_spares_iff (self : Collection) (ps : Props) {m : Method} (hm : m.Adds)
    (hcall : self.asyncCall m = self.add_async (some (.obj ps))) (s : σ) (fs : List Bool) :
    Spares b refuse view self s fs m .async ↔ AddSafe fs := by
  unfold Spares
  rw [hcall]
  cases hfs : fs.headD false with
  | true =>
    refine iff_of_true (fun t o hrun hrep => ?_) (.inl hfs)
    rw [add_async, run_bind_error (run_next_id_fails href self hfs [])] at hrun
    rw [← (Prod.mk.inj hrun).1] at hrep
    obtain ⟨c, hc, -⟩ := hrep
    cases hc
  | false =>
    obtain ⟨t, error, result, hrun, hrep⟩ := run_add_async_recorded law href self ps (s := s) hfs []
    cases hfail : fs.tail.headD false with
    | true =>
      refine iff_of_false (fun h => ?_) (by rw [AddSafe, hfs, hfail]; simp)
      have hreported : ∃ c ∈ [Callback.mk error result], truthy c.error = true :=
        ⟨_, List.mem_singleton_self _, hrep.mpr hfail⟩
      exact not_noId_stored _ _ ((h _ _ hrun hreported).2 hm _ rfl)
    | false =>
      refine iff_of_true (fun t' o' hrun' hrep' => ?_) (.inr hfail)
      rw [hrun] at hrun'
      rw [← (Prod.mk.inj hrun').1] at hrep'
      obtain ⟨c, hc, hc'⟩ := hrep'
      obtain rfl := List.mem_singleton.mp hc
      rw [hrep.mp hc'] at hfail
      cases hfail

theorem save_spares (self : Collection) {ps : Props} {i : Json} (hget : get ps idKey = some i)
    (s : σ) (fs : List Bool) : Spares b refuse view self s fs (.save ps) .sync := by
  intro t e hrun hrep
  refine ⟨?_, fun hadds => absurd (hget.symm.trans hadds) (by simp)⟩
  have hcall : self.syncCall (.save ps) = _ := save_stored self hget
  rw [hcall, run_bind_ok (run_sync _ _)] at hrun
  cases hfs : fs.headD false with
  | true =>
    rw [recorded_fails id hfs []] at hrun
    simp only [href.update, Bool.false_eq_true, if_false] at hrun
    rw [← (Prod.mk.inj hrun).1]
    exact .refl self _
  | false =>
    -- a write that succeeds is not reported
    rw [recorded_succeeds id hfs []] at hrun
    simp only [law.update_ok, if_true] at hrun
    obtain ⟨u, hu⟩ := run_update_index_recorded b refuse self .SAVE ps
      ((b (.update ⟨self.name, [some i]⟩ (.obj ps)) s).1, fs.tail) []
    rw [run_bind_ok hu] at hrun
    obtain ⟨v, hv, hzero⟩ := hrep
    rw [← Except.ok.inj (Prod.mk.inj hrun).2] at hv
    rw [← Option.some.inj hv, law.update_ok] at hzero
    cases hzero

omit law href in
theorem passed_append {α : Type} (xs ys : List α) (fs : List Bool) :
    passed (xs ++ ys) fs = passed xs fs ++ passed ys (fs.drop xs.length) := by
  induction xs generalizing fs with
  | nil => rfl
  | cons x xs ih =>
    have hdrop : fs.tail.drop xs.length = fs.drop (x :: xs).length := by simp
    cases hfs : fs.headD false <;> simp only [List.cons_append, passed, hfs, ih, hdrop] <;> rfl

variable (refuse) in
omit href in
theorem run_update_entry_failing (self : Collection) {ps : Props} {i order : Json} {f : JsString}
    (hf : Scalar (.str f)) (hscalar : ∀ v, get ps f = some v → Scalar v) (hid : Scalar i)
    (hget : get ps idKey = some i) (s : σ) (fs : List Bool) (cs : List Callback) :
    ∃ t, run (recorded b refuse) (self.update_entry .SAVE (some (.obj ps)) [(f, order)]) ((s, fs), cs) =
        ((t, cs), .ok ⟨⟩) ∧ t.2 = fs.drop (entryPaths sub [[(f, order)]] ps i).length ∧
      view t.1 = (view s).addNodes self.index_global (passed (entryPaths sub [[(f, order)]] ps i) fs) := by
  have hpath : entryPaths sub [[(f, order)]] ps i =
      ((get ps f).map fun v => [sub (.str f), sub v, sub i]).toList := by
    simp only [entryPaths, index_key, List.filterMap_cons, List.filterMap_nil, List.head?_cons,
      Option.map_some]
    cases get ps f <;> rfl
  rw [hpath]
  change ∃ t, run (recorded b refuse) (match get ps f with | none => _ | some v => _) ((s, fs), cs) = _ ∧ _
  cases hval : get ps f with
  | none =>
    refine ⟨_, rfl, rfl, ?_⟩
    simp [passed, Globals.addNodes]
  | some v =>
    have hscalars : ∀ x ∈ [Json.str f, v, i], Scalar x := by
      simpa using ⟨hf, hscalar v hval, hid⟩
    have hset : view (b (.set ⟨self.index_global, [some (.str f), some v, get ps idKey]⟩ (.str [])) s).1 =
        (view s).setNode self.index_global [sub (.str f), sub v, sub i] := by
      rw [hget]
      exact law.set s self.index_global [.str f, v, i] _ hscalars
    change ∃ t, ((recorded b refuse (Call.set ⟨self.index_global, [some (.str f), some v, get ps idKey]⟩
      (.str [])) ((s, fs), cs)).1, Except.ok PUnit.unit) = _ ∧ _
    cases hfs : fs.headD false with
    | true =>
      rw [recorded_fails id hfs]
      refine ⟨_, rfl, List.drop_one.symm, ?_⟩
      simp only [passed, Option.map_some, Option.toList_some, hfs, if_true]
      simp [Globals.addNodes]
    | false =>
      rw [recorded_succeeds id hfs]
      refine ⟨_, rfl, List.drop_one.symm, hset.trans ?_⟩
      simp only [passed, Option.map_some, Option.toList_some, hfs, Bool.false_eq_true, if_false]
      simp [Globals.setNode, Globals.addNodes]

variable (refuse) in
omit href in
theorem run_update_index_failing (self : Collection) {ps : Props} {i : Json}
    (hsingle : self.SingleField) (hscalar : self.ScalarFields ps) (hid : Scalar i)
    (hget : get ps idKey = some i) (s : σ) (fs : List Bool) (cs : List Callback) :
    ∃ t, run (recorded b refuse) (self.update_index .SAVE (some (.obj ps))) ((s, fs), cs) =
      ((t, cs), .ok ⟨⟩) ∧
      view t.1 = (view s).addNodes self.index_global (passed (self.paths sub ps i) fs) := by
  have hrun : ∃ t, run (recorded b refuse) (self.update_index .SAVE (some (.obj ps))) ((s, fs), cs) =
      (t, .ok ⟨⟩) ∧ t.2 = cs ∧ t.1.2 = fs.drop (self.paths sub ps i).length ∧
      view t.1.1 = (view s).addNodes self.index_global (passed (self.paths sub ps i) fs) := by
    refine run_forM (I := fun done (t : (σ × List Bool) × List Callback) => t.2 = cs ∧
      t.1.2 = fs.drop (entryPaths sub done ps i).length ∧
      view t.1.1 = (view s).addNodes self.index_global (passed (entryPaths sub done ps i) fs)) ?_ ?_
    · simp [entryPaths, Globals.addNodes, passed]
    rintro done index rest ⟨⟨t, gs⟩, ds⟩ hindexes ⟨rfl, rfl, hview⟩
    have hmem : index ∈ self.indexes := by simp [hindexes]
    obtain ⟨f, order, rfl, hf⟩ := hsingle index hmem
    have hfield : f ∈ self.fields := List.mem_filterMap.mpr ⟨_, hmem, rfl⟩
    have happ : entryPaths sub (done ++ [[(f, order)]]) ps i =
        entryPaths sub done ps i ++ entryPaths sub [[(f, order)]] ps i := by
      simp [entryPaths]
    obtain ⟨u, hu, hflags, hentry⟩ := run_update_entry_failing refuse law self hf (hscalar f hfield) hid
      hget t (fs.drop (entryPaths sub done ps i).length) ds
    refine ⟨(u, ds), hu, rfl, ?_, ?_⟩
    · rw [hflags, happ, List.length_append, List.drop_drop]
    · dsimp only at hview
      rw [hentry, hview, happ, passed_append]
      simp [Globals.addNodes, or_assoc, and_or_left]
  obtain ⟨⟨⟨t, gs⟩, ds⟩, hrun, rfl, -, hview⟩ := hrun
  exact ⟨(t, gs), hrun, hview⟩

omit law href [LinearOrder κ] in
theorem system_global_ne_index (self : Collection) : self.system_global ≠ self.index_global := by
  rw [system_global, index_global, Ne, List.append_right_inj]
  decide

omit law href [LinearOrder κ] in
theorem unharmed_addNodes_iff (self : Collection) (g : Globals κ) (paths : List (List κ)) :
    self.Unharmed g (g.addNodes self.index_global paths) ↔
      ∀ p ∈ paths, g.node self.index_global p := by
  constructor
  · rintro ⟨-, -, -, ⟨-, -, hnode⟩, -⟩ p hp
    rw [← hnode]
    exact .inr ⟨rfl, hp⟩
  · intro h
    have hsame : ∀ name, (g.addNodes self.index_global paths).SameAt g name := by
      refine fun name => ⟨rfl, rfl, ?_⟩
      funext p
      rw [eq_iff_iff]
      refine ⟨fun hp => hp.elim (fun hp => hp) ?_, Or.inl⟩
      rintro ⟨rfl, hmem⟩
      exact h p hmem
    exact ⟨le_refl _, (hsame self.name).2.1, (hsame self.name).2.2, hsame _, hsame _⟩

omit law href [LinearOrder κ] in
theorem spares_of_callback {self : Collection} {m : Method} (hm : ¬ m.Adds) {s : σ} {fs : List Bool}
    {t : σ × List Bool} {error result : Option Json} {o : Except Stop (Option Json)}
    (hrun : run (recorded b refuse) (self.asyncCall m) ((s, fs), []) = ((t, [⟨error, result⟩]), o)) :
    Spares b refuse view self s fs m .async ↔
      (truthy error = true → self.Unharmed (view s) (view t.1)) := by
  constructor
  · intro h herror
    exact (h _ _ hrun ⟨_, List.mem_singleton_self _, herror⟩).1
  · intro h t' o' hrun' hrep
    rw [hrun] at hrun'
    obtain ⟨rfl, rfl⟩ := Prod.mk.inj hrun'
    obtain ⟨c, hc, herror⟩ := hrep
    obtain rfl := List.mem_singleton.mp hc
    exact ⟨h herror, fun hadds => absurd hadds hm⟩

theorem save_async_spares_iff (self : Collection) {ps : Props} {i : Json} (hsingle : self.SingleField)
    (hscalar : self.ScalarFields ps) (hid : Scalar i) (hget : get ps idKey = some i) (s : σ)
    (fs : List Bool) : Spares b refuse view self s fs (.save ps) .async ↔ fs.headD false = false ∨
      ∀ p ∈ passed (self.paths sub ps i) fs.tail, (view s).node self.index_global p := by
  have hadds : ¬ (Method.save ps).Adds := by
    intro h
    cases hget.symm.trans h
  have hcall : self.asyncCall (.save ps) = _ := save_async_stored self hget
  cases hfs : fs.headD false with
  | true =>
    obtain ⟨t, ht, hview⟩ := run_update_index_failing refuse law self hsingle hscalar hid hget
      s fs.tail []
    have hrun : run (recorded b refuse) (self.asyncCall (.save ps)) ((s, fs), []) =
        ((t, [⟨(refuse (.update ⟨self.name, [some i]⟩ (.obj ps))).error, none⟩]), .ok (some (.obj ps))) := by
      rw [hcall, run_bind_ok (run_async _ _), recorded_fails id hfs [], run_bind_ok ht]
      rfl
    rw [spares_of_callback hadds hrun, hview, unharmed_addNodes_iff]
    simp [href.error]
  | false =>
    obtain ⟨u, hu⟩ := run_update_index_recorded b refuse self .SAVE ps
      ((b (.update ⟨self.name, [some i]⟩ (.obj ps)) s).1, fs.tail) []
    have hrun : run (recorded b refuse) (self.asyncCall (.save ps)) ((s, fs), []) =
        ((u, [⟨none, none⟩]), .ok (some (.obj ps))) := by
      rw [hcall, run_bind_ok (run_async _ _), recorded_succeeds id hfs [], law.no_error, run_bind_ok hu]
      rfl
    rw [spares_of_callback hadds hrun]
    simp [truthy]

theorem save_async_empty_spares_iff (self : Collection) (s : σ) (fs : List Bool) :
    Spares b refuse view self s fs (.save []) .async ↔ fs.headD false = true := by
  have hcall : self.asyncCall (.save []) = (do
      callBack (some emptyError) (some (.obj []))
      self.add_async (some (.obj []))) := rfl
  have hempty : ∃ c ∈ [Callback.mk (some emptyError) (some (.obj []))], truthy c.error = true :=
    ⟨_, List.mem_singleton_self _, rfl⟩
  unfold Spares
  rw [hcall, run_bind_ok (run_callBack_recorded _ _ _ _)]
  cases hfs : fs.headD false with
  | true =>
    refine iff_of_true (fun t o hrun _ => ?_) rfl
    rw [add_async, run_bind_error (run_next_id_fails href self hfs _)] at hrun
    obtain ⟨rfl, rfl⟩ := Prod.mk.inj hrun
    exact ⟨.refl self _, fun _ x hx => by cases hx⟩
  | false =>
    obtain ⟨t, error, result, hrun, -⟩ := run_add_async_recorded law href self [] (s := s) hfs
      [⟨some emptyError, some (.obj [])⟩]
    refine iff_of_false (fun h => ?_) (by simp)
    obtain ⟨c, hc, herror⟩ := hempty
    exact not_noId_stored _ _ ((h _ _ hrun ⟨c, List.mem_append_left _ hc, herror⟩).2 rfl _ rfl)

theorem remove_spares (self : Collection) (ps : Props) (s : σ) (fs : List Bool) :
    Spares b refuse view self s fs (.remove ps) .sync := by
  intro t e hrun hrep
  refine ⟨?_, fun hadds => hadds.elim⟩
  have hcall : self.syncCall (.remove ps) = self.remove (some (.obj ps)) := rfl
  rw [hcall] at hrun
  cases hget : get ps idKey with
  | none =>
    change run (recorded b refuse)
      ((liftM (self.fetch_glo_ref_from_object (some (.obj ps))) : Prog GloRef) >>= _) _ = _ at hrun
    rw [fetch_none self hget] at hrun
    cases (Prod.mk.inj hrun).2
  | some i =>
    rw [remove_stored self hget, run_bind_ok (run_sync _ _)] at hrun
    cases hfs : fs.headD false with
    | true =>
      rw [recorded_fails id hfs [], run_bind_ok (a := false)
        (by rw [run_liftM, href.kill]; rfl)] at hrun
      rw [← (Prod.mk.inj hrun).1]
      exact .refl self _
    | false =>
      -- a kill that succeeds is not reported
      rw [recorded_succeeds id hfs [], run_bind_ok (a := true)
        (by rw [run_liftM, law.kill_ok]; rfl), if_pos rfl] at hrun
      obtain ⟨u, hu⟩ := run_update_index_recorded b refuse self .REMOVE ps
        ((b (.kill ⟨self.name, [some i]⟩) s).1, fs.tail) []
      rw [run_bind_ok hu] at hrun
      obtain ⟨v, hv, hok⟩ := hrep
      rw [← Except.ok.inj (Prod.mk.inj hrun).2] at hv
      rw [← Option.some.inj hv, law.kill_ok] at hok
      exact absurd rfl hok

omit law href in
def killed (failed : Bool) (g : Globals κ) (name : JsString) (path : List κ) : Globals κ :=
  if failed then g else g.kill name path

variable (refuse) in
omit href in
theorem recorded_kill (ref : GloRef) (subs : List Json) (href : ref.subscripts = subs.map some)
    (hsubs : ∀ x ∈ subs, Scalar x) (s : σ) (fs : List Bool) (cs : List Callback) :
    ∃ t r, recorded b refuse (Call.kill ref) ((s, fs), cs) = (((t, fs.tail), cs), r) ∧
      view t = killed (fs.headD false) (view s) ref.global (subs.map sub) ∧
      (r.error = if fs.headD false then (refuse (Call.kill ref)).error else none) := by
  obtain ⟨name, subscripts⟩ := ref
  obtain rfl : subscripts = subs.map some := href
  cases hfs : fs.headD false with
  | true => exact ⟨_, _, recorded_fails id hfs cs, rfl, rfl⟩
  | false => exact ⟨_, _, recorded_succeeds id hfs cs, law.kill s name subs hsubs, law.no_error _ _⟩

omit law href in
theorem sameAt_killed {g : Globals κ} {failed : Bool} {name other : JsString} {path : List κ}
    (hne : other ≠ name) : (killed failed g name path).SameAt g other := by
  cases failed with
  | true => exact .refl g other
  | false => simp [Globals.SameAt, killed, Globals.kill, hne]

omit law href in
theorem killed_same_iff (g : Globals κ) (failed : Bool) (name : JsString) :
    (killed failed g name []).SameAt g name ↔ failed = true ∨ g.Bare name := by
  cases failed with
  | true => exact iff_of_true (.refl g name) (.inl rfl)
  | false =>
    have hgone : (killed false g name []).Bare name := by simp [Globals.Bare, killed, Globals.kill]
    constructor
    · intro hsame
      obtain ⟨hr, ho, hn⟩ := hsame
      exact .inr ⟨hr ▸ hgone.1, fun l => ho ▸ hgone.2.1 l, fun p => hn ▸ hgone.2.2 p⟩
    · intro h
      obtain ⟨hr, ho, hn⟩ := h.resolve_left Bool.false_ne_true
      refine ⟨hgone.1.trans hr.symm, funext fun l => (hgone.2.1 l).trans (ho l).symm, funext fun p => ?_⟩
      exact propext (iff_of_false (hgone.2.2 p) (hn p))

omit law href in
theorem killed_level_iff (g : Globals κ) (failed : Bool) (name : JsString) (k : κ) :
    ((killed failed g name [k]).object name = g.object name ∧
      (killed failed g name [k]).node name = g.node name) ↔
      failed = true ∨ (g.object name k = none ∧ ∀ p, [k] <+: p → ¬ g.node name p) := by
  cases failed with
  | true => exact iff_of_true ⟨rfl, rfl⟩ (.inl rfl)
  | false =>
    have hobject : ∀ l, (killed false g name [k]).object name l = if l = k then none else g.object name l := by
      intro l
      simp [killed, Globals.kill, eq_comm]
    have hnode : ∀ p, (killed false g name [k]).node name p ↔ g.node name p ∧ ¬ [k] <+: p := by
      intro p
      simp [killed, Globals.kill]
    constructor
    · intro hlevel
      obtain ⟨ho, hn⟩ := hlevel
      refine .inr ⟨?_, fun p hp hnodep => ?_⟩
      · rw [← ho, hobject, if_pos rfl]
      · rw [← hn, hnode] at hnodep
        exact hnodep.2 hp
    · intro h
      obtain ⟨ho, hn⟩ := h.resolve_left Bool.false_ne_true
      refine ⟨funext fun l => ?_, funext fun p => ?_⟩
      · rw [hobject]
        split_ifs with hl
        · rw [hl, ho]
        · rfl
      · rw [eq_iff_iff, hnode]
        exact ⟨And.left, fun hp => ⟨hp, fun hk => hn p hk hp⟩⟩

omit law href in
theorem unharmed_killed_iff (self : Collection) (g : Globals κ) (k : κ) (data system : Bool) :
    self.Unharmed g (killed system (killed data g self.name [k]) self.system_global []) ↔
      (data = true ∨ (g.object self.name k = none ∧ ∀ p, [k] <+: p → ¬ g.node self.name p)) ∧
        (system = true ∨ g.Bare self.system_global) := by
  set d := killed data g self.name [k] with hd
  have hroot : d.root self.name = g.root self.name := by
    cases data <;> simp [hd, killed, Globals.kill]
  obtain ⟨hsroot, hsobject, hsnode⟩ : (killed system d self.system_global []).SameAt d self.name :=
    sameAt_killed self.system_global_ne
  have hentries : (killed system d self.system_global []).SameAt g self.index_global :=
    (sameAt_killed self.system_global_ne_index.symm).trans (sameAt_killed self.index_global_ne.symm)
  -- the definitions are what they were exactly when the second kill leaves them
  have hdata : d.SameAt g self.system_global := sameAt_killed self.system_global_ne.symm
  have hsystem : (killed system d self.system_global []).SameAt g self.system_global ↔
      (system = true ∨ g.Bare self.system_global) := by
    have hbare : d.Bare self.system_global ↔ g.Bare self.system_global := by
      rw [Globals.Bare, Globals.Bare, hdata.1, hdata.2.1, hdata.2.2]
    rw [← hbare, ← killed_same_iff, Globals.SameAt, Globals.SameAt, hdata.1, hdata.2.1, hdata.2.2]
  rw [Unharmed, hsystem, and_iff_right hentries, hsroot, hroot, and_iff_right le_rfl, hsobject, hsnode,
    ← and_assoc, killed_level_iff]

theorem remove_async_spares_iff (self : Collection) {ps : Props}
    (hid : ∀ i, get ps idKey = some i → Scalar i) (s : σ) (fs : List Bool) :
    Spares b refuse view self s fs (.remove ps) .async ↔
      ∀ i, get ps idKey = some i → fs.tail.tail.headD false = false ∨
        ((fs.headD false = true ∨ ((view s).object self.name (sub i) = none ∧
            ∀ p, [sub i] <+: p → ¬ (view s).node self.name p)) ∧
          (fs.tail.headD false = true ∨ (view s).Bare self.system_global)) := by
  have hadds : ¬ (Method.remove ps).Adds := fun h => h
  cases hget : get ps idKey with
  | none =>
    refine iff_of_true (fun t o hrun hrep => ?_) (by simp)
    change run (recorded b refuse)
      ((liftM (self.fetch_glo_ref_from_object (some (.obj ps))) : Prog GloRef) >>= _ >>= _) _ = _ at hrun
    rw [fetch_none self hget] at hrun
    rw [← (Prod.mk.inj hrun).1] at hrep
    obtain ⟨c, hc, -⟩ := hrep
    cases hc
  | some i =>
    obtain ⟨t₁, r₁, h₁, hview₁, -⟩ := recorded_kill refuse law ⟨self.name, [some i]⟩
      [i] rfl (by simpa using hid i hget) s fs []
    obtain ⟨t₂, r₂, h₂, hview₂, -⟩ := recorded_kill refuse law (self.system_glo_ref [])
      [] rfl (by simp) t₁ fs.tail []
    obtain ⟨t₃, r₃, h₃, hview₃, herror⟩ := recorded_kill refuse law (self.index_glo_ref [])
      [] rfl (by simp) t₂ fs.tail.tail []
    have hremove : run (recorded b refuse) (self.remove_async (some (.obj ps))) ((s, fs), []) =
        (((t₃, fs.tail.tail.tail), [⟨r₃.error, some r₃.result⟩]), .ok ⟨⟩) := by
      rw [remove_async_stored self hget, run_bind_ok (run_async _ _), h₁, run_bind_ok (run_async _ _),
        h₂, run_bind_ok (run_async _ _), h₃]
      rfl
    have hrun : run (recorded b refuse) (self.asyncCall (.remove ps)) ((s, fs), []) =
        (((t₃, fs.tail.tail.tail), [⟨r₃.error, some r₃.result⟩]), .ok (some (.obj ps))) :=
      run_bind_ok hremove _
    rw [spares_of_callback hadds hrun, herror, hview₃, hview₂, hview₁]
    cases hlast : fs.tail.tail.headD false with
    | false => simp [truthy]
    | true =>
      have hiff := unharmed_killed_iff self (view s) (sub i) (fs.headD false) (fs.tail.headD false)
      rw [if_pos rfl]
      constructor
      · intro h j hj
        obtain rfl := Option.some.inj hj
        exact .inr (hiff.mp (h (href.error _)))
      · intro h _
        exact hiff.mpr ((h i rfl).resolve_left (by simp))

omit href in
theorem removeAll_spares (self : Collection) (s : σ) (fs : List Bool) (style : Style) :
    Spares b refuse view self s fs .removeAll style := by
  cases style with
  | sync =>
    rintro t e hrun ⟨v, hv, -⟩
    rw [← Except.ok.inj (Prod.mk.inj hrun).2] at hv
    cases hv
  | async =>
    have hcall : self.asyncCall .removeAll = (do
        let r ← (Call.killGlobal self.name).async
        callBack r.error (some r.result)
        return none) := rfl
    unfold Spares
    rw [hcall, run_bind_ok (run_async _ _)]
    rintro t o hrun ⟨c, hc, herror⟩
    refine ⟨?_, fun hadds => hadds.elim⟩
    cases hfs : fs.headD false with
    | true =>
      rw [recorded_fails id hfs []] at hrun
      rw [← (Prod.mk.inj hrun).1]
      exact .refl self _
    | false =>
      rw [recorded_succeeds id hfs []] at hrun
      rw [← (Prod.mk.inj hrun).1] at hc
      obtain rfl := List.mem_singleton.mp hc
      rw [law.no_error] at herror
      cases herror

/-- Whatever calls fail: a method that reports an error has left the store alone exactly when
the condition of its path holds. -/
theorem error_spares_store_iff (self : Collection) (style : Style) {m : Method}
    (hm : Method.Subscripts self m) (s : σ) (fs : List Bool) :
    Spares b refuse view self s fs m style ↔ Safe self sub (view s) fs style m := by
  cases m with
  | add ps =>
    have hadds : (Method.add ps).Adds := trivial
    cases style with
    | sync => exact add_spares_iff law href self ps hadds (fun _ => Iff.rfl) rfl s fs
    | async => exact add_async_spares_iff law href self ps hadds rfl s fs
  | save ps =>
    cases hget : get ps idKey with
    | none =>
      have hadds : (Method.save ps).Adds := hget
      rcases eq_or_ne ps [] with rfl | hps
      · cases style with
        | sync =>
          refine iff_of_true ?_ fun h => absurd rfl h
          rintro t e hrun -
          obtain ⟨rfl, he⟩ := Prod.mk.inj hrun
          rw [← Except.ok.inj he]
          refine ⟨.refl self _, fun _ qs hqs => ?_⟩
          obtain rfl : [] = qs := Json.obj.inj (Option.some.inj hqs)
          rfl
        | async => exact save_async_empty_spares_iff law href self s fs
      · cases style with
        | sync =>
          have hcall : self.syncCall (.save ps) = self.add (some (.obj ps)) := save_new self hps hget
          rw [add_spares_iff law href self ps hadds (fun _ => Iff.rfl) hcall]
          exact ⟨fun h _ _ => h, fun h => h hps hget⟩
        | async =>
          have hcall : self.asyncCall (.save ps) = self.add_async (some (.obj ps)) :=
            save_async_new self hps hget
          rw [add_async_spares_iff law href self ps hadds hcall, Safe, hget]
          simp only [if_neg hps]
    | some i =>
      obtain ⟨hid, hsingle, hscalar⟩ := hm i hget
      cases style with
      | sync =>
        refine iff_of_true (save_spares law href self hget s fs) fun _ hnone => ?_
        rw [hget] at hnone
        cases hnone
      | async =>
        rw [save_async_spares_iff law href self hsingle hscalar hid hget, Safe, hget]
  | remove ps =>
    cases style with
    | sync => exact iff_of_true (remove_spares law href self ps s fs) trivial
    | async => exact remove_async_spares_iff law href self hm s fs
  | removeAll =>
    refine iff_of_true (removeAll_spares law self s fs style) ?_
    cases style <;> trivial

end

def refusal (c : Call) : Reply c where
  error := some (.str (js "error"))
  result := match c with
    | .order _ | .orderNothing => ⟨[], [], .str []⟩
    | .retrieve _ | .get _ => none
    | .callback _ _ => ()
    | .set _ _ | .kill _ | .killGlobal _ | .increment _ | .update _ _ | .close =>
      Json.obj [(js "ok", .ofInt 0)]

theorem refusal_refuses : Refusal refusal where
  error _ := rfl
  update _ _ := rfl
  kill _ := rfl
  increment _ := rfl

theorem error_spares_store_people :
    let s := after Disk.binding people [.save (ann 30)] Disk.empty
    Spares Disk.binding refusal Disk.view people s [true] (.save (stored (ann 31) 1)) .async ↔
      Safe people Subscript.of s.view [true] .async (.save (stored (ann 31) 1)) := by
  intro s
  have hm : Method.Subscripts people (.save (stored (ann 31) 1)) := by
    intro i hi
    obtain rfl : Json.ofInt 1 = i := Option.some.inj hi
    refine ⟨trivial, fun index hindex => ?_, fun f hf v hv => ?_⟩
    · exact ⟨js "age", .ofInt 1, List.mem_singleton.mp hindex, by decide⟩
    · obtain rfl : f = js "age" := List.mem_singleton.mp hf
      obtain rfl : Json.ofInt 31 = v := Option.some.inj hv
      exact scalar_ofInt 31
  exact error_spares_store_iff Disk.lawful refusal_refuses people .async hm s [true]

/-- The write of an update fails and is reported, and yet the index gets the new value's entry. -/
theorem failed_save_indexes :
    let s := after Disk.binding people [.save (ann 30)] Disk.empty
    ¬ Spares Disk.binding refusal Disk.view people s [true] (.save (stored (ann 31) 1)) .async := by
  intro s h
  have hunharmed := (h _ _ rfl ⟨_, List.mem_singleton_self _, rfl⟩).1
  have hentry : (js "people1gdb", [Subscript.of (.str (js "age")), .of (.ofInt 31), .of (.ofInt 1)]) ∉ s.nodes := by
    decide +kernel
  have hnode := congrFun hunharmed.2.2.2.1.2.2 [.of (.str (js "age")), .of (.ofInt 31), .of (.ofInt 1)]
  refine hentry (hnode.mp ?_).1
  decide +kernel

end Collection

end GlobalsJs
