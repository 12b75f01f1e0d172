import GlobalsJs.Collection.AsyncFind
import GlobalsJs.Collection.Callbacks

/-!
# One call, one callback

`findOne` and `reIndex` pass their callback on to a find that calls it for each object. The
number of calls is that of the objects which the scan comes to and keeps; with the methods
that write this says of each method when it calls back once.
-/

namespace GlobalsJs
open Ecma Cache Query Calls.Prog

variable {σ : Type} {b : Binding σ} {α β : Type}

theorem onCallback_bind (f : Option Json → Option Json → Prog Unit) (p : Prog α) (g : α → Prog β) :
    onCallback f (p >>= g) = onCallback f p >>= fun a => onCallback f (g a) := by
  induction p with
  | ret | throw => rfl
  | call c k ih =>
    cases c with
    | callback error result =>
      change (f error result >>= fun _ => onCallback f (k ⟨none, ()⟩ >>= g)) = _
      rw [ih]
      exact (bind_assoc _ _ _).symm
    | set | kill | killGlobal | increment | update | order | orderNothing | retrieve | get | close =>
      exact congrArg (Calls.Prog.call _) (funext fun r => ih r)

theorem onCallback_liftM (f : Option Json → Option Json → Prog Unit) (x : Except JsError α) :
    onCallback f (liftM x : Prog α) = liftM x := by
  cases x <;> rfl

namespace Collection

def nextRow (b : Binding σ) (s : σ) (ref : GloRef) : Option (σ × GloRef × Callback) :=
  let r := b (.order ref) s
  if r.2.result.result = .str [] then none
  else
    let gr : GloRef := ⟨r.2.result.global, r.2.result.subscripts⟩
    let found := b (.retrieve gr) r.1
    some (found.1, gr, ⟨found.2.error, found.2.result⟩)

def rowsUpTo (b : Binding σ) : ℕ → σ → GloRef → List (Option Json)
  | 0, _, _ => []
  | n + 1, s, ref =>
    match nextRow b s ref with
    | none => []
    | some (t, gr, row) => row.result :: rowsUpTo b n t gr

def keeps (realm : Realm) (query row : Option Json) : Except JsError Bool :=
  match query with
  | none => .ok true
  | some q => if isEmptyObject query then .ok true else do spin_match realm q (← entries (row.getD .null))

def shown (realm : Realm) (query : Option Json) (rows : List (Option Json)) : List (Option Json) :=
  (rows.takeWhile fun row => (keeps realm query row).isOk).filter fun row =>
    (keeps realm query row).toOption = some true

def deliver (f : Option Json → Option Json → Prog Unit) (realm : Realm) (query error row : Option Json)
    (rest : Prog Unit) : Prog Unit := do
  let keep ← (liftM (keeps realm query row) : Prog Bool)
  if keep then f error row
  rest

theorem onCallback_spin_find (f : Option Json → Option Json → Prog Unit) (realm : Realm) (query : Option Json)
    (n : ℕ) (ref : GloRef) : onCallback f (spin_find realm query (n + 1) ref) = (do
      let r ← (Call.order ref).sync
      if r.result = .str [] then pure ()
      else do
        let found ← (Call.retrieve ⟨r.global, r.subscripts⟩).async
        deliver f realm query found.error found.result
          (onCallback f (spin_find realm query n ⟨r.global, r.subscripts⟩))) := by
  have hkeep : ∀ (gr : GloRef) (found : Reply (.retrieve gr)) (keep : Bool), onCallback f (do
      if keep then callBack found.error found.result
      spin_find realm query n gr) = (do
        if keep then f found.error found.result
        onCallback f (spin_find realm query n gr)) := by
    intro gr found keep
    cases keep <;> rfl
  rw [spin_find, onCallback_bind]
  refine congrArg ((Call.order ref).sync >>= ·) (funext fun r => ?_)
  rw [apply_ite (onCallback f)]
  refine congrArg (ite _ _) ?_
  rw [onCallback_bind]
  refine congrArg ((Call.retrieve _).async >>= ·) (funext fun found => ?_)
  unfold deliver
  cases query with
  | none => exact hkeep _ found true
  | some q =>
    have hkeeps : keeps realm (some q) found.result = if isEmptyObject (some q) then .ok true
        else (do spin_match realm q (← entries (found.result.getD .null))) := rfl
    rw [hkeeps]
    dsimp only
    cases isEmptyObject (some q) with
    | true => exact hkeep _ found true
    | false =>
      rw [if_neg Bool.false_ne_true, if_neg Bool.false_ne_true, onCallback_bind, onCallback_liftM]
      exact congrArg (_ >>= ·) (funext fun keep => hkeep _ found keep)

theorem callbacks_scan_succ (f : Option Json → Option Json → Prog Unit) (realm : Realm) (query : Option Json)
    (n : ℕ) (ref : GloRef) (s : σ) :
    callbacks b (onCallback f (spin_find realm query (n + 1) ref)) s =
      match nextRow b s ref with
      | none => 0
      | some (t, gr, row) => callbacks b (deliver f realm query row.error row.result
          (onCallback f (spin_find realm query n gr))) t := by
  have horder : returning b (.order ref) s = b (.order ref) s := rfl
  rw [onCallback_spin_find, callbacks_sync rfl, horder, nextRow]
  generalize b (.order ref) s = r
  by_cases hend : r.2.result.result = .str []
  · rw [if_pos hend, if_pos hend]
    rfl
  · rw [if_neg hend, if_neg hend, callbacks_async rfl]
    rfl

theorem callbacks_scan {f : Option Json → Option Json → Prog Unit}
    (hf : ∀ error row s, Calls.Prog.run (returning b) (f error row) s = (s, .ok ()) ∧ callbacks b (f error row) s = 1)
    (realm : Realm) (query : Option Json) (n : ℕ) (ref : GloRef) (s : σ) :
    callbacks b (onCallback f (spin_find realm query n ref)) s =
      (shown realm query (rowsUpTo b n s ref)).length := by
  induction n generalizing s ref with
  | zero => rfl
  | succ n ih =>
    rw [callbacks_scan_succ, rowsUpTo]
    cases nextRow b s ref with
    | none => rfl
    | some next =>
      obtain ⟨t, gr, row⟩ := next
      dsimp only
      cases hkeep : keeps realm query row.result with
      | error e =>
        rw [deliver, callbacks_liftM_error hkeep, shown, List.takeWhile_cons_of_neg (by rw [hkeep]; exact Bool.false_ne_true)]
        rfl
      | ok keep =>
        have hshown : shown realm query (row.result :: rowsUpTo b n t gr) =
            (if keep then [row.result] else []) ++ shown realm query (rowsUpTo b n t gr) := by
          rw [shown, List.takeWhile_cons_of_pos (by rw [hkeep]; rfl), List.filter_cons, hkeep]
          cases keep <;> rfl
        rw [deliver, callbacks_liftM hkeep, hshown]
        cases keep with
        | false => exact ih gr t
        | true =>
          obtain ⟨hrun, hone⟩ := hf row.error row.result t
          rw [List.length_append, if_pos rfl]
          refine (callbacks_bind hrun _).trans ?_
          rw [hone, ih]
          rfl

def orderAt (b : Binding σ) (s : σ) : Option GloRef → σ × Option Json × Ordered
  | some ref => ((b (.order ref) s).1, (b (.order ref) s).2.error, (b (.order ref) s).2.result)
  | none => ((b .orderNothing s).1, (b .orderNothing s).2.error, (b .orderNothing s).2.result)

def OneEntry (self : Collection) (b : Binding σ) (s : σ) (ref : Option GloRef) : Prop :=
  let first := orderAt b s ref
  let gri : GloRef := ⟨first.2.2.global, first.2.2.subscripts⟩
  let second := orderAt b (b (.retrieve ⟨self.name, [some first.2.2.result]⟩) first.1).1 (some gri)
  truthy first.2.1 = true ∨ (first.2.2.result ≠ .str [] ∧ truthy second.2.1 = false ∧ second.2.2.result = .str [])

theorem onCallback_spin_find_index (f : Option Json → Option Json → Prog Unit) (self : Collection) (n : ℕ)
    (ref : Option GloRef) : onCallback f (self.spin_find_index (n + 1) ref) = (do
      let r ← order_async ref
      if truthy r.1 then f r.1 (some (.obj []))
      else if r.2.result = .str [] then
        let _ ← Call.close.sync
      else do
        let found ← (Call.retrieve ⟨self.name, [some r.2.result]⟩).async
        f found.error found.result
        onCallback f (self.spin_find_index n (some ⟨r.2.global, r.2.subscripts⟩))) := by
  have horder : onCallback f (order_async ref) = order_async ref := by cases ref <;> rfl
  rw [spin_find_index, onCallback_bind, horder]
  refine congrArg (order_async ref >>= ·) (funext fun r => ?_)
  rw [apply_ite (onCallback f), apply_ite (onCallback f)]
  have hcall : onCallback f (callBack r.1 (some (.obj []))) = f r.1 (some (.obj [])) :=
    bind_pure (f r.1 (some (.obj [])))
  rw [hcall]
  rfl

theorem callbacks_index_succ {f : Option Json → Option Json → Prog Unit}
    (hf : ∀ error row s, Calls.Prog.run (returning b) (f error row) s = (s, .ok ()) ∧ callbacks b (f error row) s = 1)
    (self : Collection) (n : ℕ) (ref : Option GloRef) (s : σ) :
    callbacks b (onCallback f (self.spin_find_index (n + 1) ref)) s =
      if truthy (orderAt b s ref).2.1 then 1
      else if (orderAt b s ref).2.2.result = .str [] then 0
      else 1 + callbacks b (onCallback f (self.spin_find_index n
          (some ⟨(orderAt b s ref).2.2.global, (orderAt b s ref).2.2.subscripts⟩)))
        (b (.retrieve ⟨self.name, [some (orderAt b s ref).2.2.result]⟩) (orderAt b s ref).1).1 := by
  have hread : Only (fun c => c.isCallback = false) (order_async ref) := by
    cases ref with
    | none => exact .call rfl fun _ => .ret _
    | some ref => exact .call rfl fun _ => .ret _
  have hrun : Calls.Prog.run (returning b) (order_async ref) s =
      ((orderAt b s ref).1, .ok (orderAt b s ref).2) := by
    cases ref <;> rfl
  rw [onCallback_spin_find_index, callbacks_bind_ok hread hrun]
  generalize orderAt b s ref = r
  split_ifs
  · exact (hf _ _ _).2
  · rfl
  · rw [callbacks_async rfl]
    obtain ⟨hcall, hone⟩ := hf (b (.retrieve ⟨self.name, [some r.2.2.result]⟩) r.1).2.error
      (b (.retrieve ⟨self.name, [some r.2.2.result]⟩) r.1).2.result
      (b (.retrieve ⟨self.name, [some r.2.2.result]⟩) r.1).1
    refine (callbacks_bind hcall _).trans ?_
    rw [hone]

theorem callbacks_index {f : Option Json → Option Json → Prog Unit}
    (hf : ∀ error row s, Calls.Prog.run (returning b) (f error row) s = (s, .ok ()) ∧ callbacks b (f error row) s = 1)
    (self : Collection) {n : ℕ} (hn : 1 < n) (ref : Option GloRef) (s : σ) :
    callbacks b (onCallback f (self.spin_find_index n ref)) s = 1 ↔ self.OneEntry b s ref := by
  obtain ⟨m, rfl⟩ : ∃ m, n = m + 1 + 1 := ⟨n - 2, by omega⟩
  rw [callbacks_index_succ hf, callbacks_index_succ hf, OneEntry]
  generalize orderAt b s ref = first
  generalize orderAt b (b (.retrieve ⟨self.name, [some first.2.2.result]⟩) first.1).1
    (some ⟨first.2.2.global, first.2.2.subscripts⟩) = second
  split_ifs with hfirst hend herror hlast
  · exact iff_of_true rfl (.inl hfirst)
  · exact iff_of_false not_false fun h => (h.resolve_left hfirst).1 hend
  · refine iff_of_false (by omega) fun h => ?_
    have hnot := (h.resolve_left hfirst).2.1
    rw [herror] at hnot
    cases hnot
  · exact iff_of_true rfl (.inr ⟨hend, by simpa using herror, hlast⟩)
  · exact iff_of_false (by omega) fun h => hlast (h.resolve_left hfirst).2.2

def ShowsOne (b : Binding σ) (s : σ) (realm : Realm) (query : Option Json) (ref : GloRef) : Prop :=
  ∃ n, ∀ m, n < m → (shown realm query (rowsUpTo b m s ref)).length = 1

def FindsOne (self : Collection) (b : Binding σ) (s : σ) (realm : Realm) (query : Option Json) : Prop :=
  ∃ subscripts, query_subscripts query = .ok subscripts ∧
    if !isEmptyObject query ∧ self.indexes ≠ [] then
      ∃ ref, self.build_index_glo_ref_from_query (query.getD .null) = .ok ref ∧ self.OneEntry b s ref
    else ∃ ids query', push_zero query subscripts = .ok (ids, query') ∧
      ShowsOne b s realm query' ⟨self.name, ids⟩

theorem onCallback_find_async (f : Option Json → Option Json → Prog Unit) (self : Collection) (realm : Realm)
    (fuel : ℕ) (query : Option Json) : onCallback f (self.find_async realm fuel query) = (do
      let subscripts ← (liftM (query_subscripts (pop query)) : Prog (Option Json))
      if !isEmptyObject (pop query) ∧ self.indexes ≠ [] then do
        let ref ← (liftM (self.build_index_glo_ref_from_query ((pop query).getD .null)) : Prog (Option GloRef))
        onCallback f (self.spin_find_index fuel ref)
      else do
        let p ← (liftM (push_zero (pop query) subscripts) : Prog (List (Option Json) × Option Json))
        onCallback f (spin_find realm p.2 fuel ⟨self.name, p.1⟩)) := by
  rw [find_async, onCallback_bind, onCallback_liftM]
  refine congrArg (_ >>= ·) (funext fun subscripts => ?_)
  rw [apply_ite (onCallback f), onCallback_bind, onCallback_liftM, onCallback_bind, onCallback_liftM]

theorem not_eventually_one {x : ℕ → ℕ} (hx : ∀ fuel, x fuel = 0) : ¬ ∃ n, ∀ fuel, n < fuel → x fuel = 1 := by
  intro ⟨n, hn⟩
  have hone := hn (n + 1) (Nat.lt_succ_self n)
  rw [hx] at hone
  cases hone

theorem calledOnce_findOne (self : Collection) (realm : Realm) (query : Option Json) (s : σ) :
    CalledOnce b (fun fuel => self.findOne_async realm fuel query) s ↔ self.FindsOne b s realm (pop query) := by
  have hf : ∀ (error row : Option Json) (s : σ),
      Calls.Prog.run (returning b) (callBack error (first_object row)) s = (s, .ok ()) ∧
        callbacks b (callBack error (first_object row)) s = 1 := fun _ _ _ => ⟨rfl, rfl⟩
  rw [calledOnce_iff]
  simp only [findOne_async, onCallback_find_async]
  cases hsubs : query_subscripts (pop query) with
  | error e =>
    refine iff_of_false (not_eventually_one fun fuel => rfl) ?_
    intro ⟨subscripts, h, _⟩
    rw [hsubs] at h
    cases h
  | ok subscripts =>
    simp only [FindsOne, hsubs, callbacks_liftM rfl, Except.ok.injEq, exists_eq_left']
    by_cases hpath : (!isEmptyObject (pop query)) = true ∧ self.indexes ≠ []
    · simp only [if_pos hpath]
      cases href : self.build_index_glo_ref_from_query ((pop query).getD .null) with
      | error e =>
        exact iff_of_false (not_eventually_one fun fuel => rfl) fun ⟨ref, h, _⟩ => by cases h
      | ok ref =>
        simp only [callbacks_liftM rfl, Except.ok.injEq, exists_eq_left']
        constructor
        · intro ⟨n, hn⟩
          exact (callbacks_index hf self (n := n + 2) (by omega) ref s).mp (hn (n + 2) (by omega))
        · exact fun hone => ⟨1, fun fuel hfuel => (callbacks_index hf self hfuel ref s).mpr hone⟩
    · simp only [if_neg hpath]
      cases hpush : push_zero (pop query) subscripts with
      | error e =>
        exact iff_of_false (not_eventually_one fun fuel => rfl) fun ⟨ids, query', h, _⟩ => by cases h
      | ok p =>
        simp only [callbacks_liftM rfl, callbacks_scan hf, Except.ok.injEq]
        constructor
        · exact fun hone => ⟨p.1, p.2, rfl, hone⟩
        · intro ⟨ids, query', h, hone⟩
          rw [h]
          exact hone

def IndexesOne (self : Collection) (b : Binding σ) (s : σ) : Prop :=
  ∃ t gr row, nextRow b s ⟨self.name, [some (.ofInt 0)]⟩ = some (t, gr, row) ∧ self.CanIndex row.result ∧
    ∀ u gr' row', nextRow b (Calls.Prog.run (returning b) (self.update_index .SAVE row.result) t).1 gr =
      some (u, gr', row') → ¬ self.CanIndex row'.result

def indexRow (self : Collection) (_ row : Option Json) : Prog Unit := do
  self.update_index .SAVE row
  callBack (some (.obj [])) none

theorem callbacks_reIndex_succ (self : Collection) (realm : Realm) (n : ℕ) (ref : GloRef) (s : σ) :
    (nextRow b s ref = none →
      callbacks b (onCallback self.indexRow (spin_find realm (some (.obj [])) (n + 1) ref)) s = 0) ∧
    ∀ t gr row, nextRow b s ref = some (t, gr, row) →
      (¬ self.CanIndex row.result →
        callbacks b (onCallback self.indexRow (spin_find realm (some (.obj [])) (n + 1) ref)) s = 0) ∧
      (self.CanIndex row.result →
        callbacks b (onCallback self.indexRow (spin_find realm (some (.obj [])) (n + 1) ref)) s =
          1 + callbacks b (onCallback self.indexRow (spin_find realm (some (.obj [])) n gr))
            (Calls.Prog.run (returning b) (self.update_index .SAVE row.result) t).1) := by
  rw [callbacks_scan_succ]
  constructor
  · intro hnone
    rw [hnone]
  · intro t gr row hnext
    rw [hnext]
    have hindex := run_update_index_iff (b := returning b) self row.result t
    have hdeliver : deliver self.indexRow realm (some (.obj [])) row.error row.result
        (onCallback self.indexRow (spin_find realm (some (.obj [])) n gr)) =
        self.update_index .SAVE row.result >>= fun _ => callBack (some (.obj [])) none >>= fun _ =>
          onCallback self.indexRow (spin_find realm (some (.obj [])) n gr) :=
      bind_assoc (self.update_index .SAVE row.result) _ _
    dsimp only
    rw [hdeliver]
    constructor
    · intro hnot
      obtain ⟨u, e, hu⟩ := hindex.2 hnot
      exact callbacks_bind_error (silent_update_index self _ _) hu _
    · intro hcan
      obtain ⟨u, hu⟩ := hindex.1 hcan
      rw [callbacks_bind_ok (silent_update_index self _ _) hu, hu]
      rfl

theorem calledOnce_reIndex (self : Collection) (realm : Realm) (s : σ) :
    CalledOnce b (fun fuel => self.reIndex_async realm fuel) s ↔ self.IndexesOne b s := by
  have hreIndex : ∀ fuel, self.reIndex_async realm fuel = onCallback self.indexRow
      (spin_find realm (some (.obj [])) fuel ⟨self.name, [some (.ofInt 0)]⟩) :=
    fun fuel => (onCallback_find_async self.indexRow self realm fuel (some (.obj []))).trans rfl
  refine calledOnce_of_eventually (n := 1) fun fuel hfuel => ?_
  obtain ⟨n, rfl⟩ : ∃ n, fuel = n + 1 + 1 := ⟨fuel - 2, by omega⟩
  rw [hreIndex]
  obtain ⟨hend, hrow⟩ := callbacks_reIndex_succ (b := b) self realm (n + 1) ⟨self.name, [some (.ofInt 0)]⟩ s
  cases hnext : nextRow b s ⟨self.name, [some (.ofInt 0)]⟩ with
  | none =>
    refine iff_of_false (by rw [hend hnext]; decide) fun ⟨t, gr, row, h, _⟩ => ?_
    rw [hnext] at h
    cases h
  | some next =>
    obtain ⟨t, gr, row⟩ := next
    obtain ⟨hthrows, hindexed⟩ := hrow t gr row hnext
    have hone : self.IndexesOne b s ↔ self.CanIndex row.result ∧ ∀ u gr' row',
        nextRow b (Calls.Prog.run (returning b) (self.update_index .SAVE row.result) t).1 gr =
          some (u, gr', row') → ¬ self.CanIndex row'.result := by
      simp only [IndexesOne, hnext, Option.some.injEq, Prod.mk.injEq, exists_and_left, exists_eq_left', and_assoc]
    rw [hone]
    by_cases hcan : self.CanIndex row.result
    · rw [hindexed hcan, and_iff_right hcan]
      generalize (Calls.Prog.run (returning b) (self.update_index .SAVE row.result) t).1 = v
      obtain ⟨hend, hrow⟩ := callbacks_reIndex_succ (b := b) self realm n gr v
      cases hsecond : nextRow b v gr with
      | none => exact iff_of_true (by rw [hend hsecond]) fun u gr' row' h => by cases h
      | some second =>
        obtain ⟨u, gr', row'⟩ := second
        obtain ⟨hthrows, hindexed⟩ := hrow u gr' row' hsecond
        by_cases hcan' : self.CanIndex row'.result
        · refine iff_of_false (by rw [hindexed hcan']; omega) fun h => ?_
          exact h u gr' row' rfl hcan'
        · refine iff_of_true (by rw [hthrows hcan']) fun u' gr'' row'' h => ?_
          cases h
          exact hcan'
    · rw [hthrows hcan]
      exact iff_of_false (by decide) fun h => hcan h.1

/-- A call of a method with a callback. -/
inductive Asked
  | count
  | add (object : Option Json)
  | save (object : Option Json)
  | remove (object : Option Json)
  | findOne (realm : Realm) (query : Option Json)
  | reIndex (realm : Realm)

def Asked.program (self : Collection) (fuel : ℕ) : Asked → Prog Unit
  | .count => self.count_async
  | .add object => do let _ ← self.add_async object
  | .save object => do let _ ← self.save_async object
  | .remove object => self.remove_async object
  | .findOne realm query => self.findOne_async realm fuel query
  | .reIndex realm => self.reIndex_async realm fuel

/-- When the callback of the method is called once. A list stands for its last element. -/
def Asked.AnswersOnce (self : Collection) (b : Binding σ) (s : σ) : Asked → Prop
  | .count => True
  | .add object => self.Acknowledges b s object
  | .save object => self.SavesOnce b s (pop object)
  | .remove object => RemovesOnce (pop object)
  | .findOne realm query => self.FindsOne b s realm (pop query)
  | .reIndex _ => self.IndexesOne b s

theorem callbacks_discard (p : Prog α) (s : σ) :
    callbacks b (do let _ ← p : Prog Unit) s = callbacks b p s := by
  rw [callbacks, tally_bind]
  generalize Calls.Prog.run (returning b) p s = r
  obtain ⟨t, x⟩ := r
  cases x <;> rfl

/-- Whatever the calls of the binding reply, the callback is called once exactly when the call is
one that answers once. -/
theorem calledOnce_iff_answersOnce (self : Collection) (b : Binding σ) (asked : Asked) (s : σ) :
    CalledOnce b (asked.program self ·) s ↔ asked.AnswersOnce self b s := by
  cases asked with
  | count => exact calledOnce_of_eventually (n := 0) fun _ _ => iff_of_true (callbacks_count_async self s) trivial
  | add object =>
    refine calledOnce_of_eventually (n := 0) fun _ _ => ?_
    obtain ⟨hone, hzero⟩ := callbacks_add_async (b := b) self object s
    rw [Asked.program, callbacks_discard]
    refine ⟨fun h => ?_, hone⟩
    by_contra hnot
    rw [hzero hnot] at h
    cases h
  | save object =>
    refine calledOnce_of_eventually (n := 0) fun _ _ => ?_
    rw [Asked.program, callbacks_discard]
    exact callbacks_save_async self object s
  | remove object => exact calledOnce_of_eventually (n := 0) fun _ _ => callbacks_remove_async self object s
  | findOne realm query => exact calledOnce_findOne self realm query s
  | reIndex realm => exact calledOnce_reIndex self realm s

/-- An empty object is reported, and then it is saved. -/
theorem save_empty_calls_twice : ¬ ∀ (self : Collection) (asked : Asked) (s : Disk),
    CalledOnce Disk.binding (asked.program self ·) s := by
  intro h
  obtain ⟨n, hn⟩ := h people (.save (some (.obj []))) Disk.empty
  have htwice : (Calls.Prog.run (recording Disk.binding) (Asked.program people 0 (.save (some (.obj []))))
      (Disk.empty, [])).1.2.length = 2 := by decide +kernel
  cases (hn (n + 1) (Nat.lt_succ_self n)).symm.trans htwice

section
variable {κ : Type} [LinearOrder κ] {view : σ → Globals κ} {sub : Json → κ} (law : Lawful b view sub)
include law

theorem Walk.rowsUpTo_eq {self : Collection} {s : σ} {x : Json} {ids : List Json}
    (hwalk : Walk b s self.name [] x ids) (hids : ∀ id ∈ ids, Scalar id)
    (hstored : ∀ id ∈ ids, ((view s).object self.name (sub id)).isSome) {m : ℕ} (hm : ids.length < m) :
    rowsUpTo b m s ⟨self.name, [some x]⟩ = self.objectsAt (view s) (ids.map sub) := by
  generalize hname : self.name = name at hwalk
  generalize hsubs : ([] : List Json) = subs at hwalk
  obtain ⟨n, rfl⟩ := Nat.exists_eq_succ_of_ne_zero (Nat.ne_of_gt (Nat.zero_lt_of_lt hm))
  induction hwalk generalizing n with
  | @done x hend =>
    subst hname hsubs
    have hnone : nextRow b s ⟨self.name, [some x]⟩ = none := if_pos hend
    rw [rowsUpTo, hnone]
    rfl
  | @next x y ys hr hend _ ih =>
    subst hname hsubs
    have hy : y ≠ .str [] := by
      rintro rfl
      cases hend
    obtain ⟨o, hrow, hread⟩ :=
      retrieve_row law self (hids y List.mem_cons_self) (hstored y List.mem_cons_self)
    have horder : b (.order ⟨self.name, [some x]⟩) s =
        (s, ⟨(b (.order ⟨self.name, [some x]⟩) s).2.error, ⟨self.name, [some y], y⟩⟩) :=
      Prod.ext (law.reads s _).1 (congrArg (Reply.mk _) hr)
    have hnext : nextRow b s ⟨self.name, [some x]⟩ = some (s, ⟨self.name, [some y]⟩, ⟨none, some (.obj o)⟩) := by
      rw [nextRow, horder]
      refine (if_neg hy).trans ?_
      change some ((b (.retrieve ⟨self.name, [some y]⟩) s).1, (⟨self.name, [some y]⟩ : GloRef),
        (⟨(b (.retrieve ⟨self.name, [some y]⟩) s).2.error,
          (b (.retrieve ⟨self.name, [some y]⟩) s).2.result⟩ : Callback)) = _
      rw [hread]
    rw [List.length_cons] at hm
    obtain ⟨m, rfl⟩ : ∃ m, n = m + 1 := ⟨n - 1, by omega⟩
    have hrest := ih (fun id hid => hids id (List.mem_cons_of_mem y hid))
      (fun id hid => hstored id (List.mem_cons_of_mem y hid)) m (by omega)
    have hobject : ((view s).object self.name (sub y)).map Json.obj = some (.obj o) := by
      obtain ⟨o', ho'⟩ := Option.isSome_iff_exists.mp (hstored y List.mem_cons_self)
      rw [rowAt, ho', Option.map_some, Option.getD_some] at hrow
      rw [ho', Option.map_some, hrow]
    rw [rowsUpTo, hnext]
    dsimp only
    rw [hrest, List.map_cons, objectsAt, objectsAt, List.map_cons, hobject]

theorem findsOne_all_iff (self : Collection) (realm : Realm) {s : σ}
    (hnodes : ∀ p, ¬ (view s).node self.name p) :
    self.FindsOne b s realm (some (.obj [])) ↔ ∃ k, self.visited sub (view s) = {k} := by
  obtain ⟨ids, hwalk, hids, hlists⟩ := exists_scan law self hnodes
  have hstored : ∀ id ∈ ids, ((view s).object self.name (sub id)).isSome :=
    fun id hid => ((hlists.mem _).mp (List.mem_map_of_mem hid)).1
  have hrows : ∀ m, ids.length < m →
      (shown realm (some (.obj [])) (rowsUpTo b m s ⟨self.name, [some (.ofInt 0)]⟩)).length = ids.length := by
    intro m hm
    have hall : ∀ rows, shown realm (some (.obj [])) rows = rows := by
      intro rows
      have hkeeps : ∀ row, keeps realm (some (.obj [])) row = .ok true := fun _ => rfl
      rw [shown, List.takeWhile_eq_self_iff.mpr fun row _ => by rw [hkeeps]; rfl,
        List.filter_eq_self.mpr fun row _ => by rw [hkeeps]; rfl]
    rw [hall, hwalk.rowsUpTo_eq law hids hstored hm, objectsAt, List.length_map, List.length_map]
  have hone : self.FindsOne b s realm (some (.obj [])) ↔ ids.length = 1 := by
    have hfinds : self.FindsOne b s realm (some (.obj [])) ↔
        ShowsOne b s realm (some (.obj [])) ⟨self.name, [some (.ofInt 0)]⟩ := by
      have hsubs : query_subscripts (some (.obj [])) = .ok none := rfl
      have hpush : push_zero (some (.obj [])) none = .ok ([some (.ofInt 0)], some (.obj [])) := rfl
      have hempty : isEmptyObject (some (.obj [])) = true := rfl
      simp only [FindsOne, hsubs, Except.ok.injEq, exists_eq_left', hpush, hempty, Prod.mk.injEq]
      simp
    rw [hfinds]
    constructor
    · intro h
      obtain ⟨n, hn⟩ := h
      rw [← hrows (n + ids.length + 1) (by omega)]
      exact hn _ (by omega)
    · intro h
      exact ⟨ids.length, fun m hm => (hrows m hm).trans h⟩
  rw [hone, ← List.length_map (f := sub)]
  constructor
  · intro h
    obtain ⟨k, hk⟩ := List.length_eq_one_iff.mp h
    refine ⟨k, Set.ext fun l => ?_⟩
    rw [← hlists.mem, hk, List.mem_singleton, Set.mem_singleton_iff]
  · intro h
    obtain ⟨k, hk⟩ := h
    have hsingle : Enumerates (self.visited sub (view s)) [k] :=
      ⟨List.pairwise_singleton _ _, fun l => by rw [hk, List.mem_singleton, Set.mem_singleton_iff]⟩
    rw [hlists.eq hsingle, List.length_singleton]

end

end Collection

end GlobalsJs
