import GlobalsJs.Collection.Operations

/-!
# How often the callback is called

A method that is given a callback should call it once. The binding here is arbitrary, so
that any call may fail in any state: what a method does next depends on the reply. `add`
names no variable when it is refused an identifier, and `save` goes on after it has
reported an empty object.
-/

namespace GlobalsJs
open Ecma Cache Query Calls.Prog

namespace Cache

def Call.isCallback : Call → Bool
  | .callback _ _ => true
  | _ => false

def returning {σ : Type} (b : Binding σ) : Binding σ
  | .callback _ _, s => (s, ⟨none, ()⟩)
  | c, s => b c s

end Cache

variable {σ : Type} {b : Binding σ} {α β : Type}

abbrev callbacks (b : Binding σ) (p : Prog α) (s : σ) : ℕ := tally (returning b) Call.isCallback p s

theorem run_recording (p : Prog α) (s : σ) (calls : List Callback) :
    ∃ more, more.length = callbacks b p s ∧ run (recording b) p (s, calls) =
      (((run (returning b) p s).1, calls ++ more), (run (returning b) p s).2) := by
  induction p generalizing s calls with
  | ret | throw => exact ⟨[], rfl, by rw [List.append_nil]; rfl⟩
  | call c k ih =>
    cases c with
    | callback error result =>
      obtain ⟨more, hlength, hrun⟩ := ih ⟨none, ()⟩ s (calls ++ [⟨error, result⟩])
      refine ⟨⟨error, result⟩ :: more, ?_, ?_⟩
      · rw [List.length_cons, hlength, Nat.add_comm]
        rfl
      · rw [run_call]
        refine hrun.trans ?_
        rw [List.append_assoc]
        rfl
    | set | kill | killGlobal | increment | update | order | orderNothing | retrieve | get | close =>
      obtain ⟨more, hlength, hrun⟩ := ih (b _ s).2 (b _ s).1 calls
      exact ⟨more, hlength.trans (Nat.zero_add _).symm, hrun⟩

/-- In the end the callback has been called once. -/
def CalledOnce (b : Binding σ) (p : ℕ → Prog α) (s : σ) : Prop :=
  ∃ n, ∀ fuel, n < fuel → (run (recording b) (p fuel) (s, [])).1.2.length = 1

theorem calledOnce_iff (p : ℕ → Prog α) (s : σ) :
    CalledOnce b p s ↔ ∃ n, ∀ fuel, n < fuel → callbacks b (p fuel) s = 1 := by
  refine exists_congr fun n => forall₂_congr fun fuel _ => ?_
  obtain ⟨more, hlength, hrun⟩ := run_recording (b := b) (p fuel) s []
  rw [hrun, ← hlength, List.nil_append]

theorem calledOnce_of_eventually {p : ℕ → Prog α} {s : σ} {once : Prop} {n : ℕ}
    (h : ∀ fuel, n < fuel → (callbacks b (p fuel) s = 1 ↔ once)) : CalledOnce b p s ↔ once := by
  rw [calledOnce_iff]
  constructor
  · intro ⟨m, hm⟩
    exact (h (n + m + 1) (by omega)).mp (hm _ (by omega))
  · exact fun honce => ⟨n, fun fuel hfuel => (h fuel hfuel).mpr honce⟩

namespace Collection

def CanIndex (self : Collection) (object : Option Json) : Prop :=
  self.indexes = [] ∨ (object ≠ none ∧ object ≠ some .null ∧ ∀ xs, object = some (.arr xs) → .null ∉ xs)

theorem silent_update_index (self : Collection) (operation : IndexOperation) (object : Option Json) :
    Only (fun c => c.isCallback = false) (self.update_index operation object) :=
  only_update_index self (fun subs => by cases operation <;> rfl) (fun _ _ => rfl) object

theorem run_update_entry (self : Collection) {o : Json} (ho : o ≠ .null) (index : Props) (s : σ) :
    ∃ t, run b (self.update_entry .SAVE (some o) index) s = (t, .ok ⟨⟩) := by
  have hread : ∀ k, ∃ v, member (some o) k = .ok v := by
    intro k
    cases o with
    | null => exact absurd rfl ho
    | obj ps => exact ⟨_, rfl⟩
    | bool | num | str | arr => exact ⟨none, rfl⟩
  obtain ⟨value, hvalue⟩ := hread ((index_key index).getD (js "undefined"))
  obtain ⟨id, hid⟩ := hread idKey
  rw [update_entry, run_bind_ok (run_liftM_eq_ok.mpr ⟨rfl, hvalue⟩)]
  cases value with
  | none => exact ⟨s, rfl⟩
  | some v =>
    refine ⟨_, (run_bind_ok (run_liftM_eq_ok.mpr ⟨rfl, hid⟩) _).trans rfl⟩

theorem run_update_entry_throws {self : Collection} {o : Option Json} (ho : o = none ∨ o = some .null)
    (index : Props) (s : σ) : ∃ t e, run b (self.update_entry .SAVE o index) s = (t, .error e) := by
  have hread : ∀ k, member o k = .error .typeError := by
    intro k
    rcases ho with rfl | rfl <;> rfl
  refine ⟨s, .error .typeError, ?_⟩
  rw [update_entry]
  exact run_bind_error ((run_liftM _ s).trans (by rw [hread]; rfl)) _

theorem run_entries_iff (self : Collection) (o : Option Json) (s : σ) :
    ((self.indexes = [] ∨ (o ≠ none ∧ o ≠ some .null)) →
      ∃ t, run b (self.indexes.forM (self.update_entry .SAVE o)) s = (t, .ok ⟨⟩)) ∧
    (¬ (self.indexes = [] ∨ (o ≠ none ∧ o ≠ some .null)) →
      ∃ t e, run b (self.indexes.forM (self.update_entry .SAVE o)) s = (t, .error e)) := by
  constructor
  · intro h
    rcases h with hnil | ⟨hnone, hnull⟩
    · rw [hnil]
      exact ⟨s, rfl⟩
    · obtain ⟨v, rfl⟩ := Option.ne_none_iff_exists'.mp hnone
      have hv : v ≠ .null := fun hv => hnull (congrArg some hv)
      exact run_forM_ok (fun index _ t => run_update_entry self hv index t) s
  · intro h
    have hne : self.indexes ≠ [] := fun hnil => h (.inl hnil)
    have ho : o = none ∨ o = some .null := by
      by_contra hnot
      exact h (.inr ⟨fun hnone => hnot (.inl hnone), fun hnull => hnot (.inr hnull)⟩)
    obtain ⟨index, hindex⟩ := List.exists_mem_of_ne_nil _ hne
    exact run_forM_error hindex (run_update_entry_throws ho index) s

theorem canIndex_of_not_list {self : Collection} {object : Option Json} (h : ∀ xs, object ≠ some (.arr xs)) :
    self.CanIndex object ↔ self.indexes = [] ∨ (object ≠ none ∧ object ≠ some .null) := by
  simp [CanIndex, h]

theorem canIndex_list {self : Collection} {xs : List Json} :
    self.CanIndex (some (.arr xs)) ↔ ∀ x ∈ xs, self.indexes = [] ∨ (some x ≠ none ∧ some x ≠ some .null) := by
  simp only [CanIndex, ne_eq, reduceCtorEq, not_false_eq_true, true_and, Option.some.injEq, Json.arr.injEq,
    forall_eq']
  constructor
  · intro h x hx
    exact h.imp id fun hnull hx' => hnull (hx' ▸ hx)
  · intro h
    by_cases hnil : self.indexes = []
    · exact .inl hnil
    · exact .inr fun hnull => ((h _ hnull).resolve_left hnil) rfl

theorem run_update_index_iff (self : Collection) (object : Option Json) (s : σ) :
    (self.CanIndex object → ∃ t, run b (self.update_index .SAVE object) s = (t, .ok ⟨⟩)) ∧
      (¬ self.CanIndex object → ∃ t e, run b (self.update_index .SAVE object) s = (t, .error e)) := by
  by_cases harr : ∃ xs, object = some (.arr xs)
  · obtain ⟨xs, rfl⟩ := harr
    rw [canIndex_list]
    constructor
    · intro h
      exact run_forM_ok (fun x hx t => (run_entries_iff self (some x) t).1 (h x hx)) s
    · intro h
      obtain ⟨x, hx, hnot⟩ : ∃ x ∈ xs, ¬ (self.indexes = [] ∨ (some x ≠ none ∧ some x ≠ some .null)) := by
        by_contra hall
        exact h fun x hx => not_not.mp fun hnot => hall ⟨x, hx, hnot⟩
      exact run_forM_error hx (fun s => (run_entries_iff (b := b) self (some x) s).2 hnot) s
  · have hupdate : self.update_index .SAVE object = self.indexes.forM (self.update_entry .SAVE object) := by
      cases object with
      | none => rfl
      | some o =>
        cases o with
        | arr xs => exact absurd ⟨xs, rfl⟩ harr
        | null | bool | num | str | obj => rfl
    rw [hupdate, canIndex_of_not_list fun xs hxs => harr ⟨xs, hxs⟩]
    exact run_entries_iff self object s

def Granted (self : Collection) (b : Binding σ) (s : σ) : Prop :=
  isOk (b (.increment ⟨self.name, []⟩) s).2.result = .ok true

theorem run_next_id_iff (self : Collection) (s : σ) :
    (self.Granted b s → ∃ t id, Calls.Prog.run (returning b) self.next_id s = (t, .ok id)) ∧
      (¬ self.Granted b s → ∃ t e, Calls.Prog.run (returning b) self.next_id s = (t, .error e)) := by
  have hgranted : self.Granted b s ↔
      isOk (returning b (.increment ⟨self.name, []⟩) s).2.result = .ok true := Iff.rfl
  rw [hgranted, next_id, run_bind_ok (run_sync _ s)]
  generalize returning b (.increment ⟨self.name, []⟩) s = r
  cases hok : isOk r.2.result with
  | error e => exact ⟨(fun h => by cases h), fun _ => ⟨r.1, .error e, rfl⟩⟩
  | ok granted =>
    cases granted with
    | false => exact ⟨(fun h => by cases h), fun _ => ⟨r.1, _, rfl⟩⟩
    | true =>
      refine ⟨fun _ => ?_, fun h => absurd rfl h⟩
      have hdata : ∃ id, member (some r.2.result) (js "data") = .ok id := by
        generalize r.2.result = result at hok
        cases result with
        | null => cases hok
        | obj ps => exact ⟨_, rfl⟩
        | bool | num | str | arr => exact ⟨none, rfl⟩
      obtain ⟨id, hid⟩ := hdata
      exact ⟨r.1, id, run_liftM_eq_ok.mpr ⟨rfl, hid⟩⟩

theorem callbacks_bind {p : Prog α} {s t : σ} {a : α} (hrun : Calls.Prog.run (returning b) p s = (t, .ok a))
    (f : α → Prog β) : callbacks b (p >>= f) s = callbacks b p s + callbacks b (f a) t := tally_bind_ok hrun f

theorem callbacks_bind_ok {p : Prog α} {s t : σ} {a : α} (hp : Only (fun c => c.isCallback = false) p)
    (hrun : Calls.Prog.run (returning b) p s = (t, .ok a)) (f : α → Prog β) :
    callbacks b (p >>= f) s = callbacks b (f a) t := by
  rw [callbacks, tally_bind_ok hrun, tally_eq_zero hp, Nat.zero_add]

theorem callbacks_bind_error {p : Prog α} {s t : σ} {e : Stop} (hp : Only (fun c => c.isCallback = false) p)
    (hrun : Calls.Prog.run (returning b) p s = (t, .error e)) (f : α → Prog β) :
    callbacks b (p >>= f) s = 0 := by
  rw [callbacks, tally_bind_error hrun, tally_eq_zero hp]

theorem callbacks_liftM {x : Except JsError α} {a : α} (hx : x = .ok a) (f : α → Prog β) (s : σ) :
    callbacks b ((liftM x : Prog α) >>= f) s = callbacks b (f a) s := by
  rw [hx]
  rfl

theorem callbacks_liftM_error {x : Except JsError α} {e : JsError} (hx : x = .error e) (f : α → Prog β) (s : σ) :
    callbacks b ((liftM x : Prog α) >>= f) s = 0 := by
  rw [hx]
  rfl

theorem callbacks_async {c : Call} (hc : c.isCallback = false) (f : Reply c → Prog β) (s : σ) :
    callbacks b (c.async >>= f) s = callbacks b (f (returning b c s).2) (returning b c s).1 :=
  callbacks_bind_ok (.call hc fun _ => .ret _) (run_async c s) f

theorem callbacks_sync {c : Call} (hc : c.isCallback = false) (f : c.Result → Prog β) (s : σ) :
    callbacks b (c.sync >>= f) s = callbacks b (f (returning b c s).2.result) (returning b c s).1 :=
  callbacks_bind_ok (.call hc fun _ => .ret _) (run_sync c s) f

theorem withID_ok (self : Collection) {object : Option Json} (hnone : object ≠ none) (hnull : object ≠ some .null)
    (id : Option Json) : ∃ stored key, withID object id = .ok stored ∧ member (some stored) idKey = .ok key ∧
      (self.CanIndex (indexed object stored) ↔ self.CanIndex object) := by
  obtain ⟨o, rfl⟩ := Option.ne_none_iff_exists'.mp hnone
  have hplain : ∀ v : Json, v ≠ .null → (∀ xs, v ≠ .arr xs) → self.CanIndex (some v) := by
    intro v hv harr
    exact .inr ⟨by simp, by simpa using hv, fun xs hxs => absurd (Option.some.inj hxs) (harr xs)⟩
  cases o with
  | null => exact absurd rfl hnull
  | arr xs =>
    cases id with
    | none => exact ⟨_, none, rfl, rfl, Iff.rfl⟩
    | some id => exact ⟨_, _, rfl, rfl, Iff.rfl⟩
  | obj ps =>
    have hobj : ∀ qs : Props, self.CanIndex (some (.obj qs)) := fun qs => hplain _ (by simp) (by simp)
    cases id with
    | none => exact ⟨_, _, rfl, rfl, Iff.rfl⟩
    | some id => exact ⟨_, _, rfl, rfl, iff_of_true (hobj _) (hobj _)⟩
  | bool | num | str => cases id <;> exact ⟨_, none, rfl, rfl, Iff.rfl⟩

def Acknowledges (self : Collection) (b : Binding σ) (s : σ) (object : Option Json) : Prop :=
  self.Granted b s ∧ object ≠ none ∧ object ≠ some .null ∧ self.CanIndex object

theorem callbacks_add_async (self : Collection) (object : Option Json) (s : σ) :
    (self.Acknowledges b s object → callbacks b (self.add_async object) s = 1) ∧
      (¬ self.Acknowledges b s object → callbacks b (self.add_async object) s = 0) := by
  have hsilent : Only (fun c => c.isCallback = false) self.next_id := only_next_id self rfl
  rw [add_async]
  by_cases hgranted : self.Granted b s
  · obtain ⟨t, id, hid⟩ := (run_next_id_iff self s).1 hgranted
    rw [callbacks_bind_ok hsilent hid]
    by_cases hreads : object ≠ none ∧ object ≠ some .null
    · obtain ⟨stored, key, hstored, hkey, hindex⟩ := withID_ok self hreads.1 hreads.2 id
      rw [callbacks_liftM hstored, callbacks_liftM hkey]
      rw [callbacks_async rfl]
      generalize returning b (.update ⟨self.name, [key]⟩ stored) t = r
      have hrun := run_update_index_iff (b := returning b) self (indexed object stored) r.1
      have hacknowledges : self.Acknowledges b s object ↔ self.CanIndex (indexed object stored) := by
        rw [hindex]
        exact ⟨fun h => h.2.2.2, fun h => ⟨hgranted, hreads.1, hreads.2, h⟩⟩
      rw [hacknowledges]
      constructor
      · intro h
        obtain ⟨u, hu⟩ := hrun.1 h
        rw [callbacks_bind_ok (silent_update_index self _ _) hu]
        rfl
      · intro h
        obtain ⟨u, e, hu⟩ := hrun.2 h
        exact callbacks_bind_error (silent_update_index self _ _) hu _
    · have hthrows : withID object id = .error .typeError := by
        by_cases hnone : object = none
        · rw [hnone]
          rfl
        · have hnull : object = some .null := by
            by_contra hnull
            exact hreads ⟨hnone, hnull⟩
          rw [hnull]
          rfl
      refine ⟨fun h => absurd ⟨h.2.1, h.2.2.1⟩ hreads, fun _ => callbacks_liftM_error hthrows _ t⟩
  · obtain ⟨t, e, he⟩ := (run_next_id_iff self s).2 hgranted
    exact ⟨fun h => absurd h.1 hgranted, fun _ => callbacks_bind_error hsilent he _⟩

def SavesOnce (self : Collection) (b : Binding σ) (s : σ) (object : Option Json) : Prop :=
  if isEmptyObject object then object = none ∨ object = some .null ∨ ¬ self.Granted b s
  else (∃ id, member object idKey = .ok (some id)) ∨ self.Acknowledges b s object

def saveAnyway (self : Collection) (object : Option Json) : Prog (Option Json) := do
  match ← member object idKey with
  | none => self.add_async object
  | some id =>
    let r ← (Call.update ⟨self.name, [some id]⟩ (object.getD .null)).async
    self.update_index .SAVE object
    callBack r.error none
    return object

theorem save_async_eq (self : Collection) (object : Option Json) : self.save_async object =
    if isEmptyObject (pop object) then
      callBack (some emptyError) (some (.obj [])) >>= fun _ => self.saveAnyway (pop object)
    else self.saveAnyway (pop object) := by
  rw [save_async]
  cases isEmptyObject (pop object) <;> rfl

theorem member_eq_some {object : Option Json} {k : JsString} {v : Json} (h : member object k = .ok (some v)) :
    ∃ ps, object = some (.obj ps) := by
  cases object with
  | none => cases h
  | some o =>
    cases o with
    | obj ps => exact ⟨ps, rfl⟩
    | null | bool | num | str | arr => cases h

theorem callbacks_saveAnyway (self : Collection) (object : Option Json) (s : σ) :
    (((∃ id, member object idKey = .ok (some id)) ∨ self.Acknowledges b s object) →
      callbacks b (self.saveAnyway object) s = 1) ∧
    (¬ ((∃ id, member object idKey = .ok (some id)) ∨ self.Acknowledges b s object) →
      callbacks b (self.saveAnyway object) s = 0) := by
  cases hid : member object idKey with
  | error e =>
    have hnot : ¬ self.Acknowledges b s object := by
      intro ⟨_, hnone, hnull, _⟩
      obtain ⟨o, rfl⟩ := Option.ne_none_iff_exists'.mp hnone
      cases o with
      | null => exact hnull rfl
      | obj | bool | num | str | arr => cases hid
    refine ⟨fun h => ?_, fun _ => callbacks_liftM_error hid _ s⟩
    rcases h with ⟨id, h⟩ | h
    · cases h
    · exact absurd h hnot
  | ok id =>
    rw [saveAnyway, callbacks_liftM hid]
    cases id with
    | none =>
      have hadd := callbacks_add_async (b := b) self object s
      refine ⟨fun h => hadd.1 (h.resolve_left fun ⟨id, h⟩ => by cases h), fun h => hadd.2 fun hacknowledges => ?_⟩
      exact h (.inr hacknowledges)
    | some id =>
      obtain ⟨ps, rfl⟩ := member_eq_some hid
      refine ⟨fun _ => ?_, fun h => absurd (.inl ⟨id, rfl⟩) h⟩
      rw [callbacks_async rfl]
      generalize returning b _ s = r
      obtain ⟨u, hu⟩ := (run_update_index_iff (b := returning b) self (some (.obj ps)) r.1).1
        (.inr ⟨by simp, by simp, by simp⟩)
      rw [callbacks_bind_ok (silent_update_index self _ _) hu]
      rfl

theorem acknowledges_empty {self : Collection} {s : σ} {object : Option Json} (h : isEmptyObject object = true) :
    ((∃ id, member object idKey = .ok (some id)) ∨ self.Acknowledges b s object) ↔
      ¬ (object = none ∨ object = some .null ∨ ¬ self.Granted b s) := by
  have hnoid : ∀ id, member object idKey ≠ .ok (some id) := by
    intro id hid
    obtain ⟨ps, rfl⟩ := member_eq_some hid
    cases ps with
    | nil => cases hid
    | cons p ps => cases h
  have hindex : object ≠ none → object ≠ some .null → self.CanIndex object := by
    refine fun hnone hnull => .inr ⟨hnone, hnull, fun xs hxs => ?_⟩
    rw [hxs] at h
    rw [List.isEmpty_iff.mp h]
    exact List.not_mem_nil
  constructor
  · intro hsaved
    obtain ⟨id, hid⟩ | ⟨hgranted, hnone, hnull, -⟩ := hsaved
    · exact absurd hid (hnoid id)
    · rintro (h | h | h)
      · exact hnone h
      · exact hnull h
      · exact h hgranted
  · intro hnot
    have hnone : object ≠ none := fun h => hnot (.inl h)
    have hnull : object ≠ some .null := fun h => hnot (.inr (.inl h))
    have hgranted : self.Granted b s := not_not.mp fun h => hnot (.inr (.inr h))
    exact .inr ⟨hgranted, hnone, hnull, hindex hnone hnull⟩

theorem callbacks_save_async (self : Collection) (object : Option Json) (s : σ) :
    callbacks b (self.save_async object) s = 1 ↔ self.SavesOnce b s (pop object) := by
  rw [save_async_eq, SavesOnce]
  obtain ⟨hone, hzero⟩ := callbacks_saveAnyway (b := b) self (pop object) s
  cases hempty : isEmptyObject (pop object) with
  | false =>
    rw [if_neg Bool.false_ne_true, if_neg Bool.false_ne_true]
    refine ⟨fun h => ?_, hone⟩
    by_contra hnot
    rw [hzero hnot] at h
    cases h
  | true =>
    have hsum : callbacks b (callBack (some emptyError) (some (.obj [])) >>= fun _ => self.saveAnyway (pop object)) s =
        1 + callbacks b (self.saveAnyway (pop object)) s := rfl
    rw [if_pos rfl, if_pos rfl, hsum]
    rw [acknowledges_empty hempty] at hone hzero
    constructor
    · intro h
      by_contra hnot
      rw [hone hnot] at h
      cases h
    · intro h
      rw [hzero (not_not.mpr h)]

def RemovesOnce (object : Option Json) : Prop :=
  truthy object = false ∨ ∃ id, member object idKey = .ok (some id)

theorem callbacks_remove_async (self : Collection) (object : Option Json) (s : σ) :
    callbacks b (self.remove_async object) s = 1 ↔ RemovesOnce (pop object) := by
  rw [remove_async]
  cases htruthy : truthy (pop object) with
  | false => exact iff_of_true rfl (.inl htruthy)
  | true =>
    have hcondition : RemovesOnce (pop object) ↔ ∃ id, member (pop object) idKey = .ok (some id) :=
      or_iff_right (by rw [htruthy]; exact Bool.noConfusion)
    rw [hcondition]
    simp only [Bool.not_true, Bool.false_eq_true, if_false]
    cases hid : member (pop object) idKey with
    | error e =>
      have hfetch : self.fetch_glo_ref_from_object (pop object) = .error e := by
        rw [fetch_glo_ref_from_object, hid]
        rfl
      rw [callbacks_liftM_error hfetch]
      simp
    | ok id =>
      cases id with
      | none =>
        have hfetch : self.fetch_glo_ref_from_object (pop object) = .error (.error (js "object unformatted")) := by
          rw [fetch_glo_ref_from_object, hid]
          rfl
        rw [callbacks_liftM_error hfetch]
        simp
      | some id =>
        have hfetch : self.fetch_glo_ref_from_object (pop object) = .ok ⟨self.name, [some id]⟩ := by
          rw [fetch_glo_ref_from_object, hid]
          rfl
        rw [callbacks_liftM hfetch]
        exact iff_of_true rfl ⟨id, rfl⟩

theorem callbacks_count_async (self : Collection) (s : σ) : callbacks b self.count_async s = 1 := rfl

end Collection

end GlobalsJs
