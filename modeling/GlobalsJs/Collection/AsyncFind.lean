import GlobalsJs.Collection.IndexedFind

/-!
# Finding with a callback

The loops behind `find` with a callback share nothing with the other style: over an index
they deliver every object they come to, over the collection those that have a field with
the query's value, and where no key has an index they start from an empty object.
-/

namespace GlobalsJs
open Ecma Cache Query Calls.Prog Collected

namespace Collection
variable {σ κ : Type} [LinearOrder κ] {b : Binding σ} {view : σ → Globals κ} {sub : Json → κ}

/-- The objects that the callback is given by a call that is not given up; `none` when it throws. -/
def Delivers (b : Binding σ) (p : ℕ → Prog Unit) (s : σ) (objects : Option (List (Option Json))) : Prop :=
  ∃ n, ∀ fuel, n < fuel → ∃ (t : σ) (calls : List Callback) (x : Except JsError Unit),
    run (recording b) (p fuel) (s, []) = ((t, calls), x.mapError Stop.error) ∧
      x.toOption.map (fun _ => calls.map (·.result)) = objects

def sharesValue (realm : Realm) (qs : Props) : Json → Bool
  | .obj o => o.any fun p => (get qs p.1).any fun w => looseEqual realm.round (some w) (some p.2)
  | _ => false

theorem spin_match_obj (realm : Realm) (qs o : Props) :
    spin_match realm (.obj qs) o = .ok (sharesValue realm qs (.obj o)) := by
  have hmap : o.mapM (m := Except JsError) (fun p => do
      let wanted ← member (some (.obj qs)) p.1
      return wanted.isSome && looseEqual realm.round wanted (some p.2)) =
      .ok (o.map fun p => (get qs p.1).isSome && looseEqual realm.round (get qs p.1) (some p.2)) := by
    induction o with
    | nil => rfl
    | cons p o ih =>
      rw [List.mapM_cons, ih]
      rfl
  rw [spin_match, hmap]
  have hone : (fun p : JsString × Json => (get qs p.1).isSome &&
      looseEqual realm.round (get qs p.1) (some p.2)) =
      fun p => (get qs p.1).any fun w => looseEqual realm.round (some w) (some p.2) := by
    funext p
    cases get qs p.1 <;> rfl
  rw [hone]
  exact congrArg Except.ok (List.any_map ..)

def spared (realm : Realm) (qs : Props) (row : Json) : Bool := qs.isEmpty || sharesValue realm qs row

def delivered (rows : List Json) : List Callback := rows.map fun row => ⟨none, some row⟩

section
variable (law : Lawful b view sub)
include law

theorem retrieve_row (self : Collection) {s : σ} {id : Json} (hid : Scalar id)
    (hstored : ((view s).object self.name (sub id)).isSome) :
    ∃ o, self.rowAt (view s) (sub id) = .obj o ∧
      b (.retrieve ⟨self.name, [some id]⟩) s = (s, ⟨none, some (.obj o)⟩) := by
  obtain ⟨o, ho, hrow⟩ := exists_rowAt hstored
  have hresult := law.retrieve s self.name id o hid ho
  have herror := law.no_error (.retrieve ⟨self.name, [some id]⟩) s
  have hstate : (b (.retrieve ⟨self.name, [some id]⟩) s).1 = s := (law.reads s _).2.1
  refine ⟨o, hrow, ?_⟩
  generalize hreply : b (.retrieve ⟨self.name, [some id]⟩) s = r at *
  obtain ⟨t, error, result⟩ := r
  simp only at hresult herror hstate
  rw [hresult, herror, hstate]

theorem run_recorded_order (ref : GloRef) (s : σ) (calls : List Callback) :
    run (recording b) (Call.order ref).sync (s, calls) = ((s, calls), .ok (b (.order ref) s).2.result) := by
  have hstate : (b (.order ref) s).1 = s := (law.reads s ref).1
  refine (run_sync _ _).trans ?_
  change (((b (.order ref) s).1, calls), _) = _
  rw [hstate]
  rfl

theorem run_spin_find_next (realm : Realm) (qs : Props) {s : σ} {ref gr : GloRef} {y : Json} {o : Props}
    (horder : (b (.order ref) s).2.result = ⟨gr.global, gr.subscripts, y⟩) (hy : y ≠ .str [])
    (hread : b (.retrieve gr) s = (s, ⟨none, some (.obj o)⟩)) (n : ℕ) (calls : List Callback) :
    run (recording b) (spin_find realm (some (.obj qs)) (n + 1) ref) (s, calls) =
      run (recording b) (spin_find realm (some (.obj qs)) n gr)
        (s, calls ++ delivered ([.obj o].filter (spared realm qs))) := by
  have hretrieve : run (recording b) (Call.retrieve gr).async (s, calls) =
      ((s, calls), .ok ⟨none, some (.obj o)⟩) := by
    refine (run_async _ _).trans ?_
    change (((b (.retrieve gr) s).1, calls), Except.ok (b (.retrieve gr) s).2) = _
    rw [hread]
  have hmatch : run (recording b) (liftM (spin_match realm (.obj qs) o) : Prog Bool) (s, calls) =
      ((s, calls), .ok (sharesValue realm qs (.obj o))) := by
    rw [run_liftM, spin_match_obj]
    rfl
  rw [spin_find, run_bind_ok (run_recorded_order law _ s calls), horder, if_neg hy]
  refine (run_bind_ok hretrieve _).trans ?_
  cases qs with
  | nil => rfl
  | cons q qs =>
    refine (run_bind_ok hmatch _).trans ?_
    cases hshares : sharesValue realm (q :: qs) (.obj o) with
    | true =>
      rw [List.filter_cons_of_pos (by simp [spared, hshares])]
      rfl
    | false =>
      rw [List.filter_cons_of_neg (by simp [spared, hshares]), List.filter_nil, delivered, List.map_nil,
        List.append_nil]
      rfl

theorem Walk.run_spin_find (self : Collection) (realm : Realm) (qs : Props) {s : σ} {x : Json}
    {ids : List Json} (hwalk : Walk b s self.name [] x ids) (hids : ∀ id ∈ ids, Scalar id)
    (hstored : ∀ id ∈ ids, ((view s).object self.name (sub id)).isSome) {fuel : ℕ}
    (hfuel : ids.length < fuel) (calls : List Callback) :
    run (recording b) (spin_find realm (some (.obj qs)) fuel ⟨self.name, [some x]⟩) (s, calls) =
      ((s, calls ++ delivered (((ids.map sub).map (self.rowAt (view s))).filter (spared realm qs))),
        .ok ()) := by
  generalize hname : self.name = name at hwalk
  generalize hsubs : ([] : List Json) = subs at hwalk
  obtain ⟨n, rfl⟩ := Nat.exists_eq_succ_of_ne_zero (Nat.ne_of_gt (Nat.zero_lt_of_lt hfuel))
  induction hwalk generalizing n calls with
  | @done x hend =>
    subst hname hsubs
    have hend' : (b (.order ⟨self.name, [some x]⟩) s).2.result.result = .str [] := hend
    rw [spin_find, run_bind_ok (run_recorded_order law _ s calls)]
    refine (congrArg (fun p => run (recording b) p (s, calls)) (if_pos hend')).trans ?_
    simp [delivered]
  | @next x y ys hr hend _ ih =>
    subst hname hsubs
    have hy : y ≠ .str [] := by
      rintro rfl
      cases hend
    obtain ⟨o, hrow, hread⟩ :=
      retrieve_row law self (hids y List.mem_cons_self) (hstored y List.mem_cons_self)
    rw [List.length_cons] at hfuel
    obtain ⟨m, rfl⟩ : ∃ m, n = m + 1 := ⟨n - 1, by omega⟩
    have horder : (b (.order ⟨self.name, [some x]⟩) s).2.result = ⟨self.name, [some y], y⟩ := hr
    refine (run_spin_find_next law realm qs horder hy hread (m + 1) calls).trans ?_
    rw [ih (fun id hid => hids id (List.mem_cons_of_mem y hid))
      (fun id hid => hstored id (List.mem_cons_of_mem y hid)) _ m (by omega)]
    simp only [List.map_cons, hrow, delivered, List.append_assoc, ← List.map_append, ← List.filter_append,
      List.singleton_append]

omit law in
theorem run_spin_find_index_end (self : Collection) {ref : Option GloRef} {s t : σ} {r : Ordered}
    {calls : List Callback} (horder : run (recording b) (order_async ref) (s, calls) =
      ((t, calls), .ok (none, r))) (hend : r.result = .str []) (n : ℕ) :
    ∃ u, run (recording b) (self.spin_find_index (n + 1) ref) (s, calls) = ((u, calls), .ok ()) := by
  rw [spin_find_index, run_bind_ok horder]
  simp only [truthy, Bool.false_eq_true, if_false, hend, if_true]
  exact ⟨_, rfl⟩

theorem run_order_async (ref : GloRef) (s : σ) (calls : List Callback) :
    run (recording b) (order_async (some ref)) (s, calls) =
      ((s, calls), .ok (none, (b (.order ref) s).2.result)) := by
  have hstate : (b (.order ref) s).1 = s := (law.reads s ref).1
  change (((b (.order ref) s).1, calls), Except.ok ((b (.order ref) s).2.error, _)) = _
  rw [hstate, law.no_error]
  rfl

theorem run_spin_find_index_next (self : Collection) {ref : GloRef} {s : σ} {r : Ordered} {o : Props}
    (horder : (b (.order ref) s).2.result = r) (hy : r.result ≠ .str [])
    (hread : b (.retrieve ⟨self.name, [some r.result]⟩) s = (s, ⟨none, some (.obj o)⟩)) (n : ℕ)
    (calls : List Callback) :
    run (recording b) (self.spin_find_index (n + 1) (some ref)) (s, calls) =
      run (recording b) (self.spin_find_index n (some ⟨r.global, r.subscripts⟩))
        (s, calls ++ delivered [.obj o]) := by
  have hrun := run_order_async law ref s calls
  rw [horder] at hrun
  rw [spin_find_index, run_bind_ok hrun]
  simp only [truthy, Bool.false_eq_true, if_false, hy]
  refine (run_bind_ok (a := ⟨none, some (.obj o)⟩) (t := (s, calls)) ?_ _).trans rfl
  refine (run_async _ _).trans ?_
  change (((b (.retrieve ⟨self.name, [some r.result]⟩) s).1, calls),
    Except.ok (b (.retrieve ⟨self.name, [some r.result]⟩) s).2) = _
  rw [hread]

theorem Walk.run_spin_find_index (self : Collection) {s : σ} {subs : List Json} {x : Json}
    {ids : List Json} (hwalk : Walk b s self.index_global subs x ids) (hids : ∀ id ∈ ids, Scalar id)
    (hstored : ∀ id ∈ ids, ((view s).object self.name (sub id)).isSome) {fuel : ℕ}
    (hfuel : ids.length < fuel) (calls : List Callback) :
    ∃ t, run (recording b) (self.spin_find_index fuel
        (some ⟨self.index_global, (subs ++ [x]).map some⟩)) (s, calls) =
      ((t, calls ++ delivered ((ids.map sub).map (self.rowAt (view s)))), .ok ()) := by
  obtain ⟨n, rfl⟩ := Nat.exists_eq_succ_of_ne_zero (Nat.ne_of_gt (Nat.zero_lt_of_lt hfuel))
  generalize hname : self.index_global = name at hwalk
  induction hwalk generalizing n calls with
  | @done x hend =>
    subst hname
    obtain ⟨u, hu⟩ := run_spin_find_index_end self (run_order_async law _ s calls) hend n
    exact ⟨u, by simpa [delivered] using hu⟩
  | @next x y ys hr hend _ ih =>
    subst hname
    have hy : y ≠ .str [] := by
      rintro rfl
      cases hend
    obtain ⟨o, hrow, hread⟩ :=
      retrieve_row law self (hids y List.mem_cons_self) (hstored y List.mem_cons_self)
    rw [List.length_cons] at hfuel
    obtain ⟨m, rfl⟩ : ∃ m, n = m + 1 := ⟨n - 1, by omega⟩
    obtain ⟨t, ht⟩ := ih (fun id hid => hids id (List.mem_cons_of_mem y hid))
      (fun id hid => hstored id (List.mem_cons_of_mem y hid)) (calls ++ delivered [.obj o]) m (by omega)
    refine ⟨t, (run_spin_find_index_next law self hr hy hread (m + 1) calls).trans (ht.trans ?_)⟩
    simp only [List.map_cons, hrow, delivered, List.append_assoc, List.map_nil, List.singleton_append]

omit law in
theorem run_find_async (self : Collection) (realm : Realm) (fuel : ℕ) (qs : Props) (r : σ × List Callback) :
    run (recording b) (self.find_async realm fuel (some (.obj qs))) r =
      if qs ≠ [] ∧ self.indexes ≠ [] then
        run (recording b) (self.spin_find_index fuel ((self.indexedKey qs).map fun p =>
          self.index_glo_ref [some (.str p.1), some p.2, some (.ofInt 0)])) r
      else run (recording b) (do
        let (id_subscripts, query) ← push_zero (some (.obj qs)) (get qs (js "subscripts"))
        spin_find realm query fuel ⟨self.name, id_subscripts⟩) r := by
  have hread : run (recording b) (liftM (query_subscripts (some (.obj qs))) : Prog (Option Json)) r =
      (r, .ok (get qs (js "subscripts"))) := run_liftM _ r
  have hbuild : run (recording b) (liftM (self.build_index_glo_ref_from_query (.obj qs)) : Prog _) r =
      (r, .ok ((self.indexedKey qs).map fun p =>
        self.index_glo_ref [some (.str p.1), some p.2, some (.ofInt 0)])) := run_liftM _ r
  refine (run_bind_ok hread _).trans ?_
  by_cases hcond : qs ≠ [] ∧ self.indexes ≠ []
  · have hempty : (!isEmptyObject (some (.obj qs))) = true ∧ self.indexes ≠ [] :=
      ⟨by simpa [isEmptyObject] using hcond.1, hcond.2⟩
    rw [if_pos hcond]
    refine (congrArg (fun p => run (recording b) p r) (if_pos hempty)).trans ?_
    exact run_bind_ok hbuild _
  · have hempty : ¬ ((!isEmptyObject (some (.obj qs))) = true ∧ self.indexes ≠ []) :=
      fun h => hcond ⟨by simpa [isEmptyObject] using h.1, h.2⟩
    rw [if_neg hcond]
    exact congrArg (fun p => run (recording b) p r) (if_neg hempty)

theorem delivers_listed {self : Collection} {s : σ} (hs : self.Catalogued sub (view s))
    (hnothing : (b .orderNothing s).2.result.result = .str []) (qs : Props) :
    ∃ fs, Enumerates {k | self.Filed sub (view s) qs k ∧ sub (.ofInt 0) < k} fs ∧ ∃ n, ∀ fuel, n < fuel →
      ∃ t, run (recording b) (self.spin_find_index fuel ((self.indexedKey qs).map fun p =>
          self.index_glo_ref [some (.str p.1), some p.2, some (.ofInt 0)])) (s, []) =
        ((t, delivered (fs.map (self.rowAt (view s)))), .ok ()) := by
  cases hp : self.indexedKey qs with
  | none =>
    refine ⟨[], .nil ?_, 0, fun fuel hfuel => ?_⟩
    · rintro k ⟨⟨p, hp', _⟩, _⟩
      rw [hp] at hp'
      cases hp'
    · obtain ⟨n, rfl⟩ := Nat.exists_eq_succ_of_ne_zero (Nat.ne_of_gt hfuel)
      have horder : run (recording b) (order_async none) (s, []) =
          (((b .orderNothing s).1, []), .ok (none, (b .orderNothing s).2.result)) := by
        change (((b .orderNothing s).1, []), Except.ok ((b .orderNothing s).2.error, _)) = _
        rw [law.no_error]
        rfl
      exact run_spin_find_index_end self horder hnothing n
  | some p =>
    obtain ⟨ids, hwalk, hids, hlists⟩ := exists_index_walk law hs hp
    have hstored : ∀ id ∈ ids, ((view s).object self.name (sub id)).isSome :=
      fun id hid => ((hlists.mem _).mp (List.mem_map_of_mem hid)).1.stored
    exact ⟨ids.map sub, hlists, ids.length, fun fuel hfuel =>
      hwalk.run_spin_find_index law self hids hstored hfuel []⟩

theorem find_async_delivers {self : Collection} (realm : Realm) {s : σ} (hs : self.Catalogued sub (view s))
    (hnothing : (b .orderNothing s).2.result.result = .str []) {qs : Props}
    (hsubs : ∀ xs, get qs (js "subscripts") ≠ some (.arr xs)) :
    ∃ ks fs, Enumerates (self.visited sub (view s)) ks ∧
      Enumerates {k | self.Filed sub (view s) qs k ∧ sub (.ofInt 0) < k} fs ∧
      Delivers b (fun fuel => self.find_async realm fuel (some (.obj qs))) s
        (if qs ≠ [] ∧ self.indexes ≠ [] then some ((fs.map (self.rowAt (view s))).map some)
        else if get qs (js "subscripts") = none then
          some (((ks.map (self.rowAt (view s))).filter (spared realm qs)).map some)
        else none) := by
  obtain ⟨ids, hwalk, hids, hlists⟩ := exists_scan law self hs.nodes
  obtain ⟨fs, hfs, n, hlisted⟩ := delivers_listed law hs hnothing qs
  have hresults : ∀ rows : List Json, (delivered rows).map (·.result) = rows.map some := by
    intro rows
    rw [delivered, List.map_map]
    rfl
  refine ⟨ids.map sub, fs, hlists, hfs, max n ids.length, fun fuel hfuel => ?_⟩
  obtain ⟨hn, hids_lt⟩ := max_lt_iff.mp hfuel
  rw [run_find_async]
  by_cases hcond : qs ≠ [] ∧ self.indexes ≠ []
  · obtain ⟨t, ht⟩ := hlisted fuel hn
    simp only [if_pos hcond]
    exact ⟨t, _, .ok (), ht, congrArg some (hresults _)⟩
  · simp only [if_neg hcond]
    cases hget : get qs (js "subscripts") with
    | none =>
      refine ⟨s, _, .ok (), ?_, congrArg some (hresults _)⟩
      have hstored : ∀ id ∈ ids, ((view s).object self.name (sub id)).isSome :=
        fun id hid => ((hlists.mem _).mp (List.mem_map_of_mem hid)).1
      exact hwalk.run_spin_find law self realm qs hids hstored hids_lt []
    | some v =>
      have hpush : push_zero (some (.obj qs)) (some v) = .error .typeError := by
        cases v with
        | arr xs => exact absurd hget (hsubs xs)
        | null | bool | num | str | obj => rfl
      refine ⟨s, [], .error .typeError, ?_, by simp [Except.toOption]⟩
      exact run_bind_error ((run_liftM _ _).trans (by rw [hpush]; rfl)) _

/-- The two styles give the same objects over the visible `ks`, of which `fs` have the value:
the query is empty, both throw, or the loop that runs delivers the objects that the query
matches. -/
inductive AsyncAgrees (self : Collection) (realm : Realm) (g : Globals κ) (qs : Props) (ks fs : List κ) :
    Prop
  | empty : qs = [] → AsyncAgrees self realm g qs ks fs
  | throws {v : Json} : self.indexes = [] → get qs (js "subscripts") = some v →
    AsyncAgrees self realm g qs ks fs
  | scanned : self.indexes = [] → JoinersHaveLists (.obj qs) →
    (∀ x ∈ self.meets g qs ks, self.answerAt realm g qs x =
      .ok (if sharesValue realm qs (self.rowAt g x.2) then [self.rowAt g x.2] else [])) →
    AsyncAgrees self realm g qs ks fs
  | listed : fs ≠ [] → JoinersHaveLists (.obj qs) →
    (∀ x ∈ self.meets g qs fs, self.answerAt realm g qs x = .ok [self.rowAt g x.2]) →
    AsyncAgrees self realm g qs ks fs
  | unlisted : self.indexes ≠ [] → fs = [] → get qs (js "subscripts") = none →
    JoinersHaveLists (.obj qs) → (∀ x ∈ self.meets g qs ks, self.answerAt realm g qs x = .ok []) →
    AsyncAgrees self realm g qs ks fs

omit law in
theorem Distinguished.injective {self : Collection} {realm : Realm} {g : Globals κ} {qs : Props}
    (h : self.Distinguished sub realm g qs) {ks : List κ} (hks : ∀ k ∈ ks, k ∈ self.visited sub g) :
    (∀ k ∈ ks, ∀ l ∈ ks, self.rowAt g k = self.rowAt g l → k = l) ∨ Steady realm (.obj qs) := by
  refine h.imp_left fun h k hk l hl heq => h k (hks k hk) l (hks l hl) ?_
  obtain ⟨o, ho, hok⟩ := exists_rowAt (hks k hk).1
  obtain ⟨o', ho', hol⟩ := exists_rowAt (hks l hl).1
  rw [hok, hol] at heq
  rw [ho, ho', Json.obj.inj heq]

omit law in
theorem selected_eq_filter (self : Collection) (realm : Realm) (g : Globals κ) {qs : Props}
    (hqs : qs ≠ []) {ks : List κ} (hnodup : ks.Nodup) (hks : ∀ k ∈ ks, k ∈ self.visited sub g)
    (keep : Json → Bool) :
    ((JoinersHaveLists (.obj qs) ∧ ∀ x ∈ self.meets g qs ks, self.answerAt realm g qs x =
        .ok (if keep (self.rowAt g x.2) then [self.rowAt g x.2] else [])) →
      some (((ks.map (self.rowAt g)).filter keep).map some) = (self.selected realm g qs ks).toOption) ∧
    (self.Distinguished sub realm g qs →
      some (((ks.map (self.rowAt g)).filter keep).map some) = (self.selected realm g qs ks).toOption →
      JoinersHaveLists (.obj qs) ∧ ∀ x ∈ self.meets g qs ks, self.answerAt realm g qs x =
        .ok (if keep (self.rowAt g x.2) then [self.rowAt g x.2] else [])) := by
  have hinj : Function.Injective (Option.map (List.map (some : Json → Option Json))) :=
    Option.map_injective (List.map_injective_iff.mpr (Option.some_injective _))
  rw [selected_rows self realm g ks hqs]
  constructor
  · intro h
    rw [run_keep realm qs (self.rowAt g) keep h.1 h.2]
    rfl
  · intro hdistinct heq
    refine (run_eq_filter_iff realm qs (self.rowAt g) keep hnodup (hdistinct.injective hks)).mp ?_
    exact hinj heq.symm

omit law [LinearOrder κ] in
theorem asyncAgrees_unindexed_iff {self : Collection} {realm : Realm} {g : Globals κ} {qs : Props}
    {ks : List κ} (hqs : qs ≠ []) (hindexes : self.indexes = []) :
    self.AsyncAgrees realm g qs ks [] ↔
      get qs (js "subscripts") = none → JoinersHaveLists (.obj qs) ∧
        ∀ x ∈ self.meets g qs ks, self.answerAt realm g qs x =
          .ok (if sharesValue realm qs (self.rowAt g x.2) then [self.rowAt g x.2] else []) := by
  constructor
  · intro h hget
    cases h with
    | empty h => exact absurd h hqs
    | throws _ h => rw [hget] at h; cases h
    | scanned _ hlists h => exact ⟨hlists, h⟩
    | listed h => exact absurd rfl h
    | unlisted h => exact absurd hindexes h
  · intro h
    cases hget : get qs (js "subscripts") with
    | some v => exact .throws hindexes hget
    | none => exact .scanned hindexes (h hget).1 (h hget).2

omit law [LinearOrder κ] in
theorem asyncAgrees_unlisted_iff {self : Collection} {realm : Realm} {g : Globals κ} {qs : Props}
    {ks : List κ} (hqs : qs ≠ []) (hindexes : self.indexes ≠ []) :
    self.AsyncAgrees realm g qs ks [] ↔
      get qs (js "subscripts") = none ∧ JoinersHaveLists (.obj qs) ∧
        ∀ x ∈ self.meets g qs ks, self.answerAt realm g qs x = .ok [] := by
  constructor
  · intro h
    cases h with
    | empty h => exact absurd h hqs
    | throws h | scanned h => exact absurd h hindexes
    | listed h => exact absurd rfl h
    | unlisted _ _ hget hlists h => exact ⟨hget, hlists, h⟩
  · exact fun h => .unlisted hindexes rfl h.1 h.2.1 h.2.2

omit law [LinearOrder κ] in
theorem asyncAgrees_listed_iff {self : Collection} {realm : Realm} {g : Globals κ} {qs : Props}
    {ks fs : List κ} (hqs : qs ≠ []) (hindexes : self.indexes ≠ []) (hfs : fs ≠ []) :
    self.AsyncAgrees realm g qs ks fs ↔ JoinersHaveLists (.obj qs) ∧
      ∀ x ∈ self.meets g qs fs, self.answerAt realm g qs x = .ok [self.rowAt g x.2] := by
  constructor
  · intro h
    cases h with
    | empty h => exact absurd h hqs
    | throws h | scanned h => exact absurd h hindexes
    | listed _ hlists h => exact ⟨hlists, h⟩
    | unlisted _ h => exact absurd h hfs
  · exact fun h => .listed hfs h.1 h.2

omit law in
theorem rows_eq_objectsAt {self : Collection} {g : Globals κ} {ks : List κ}
    (hks : Enumerates (self.visited sub g) ks) : (ks.map (self.rowAt g)).map some = self.objectsAt g ks := by
  rw [objectsAt, List.map_map]
  refine List.map_congr_left fun k hk => ?_
  obtain ⟨o, ho, hrow⟩ := exists_rowAt ((hks.mem k).mp hk).1
  rw [Function.comp_apply, hrow, ho]
  rfl

omit law in
theorem async_answers_eq_iff {self : Collection} (realm : Realm) {g : Globals κ} {qs : Props} {ks fs : List κ}
    (hks : Enumerates (self.visited sub g) ks)
    (hfs : Enumerates {k | self.Filed sub g qs k ∧ sub (.ofInt 0) < k} fs) :
    (self.AsyncAgrees realm g qs ks fs →
      (if qs ≠ [] ∧ self.indexes ≠ [] then some ((fs.map (self.rowAt g)).map some)
        else if get qs (js "subscripts") = none then
          some (((ks.map (self.rowAt g)).filter (spared realm qs)).map some) else none) =
      if fs ≠ [] then (self.selected realm g qs fs).toOption
        else if get qs (js "subscripts") = none then (self.selected realm g qs ks).toOption else none) ∧
    (self.Distinguished sub realm g qs →
      (if qs ≠ [] ∧ self.indexes ≠ [] then some ((fs.map (self.rowAt g)).map some)
        else if get qs (js "subscripts") = none then
          some (((ks.map (self.rowAt g)).filter (spared realm qs)).map some) else none) =
      (if fs ≠ [] then (self.selected realm g qs fs).toOption
        else if get qs (js "subscripts") = none then (self.selected realm g qs ks).toOption else none) →
      self.AsyncAgrees realm g qs ks fs) := by
  have hnone := filed_eq_nil_iff hfs
  by_cases hqs : qs = []
  · subst hqs
    have hempty : fs = [] := hnone.mpr fun k _ hfiled => hfiled.ne_nil rfl
    have hkept : (ks.map (self.rowAt g)).filter (spared realm []) = ks.map (self.rowAt g) :=
      List.filter_eq_self.mpr fun _ _ => rfl
    refine ⟨fun _ => ?_, fun _ _ => .empty rfl⟩
    simp only [ne_eq, not_true_eq_false, false_and, if_false, hempty, hkept, rows_eq_objectsAt hks,
      selected, if_true]
    rfl
  have hscan := fun keep => selected_eq_filter self realm g hqs hks.nodup
    (fun k hk => (hks.mem k).mp hk) keep
  by_cases hindexes : self.indexes = []
  · obtain rfl : fs = [] := hnone.mpr fun k _ hfiled => hfiled.indexed hindexes
    have hspared : spared realm qs = sharesValue realm qs := by
      funext row
      simp [spared, hqs]
    rw [if_neg (fun h => h.2 hindexes), if_neg (not_not.mpr rfl), asyncAgrees_unindexed_iff hqs hindexes]
    cases get qs (js "subscripts") with
    | some v => simp
    | none =>
      rw [if_pos rfl, if_pos rfl, hspared]
      obtain ⟨henough, hneeded⟩ := hscan (sharesValue realm qs)
      exact ⟨fun h => henough (h rfl), fun hdistinct heq _ => hneeded hdistinct heq⟩
  rw [if_pos ⟨hqs, hindexes⟩]
  by_cases hempty : fs = []
  · subst hempty
    rw [if_neg (not_not.mpr rfl), asyncAgrees_unlisted_iff hqs hindexes]
    have hnokeep : (ks.map (self.rowAt g)).filter (fun _ => false) = [] := by simp
    have hfilter := hscan fun _ => false
    rw [hnokeep] at hfilter
    cases get qs (js "subscripts") with
    | some v => simp
    | none =>
      rw [if_pos rfl]
      exact ⟨fun h => hfilter.1 h.2, fun hdistinct heq => ⟨rfl, hfilter.2 hdistinct heq⟩⟩
  · have hfilter := selected_eq_filter self realm g hqs hfs.nodup
      (fun k hk => ⟨((hfs.mem k).mp hk).1.stored, ((hfs.mem k).mp hk).2⟩) fun _ => true
    rw [List.filter_true] at hfilter
    rw [if_pos hempty, asyncAgrees_listed_iff hqs hindexes hempty]
    exact hfilter

theorem async_agrees_iff {self : Collection} (realm : Realm) {s : σ} (hs : self.Catalogued sub (view s))
    (hnothing : (b .orderNothing s).2.result.result = .str []) {qs : Props}
    (hsubs : ∀ xs, get qs (js "subscripts") ≠ some (.arr xs)) :
    ∃ ks fs, Enumerates (self.visited sub (view s)) ks ∧
      Enumerates {k | self.Filed sub (view s) qs k ∧ sub (.ofInt 0) < k} fs ∧
      ∃ answer objects, Answers b (fun fuel => self.find realm fuel (some (.obj qs))) s answer ∧
        Delivers b (fun fuel => self.find_async realm fuel (some (.obj qs))) s objects ∧
        (self.AsyncAgrees realm (view s) qs ks fs → objects = answer) ∧
        (self.Distinguished sub realm (view s) qs →
          (objects = answer ↔ self.AsyncAgrees realm (view s) qs ks fs)) := by
  obtain ⟨ks, fs, hks, hfs, hfind⟩ := find_answers law realm hs hsubs
  obtain ⟨ls, gs, hls, hgs, hasync⟩ := find_async_delivers law realm hs hnothing hsubs
  obtain rfl : ks = ls := hks.eq hls
  obtain rfl : fs = gs := hfs.eq hgs
  obtain ⟨henough, hneeded⟩ := async_answers_eq_iff realm hks hfs
  exact ⟨ks, fs, hks, hfs, _, _, hfind, hasync, henough, fun hdistinct => ⟨hneeded hdistinct, henough⟩⟩

end

theorem async_agrees_residents :
    ∃ ks fs, Enumerates (people.visited Subscript.of residents.view) ks ∧
      Enumerates {k | people.Filed Subscript.of residents.view (ann 30) k ∧ Subscript.of (.ofInt 0) < k} fs ∧
      ∃ answer objects,
        Answers Disk.binding (fun fuel => people.find Realm.bare fuel (some (.obj (ann 30)))) residents
          answer ∧
        Delivers Disk.binding (fun fuel => people.find_async Realm.bare fuel (some (.obj (ann 30)))) residents
          objects ∧
        (objects = answer ↔ people.AsyncAgrees Realm.bare residents.view (ann 30) ks fs) :=
  let ⟨ks, fs, hks, hfs, answer, objects, hanswer, hobjects, _, hiff⟩ :=
    async_agrees_iff Disk.lawful Realm.bare residents_catalogued rfl fun xs h => by cases h
  ⟨ks, fs, hks, hfs, answer, objects, hanswer, hobjects, hiff (residents_reached.2.distinguished Realm.bare _)⟩

/-- The scan compares the operand of a query with the values, operator and all. -/
theorem async_find_misses_operators :
    let query : Json := .obj [(js "age", .obj [(js "$gt", .ofInt 20)])]
    people.plain.Catalogued Subscript.of residents.view ∧
    (run Disk.binding (people.plain.find Realm.bare 5 (some query)) residents).2 =
      .ok [some (.obj (stored (resident 30) 1)), some (.obj (stored (resident 31) 2))] ∧
    (run (recording Disk.binding) (people.plain.find_async Realm.bare 5 (some query)) (residents, [])).2 =
      .ok () ∧
    (run (recording Disk.binding) (people.plain.find_async Realm.bare 5 (some query))
      (residents, [])).1.2.map (·.result) = [] :=
  ⟨residents_catalogued.plain, by decide +kernel, by decide +kernel, by decide +kernel⟩

end Collection

end GlobalsJs
