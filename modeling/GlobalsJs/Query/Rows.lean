import GlobalsJs.Query.Completion

/-!
# Queries row by row

What a query returns is what its rows contribute one after the other, unless one of
them throws. A row contributes copies of itself, and how many may depend on the `k` that
the rows before it leave.
-/

namespace GlobalsJs.Query
open Ecma Collected

/-- What the query processor makes of one row where it meets `k`. -/
def rowAnswer (realm : Realm) (query : Json) (k : Option ℕ) (row : Json) : Except JsError (List Json) := do
  contributes (realm.constructed query) (← new query) k row

/-- The query does not look at `k`. -/
def Steady (realm : Realm) (query : Json) : Prop :=
  ∀ k k' row, rowAnswer realm query k row = rowAnswer realm query k' row

theorem rowAnswer_of_new (realm : Realm) {query : Json} {stack : Stack} (h : new query = .ok stack)
    (k : Option ℕ) (row : Json) :
    rowAnswer realm query k row = contributes (realm.constructed query) stack k row := by
  rw [rowAnswer, h]
  rfl

theorem new_eq_collected (qs : Props) :
    new (.obj qs) = collected (fun p => push (.obj qs) p.1 p.2) qs := by
  change (qs.mapM fun p => push (.obj qs) p.1 p.2) >>= _ = _
  rw [collected]
  cases qs.mapM fun p => push (.obj qs) p.1 p.2 <;> rfl

theorem new_ok_iff (qs : Props) : (∃ stack, new (.obj qs) = .ok stack) ↔ JoinersHaveLists (.obj qs) := by
  have hpush : ∀ p ∈ qs, (∃ stack, push (.obj qs) p.1 p.2 = .ok stack) ↔
      (p.1.head? = some dollar → ∃ xs, p.2 = .arr xs) := by
    rintro ⟨prop, v⟩ hp
    by_cases hdollar : prop.head? = some dollar
    · cases v <;> simp [push, hdollar]
    · exact iff_of_true ⟨_, if_neg hdollar⟩ fun h => absurd h hdollar
  rw [new_eq_collected, collected_ok_iff]
  constructor
  · rintro h ps heq p hp
    obtain rfl := Json.obj.inj heq
    exact (hpush p hp).mp (h p hp)
  · exact fun h p hp => (hpush p hp).mpr (h qs rfl p hp)

section
variable (realm : Realm) {α : Type}

theorem run_eq_collected (query : Json) (row : α → Json) {xs : List α}
    (h : xs ≠ [] ∨ ∃ stack, new query = .ok stack) : run realm query (xs.map row) =
      collected (fun p => rowAnswer realm query p.1 (row p.2)) (counts query row xs) := by
  cases hnew : new query with
  | error err =>
    have hne : xs ≠ [] := by
      rcases h with h | ⟨stack, h⟩
      · exact h
      · rw [hnew] at h
        cases h
    obtain ⟨x, xs, rfl⟩ := List.exists_cons_of_ne_nil hne
    rw [run_of_error hnew, counts, along, collected, List.mapM_cons]
    simp only [rowAnswer, hnew]
    rfl
  | ok stack => simp only [run_of_new hnew, rowAnswer_of_new realm hnew]

theorem step_copies {row : Json} {e : Option Json} {st st' : RowState}
    (hst : ∃ n, st.results = List.replicate n row) (h : step realm row st e = .ok st') :
    ∃ n, st'.results = List.replicate n row := by
  cases e with
  | none => cases h
  | some e =>
    by_cases hstr : ∃ joiner, e = .str joiner
    · obtain ⟨joiner, rfl⟩ := hstr
      simp only [step, bind, Except.bind, pure, Except.pure] at h
      generalize Scope.eval _ _ = add_row at h
      cases add_row with
      | error err => cases h
      | ok add_row =>
        obtain rfl := Except.ok.inj h
        obtain ⟨n, hn⟩ := hst
        dsimp only
        split_ifs
        · exact ⟨n + 1, by rw [hn, List.replicate_succ']⟩
        · exact ⟨n, by rw [hn, List.append_nil]⟩
    · rw [step_test row fun s hs => hstr ⟨s, hs⟩] at h
      cases hr : testRow (realm.counted st.k) row e with
      | error err => rw [hr] at h; cases h
      | ok r =>
        rw [hr] at h
        obtain rfl := Except.ok.inj h
        exact hst

theorem contributes_copies {stack : Stack} {k : Option ℕ} {row : Json} {ys : List Json}
    (h : contributes realm stack k row = .ok ys) : ∃ n, ys = List.replicate n row := by
  have hfold : ∀ (stack : Stack) (st st' : RowState), (∃ n, st.results = List.replicate n row) →
      stack.foldlM (step realm row) st = .ok st' → ∃ n, st'.results = List.replicate n row := by
    intro stack
    induction stack with
    | nil =>
      intro st st' hst hrun
      obtain rfl := Except.ok.inj hrun
      exact hst
    | cons e stack ih =>
      intro st st' hst hrun
      rw [List.foldlM_cons] at hrun
      cases hstep : step realm row st e with
      | error err => rw [hstep] at hrun; cases hrun
      | ok st₁ =>
        rw [hstep] at hrun
        exact ih st₁ st' (step_copies realm hst hstep) hrun
  rw [contributes, executeRow] at h
  cases hst : stack.foldlM (step realm row) ⟨[], false, [], k⟩ with
  | error err => rw [hst] at h; cases h
  | ok st =>
    obtain ⟨n, hn⟩ := hfold stack _ st ⟨0, rfl⟩ hst
    rw [hst] at h
    obtain rfl := Except.ok.inj h
    dsimp only
    split_ifs
    · exact ⟨n + 1, by rw [hn, List.replicate_succ']⟩
    · exact ⟨n, hn⟩

theorem rowAnswer_copies (query : Json) (row : α → Json) : Copies
    (fun p : Option ℕ × α => row p.2) fun p => rowAnswer realm query p.1 (row p.2) := by
  intro p ys h
  change rowAnswer realm query p.1 (row p.2) = _ at h
  cases hnew : new query with
  | error err => rw [rowAnswer, hnew] at h; cases h
  | ok stack =>
    rw [rowAnswer_of_new realm hnew] at h
    exact contributes_copies _ h

theorem mem_of_run {query : Json} {rows out : List Json} (h : run realm query rows = .ok out)
    {row : Json} (hrow : row ∈ out) : row ∈ rows := by
  cases hnew : new query with
  | error err => rw [run_of_error hnew] at h; cases h
  | ok stack =>
    rw [← List.map_id rows, run_eq_collected realm query id (.inr ⟨stack, hnew⟩)] at h
    have hok := collected_ok_iff.mp ⟨out, h⟩
    rw [collected_of_ok hok] at h
    obtain rfl := Except.ok.inj h
    obtain ⟨x, hx, hmem⟩ := List.mem_flatMap.mp hrow
    obtain ⟨ys, hys⟩ := hok x hx
    obtain ⟨n, rfl⟩ := rowAnswer_copies realm query id x ys hys
    rw [value, hys] at hmem
    obtain rfl : row = x.2 := List.eq_of_mem_replicate hmem
    exact mem_of_counts hx

theorem alike_of_distinct {query : Json} {row : α → Json} {xs : List α} (hxs : xs.Nodup)
    (h : (∀ x ∈ xs, ∀ y ∈ xs, row x = row y → x = y) ∨ Steady realm query) :
    ∀ p ∈ counts query row xs, ∀ q ∈ counts query row xs, row q.2 = row p.2 →
      rowAnswer realm query q.1 (row q.2) = rowAnswer realm query p.1 (row p.2) := by
  classical
  intro p hp q hq heq
  rcases h with h | h
  · obtain ⟨meets, hmeets⟩ := exists_along
      (fun k x => leaves (row x) ((new query).toOption.getD []) 0 k) none hxs
    have hmeet : ∀ r ∈ counts query row xs, r.1 = meets r.2 := by
      intro r hr
      rw [counts, hmeets] at hr
      obtain ⟨x, -, rfl⟩ := List.mem_map.mp hr
      rfl
    rw [hmeet p hp, hmeet q hq, h _ (mem_of_counts hq) _ (mem_of_counts hp) heq]
  · rw [heq]
    exact h _ _ _

theorem map_counts (query : Json) (row : α → Json) (xs : List α) :
    (counts query row xs).map (fun p => row p.2) = xs.map row := by
  have hcounts := map_snd_along (fun k x => leaves (row x) ((new query).toOption.getD []) 0 k) none xs
  conv_rhs => rw [← hcounts, List.map_map]
  rfl

theorem run_keep (qs : Props) (row : α → Json) (keep : Json → Bool) {xs : List α}
    (hlists : JoinersHaveLists (.obj qs))
    (hrows : ∀ p ∈ counts (.obj qs) row xs,
      rowAnswer realm (.obj qs) p.1 (row p.2) = .ok (if keep (row p.2) then [row p.2] else [])) :
    run realm (.obj qs) (xs.map row) = .ok ((xs.map row).filter keep) := by
  rw [run_eq_collected realm _ row (.inr ((new_ok_iff qs).mpr hlists)), ← map_counts (.obj qs) row xs]
  exact collected_keep hrows

theorem run_eq_filter_iff (qs : Props) (row : α → Json) (keep : Json → Bool) {xs : List α}
    (hxs : xs.Nodup)
    (h : (∀ x ∈ xs, ∀ y ∈ xs, row x = row y → x = y) ∨ Steady realm (.obj qs)) :
    (run realm (.obj qs) (xs.map row)).toOption = some ((xs.map row).filter keep) ↔
      JoinersHaveLists (.obj qs) ∧ ∀ p ∈ counts (.obj qs) row xs,
        rowAnswer realm (.obj qs) p.1 (row p.2) = .ok (if keep (row p.2) then [row p.2] else []) := by
  refine ⟨fun hrun => ?_, fun hkeep => by rw [run_keep realm qs row keep hkeep.1 hkeep.2]; rfl⟩
  classical
  have hnew : ∃ stack, new (.obj qs) = .ok stack := by
    refine ok_of_not_error fun ⟨err, herr⟩ => ?_
    rw [run_of_error herr] at hrun
    cases hrun
  refine ⟨(new_ok_iff qs).mp hnew, ?_⟩
  rw [run_eq_collected realm _ row (.inr hnew), ← map_counts (.obj qs) row xs] at hrun
  exact (collected_eq_filter_iff (rowAnswer_copies realm _ row) keep (alike_of_distinct realm hxs h)).mp hrun

end

end GlobalsJs.Query
