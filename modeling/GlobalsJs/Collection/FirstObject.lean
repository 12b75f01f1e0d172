import GlobalsJs.Collection.AsyncFind
import GlobalsJs.Collection.Operations

/-!
# The first object

`find` with a callback delivers objects, and `first_object` takes the first property of
what it is given, as if it were a list of results. So `findOne` with a callback passes on
the value of a field where the other style returns the object.
-/

namespace GlobalsJs
open Ecma Cache Query Calls.Prog

theorem run_onCallback {α σ : Type} {b : Binding σ} (f : Option Json → Option Json) (p : Prog α) (s : σ)
    (calls given : List Callback) : ∃ t more x,
      run (recording b) p (s, calls) = ((t, calls ++ more), x) ∧
      run (recording b) (onCallback (fun error result => callBack error (f result)) p) (s, given) =
        ((t, given ++ more.map fun c => ⟨c.error, f c.result⟩), x) := by
  induction p generalizing s calls given with
  | ret a => exact ⟨s, [], .ok a, by rw [List.append_nil]; rfl, by rw [List.map_nil, List.append_nil]; rfl⟩
  | throw e =>
    exact ⟨s, [], .error e, by rw [List.append_nil]; rfl, by rw [List.map_nil, List.append_nil]; rfl⟩
  | call c k ih =>
    cases c with
    | callback error result =>
      obtain ⟨t, more, x, hp, hq⟩ := ih ⟨none, ()⟩ s (calls ++ [⟨error, result⟩]) (given ++ [⟨error, f result⟩])
      refine ⟨t, ⟨error, result⟩ :: more, x, ?_, ?_⟩
      · rw [run_call]
        refine hp.trans ?_
        rw [List.append_assoc]
        rfl
      · have hcall : run (recording b) (callBack error (f result)) (s, given) =
            ((s, given ++ [⟨error, f result⟩]), .ok ()) := rfl
        refine (run_bind_ok hcall _).trans (hq.trans ?_)
        rw [List.append_assoc]
        rfl
    | set | kill | killGlobal | increment | update | order | orderNothing | retrieve | get | close =>
      exact ih _ _ calls given

namespace Collection
variable {σ κ : Type} [LinearOrder κ] {b : Binding σ} {view : σ → Globals κ} {sub : Json → κ}

/-- No stored object has an object in a field. -/
def Flat (self : Collection) (g : Globals κ) : Prop :=
  ∀ k o, g.object self.name k = some o → ∀ p ∈ o, ∀ ps, p.2 ≠ .obj ps

/-- The first value that is passed to the callback is what the other style returns. -/
def FirstAgrees (self : Collection) (b : Binding σ) (realm : Realm) (query : Option Json) (s : σ) : Prop :=
  ∃ n, ∀ fuel, n < fuel → ∃ o, (run b (self.findOne realm fuel query) s).2 = .ok o ∧
    (run (recording b) (self.findOne_async realm fuel query) (s, [])).1.2.head?.map Callback.result = some o

omit [LinearOrder κ] in
theorem selected_objects {self : Collection} {realm : Realm} {g : Globals κ} {qs : Props} {ks : List κ}
    {rows : List (Option Json)} (hks : ∀ k ∈ ks, (g.object self.name k).isSome)
    (hrows : self.selected realm g qs ks = .ok rows) : ∀ row ∈ rows, ∃ ps, row = some (.obj ps) := by
  have hall : ∀ row ∈ self.objectsAt g ks, ∃ ps, row = some (.obj ps) := by
    intro row hrow
    obtain ⟨k, hk, rfl⟩ := List.mem_map.mp hrow
    obtain ⟨o, ho⟩ := Option.isSome_iff_exists.mp (hks k hk)
    exact ⟨o, by rw [ho]; rfl⟩
  intro row hrow
  rw [selected] at hrows
  split_ifs at hrows with hqs
  · obtain rfl := Except.ok.inj hrows
    exact hall row hrow
  · rw [filter_results] at hrows
    cases hrun : Query.run realm (.obj qs) ((self.objectsAt g ks).map fun o => o.getD .null) with
    | error err => rw [hrun] at hrows; cases hrows
    | ok out =>
      rw [hrun] at hrows
      obtain rfl := Except.ok.inj hrows
      obtain ⟨r, hr, rfl⟩ := List.mem_map.mp hrow
      obtain ⟨o, ho, rfl⟩ := List.mem_map.mp (mem_of_run realm hrun hr)
      obtain ⟨ps, rfl⟩ := hall o ho
      exact ⟨ps, rfl⟩

section
variable (law : Lawful b view sub)
include law

theorem findOne_returns_object {self : Collection} (realm : Realm) {s : σ}
    (hs : self.Catalogued sub (view s)) {qs : Props} (hsubs : ∀ xs, get qs (js "subscripts") ≠ some (.arr xs)) :
    ∃ n, ∀ fuel, n < fuel → ∀ o,
      (run b (self.findOne realm fuel (some (.obj qs))) s).2 = .ok o → ∃ ps, o = some (.obj ps) := by
  obtain ⟨ks, fs, hks, hfs, n, hfind⟩ := find_answers law realm hs hsubs
  have hvisited : ∀ k ∈ ks, ((view s).object self.name k).isSome := fun k hk => ((hks.mem k).mp hk).1
  have hfiled : ∀ k ∈ fs, ((view s).object self.name k).isSome := fun k hk => ((hfs.mem k).mp hk).1.stored
  refine ⟨n, fun fuel hfuel o ho => ?_⟩
  obtain ⟨x, hx, hanswer⟩ := hfind fuel hfuel
  cases x with
  | error err =>
    rw [findOne, run_bind_error hx] at ho
    cases ho
  | ok rows =>
    have hrows : ∀ row ∈ rows, ∃ ps, row = some (.obj ps) := by
      have hselected : ∀ {ls}, (∀ k ∈ ls, ((view s).object self.name k).isSome) →
          some rows = (self.selected realm (view s) qs ls).toOption → ∀ row ∈ rows, ∃ ps, row = some (.obj ps) := by
        intro ls hls heq
        refine @selected_objects κ self realm (view s) qs ls rows hls ?_
        cases hsel : self.selected realm (view s) qs ls with
        | error err => rw [hsel] at heq; cases heq
        | ok out => rw [hsel] at heq; rw [Option.some.inj heq]
      split_ifs at hanswer
      · exact hselected hfiled hanswer
      · exact hselected hvisited hanswer
      · cases hanswer
    rw [findOne, run_bind_ok hx] at ho
    obtain rfl := Except.ok.inj ho
    cases rows with
    | nil => exact ⟨[], rfl⟩
    | cons row rows => exact hrows row List.mem_cons_self

theorem findOne_passes_fields {self : Collection} (realm : Realm) {s : σ}
    (hs : self.Catalogued sub (view s)) (hindexes : self.indexes = []) {qs : Props}
    (hsubs : ∀ xs, get qs (js "subscripts") ≠ some (.arr xs)) :
    ∃ ks, Enumerates (self.visited sub (view s)) ks ∧ ∃ n, ∀ fuel, n < fuel →
      (run (recording b) (self.findOne_async realm fuel (some (.obj qs))) (s, [])).1.2 =
        if get qs (js "subscripts") = none then
          ((ks.map (self.rowAt (view s))).filter (spared realm qs)).map fun row =>
            ⟨none, first_object (some row)⟩
        else [] := by
  obtain ⟨ids, hwalk, hids, hlists⟩ := exists_scan law self hs.nodes
  refine ⟨ids.map sub, hlists, ids.length, fun fuel hfuel => ?_⟩
  obtain ⟨t, more, x, hfind, hone⟩ := run_onCallback (b := b) first_object
    (self.find_async realm fuel (some (.obj qs))) s [] []
  have hpath : ¬ (qs ≠ [] ∧ self.indexes ≠ []) := fun h => h.2 hindexes
  rw [run_find_async, if_neg hpath] at hfind
  rw [findOne_async, hone]
  cases hget : get qs (js "subscripts") with
  | none =>
    have hstored : ∀ id ∈ ids, ((view s).object self.name (sub id)).isSome :=
      fun id hid => ((hlists.mem _).mp (List.mem_map_of_mem hid)).1
    rw [hget] at hfind
    have hscan := hwalk.run_spin_find law self realm qs hids hstored hfuel []
    have hmore := (Prod.mk.inj (Prod.mk.inj (hfind.symm.trans hscan)).1).2
    rw [List.nil_append, List.nil_append] at hmore
    rw [hmore, delivered, List.nil_append, List.map_map, if_pos rfl]
    rfl
  | some v =>
    have hpush : push_zero (some (.obj qs)) (some v) = .error .typeError := by
      cases v with
      | arr xs => exact absurd hget (hsubs xs)
      | null | bool | num | str | obj => rfl
    rw [hget] at hfind
    have hthrow : run (recording b) (liftM (push_zero (some (.obj qs)) (some v)) :
        Prog (List (Option Json) × Option Json)) (s, []) = ((s, []), .error (.error .typeError)) :=
      (run_liftM _ _).trans (by rw [hpush]; rfl)
    have hmore := (Prod.mk.inj (Prod.mk.inj (hfind.symm.trans (run_bind_error hthrow _))).1).2
    rw [List.nil_append] at hmore
    rw [hmore, if_neg (by simp)]
    rfl

/-- A query for everything, or for an integer in one field. -/
def SimpleQuery (qs : Props) : Prop := qs = [] ∨ ∃ f n, qs = [(f, .ofInt n)]

/-- Without an index the two styles never agree: one gives an object, the other the value of a field. -/
theorem findOne_never_agrees (self : Collection) (realm : Realm) {s : σ} (hs : self.Shaped (view s))
    (hindexes : self.indexes = []) (hflat : self.Flat (view s)) {qs : Props} (hqs : SimpleQuery qs) :
    ¬ self.FirstAgrees b realm (some (.obj qs)) s := by
  have hcatalogued : self.Catalogued sub (view s) := by
    have hnone : self.fields = [] := by rw [fields, hindexes, List.filterMap_nil]
    refine ⟨fun index hindex => ?_, hs.nodes, hs.objects, fun f hf => ?_⟩
    · rw [hindexes] at hindex
      cases hindex
    · rw [hnone] at hf
      cases hf
  have hsubs : ∀ xs, get qs (js "subscripts") ≠ some (.arr xs) := by
    intro xs hget
    rcases hqs with rfl | ⟨f, n, rfl⟩
    · cases hget
    · rw [get_cons] at hget
      split_ifs at hget
      · cases hget
      · cases hget
  obtain ⟨n, hsync⟩ := findOne_returns_object law realm hcatalogued hsubs
  obtain ⟨ks, hks, m, hasync⟩ := findOne_passes_fields law realm hcatalogued hindexes hsubs
  intro hfirst
  obtain ⟨l, hagrees⟩ := hfirst
  obtain ⟨o, ho, hfirst⟩ := hagrees (n + m + l + 1) (by omega)
  obtain ⟨ps, rfl⟩ := hsync _ (by omega) o ho
  rw [hasync _ (by omega)] at hfirst
  split_ifs at hfirst
  · rw [List.head?_map, Option.map_map] at hfirst
    obtain ⟨row, hrow, hvalue⟩ := Option.map_eq_some_iff.mp hfirst
    obtain ⟨k, hk, rfl⟩ := List.mem_map.mp (List.mem_of_mem_filter (List.mem_of_mem_head? hrow))
    obtain ⟨object, hobject, hrowAt⟩ := exists_rowAt ((hks.mem k).mp hk).1
    rw [hrowAt] at hvalue
    obtain ⟨p, hp, hpv⟩ := Option.map_eq_some_iff.mp (show object.head?.map Prod.snd = some (.obj ps) from hvalue)
    exact hflat k object hobject p (List.mem_of_mem_head? hp) ps hpv
  · cases hfirst

end

theorem residents_shaped : people.plain.Shaped residents.view := by
  refine ⟨residents_catalogued.nodes, residents_catalogued.objects, fun p hp => ?_⟩
  have hentries : ∀ e ∈ residents.nodes, e.2.length = 3 := by decide +kernel
  exact hentries _ hp.1

theorem residents_flat : people.plain.Flat residents.view := by
  intro k o ho p hp ps hps
  have hobjects : ∀ e ∈ residents.objects, ∀ p ∈ e.2, p.2.isObject = false := by decide +kernel
  have hflat := hobjects _ (Disk.mem_objects ho) p hp
  rw [hps] at hflat
  cases hflat

theorem findOne_never_agrees_residents :
    ¬ people.plain.FirstAgrees Disk.binding Realm.bare (some (.obj (ann 30))) residents :=
  findOne_never_agrees Disk.lawful people.plain Realm.bare residents_shaped rfl residents_flat (.inr ⟨js "age", 30, rfl⟩)

/-- One resident is thirty years old. One style returns the resident, the other passes the city. -/
theorem findOne_passes_city :
    (run Disk.binding (people.plain.findOne Realm.bare 5 (some (.obj (ann 30)))) residents).2 =
      .ok (some (.obj (stored (resident 30) 1))) ∧
    (run (recording Disk.binding) (people.plain.findOne_async Realm.bare 5 (some (.obj (ann 30))))
      (residents, [])).2 = .ok () ∧
    (run (recording Disk.binding) (people.plain.findOne_async Realm.bare 5 (some (.obj (ann 30))))
      (residents, [])).1.2.map Callback.result = [some (.ofInt 1)] :=
  ⟨by decide +kernel, by decide +kernel, by decide +kernel⟩

end Collection

end GlobalsJs
