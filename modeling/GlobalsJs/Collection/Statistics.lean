import GlobalsJs.Collection.Parallel

/-!
# Query statistics

With `recordQueryStats` a find leaves a record of itself under `%globalsjs`: it is written
when the find starts, and once more when a find that returns a value stops. A find with a
callback does not stop its record, and the number of rows is taken before the query
processor has left any of them out.
-/

namespace GlobalsJs
open Ecma Cache Query Calls Calls.Prog

structure QueryStat where
  collection : JsString
  start : ℤ
  stop : Option ℤ
  query : Option Json
  rowCount : ℕ
  statId : Option Json

def QueryStat.record (stat : QueryStat) : Props :=
  [(js "collection", .str stat.collection), (js "start", .ofInt stat.start),
    (js "stop", stat.stop.elim (.str []) .ofInt)] ++
  stat.query.toList.map (js "query", ·) ++ [(js "rowCount", .ofInt stat.rowCount)] ++
  stat.statId.toList.map (js "statId", ·) ++
  stat.stop.toList.map fun stop => (js "runtime", .ofInt (stop - stat.start))

def STAT_GLO_REF (subscripts : List (Option Json)) : GloRef := ⟨js "%globalsjs", subscripts⟩

def queryStats : GloRef := STAT_GLO_REF [some (.str (js "queryStats"))]

def pushed (reply : Json) (statId : Option Json) : Except JsError GloRef := do
  let global ← member (some reply) (js "global")
  match ← member (some reply) (js "subscripts") with
  | some (.arr xs) => return ⟨textOf global, xs.map some ++ [statId]⟩
  | _ => throw .typeError

structure StatRef where
  ref : GloRef
  data : QueryStat

structure Clock where
  start : ℤ
  stop : ℤ

namespace Collection

section
variable (self : Collection)

/-- Here `update` is given the reference itself, with the record in `data`. -/
def start_query_stats (now : ℤ) (query : Option Json) : Prog StatRef := do
  let reply ← (Call.increment queryStats).sync
  let statId ← member (some reply) (js "data")
  let ref ← pushed reply statId
  let stat : QueryStat := ⟨self.name, now, none, query, 0, statId⟩
  let _ ← (Call.update ref (.obj stat.record)).sync
  return ⟨ref, stat⟩

/-- The record shares the query with the find, which may have added to it. -/
def stop_query_stats (stat_ref : StatRef) (now : ℤ) (query : Option Json) (rowCount : ℕ) : Prog Unit := do
  let stat := { stat_ref.data with rowCount := rowCount, stop := some now, query := query }
  let _ ← (Call.update stat_ref.ref (.obj stat.record)).sync

def find_ids (fuel : ℕ) (query : Option Json) : Prog (List Json × Option Json) := do
  let subscripts ← query_subscripts query
  let ids ← self.index_ids fuel query
  if ids = [] then
    let (id_subscripts, query) ← push_zero query subscripts
    return (← order_ids fuel ⟨self.name, id_subscripts⟩, query)
  else return (ids, query)

def kept (realm : Realm) (query : Option Json) (results : List (Option Json)) :
    Except JsError (List (Option Json)) :=
  match query with
  | some q => if isEmptyObject query then .ok results else filter_results realm q results
  | none => .ok results

def find_recorded (realm : Realm) (clock : Option Clock) (fuel : ℕ) (query : Option Json) :
    Prog (List (Option Json)) := do
  let query := pop query
  let stat_ref ← clock.mapM fun c => self.start_query_stats c.start query
  let (ids, query) ← self.find_ids fuel query
  let results ← self.retrieve_all ids
  let rr ← kept realm query results
  match clock, stat_ref with
  | some clock, some stat_ref => stop_query_stats stat_ref clock.stop query results.length
  | _, _ => pure ()
  return rr

/-- What a find with a callback does when the record is written. -/
def spin (realm : Realm) (fuel : ℕ) (query : Option Json) : Prog Unit := do
  let subscripts ← query_subscripts query
  if !isEmptyObject query ∧ self.indexes ≠ [] then
    self.spin_find_index fuel (← self.build_index_glo_ref_from_query (query.getD .null))
  else
    let (id_subscripts, query) ← push_zero query subscripts
    spin_find realm query fuel ⟨self.name, id_subscripts⟩

def find_async_recorded (realm : Realm) (clock : Option Clock) (fuel : ℕ) (query : Option Json) :
    Prog Unit := do
  let query := pop query
  let _ ← clock.mapM fun c => self.start_query_stats c.start query
  self.spin realm fuel query

theorem select_eq (realm : Realm) (query : Option Json) (ids : List Json) :
    self.select realm query ids = (do
      let results ← self.retrieve_all ids
      liftM (kept realm query results)) := by
  unfold select kept
  cases query with
  | none => rfl
  | some q =>
    refine congrArg (self.retrieve_all ids >>= ·) (funext fun results => ?_)
    cases isEmptyObject (some q) <;> rfl

theorem find_recorded_none (realm : Realm) (fuel : ℕ) (query : Option Json) :
    self.find_recorded realm none fuel query = self.find realm fuel query := by
  have hnone : (none : Option Clock).mapM (fun c => self.start_query_stats c.start (pop query)) = pure none := rfl
  simp only [find_recorded, hnone, pure_bind, bind_pure, ← select_eq, find_ids, find, bind_assoc]
  refine congrArg (_ >>= ·) (funext fun subscripts => congrArg (_ >>= ·) (funext fun ids => ?_))
  by_cases hids : ids = []
  · simp only [if_pos hids, bind_assoc, pure_bind]
  · simp only [if_neg hids, pure_bind]

theorem find_async_recorded_none (realm : Realm) (fuel : ℕ) (query : Option Json) :
    self.find_async_recorded realm none fuel query = self.find_async realm fuel query := rfl

theorem find_async_recorded_some (realm : Realm) (clock : Clock) (fuel : ℕ) (query : Option Json) :
    self.find_async_recorded realm (some clock) fuel query = (do
      let _ ← self.start_query_stats clock.start (pop query)
      self.spin realm fuel (pop query)) := by
  simp only [find_async_recorded, Option.mapM_some, map_eq_pure_bind, bind_assoc, pure_bind]

end

end Collection

@[ext] structure Statistics where
  counter : ℕ
  record : ℕ → Option Props

def Statistics.write (stats : Statistics) (n : ℕ) (ps : Props) : Statistics :=
  { stats with record := Function.update stats.record n (some ps) }

/-- What a find leaves that began with these statistics. -/
def Statistics.after (before : Statistics) (ps : Props) : Statistics :=
  Statistics.write ⟨before.counter + 1, before.record⟩ (before.counter + 1) ps

theorem Statistics.after_write (before : Statistics) (ps qs : Props) :
    (before.after ps).write (before.counter + 1) qs = before.after qs := by
  simp only [after, write, Function.update_idem]

def statRef (n : ℕ) : GloRef := STAT_GLO_REF [some (.str (js "queryStats")), some (.ofInt n)]

/-- The binding as the statistics rely on it. -/
structure StatsLaw {σ : Type} (b : Binding σ) (stats : σ → Statistics) : Prop where
  increment : ∀ s, stats (b (.increment queryStats) s).1 =
    { stats s with counter := (stats s).counter + 1 }
  increment_data : ∀ s, member (some (b (.increment queryStats) s).2.result) (js "data") =
    .ok (some (.ofInt ((stats s).counter + 1 : ℕ)))
  increment_ref : ∀ s id, pushed (b (.increment queryStats) s).2.result id =
    .ok (STAT_GLO_REF [some (.str (js "queryStats")), id])
  update : ∀ s n ps, stats (b (.update (statRef n) (.obj ps)) s).1 = (stats s).write n ps
  close : ∀ s, stats (b .close s).1 = stats s
  reads : KeepsOnRead b

namespace Collection
variable {σ : Type} {b : Binding σ} {stats : σ → Statistics}

inductive Orders (b : Binding σ) (s : σ) : GloRef → List Json → Prop
  | done {ref : GloRef} : isEnd (b (.order ref) s).2.result.result = true → Orders b s ref []
  | next {ref : GloRef} {ids : List Json} : isEnd (b (.order ref) s).2.result.result = false →
    Orders b s ⟨(b (.order ref) s).2.result.global, (b (.order ref) s).2.result.subscripts⟩ ids →
    Orders b s ref ((b (.order ref) s).2.result.result :: ids)

theorem Orders.unique {s : σ} {ref : GloRef} {ids ids' : List Json} (h : Orders b s ref ids)
    (h' : Orders b s ref ids') : ids = ids' := by
  induction h generalizing ids' with
  | done hend =>
    cases h' with
    | done => rfl
    | next hnot => rw [hend] at hnot; cases hnot
  | next hnot _ ih =>
    cases h' with
    | done hend => rw [hend] at hnot; cases hnot
    | next _ hrest => rw [ih hrest]

def InIndex (self : Collection) (b : Binding σ) (s : σ) (query : Option Json) (ids : List Json) : Prop :=
  ∃ q ref, query = some q ∧ self.build_index_glo_ref_from_query q = .ok (some ref) ∧ Orders b s ref ids

inductive Examined (self : Collection) (b : Binding σ) (s : σ) (query : Option Json) : List Json → Prop
  | index {ids : List Json} : self.InIndex b s query ids → ids ≠ [] → Examined self b s query ids
  | scan {ids : List Json} {subscripts query' : Option Json} {id_subscripts : List (Option Json)} :
    (∀ listed, self.InIndex b s query listed → listed = []) → query_subscripts query = .ok subscripts →
    push_zero query subscripts = .ok (id_subscripts, query') →
    Orders b s ⟨self.name, id_subscripts⟩ ids → Examined self b s query ids

def rowsAt (self : Collection) (b : Binding σ) (s : σ) (ids : List Json) : List (Option Json) :=
  ids.map fun id => (b (.retrieve ⟨self.name, [some id]⟩) s).2.result

theorem InIndex.unique {self : Collection} {s : σ} {query : Option Json} {ids ids' : List Json}
    (h : self.InIndex b s query ids) (h' : self.InIndex b s query ids') : ids = ids' := by
  obtain ⟨q, ref, rfl, href, hids⟩ := h
  obtain ⟨q', ref', hq, href', hids'⟩ := h'
  obtain rfl := Option.some.inj hq
  rw [href] at href'
  obtain rfl := Option.some.inj (Except.ok.inj href')
  exact hids.unique hids'

theorem Examined.unique {self : Collection} {s : σ} {query : Option Json} {ids ids' : List Json}
    (h : self.Examined b s query ids) (h' : self.Examined b s query ids') : ids = ids' := by
  cases h with
  | index hids hne =>
    cases h' with
    | index hids' => exact hids.unique hids'
    | scan hnone => exact absurd (hnone ids hids) hne
  | scan hnone hsubs hpush hids =>
    cases h' with
    | index hids' hne => exact absurd (hnone ids' hids') hne
    | scan _ hsubs' hpush' hids' =>
      rw [hsubs] at hsubs'
      obtain rfl := Except.ok.inj hsubs'
      rw [hpush] at hpush'
      obtain ⟨rfl, -⟩ := Prod.mk.inj (Except.ok.inj hpush')
      exact hids.unique hids'

section
variable (hreads : KeepsOnRead b)
include hreads

theorem orders_of_run {fuel : ℕ} {ref : GloRef} {s t : σ} {ids : List Json}
    (h : run b (order_ids fuel ref) s = (t, .ok ids)) : t = s ∧ Orders b s ref ids := by
  induction fuel generalizing ref t ids with
  | zero => cases h
  | succ n ih =>
    have hstate : (b (.order ref) s).1 = s := (hreads.1 s ref).1
    rw [order_ids, run_bind_ok (run_sync _ s), hstate] at h
    cases hend : isEnd (b (.order ref) s).2.result.result with
    | true =>
      rw [hend] at h
      cases h
      exact ⟨rfl, .done hend⟩
    | false =>
      rw [hend, if_neg Bool.false_ne_true] at h
      obtain ⟨u, rest, hrest, hret⟩ := run_bind_eq_ok.mp h
      obtain ⟨rfl, hids⟩ := ih hrest
      cases hret
      exact ⟨rfl, .next hend hids⟩

omit hreads in
theorem length_rowsAt (self : Collection) (ids : List Json) (s : σ) :
    (self.rowsAt b s ids).length = ids.length := List.length_map ..

theorem run_retrieve_rows (self : Collection) (ids : List Json) (s : σ) :
    run b (self.retrieve_all ids) s = (s, .ok (self.rowsAt b s ids)) := by
  refine run_mapM fun id _ => ?_
  have hstate : (b (.retrieve ⟨self.name, [some id]⟩) s).1 = s := (hreads.1 s _).2.1
  refine (run_sync _ s).trans ?_
  rw [hstate]
  rfl

end

/-- The scan adds to the list of subscripts that the query has. -/
def Adds (self : Collection) (b : Binding σ) (s : σ) (query : Option Json) : Prop :=
  (∃ xs, query_subscripts query = .ok (some (.arr xs))) ∧ ∀ ids, self.InIndex b s query ids → ids = []

theorem push_zero_query {query query' subscripts : Option Json} {id_subscripts : List (Option Json)}
    (hsubs : query_subscripts query = .ok subscripts)
    (hpush : push_zero query subscripts = .ok (id_subscripts, query')) :
    query' = query ↔ ¬ ∃ xs, subscripts = some (.arr xs) := by
  cases subscripts with
  | none =>
    obtain ⟨-, rfl⟩ := Prod.mk.inj (Except.ok.inj hpush)
    simp
  | some v =>
    cases v with
    | arr xs =>
      cases query with
      | none => cases hpush
      | some q =>
        cases q with
        | obj ps =>
          have hget : get ps (js "subscripts") = some (.arr xs) := Except.ok.inj hsubs
          obtain ⟨-, rfl⟩ := Prod.mk.inj (Except.ok.inj hpush)
          refine iff_of_false (fun heq => ?_) (fun h => h ⟨xs, rfl⟩)
          have hput := congrArg (get · (js "subscripts")) (Json.obj.inj (Option.some.inj heq))
          simp only [get_put, hget, if_true, Option.some.injEq, Json.arr.injEq] at hput
          exact absurd (congrArg List.length hput) (by simp)
        | null | bool | num | str | arr => cases hpush
    | null | bool | num | str | obj => cases hpush

section
variable (hreads : KeepsOnRead b)
include hreads

theorem inIndex_of_run {self : Collection} {fuel : ℕ} {query : Option Json} {s t : σ} {ids : List Json}
    (h : run b (self.index_ids fuel query) s = (t, .ok ids)) :
    t = s ∧ (ids ≠ [] → self.InIndex b s query ids) ∧
      (ids = [] → ∀ listed, self.InIndex b s query listed → listed = []) := by
  cases query with
  | none =>
    cases h
    refine ⟨rfl, fun hne => absurd rfl hne, fun _ listed hlisted => ?_⟩
    obtain ⟨q, _, hq, -⟩ := hlisted
    cases hq
  | some q =>
    obtain ⟨u, built, hbuild, hrest⟩ := run_bind_eq_ok.mp h
    obtain ⟨rfl, href⟩ := run_liftM_eq_ok.mp hbuild
    cases built with
    | none =>
      cases hrest
      refine ⟨rfl, fun hne => absurd rfl hne, fun _ listed hlisted => ?_⟩
      obtain ⟨q', ref, hq, href', -⟩ := hlisted
      obtain rfl := Option.some.inj hq
      rw [href] at href'
      cases href'
    | some ref =>
      obtain ⟨rfl, hids⟩ := orders_of_run hreads hrest
      have hindex : self.InIndex b t (some q) ids := ⟨q, ref, rfl, href, hids⟩
      refine ⟨rfl, fun _ => hindex, fun hnil listed hlisted => ?_⟩
      rw [hlisted.unique hindex, hnil]

theorem examined_of_run {self : Collection} {fuel : ℕ} {query query' : Option Json} {s t : σ}
    {ids : List Json} (h : run b (self.find_ids fuel query) s = (t, .ok (ids, query'))) :
    t = s ∧ self.Examined b s query ids ∧ (query' = query ↔ ¬ self.Adds b s query) := by
  obtain ⟨u, subscripts, hlift, hrest⟩ := run_bind_eq_ok.mp h
  obtain ⟨rfl, hsubs⟩ := run_liftM_eq_ok.mp hlift
  obtain ⟨v, found, hfound, hpath⟩ := run_bind_eq_ok.mp hrest
  obtain ⟨rfl, hindex, hnone⟩ := inIndex_of_run hreads hfound
  by_cases hids : found = []
  · rw [if_pos hids] at hpath
    obtain ⟨w, ⟨id_subscripts, query''⟩, hpush, hscan⟩ := run_bind_eq_ok.mp hpath
    obtain ⟨rfl, hpushed⟩ := run_liftM_eq_ok.mp hpush
    obtain ⟨x, scanned, hscanned, hret⟩ := run_bind_eq_ok.mp hscan
    obtain ⟨rfl, horders⟩ := orders_of_run hreads hscanned
    cases hret
    refine ⟨rfl, .scan (hnone hids) hsubs hpushed horders, ?_⟩
    rw [push_zero_query hsubs hpushed, Adds, hsubs, and_iff_left (hnone hids)]
    simp
  · rw [if_neg hids] at hpath
    cases hpath
    refine ⟨rfl, .index (hindex hids) hids, iff_of_true rfl fun hadds => hids ?_⟩
    exact hadds.2 _ (hindex hids)

end

def startStat (self : Collection) (now : ℤ) (query : Option Json) (n : ℕ) : QueryStat :=
  ⟨self.name, now, none, query, 0, some (.ofInt n)⟩

structure Tells (ps : Props) (query : Option Json) (objects : ℕ) : Prop where
  query : get ps (js "query") = query
  stop : ∃ now : ℤ, get ps (js "stop") = some (.ofInt now)
  rowCount : get ps (js "rowCount") = some (.ofInt objects)

theorem get_record (stat : QueryStat) : get stat.record (js "query") = stat.query ∧
    get stat.record (js "stop") = some (stat.stop.elim (.str []) .ofInt) ∧
    get stat.record (js "rowCount") = some (.ofInt stat.rowCount) := by
  obtain ⟨collection, start, stop, query, rowCount, statId⟩ := stat
  cases query <;> cases statId <;> cases stop <;> simp [QueryStat.record, get_cons, js]

theorem tells_record_iff (stat : QueryStat) (query : Option Json) (objects : ℕ) :
    Tells stat.record query objects ↔ stat.query = query ∧ stat.stop.isSome ∧ stat.rowCount = objects := by
  obtain ⟨hquery, hstop, hcount⟩ := get_record stat
  have hstopped : (∃ now : ℤ, get stat.record (js "stop") = some (.ofInt now)) ↔ stat.stop.isSome := by
    rw [hstop]
    cases stat.stop with
    | none => exact iff_of_false (fun ⟨_, h⟩ => by cases h) Bool.false_ne_true
    | some now => exact iff_of_true ⟨now, rfl⟩ rfl
  have hcounted : get stat.record (js "rowCount") = some (.ofInt objects) ↔ stat.rowCount = objects := by
    rw [hcount, Option.some.injEq, Json.ofInt_nat_inj]
  constructor
  · intro h
    exact ⟨hquery.symm.trans h.query, hstopped.mp h.stop, hcounted.mp h.rowCount⟩
  · intro ⟨h, hs, hc⟩
    exact ⟨hquery.trans h, hstopped.mpr hs, hcounted.mpr hc⟩

section
variable (law : StatsLaw b stats)
include law

theorem run_start (self : Collection) (now : ℤ) (query : Option Json) (s : σ) :
    ∃ t, run b (self.start_query_stats now query) s =
      (t, .ok ⟨statRef ((stats s).counter + 1), self.startStat now query ((stats s).counter + 1)⟩) ∧
    stats t = (stats s).after (self.startStat now query ((stats s).counter + 1)).record := by
  refine ⟨(b (.update (statRef ((stats s).counter + 1))
    (.obj (self.startStat now query ((stats s).counter + 1)).record)) (b (.increment queryStats) s).1).1, ?_, ?_⟩
  · rw [start_query_stats, run_bind_ok (run_sync _ s)]
    refine (run_bind_ok (run_liftM_eq_ok.mpr ⟨rfl, law.increment_data s⟩) _).trans ?_
    refine (run_bind_ok (run_liftM_eq_ok.mpr ⟨rfl, law.increment_ref s _⟩) _).trans ?_
    rfl
  · have hupdate := law.update (b (.increment queryStats) s).1 ((stats s).counter + 1)
      (self.startStat now query ((stats s).counter + 1)).record
    rw [law.increment] at hupdate
    exact hupdate

theorem run_stop (stat : QueryStat) (n : ℕ) (now : ℤ) (query : Option Json) (rowCount : ℕ) (s : σ) :
    ∃ t, run b (stop_query_stats ⟨statRef n, stat⟩ now query rowCount) s = (t, .ok ⟨⟩) ∧
      stats t = (stats s).write n { stat with rowCount := rowCount, stop := some now, query := query }.record :=
  ⟨_, rfl, law.update s n _⟩

theorem run_find_ids_keeps (self : Collection) (fuel : ℕ) (query : Option Json) (s : σ) :
    (run b (self.find_ids fuel query) s).1 = s := by
  have horder : ∀ ref, Only (fun c => ∃ ref, c = .order ref) (order_ids fuel ref) :=
    only_order_ids (fun ref => ⟨ref, rfl⟩) fuel
  have hindex : Only (fun c => ∃ ref, c = .order ref) (self.index_ids fuel query) := by
    cases query with
    | none => exact .pure _
    | some q =>
      refine (Only.lift _).bind fun ref => ?_
      cases ref with
      | none => exact .pure _
      | some ref => exact horder ref
  have honly : Only (fun c => ∃ ref, c = .order ref) (self.find_ids fuel query) := by
    refine (Only.lift _).bind fun subscripts => hindex.bind fun ids => ?_
    split_ifs
    · exact (Only.lift _).bind fun _ => (horder _).bind fun _ => .pure _
    · exact .pure _
  refine honly.keeps (I := fun t => t = s) ?_ rfl
  intro c ⟨ref, hc⟩ t ht
  rw [hc, ← ht]
  exact (law.reads.1 t ref).1

theorem run_find_recorded (self : Collection) (realm : Realm) (clock : Clock) (fuel : ℕ)
    (query : Option Json) {s u : σ} {x : Except Stop (List (Option Json))}
    (h : run b (self.find_recorded realm (some clock) fuel query) s = (u, x)) :
    ∃ ps, stats u = (stats s).after ps ∧ ∀ out, x = .ok out → ∃ ids query',
      self.Examined b (run b (self.start_query_stats clock.start (pop query)) s).1 (pop query) ids ∧
      (query' = pop query ↔
        ¬ self.Adds b (run b (self.start_query_stats clock.start (pop query)) s).1 (pop query)) ∧
      kept realm query' (self.rowsAt b (run b (self.start_query_stats clock.start (pop query)) s).1 ids) =
        .ok out ∧
      ps = QueryStat.record { self.startStat clock.start (pop query) ((stats s).counter + 1) with
        rowCount := ids.length, stop := some clock.stop, query := query' } := by
  obtain ⟨t, hstart, hstarted⟩ := run_start law self clock.start (pop query) s
  have hbegin : run b ((some clock).mapM fun c => self.start_query_stats c.start (pop query)) s =
      (t, .ok (some ⟨statRef ((stats s).counter + 1),
        self.startStat clock.start (pop query) ((stats s).counter + 1)⟩)) :=
    run_bind_ok hstart _
  rw [hstart]
  rw [find_recorded, run_bind_ok hbegin] at h
  have hkeeps := run_find_ids_keeps law self fuel (pop query) t
  cases hids : run b (self.find_ids fuel (pop query)) t with
  | mk v y =>
    rw [hids] at hkeeps
    subst hkeeps
    cases y with
    | error e =>
      rw [run_bind_error hids] at h
      cases h
      exact ⟨_, hstarted, fun out hout => by cases hout⟩
    | ok p =>
      obtain ⟨ids, query'⟩ := p
      obtain ⟨-, hexamined, hquery⟩ := examined_of_run law.reads hids
      rw [run_bind_ok hids, run_bind_ok (run_retrieve_rows law.reads self ids _)] at h
      cases hkept : kept realm query' (self.rowsAt b v ids) with
      | error e =>
        rw [run_bind_error ((run_liftM _ v).trans (by rw [hkept]; rfl))] at h
        cases h
        exact ⟨_, hstarted, fun out hout => by cases hout⟩
      | ok out =>
        obtain ⟨w, hstop, hstopped⟩ := run_stop law (self.startStat clock.start (pop query) ((stats s).counter + 1))
          ((stats s).counter + 1) clock.stop query' (self.rowsAt b v ids).length v
        rw [run_bind_ok (run_liftM_eq_ok.mpr ⟨rfl, hkept⟩)] at h
        have hend := h.symm.trans (run_bind_ok hstop _)
        cases hend
        refine ⟨_, hstopped.trans ((congrArg (Statistics.write · _ _) hstarted).trans
          (Statistics.after_write _ _ _)), fun out' hout => ?_⟩
        cases hout
        refine ⟨ids, query', hexamined, hquery, hkept, ?_⟩
        rw [length_rowsAt]

end

end Collection

end GlobalsJs
