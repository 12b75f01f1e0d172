import GlobalsJs.Collection.Statistics

/-!
# Finds one after another

The finds of a session begin one after another, and those with a callback go on while
others begin. Each has the next identifier for its record. A find that returns a value
ends before the next one begins; the record of a find with a callback is not written again.
-/

namespace GlobalsJs
open Ecma Cache Query Calls Calls.Prog

namespace Cache

def Call.Quiet (c : Call) : Prop := c.Reads ∨ c = .close

end Cache

namespace Collection

theorem quiet_spin_find_index (self : Collection) (fuel : ℕ) (ref : Option GloRef) :
    Only Call.Quiet (self.spin_find_index fuel ref) := by
  induction fuel generalizing ref with
  | zero => exact .throw _
  | succ n ih =>
    have horder : Only Call.Quiet (order_async ref) := by
      cases ref with
      | none => exact only_async (.inl trivial) fun _ => .pure _
      | some ref => exact only_async (.inl trivial) fun _ => .pure _
    refine horder.bind fun r => ?_
    split_ifs
    · exact (reads_callBack _ _).mono fun _ => .inl
    · exact only_sync (.inr rfl) fun _ => .pure _
    · exact only_async (.inl trivial) fun found =>
        ((reads_callBack _ _).mono fun _ => .inl).bind fun _ => ih _

theorem quiet_spin (self : Collection) (realm : Realm) (fuel : ℕ) (query : Option Json) :
    Only Call.Quiet (self.spin realm fuel query) := by
  refine (Only.lift _).bind fun subscripts => ?_
  split_ifs
  · exact (Only.lift _).bind fun ref => quiet_spin_find_index self fuel ref
  · exact (Only.lift _).bind fun p => (reads_spin_find realm p.2 fuel _).mono fun _ => .inl

structure FindCall where
  collection : Collection
  style : Style
  realm : Realm
  clock : Clock
  fuel : ℕ
  query : Option Json

inductive Progress
  | returned (x : Except Stop (List (Option Json)))
  | delivering (rest : Prog Unit) (calls : List Callback)

def Progress.objects : Progress → Option (List (Option Json))
  | .returned (.ok rows) => some rows
  | .delivering (.ret _) calls => some (calls.map (·.result))
  | _ => none

structure Begun (σ : Type) where
  call : FindCall
  statId : ℕ
  reading : σ
  progress : Progress

structure Finding (σ : Type) where
  store : σ
  begun : List (Begun σ)

inductive Tick
  | find (f : FindCall)
  | step (i : ℕ)

namespace Finding
variable {σ : Type}

def begin (b : Binding σ) (stats : σ → Statistics) (w : Finding σ) (f : FindCall) : Finding σ :=
  let started := run b (f.collection.start_query_stats f.clock.start (pop f.query)) w.store
  let statId := (stats w.store).counter + 1
  match f.style with
  | .sync =>
    let r := run b (f.collection.find_recorded f.realm (some f.clock) f.fuel f.query) w.store
    ⟨r.1, w.begun ++ [⟨f, statId, started.1, .returned r.2⟩]⟩
  | .async =>
    let rest := Calls.Prog.lift started.2 >>= fun _ => f.collection.spin f.realm f.fuel (pop f.query)
    ⟨started.1, w.begun ++ [⟨f, statId, started.1, .delivering rest []⟩]⟩

def step (b : Binding σ) (w : Finding σ) (i : ℕ) : Finding σ :=
  match w.begun[i]? with
  | some ⟨f, statId, reading, .delivering (.call c k) calls⟩ =>
    let r := recording b c (w.store, calls)
    ⟨r.1.1, w.begun.set i ⟨f, statId, reading, .delivering (k r.2) r.1.2⟩⟩
  | _ => w

def tick (b : Binding σ) (stats : σ → Statistics) (w : Finding σ) : Tick → Finding σ
  | .find f => w.begin b stats f
  | .step i => w.step b i

def after (b : Binding σ) (stats : σ → Statistics) (ticks : List Tick) (s : σ) : Finding σ :=
  ticks.foldl (tick b stats) ⟨s, []⟩

end Finding

/-- Each find has left one record, its own, and that of a complete find has the query, the time
and the number of its objects. -/
structure AllRecorded {σ : Type} (before after : Statistics) (begun : List (Begun σ)) : Prop where
  own : begun.map (·.statId) = List.range' (before.counter + 1) begun.length
  each : ∀ f ∈ begun, (after.record f.statId).isSome
  elsewhere : ∀ n, (∀ f ∈ begun, f.statId ≠ n) → after.record n = before.record n
  told : ∀ f ∈ begun, ∀ objects, f.progress.objects = some objects →
    ∃ ps, after.record f.statId = some ps ∧ Tells ps (pop f.call.query) objects.length

/-- The find returns a value, adds nothing to its query, and the query processor returns as many
objects as the find has read. -/
structure Begun.Exact {σ : Type} (b : Binding σ) (f : Begun σ) : Prop where
  style : f.call.style = .sync
  query : ¬ f.call.collection.Adds b f.reading (pop f.call.query)
  rows : ∀ ids rows, f.call.collection.Examined b f.reading (pop f.call.query) ids →
    kept f.call.realm (pop f.call.query) (f.call.collection.rowsAt b f.reading ids) = .ok rows →
    rows.length = ids.length

variable {σ : Type} {b : Binding σ} {stats : σ → Statistics}

def Begun.Wrote (b : Binding σ) (f : Begun σ) (ps : Props) : Prop :=
  match f.progress with
  | .delivering rest _ => f.call.style = .async ∧ Only Call.Quiet rest ∧
    ps = (f.call.collection.startStat f.call.clock.start (pop f.call.query) f.statId).record
  | .returned x => f.call.style = .sync ∧ ∀ out, x = .ok out → ∃ ids query',
    f.call.collection.Examined b f.reading (pop f.call.query) ids ∧
    (query' = pop f.call.query ↔ ¬ f.call.collection.Adds b f.reading (pop f.call.query)) ∧
    kept f.call.realm query' (f.call.collection.rowsAt b f.reading ids) = .ok out ∧
    ps = QueryStat.record { f.call.collection.startStat f.call.clock.start (pop f.call.query) f.statId with
      rowCount := ids.length, stop := some f.call.clock.stop, query := query' }

theorem Begun.Wrote.tells_iff {f : Begun σ} {ps : Props} (h : f.Wrote b ps) :
    (∀ objects, f.progress.objects = some objects → Tells ps (pop f.call.query) objects.length) ↔
      (f.progress.objects.isSome → f.Exact b) := by
  obtain ⟨call, statId, reading, progress⟩ := f
  cases progress with
  | delivering rest calls =>
    obtain ⟨hstyle, -, rfl⟩ := h
    have hnot : ∀ n, ¬ Tells (call.collection.startStat call.clock.start (pop call.query) statId).record
        (pop call.query) n := by
      intro n htells
      have hstop := ((tells_record_iff _ _ _).mp htells).2.1
      cases hstop
    have hasync : ¬ Begun.Exact b ⟨call, statId, reading, .delivering rest calls⟩ := by
      intro hexact
      cases hexact.style.symm.trans hstyle
    cases rest with
    | ret a => exact iff_of_false (fun htells => hnot _ (htells _ rfl)) fun hexact => hasync (hexact rfl)
    | throw e => exact iff_of_true (fun objects hobjects => by cases hobjects) fun hsome => by cases hsome
    | call c k => exact iff_of_true (fun objects hobjects => by cases hobjects) fun hsome => by cases hsome
  | returned x =>
    obtain ⟨hstyle, hwrote⟩ := h
    cases x with
    | error e => exact iff_of_true (fun objects hobjects => by cases hobjects) fun hsome => by cases hsome
    | ok out =>
      obtain ⟨ids, query', hexamined, hquery, hkept, rfl⟩ := hwrote out rfl
      have htells : (∀ objects, some out = some objects → Tells (QueryStat.record
          { call.collection.startStat call.clock.start (pop call.query) statId with
            rowCount := ids.length, stop := some call.clock.stop, query := query' })
          (pop call.query) objects.length) ↔ query' = pop call.query ∧ ids.length = out.length := by
        simp only [Option.some.injEq, forall_eq', tells_record_iff, Option.isSome_some, true_and]
      refine htells.trans ?_
      constructor
      · intro ⟨hsame, hlength⟩ _
        refine ⟨hstyle, hquery.mp hsame, fun ids' rows hexamined' hkept' => ?_⟩
        obtain rfl := hexamined.unique hexamined'
        rw [hsame] at hkept
        obtain rfl := Except.ok.inj (hkept.symm.trans hkept')
        exact hlength.symm
      · intro hexact
        obtain ⟨-, hadds, hrows⟩ := hexact rfl
        have hsame := hquery.mpr hadds
        rw [hsame] at hkept
        exact ⟨hsame, (hrows ids out hexamined hkept).symm⟩

structure Finding.Sound (b : Binding σ) (stats : σ → Statistics) (before : Statistics) (w : Finding σ) : Prop where
  counter : (stats w.store).counter = before.counter + w.begun.length
  own : w.begun.map (·.statId) = List.range' (before.counter + 1) w.begun.length
  elsewhere : ∀ n, (∀ f ∈ w.begun, f.statId ≠ n) → (stats w.store).record n = before.record n
  written : ∀ f ∈ w.begun, ∃ ps, (stats w.store).record f.statId = some ps ∧ f.Wrote b ps

theorem stats_quiet (law : StatsLaw b stats) {c : Call} (hc : c.Quiet) (s : σ) (calls : List Callback) :
    stats (recording b c (s, calls)).1.1 = stats s := by
  cases c with
  | order ref => exact congrArg stats (law.reads.1 s ref).1
  | retrieve ref => exact congrArg stats (law.reads.1 s ref).2.1
  | get ref => exact congrArg stats (law.reads.1 s ref).2.2
  | orderNothing => exact congrArg stats (law.reads.2 s)
  | close => exact law.close s
  | callback => rfl
  | set | kill | killGlobal | increment | update =>
    rcases hc with hc | hc
    · cases hc
    · cases hc

namespace Finding.Sound

theorem start (b : Binding σ) (stats : σ → Statistics) (s : σ) : Finding.Sound b stats (stats s) ⟨s, []⟩ where
  counter := rfl
  own := rfl
  elsewhere _ _ := rfl
  written _ hf := absurd hf List.not_mem_nil

variable {before : Statistics} {w : Finding σ}

theorem statId_le (hw : w.Sound b stats before) {f : Begun σ} (hf : f ∈ w.begun) :
    f.statId ≤ (stats w.store).counter := by
  have hmem : f.statId ∈ List.range' (before.counter + 1) w.begun.length := by
    rw [← hw.own]
    exact List.mem_map_of_mem hf
  have hle := (List.mem_range'_1.mp hmem).2
  have hcounter := hw.counter
  omega

theorem add (hw : w.Sound b stats before) {u : σ} {ps : Props} {f : Begun σ}
    (hid : f.statId = (stats w.store).counter + 1) (hu : stats u = (stats w.store).after ps)
    (hf : f.Wrote b ps) : Finding.Sound b stats before ⟨u, w.begun ++ [f]⟩ := by
  have hrecord : ∀ n, (stats u).record n =
      if n = (stats w.store).counter + 1 then some ps else (stats w.store).record n := by
    intro n
    rw [hu]
    exact Function.update_apply ..
  refine ⟨?_, ?_, ?_, ?_⟩
  · have hcounter : (stats u).counter = (stats w.store).counter + 1 := by
      rw [hu]
      rfl
    rw [hcounter, hw.counter, List.length_append, List.length_singleton, Nat.add_assoc]
  · rw [List.map_append, hw.own, List.length_append, List.length_singleton, List.range'_1_concat,
      List.map_singleton, hid, hw.counter]
    congr 2
    omega
  · intro n hn
    have hlast : n ≠ (stats w.store).counter + 1 := by
      rw [← hid]
      exact (hn f (List.mem_append_right _ (List.mem_singleton_self f))).symm
    rw [hrecord, if_neg hlast]
    exact hw.elsewhere n fun g hg => hn g (List.mem_append_left _ hg)
  · intro g hg
    rcases List.mem_append.mp hg with hg | hg
    · obtain ⟨qs, hqs, hwrote⟩ := hw.written g hg
      have hle := hw.statId_le hg
      exact ⟨qs, by rw [hrecord, if_neg (by omega), hqs], hwrote⟩
    · obtain rfl := List.mem_singleton.mp hg
      exact ⟨ps, by rw [hrecord, if_pos hid], hf⟩

theorem proceed (hw : w.Sound b stats before) {i : ℕ} {f g : Begun σ} (hi : w.begun[i]? = some f) {u : σ}
    (hu : stats u = stats w.store) (hid : g.statId = f.statId)
    (hg : ∀ ps, f.Wrote b ps → g.Wrote b ps) : Finding.Sound b stats before ⟨u, w.begun.set i g⟩ := by
  have hids : (w.begun.set i g).map (·.statId) = w.begun.map (·.statId) := by
    have hget : (w.begun.map (·.statId))[i]? = some f.statId := by rw [List.getElem?_map, hi, Option.map_some]
    obtain ⟨hlt, hval⟩ := List.getElem?_eq_some_iff.mp hget
    rw [List.map_set, hid, ← hval, List.set_getElem_self]
  have hmem : ∀ n, (∀ h ∈ w.begun.set i g, h.statId ≠ n) → ∀ h ∈ w.begun, h.statId ≠ n := by
    intro n hn h hh heq
    have hin : h.statId ∈ (w.begun.set i g).map (·.statId) := by
      rw [hids]
      exact List.mem_map_of_mem hh
    obtain ⟨h', hh', heq'⟩ := List.mem_map.mp hin
    exact hn h' hh' (heq'.trans heq)
  refine ⟨?_, ?_, fun n hn => ?_, fun h hh => ?_⟩
  · rw [hu, List.length_set]
    exact hw.counter
  · rw [List.length_set]
    exact hids.trans hw.own
  · rw [hu]
    exact hw.elsewhere n (hmem n hn)
  · rw [hu]
    rcases List.mem_or_eq_of_mem_set hh with hh | rfl
    · exact hw.written h hh
    · obtain ⟨ps, hps, hwrote⟩ := hw.written f (List.mem_of_getElem? hi)
      exact ⟨ps, by rw [hid, hps], hg ps hwrote⟩

variable (law : StatsLaw b stats)
include law

theorem begin (hw : w.Sound b stats before) (f : FindCall) : (w.begin b stats f).Sound b stats before := by
  obtain ⟨t, hstart, hstarted⟩ := run_start law f.collection f.clock.start (pop f.query) w.store
  unfold Finding.begin
  cases hstyle : f.style with
  | sync =>
    cases hr : run b (f.collection.find_recorded f.realm (some f.clock) f.fuel f.query) w.store with
    | mk u x =>
      obtain ⟨ps, hu, hwrote⟩ := run_find_recorded law f.collection f.realm f.clock f.fuel f.query hr
      exact hw.add rfl hu ⟨hstyle, hwrote⟩
  | async =>
    rw [hstart]
    exact hw.add rfl hstarted ⟨hstyle, quiet_spin f.collection f.realm f.fuel _, rfl⟩

theorem step (hw : w.Sound b stats before) (i : ℕ) : (w.step b i).Sound b stats before := by
  unfold Finding.step
  cases hi : w.begun[i]? with
  | none => exact hw
  | some f =>
    obtain ⟨call, statId, reading, progress⟩ := f
    cases progress with
    | returned x => exact hw
    | delivering rest calls =>
      cases rest with
      | ret a => exact hw
      | throw e => exact hw
      | call c k =>
        obtain ⟨ps, -, hstyle, hquiet, hps⟩ := hw.written _ (List.mem_of_getElem? hi)
        cases hquiet with
        | call hc hk =>
          exact hw.proceed hi (stats_quiet law hc _ _) rfl fun ps' hwrote => ⟨hwrote.1, hk _, hwrote.2.2⟩

theorem after (ticks : List Tick) (s : σ) : (Finding.after b stats ticks s).Sound b stats (stats s) := by
  refine List.foldlRecOn (motive := fun w => Finding.Sound b stats (stats s) w) ticks _ (start b stats s) ?_
  intro w hw tick _
  cases tick with
  | find f => exact begin law hw f
  | step i => exact step law hw i

end Finding.Sound

/-- In every session each complete find has its record exactly when each is as it has to be. -/
theorem stats_recorded_iff (law : StatsLaw b stats) (ticks : List Tick) (s : σ) :
    AllRecorded (stats s) (stats (Finding.after b stats ticks s).store) (Finding.after b stats ticks s).begun ↔
      ∀ f ∈ (Finding.after b stats ticks s).begun, f.progress.objects.isSome → f.Exact b := by
  have hsound := Finding.Sound.after law ticks s
  have htold : ∀ f ∈ (Finding.after b stats ticks s).begun, (∀ objects, f.progress.objects = some objects →
      ∃ ps, (stats (Finding.after b stats ticks s).store).record f.statId = some ps ∧
        Tells ps (pop f.call.query) objects.length) ↔ (f.progress.objects.isSome → f.Exact b) := by
    intro f hf
    obtain ⟨ps, hps, hwrote⟩ := hsound.written f hf
    rw [← hwrote.tells_iff]
    simp only [hps, Option.some.injEq, exists_eq_left']
  constructor
  · exact fun h f hf => (htold f hf).mp (h.told f hf)
  · intro h
    refine ⟨hsound.own, fun f hf => ?_, hsound.elsewhere, fun f hf => (htold f hf).mpr (h f hf)⟩
    obtain ⟨ps, hps, -⟩ := hsound.written f hf
    rw [hps]
    rfl

def withStatistics (b : Binding σ) : Binding (σ × Statistics)
  | .increment ref, s =>
    if ref.global = js "%globalsjs" then
      ((s.1, { s.2 with counter := s.2.counter + 1 }), ⟨none, .obj [(js "global", .str ref.global),
        (js "subscripts", .arr (ref.subscripts.map fun x => x.getD .null)),
        (js "data", .ofInt (s.2.counter + 1 : ℕ))]⟩)
    else (((b (.increment ref) s.1).1, s.2), (b (.increment ref) s.1).2)
  | .update node object, s =>
    if node.global = js "%globalsjs" then
      ((s.1, match object, node.subscripts.getLast? with
        | .obj ps, some id => s.2.write (readNat (textOf id)) ps
        | _, _ => s.2), ⟨none, .ofInt 0⟩)
    else (((b (.update node object) s.1).1, s.2), (b (.update node object) s.1).2)
  | c, s => (((b c s.1).1, s.2), (b c s.1).2)

theorem statsLaw_withStatistics (hreads : KeepsOnRead b) : StatsLaw (withStatistics b) Prod.snd where
  increment _ := rfl
  increment_data _ := rfl
  increment_ref _ _ := rfl
  update s n ps := by
    have hid : readNat (textOf (some (.ofInt n))) = n := readNat_natText n
    have hwrite : (withStatistics b (.update (statRef n) (.obj ps)) s).1.2 =
        s.2.write (readNat (textOf (some (.ofInt n)))) ps := rfl
    rw [hwrite, hid]
  close _ := rfl
  reads := ⟨fun s ref => ⟨Prod.ext (hreads.1 s.1 ref).1 rfl, Prod.ext (hreads.1 s.1 ref).2.1 rfl,
    Prod.ext (hreads.1 s.1 ref).2.2 rfl⟩, fun s => Prod.ext (hreads.2 s.1) rfl⟩

def noStatistics : Statistics := ⟨0, fun _ => none⟩

def findAged (style : Style) (age : ℤ) : FindCall :=
  ⟨people.plain, style, Realm.bare, ⟨100, 130⟩, 5, some (.obj (ann age))⟩

def bothStyles : Finding (Disk × Statistics) :=
  Finding.after (withStatistics Disk.binding) Prod.snd
    [.find (findAged .sync 30), .find (findAged .async 31)] (residents, noStatistics)

theorem stats_recorded_residents : AllRecorded noStatistics bothStyles.store.2 bothStyles.begun ↔
    ∀ f ∈ bothStyles.begun, f.progress.objects.isSome → f.Exact (withStatistics Disk.binding) :=
  stats_recorded_iff (statsLaw_withStatistics keepsOnRead_disk)
    [.find (findAged .sync 30), .find (findAged .async 31)] (residents, noStatistics)

/-- One resident is thirty years old, and the record says that two were found. -/
theorem stats_count_rows_read : ¬ ∀ (ticks : List Tick) (s : Disk × Statistics),
    let w := Finding.after (withStatistics Disk.binding) Prod.snd ticks s
    AllRecorded s.2 w.store.2 w.begun := by
  intro h
  have hall := h [.find (findAged .sync 30)] (residents, noStatistics)
  have hone : (Finding.after (withStatistics Disk.binding) Prod.snd [.find (findAged .sync 30)]
      (residents, noStatistics)).begun.map (fun f => (f.statId, f.progress.objects.map List.length)) =
      [(1, some 1)] := by decide +kernel
  have htwo : ((Finding.after (withStatistics Disk.binding) Prod.snd [.find (findAged .sync 30)]
      (residents, noStatistics)).store.2.record 1).map (fun ps => get ps (js "rowCount")) =
      some (some (.ofInt 2)) := by decide +kernel
  obtain ⟨f, hf, heq⟩ := List.mem_map.mp (hone ▸ List.mem_singleton_self _)
  obtain ⟨hid, hlength⟩ := Prod.mk.inj heq
  obtain ⟨objects, hobjects, hone⟩ := Option.map_eq_some_iff.mp hlength
  obtain ⟨ps, hps, htells⟩ := hall.told f hf objects hobjects
  rw [hid] at hps
  have hps' := congrArg (Option.map fun ps => get ps (js "rowCount")) hps
  rw [htwo, Option.map_some, htells.rowCount, hone] at hps'
  exact absurd hps' (by decide)

end Collection

end GlobalsJs
