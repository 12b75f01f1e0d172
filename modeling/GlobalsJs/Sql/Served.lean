import GlobalsJs.Sql.Asking

/-!
# Requests that were asked for

As long as the loop comes to no request that is half written, every number goes through the same stages:
unused, begun, waiting with what its call has written, and generated once.
-/

namespace GlobalsJs.Sql

open Ecma Cache

section
variable {κ : Type} [LinearOrder κ] {round : Rounding} {text : κ → JsString} {sub : JsString → κ}

/-- The class has the name that was asked for, and what was described are columns and indexes of it. -/
structure Handled.Answers (text : κ → JsString) (sub : JsString → κ) (h : Handled κ) (m : Filled) : Prop where
  classname : h.classname = m.package ++ js "." ++ m.classname
  globalname : h.globalname = m.classname
  properties : ∀ f x, m.record [js "properties", f] = some x → h.arrays.properties.lookup (sub f) = some x
  indicies : ∀ f x, m.record [js "indicies", f] = some x → h.arrays.indicies.lookup (sub f) = some x
  generated : ∃ dictionary, generateClass text dictionary h.classname h.arrays.properties h.arrays.indicies
    h.globalname = .ok h.generated

theorem Handled.Answers.maps {h : Handled κ} {m : Filled} (ha : h.Answers text sub m)
    (htext : ∀ f, text (sub f) = f) (hok : h.generated.status = .ok ()) :
    ∃ (cdef : ClassDefinition) (names indexes : List JsString), h.generated.definition = some cdef ∧
      cdef.storages.map StorageDefinition.sqlMaps =
        [sqlMap m.classname names :: indexes.map (sqlIndexMap m.classname)] ∧
      (∀ f, (m.record [js "properties", f]).isSome → f ∈ names) ∧
      ∀ f, (m.record [js "indicies", f]).isSome → f ∈ indexes := by
  obtain ⟨dictionary, hgenerated⟩ := ha.generated
  obtain ⟨cdef, hdefinition, hmaps⟩ := generateClass_maps hgenerated hok
  have hlisted : ∀ (t : Table κ JsString) (f x : JsString), t.lookup (sub f) = some x →
      f ∈ (Table.inOrder t.keys).map text := by
    intro t f x hx
    refine List.mem_map.mpr ⟨sub f, ?_, htext f⟩
    rw [Table.mem_inOrder, ← AList.mem_keys, ← AList.lookup_isSome, hx]
    rfl
  rw [ha.globalname] at hmaps
  refine ⟨cdef, (Table.inOrder h.arrays.properties.keys).map text, (Table.inOrder h.arrays.indicies.keys).map text,
    hdefinition, ?_, fun f hf => ?_, fun f hf => ?_⟩
  · rw [List.map_map]
    exact hmaps
  · obtain ⟨x, hx⟩ := Option.isSome_iff_exists.mp hf
    exact hlisted _ f x (ha.properties f x hx)
  · obtain ⟨x, hx⟩ := Option.isSome_iff_exists.mp hf
    exact hlisted _ f x (ha.indicies f x hx)

omit [LinearOrder κ] in
theorem order_id {q : SqlGlobal κ} {n k : ℕ} (h : q.order n = .id k) : n < k ∧ (q.requests.lookup k).isSome := by
  rw [SqlGlobal.order] at h
  cases hnext : Table.order q.requests.keys (some n) with
  | none =>
    rw [hnext] at h
    dsimp only at h
    split_ifs at h
  | some l =>
    rw [hnext] at h
    obtain rfl := Node.id.inj h
    obtain ⟨hlt, ⟨r, hr⟩, -⟩ := order_next hnext
    exact ⟨hlt, by rw [hr]; rfl⟩

/-- How far a number has come: its call, its request and how often its class was generated. -/
inductive Stage (sub : JsString → κ) : Option Asking → Option (Request κ) → ℕ → Prop
  | free : Stage sub none none 0
  | begun {c : Asking} (hmade : c.made = 0) : Stage sub (some c) none 0
  | pending {c : Asking} (hmade : 0 < c.made) : Stage sub (some c) (some (c.request sub)) 0
  | served {c : Asking} (hwhole : c.Whole) : Stage sub (some c) none 1

/-- What is kept while the loop comes to no request that is half written. -/
structure Kept (text : κ → JsString) (sub : JsString → κ) (s : Site κ) : Prop where
  working : s.sql.Working
  numbered : ∀ k c, s.calls k = some c → 0 < k ∧ k ≤ s.counter
  stages : ∀ k, Stage sub (s.calls k) (s.sql.requests.lookup k) (s.generated.count k)
  next : ∀ k a, s.loop = some (.id k, a) → (s.sql.requests.lookup k).isSome
  answers : ∀ h ∈ s.handled, ∃ c, s.calls h.id = some c ∧ c.Whole ∧ h.Answers text sub c.description
  traps : ∀ t ∈ s.traps, t = .subscript

namespace Kept
variable {s : Site κ}

theorem of_fresh (hs : s.Fresh) : Kept text sub s := by
  refine ⟨hs.working, fun k c hc => ?_, fun k => ?_, fun k a ha => ?_, fun h hh => ?_, fun t ht => ?_⟩
  · rw [hs.calls k] at hc
    cases hc
  · rw [hs.calls k, hs.requests, Site.generated, hs.handled]
    exact .free
  · rw [hs.loop] at ha
    cases ha
  · rw [hs.handled] at hh
    cases hh
  · rw [hs.traps] at ht
    cases ht

theorem ask (hs : Kept text sub s) (m : Filled) : Kept text sub { s with
    counter := s.counter + 1
    calls := Function.update s.calls (s.counter + 1) (some ⟨m, 0⟩) } := by
  have hnew : s.calls (s.counter + 1) = none := by
    cases hc : s.calls (s.counter + 1) with
    | none => rfl
    | some c => exact absurd (hs.numbered _ c hc).2 (by omega)
  refine ⟨hs.working, fun k c hc => ?_, fun k => ?_, hs.next, fun h hh => ?_, hs.traps⟩
  · dsimp only at hc ⊢
    by_cases hk : k = s.counter + 1
    · omega
    · obtain ⟨hpos, hle⟩ := hs.numbered k c (by rwa [Function.update_of_ne hk] at hc)
      omega
  · have hstage := hs.stages k
    dsimp only
    by_cases hk : k = s.counter + 1
    · rw [hk, hnew] at hstage
      rw [hk, Function.update_self]
      change Stage sub _ _ (s.generated.count (s.counter + 1))
      generalize s.sql.requests.lookup (s.counter + 1) = r, s.generated.count (s.counter + 1) = n at hstage
      cases hstage
      exact .begun rfl
    · rw [Function.update_of_ne hk]
      exact hstage
  · obtain ⟨c, hc, hanswers⟩ := hs.answers h hh
    refine ⟨c, ?_, hanswers⟩
    have hk : h.id ≠ s.counter + 1 := by
      intro hk
      rw [hk, hnew] at hc
      cases hc
    dsimp only
    rw [Function.update_of_ne hk, hc]

theorem next_write (hs : Kept text sub s) {id : ℕ} {c : Asking} {e : List JsString × JsString}
    {es : List (List JsString × JsString)} (hcall : s.calls id = some c) (hrest : c.rest = e :: es) :
    Kept text sub { s with
      calls := Function.update s.calls id (some { c with made := c.made + 1 })
      sql := s.sql.put sub id e.1 e.2 } := by
  obtain ⟨henabled, hstop⟩ := put_kept sub s.sql id e.1 e.2
  refine ⟨⟨?_, ?_⟩, fun k c' hc => ?_, fun k => ?_, fun k a ha => ?_, fun h hh => ?_, hs.traps⟩
  · rw [henabled]
    exact hs.working.enabled
  · rw [hstop]
    exact hs.working.stop
  · dsimp only at hc
    by_cases hk : k = id
    · rw [hk]
      exact hs.numbered id c hcall
    · exact hs.numbered k c' (by rwa [Function.update_of_ne hk] at hc)
  · have hstage := hs.stages k
    dsimp only
    rw [put_lookup]
    by_cases hk : k = id
    · rw [hk, hcall] at hstage
      rw [hk, Function.update_self]
      change Stage sub _ _ (s.generated.count id)
      generalize s.sql.requests.lookup id = r, s.generated.count id = n at hstage
      have hnext : Asking.request sub { c with made := c.made + 1 } = (c.request sub).put sub e.1 e.2 :=
        Asking.request_next hrest
      have hmore : 0 < (⟨c.description, c.made + 1⟩ : Asking).made := Nat.succ_pos _
      cases hstage with
      | begun hmade =>
        obtain ⟨hpath, hblank⟩ := Asking.first_write sub hmade hrest
        rw [if_pos ⟨rfl, hpath⟩, Option.getD_none, ← hblank, ← hnext]
        exact .pending hmore
      | pending hmade =>
        by_cases hpath : [] ∈ e.1
        · rw [put_void _ hpath] at hnext
          rw [if_neg fun h => h.2 hpath, ← hnext]
          exact .pending hmore
        · rw [if_pos ⟨rfl, hpath⟩, Option.getD_some, ← hnext]
          exact .pending hmore
      | served hwhole =>
        have hpath := hwhole.2 e (by rw [hrest]; exact List.mem_cons_self)
        rw [if_neg fun h => h.2 hpath]
        exact .served (hwhole.next hrest)
    · rw [Function.update_of_ne hk, if_neg fun h => hk h.1]
      exact hstage
  · have hthere := hs.next k a ha
    dsimp only
    rw [put_lookup]
    split_ifs
    · rfl
    · exact hthere
  · obtain ⟨c', hc', hwhole, hanswers⟩ := hs.answers h hh
    dsimp only
    by_cases hk : h.id = id
    · rw [hk, hcall] at hc'
      obtain rfl := Option.some.inj hc'
      rw [hk, Function.update_self]
      exact ⟨_, rfl, hwhole.next hrest, hanswers⟩
    · rw [Function.update_of_ne hk]
      exact ⟨c', hc', hwhole, hanswers⟩

theorem start (hs : Kept text sub s) : Kept text sub s.start := by
  rw [Site.start]
  have hstop : ¬ s.sql.stop = true := by simp [hs.working.stop]
  rw [if_neg hs.working.enabled, if_neg hstop]
  split_ifs
  · exact hs
  · refine ⟨⟨hs.working.enabled, hs.working.stop⟩, hs.numbered, hs.stages, fun k a ha => ?_, hs.answers, hs.traps⟩
    exact (order_id (Prod.mk.inj (Option.some.inj ha)).1).2

theorem exists_handled (hsub : Function.Injective sub) (hs : Kept text sub s) {dictionary : ℕ → Dictionary} {k : ℕ}
    {arrays : Arrays κ} (hloop : s.loop = some (.id k, arrays)) (hcalm : s.CalmAt (.round dictionary)) :
    ∃ (c : Asking) (h : Handled κ), s.calls k = some c ∧ c.Whole ∧ h.id = k ∧ h.Answers text sub c.description ∧
      s.sql.requests.lookup k = some (c.request sub) ∧ s.generated.count k = 0 ∧
      let settled := (s.sql.deamonLog (js "Start processing in node:" ++ natText k)).settle k h.generated.status
      s.turn text dictionary = { s with
        sql := settled
        loop := some (settled.order k, h.arrays)
        handled := s.handled ++ [h] } := by
  have hstage := hs.stages k
  obtain ⟨r, hr⟩ := Option.isSome_iff_exists.mp (hs.next k arrays hloop)
  rw [hr] at hstage
  obtain ⟨c, hcall, hmade, rfl, hcount⟩ : ∃ c, s.calls k = some c ∧ 0 < c.made ∧ c.request sub = r ∧
      s.generated.count k = 0 := by
    generalize s.calls k = call, s.generated.count k = n at hstage ⊢
    cases hstage with
    | pending hmade => exact ⟨_, rfl, hmade, rfl, rfl⟩
  have hwhole : c.Whole := Asking.whole_of_not_half hmade (hcalm k (by rw [Site.nextid, hloop]; rfl) c hcall)
  obtain ⟨recorded, hrecorded, hproperties, hindicies⟩ := hwhole.recorded hsub
  have hne : c.description.package ++ js "." ++ c.description.classname ≠ [] := by simp [js]
  obtain ⟨g, hg⟩ :=
    generateClass_ready text (dictionary k) c.description.classname hne (arrays.merge recorded)
  have hmerged : ∀ {t old : Table κ JsString} {f : κ} {x : JsString}, t.lookup f = some x →
      (t ∪ old).lookup f = some x := by
    intro t old f x hx
    rw [AList.lookup_union_left (AList.lookup_isSome.mp (by rw [hx]; rfl)), hx]
  refine ⟨c, ⟨k, c.description.package ++ js "." ++ c.description.classname, c.description.classname,
    arrays.merge recorded, g⟩, hcall, hwhole, rfl, ⟨rfl, rfl, fun f x hx => ?_, fun f x hx => ?_, ⟨_, hg⟩⟩, hr,
    hcount, ?_⟩
  · exact hmerged ((hproperties f).trans hx)
  · exact hmerged ((hindicies f).trans hx)
  · rw [Site.turn, hloop]
    dsimp only
    rw [hr, hrecorded]
    dsimp only
    rw [hg]

omit [LinearOrder κ] in
theorem generated_append (s : Site κ) (h : Handled κ) (k : ℕ) :
    (Site.generated { s with handled := s.handled ++ [h] }).count k =
      s.generated.count k + if h.generated.status.isOk ∧ h.id = k then 1 else 0 := by
  rw [Site.generated, Site.generated, List.filter_append, List.map_append, List.count_append]
  by_cases hok : h.generated.status.isOk
  · by_cases hk : h.id = k <;> simp [hok, hk]
  · simp [hok]

theorem turn (hsub : Function.Injective sub) (hs : Kept text sub s) {dictionary : ℕ → Dictionary}
    (hcalm : s.CalmAt (.round dictionary)) : Kept text sub (s.turn text dictionary) := by
  cases hloop : s.loop with
  | none =>
    rw [Site.turn, hloop]
    exact hs
  | some before =>
    obtain ⟨node, arrays⟩ := before
    cases node with
    | lastid =>
      rw [Site.turn, hloop]
      exact ⟨⟨hs.working.enabled, hs.working.stop⟩, hs.numbered, hs.stages, by simp, hs.answers, hs.traps⟩
    | nothing =>
      rw [Site.turn, hloop]
      refine ⟨⟨hs.working.enabled, hs.working.stop⟩, hs.numbered, hs.stages, by simp, hs.answers, fun t ht => ?_⟩
      rcases List.mem_append.mp ht with ht | ht
      · exact hs.traps t ht
      · exact List.mem_singleton.mp ht
    | id k =>
      obtain ⟨c, h, hcall, hwhole, rfl, hanswers, hr, hcount, hturn⟩ := hs.exists_handled hsub hloop hcalm
      dsimp only at hturn
      rw [hturn]
      generalize hstarted : s.sql.deamonLog (js "Start processing in node:" ++ natText h.id) = started
      have hsame : started.requests = s.sql.requests := by rw [← hstarted]; rfl
      obtain ⟨henabled, hstop, -⟩ := settle_kept started h.id h.generated.status
      refine ⟨⟨?_, ?_⟩, hs.numbered, fun k => ?_, fun k a ha => ?_, fun h' hh' => ?_, hs.traps⟩
      · rw [henabled, ← hstarted]
        exact hs.working.enabled
      · rw [hstop, ← hstarted]
        exact hs.working.stop
      · have hgenerated := generated_append s h k
        dsimp only
        change Stage sub _ _ (Site.generated { s with handled := s.handled ++ [h] } |>.count k)
        rw [hgenerated]
        by_cases hk : k = h.id
        · rw [hk, hcall, hcount]
          cases hstatus : h.generated.status with
          | ok u =>
            rw [settle_gone, if_pos ⟨rfl, rfl⟩, Nat.zero_add]
            exact .served hwhole
          | error err =>
            have hfail : (Except.error err : Status) ≠ .ok () := by simp
            rw [settle_failed _ _ hfail, hsame, hr, if_neg fun h => Bool.false_ne_true h.1]
            exact .pending hwhole.1
        · rw [settle_lookup _ _ hk, hsame, if_neg fun h => hk h.2.symm]
          exact hs.stages k
      · exact (order_id (Prod.mk.inj (Option.some.inj ha)).1).2
      · rcases List.mem_append.mp hh' with hh' | hh'
        · exact hs.answers h' hh'
        · rw [List.mem_singleton.mp hh']
          exact ⟨c, hcall, hwhole, hanswers⟩

theorem step (hsub : Function.Injective sub) (hs : Kept text sub s) {e : Event} (hcalm : s.CalmAt e) :
    Kept text sub (s.step round text sub e) := by
  cases e with
  | ask collection object m => exact hs.ask (m.filled round collection object)
  | write id =>
    rw [Site.step, Site.write]
    cases hcall : s.calls id with
    | none => exact hs
    | some c =>
      dsimp only
      cases hrest : c.rest with
      | nil => exact hs
      | cons e es => exact hs.next_write hcall hrest
  | start => exact hs.start
  | round dictionary => exact hs.turn hsub hcalm

theorem run (hsub : Function.Injective sub) (hs : Kept text sub s) {es : List Event}
    (hcalm : s.Calm round text sub es) : Kept text sub (s.run round text sub es) := by
  induction es generalizing s with
  | nil => exact hs
  | cons e es ih => exact ih (hs.step hsub hcalm.1) hcalm.2

end Kept

def Event.description (round : Rounding) : Event → Option Filled
  | .ask collection object m => some (m.filled round collection object)
  | _ => none

def described (round : Rounding) (es : List Event) : List Filled := es.filterMap (Event.description round)

variable (text) in
theorem turn_calls (s : Site κ) (dictionary : ℕ → Dictionary) :
    (s.turn text dictionary).counter = s.counter ∧ (s.turn text dictionary).calls = s.calls := by
  rw [Site.turn]
  split
  · exact ⟨rfl, rfl⟩
  · exact ⟨rfl, rfl⟩
  · exact ⟨rfl, rfl⟩
  · dsimp only
    split
    · split <;> exact ⟨rfl, rfl⟩
    · exact ⟨rfl, rfl⟩

omit [LinearOrder κ] in
theorem start_calls (s : Site κ) : s.start.counter = s.counter ∧ s.start.calls = s.calls := by
  rw [Site.start]
  split_ifs <;> exact ⟨rfl, rfl⟩

theorem write_calls (s : Site κ) (id : ℕ) : (s.write sub id).counter = s.counter ∧
    ∀ k, ((s.write sub id).calls k).map Asking.description = (s.calls k).map Asking.description := by
  rw [Site.write]
  cases hcall : s.calls id with
  | none => exact ⟨rfl, fun _ => rfl⟩
  | some c =>
    dsimp only
    cases hrest : c.rest with
    | nil => exact ⟨rfl, fun _ => rfl⟩
    | cons e es =>
      refine ⟨rfl, fun k => ?_⟩
      dsimp only
      by_cases hk : k = id
      · rw [hk, Function.update_self, hcall]
        rfl
      · rw [Function.update_of_ne hk]

variable (text sub) in
theorem step_calls (s : Site κ) {e : Event} (he : e.description round = none) :
    (s.step round text sub e).counter = s.counter ∧
      ∀ k, ((s.step round text sub e).calls k).map Asking.description = (s.calls k).map Asking.description := by
  cases e with
  | ask collection object m => cases he
  | write id => exact write_calls s id
  | start => exact ⟨(start_calls s).1, fun k => by rw [Site.step, (start_calls s).2]⟩
  | round dictionary =>
    exact ⟨(turn_calls text s dictionary).1, fun k => by rw [Site.step, (turn_calls text s dictionary).2]⟩

theorem run_descriptions {s : Site κ} (hs : ∀ k, s.counter < k → s.calls k = none) (es : List Event) :
    (∀ k ≤ s.counter, ((s.run round text sub es).calls k).map Asking.description =
        (s.calls k).map Asking.description) ∧
      ∀ i, ((s.run round text sub es).calls (s.counter + 1 + i)).map Asking.description = (described round es)[i]? := by
  induction es generalizing s with
  | nil =>
    refine ⟨fun _ _ => rfl, fun i => ?_⟩
    rw [Site.run, List.foldl_nil, hs _ (by omega)]
    rfl
  | cons e es ih =>
    rw [Site.run, List.foldl_cons, ← Site.run, described, List.filterMap_cons]
    cases he : e.description round with
    | none =>
      obtain ⟨hcounter, hcalls⟩ := step_calls text sub s he
      obtain ⟨hold, hnew⟩ := ih (s := s.step round text sub e) fun k hk => by
        rw [← Option.map_eq_none_iff (f := Asking.description), hcalls k, hs k (by omega)]
        rfl
      rw [hcounter] at hold hnew
      exact ⟨fun k hk => (hold k hk).trans (hcalls k), hnew⟩
    | some m =>
      cases e with
      | write id | start | round dictionary => cases he
      | ask collection object given =>
        obtain rfl := Option.some.inj he
        obtain ⟨t, ht⟩ : ∃ t, t = s.step round text sub (.ask collection object given) := ⟨_, rfl⟩
        have hcounter : t.counter = s.counter + 1 := by rw [ht]; rfl
        have hcalls : t.calls = Function.update s.calls (s.counter + 1)
            (some ⟨given.filled round collection object, 0⟩) := by rw [ht]; rfl
        rw [← ht]
        obtain ⟨hold, hnew⟩ := ih (s := t) fun k hk => by
          rw [hcalls, Function.update_of_ne (by omega), hs k (by omega)]
        rw [hcounter] at hold hnew
        refine ⟨fun k hk => ?_, fun i => ?_⟩
        · rw [hold k (Nat.le_succ_of_le hk), hcalls, Function.update_of_ne (by omega)]
        · cases i with
          | zero =>
            rw [Nat.add_zero, hold _ (le_refl _), hcalls, Function.update_self]
            rfl
          | succ i =>
            rw [show s.counter + 1 + (i + 1) = s.counter + 1 + 1 + i by omega]
            exact hnew i

/-- A number that was taken is that of a call: its request is there as far as it is written, or its class was
generated once, from all that the call described. -/
theorem asked_served (htext : ∀ f, text (sub f) = f) {s : Site κ} (hs : s.Fresh) {es : List Event}
    (hcalm : s.Calm round text sub es) :
    let t := s.run round text sub es
    (∀ i, (t.calls (s.counter + 1 + i)).map Asking.description = (described round es)[i]?) ∧
      (∀ k, Stage sub (t.calls k) (t.sql.requests.lookup k) (t.generated.count k)) ∧
      (∀ h ∈ t.handled, ∃ c, t.calls h.id = some c ∧ c.Whole ∧ h.Answers text sub c.description) ∧
      ∀ trap ∈ t.traps, trap = .subscript := by
  have hsub : Function.Injective sub := Function.LeftInverse.injective htext
  have hfresh : Kept text sub s := .of_fresh hs
  have hkept := hfresh.run hsub hcalm
  exact ⟨(run_descriptions (fun k _ => hs.calls k) es).2, hkept.stages, hkept.answers, hkept.traps⟩

theorem asked_served_people :
    let t := nothingAsked.run JsNumber.finite Subscript.text (fun f => ⟨f⟩) patient
    (∀ i, (t.calls (0 + 1 + i)).map Asking.description = (described JsNumber.finite patient)[i]?) ∧
      (∀ k, Stage (fun f => ⟨f⟩) (t.calls k) (t.sql.requests.lookup k) (t.generated.count k)) ∧
      (∀ h ∈ t.handled, ∃ c, t.calls h.id = some c ∧ c.Whole ∧
        h.Answers Subscript.text (fun f => ⟨f⟩) c.description) ∧
      ∀ trap ∈ t.traps, trap = .subscript :=
  asked_served (fun _ => rfl) fresh_nothingAsked (by decide +kernel)

end

end GlobalsJs.Sql
