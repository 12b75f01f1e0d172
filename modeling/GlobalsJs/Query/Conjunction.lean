import GlobalsJs.Query.Completion

/-!
# `$and` over numbers

`$and` returns a row when the tests on the fields it has all hold, and there is one
such field. This is the same as testing one after the other unless a row has only
some of the named fields, or a field name begins with the sign of a joiner.
-/

namespace GlobalsJs.Query
open Ecma Collected

variable {realm : Realm}

def NumberRow (row : Props) : Prop := ∀ p ∈ row, ∃ n, p.2 = .num n

def NumberTest (p : JsString × Json) : Prop := ∃ op n, IsTest p.2 op (.num n)

def verdict (realm : Realm) (row : Props) (e : Json) : Option Bool :=
  match testRow realm (.obj row) e with
  | .ok (some o) => some o.truthy
  | _ => none

def andQuery (es : Props) : Json := .obj [(js "$and", .arr (es.map fun p => .obj [p]))]

/-- The single-expression queries, each on the result of the one before. -/
def oneAfterOther (realm : Realm) (es : Props) (data : List Json) : Except JsError (List Json) :=
  es.foldlM (fun rows p => run realm (.obj [p]) rows) data

/-- The row has some of the named fields but not all, and passes every test it takes. -/
def PartialMatch (realm : Realm) (es row : Props) : Prop :=
  (∃ p ∈ es, get row p.1 = none) ∧ (∃ p ∈ es, get row p.1 ≠ none) ∧
    ∀ p ∈ es, ∀ v, get row p.1 = some v → ∀ e, Expression.new p.2 = .ok e →
      e.evaluate realm v = .ok (.bool true)

theorem verdict_spec (realm : Realm) {row : Props} (hrow : NumberRow row) {p : JsString × Json}
    (hp : NumberTest p) :
    (∀ realm' : Realm, realm'.round = realm.round →
      testRow realm' (.obj row) (.obj [p]) = .ok ((verdict realm row (.obj [p])).map .bool)) ∧
      ((get row p.1 = none ∧ verdict realm row (.obj [p]) = none) ∨
        ∃ v e t, get row p.1 = some v ∧ Expression.new p.2 = .ok e ∧
          e.evaluate realm v = .ok (.bool t) ∧ verdict realm row (.obj [p]) = some t) := by
  obtain ⟨prop, e⟩ := p
  obtain ⟨op, b, hb⟩ := hp
  cases hget : get row prop with
  | none =>
    have htest : ∀ realm' : Realm, testRow realm' (.obj row) (.obj [(prop, e)]) = .ok none := by
      intro realm'
      rw [testRow_obj, hget]
    have hverdict : verdict realm row (.obj [(prop, e)]) = none := by simp only [verdict, htest]
    exact ⟨fun realm' _ => by rw [hverdict, htest]; rfl, Or.inl ⟨rfl, hverdict⟩⟩
  | some v =>
    obtain ⟨a, rfl⟩ := hrow _ (mem_of_get hget)
    obtain ⟨t, ht⟩ := evaluate_numbers realm.round op a b
    have htest : ∀ realm' : Realm, realm'.round = realm.round →
        testRow realm' (.obj row) (.obj [(prop, e)]) = .ok (some (.bool t)) := by
      intro realm' hround
      rw [testRow_obj, hget, hb.new_eq]
      simp only [Except.bind, ht realm' hround, Except.map]
    have hverdict : verdict realm row (.obj [(prop, e)]) = some t := by
      simp only [verdict, htest realm rfl, Outcome.bool]
    exact ⟨fun realm' hround => by rw [hverdict, htest realm' hround]; rfl,
      Or.inr ⟨_, _, t, rfl, hb.new_eq, ht realm rfl, hverdict⟩⟩

theorem run_filter {query : Json} {stack : Stack} (hnew : new query = .ok stack) {p : Props → Bool}
    {data : List Props} (h : ∀ k, ∀ row ∈ data,
      contributes (realm.constructed query) stack k (.obj row) = .ok (if p row then [.obj row] else [])) :
    run realm query (data.map .obj) = .ok ((data.filter p).map .obj) := by
  have hrows : ∀ x ∈ counts query Json.obj data, contributes (realm.constructed query) stack x.1 (.obj x.2) =
      .ok (if p x.2 then [.obj x.2] else []) := fun x hx => h x.1 x.2 (mem_of_counts hx)
  have hflat : ∀ xs : List (Option ℕ × Props), (xs.flatMap fun x => if p x.2 then [Json.obj x.2] else []) =
      ((xs.map Prod.snd).filter p).map .obj := by
    intro xs
    induction xs with
    | nil => rfl
    | cons x xs ih => by_cases hp : p x.2 = true <;> simp [hp, ih]
  rw [run_of_new hnew, collected_of_ok fun x hx => ⟨_, hrows x hx⟩,
    List.flatMap_congr fun x hx => by rw [value, hrows x hx]]
  exact congrArg Except.ok ((hflat _).trans (by rw [map_snd_counts]))

def meets (realm : Realm) (es row : Props) : Bool :=
  let verdicts := (es.map fun p => Json.obj [p]).filterMap (verdict realm row)
  !verdicts.isEmpty && verdicts.all id

theorem run_and {es : Props} (hes : ∀ p ∈ es, NumberTest p) {data : List Props}
    (hdata : ∀ row ∈ data, NumberRow row) :
    run realm (andQuery es) (data.map .obj) = .ok ((data.filter (meets realm es)).map .obj) := by
  have hnew : new (andQuery es) = .ok ((es.map fun p => Json.obj [p]).map some ++
      [some (.str (connectiveText .and))]) := by
    simp +decide [andQuery, new, entries, push, bind, Except.bind, pure, Except.pure, joinerText,
      joiners]
  refine run_filter hnew fun k row hrow => ?_
  have htests : ∀ e ∈ es.map fun p => Json.obj [p],
      testRow ((realm.constructed (andQuery es)).counted k) (.obj row) e =
        .ok ((verdict realm row e).map .bool) := by
    intro e he
    obtain ⟨p, hp, rfl⟩ := List.mem_map.mp he
    exact (verdict_spec realm (hdata row hrow) (hes p hp)).1 _ rfl
  have hobj : ∀ e ∈ es.map fun p => Json.obj [p], ∀ s, e ≠ .str s := by
    intro e he s
    obtain ⟨p, -, rfl⟩ := List.mem_map.mp he
    simp
  rw [contributes_joined k (.obj row) .and (fun e => e) hobj htests]
  rfl

theorem run_single (realm : Realm) {p : JsString × Json} (hp : NumberTest p) (hprop : p.1.head? ≠ some dollar)
    {data : List Props} (hdata : ∀ row ∈ data, NumberRow row) :
    run realm (.obj [p]) (data.map .obj) =
      .ok ((data.filter fun row => verdict realm row (.obj [p]) = some true).map .obj) := by
  have hnew : new (.obj [p]) = .ok (List.replicate 1 (some (.obj [p]))) := by
    simp [new, entries, push, hprop, bind, Except.bind, pure, Except.pure]
  refine run_filter hnew fun k row hrow => ?_
  have htest := (verdict_spec realm (hdata row hrow) hp).1
    ((realm.constructed (.obj [p])).counted k) rfl
  refine (contributes_single k (.obj row) 0 (by simp) htest).trans ?_
  simp

theorem run_dollar (realm : Realm) {p : JsString × Json} (hp : NumberTest p) (hprop : p.1.head? = some dollar)
    (data : List Json) : ∃ err, run realm (.obj [p]) data = .error err := by
  refine ⟨.referenceError (js "quer"), ?_⟩
  obtain ⟨prop, e⟩ := p
  obtain ⟨op, b, hb⟩ := hp
  cases hb with
  | operator => simp [run, new, entries, push, hprop, bind, Except.bind]
  | implicit => simp [run, new, entries, push, hprop, bind, Except.bind]

theorem oneAfterOther_eq {es : Props} (hes : ∀ p ∈ es, NumberTest p)
    (hprops : ∀ p ∈ es, p.1.head? ≠ some dollar) {data : List Props}
    (hdata : ∀ row ∈ data, NumberRow row) :
    oneAfterOther realm es (data.map .obj) = .ok ((data.filter fun row =>
      es.all fun p => verdict realm row (.obj [p]) = some true).map .obj) := by
  induction es generalizing data with
  | nil => simp [oneAfterOther, pure, Except.pure]
  | cons p es ih =>
    have hfirst := run_single realm (hes p List.mem_cons_self)
      (hprops p List.mem_cons_self) hdata
    rw [oneAfterOther, List.foldlM_cons, hfirst]
    change oneAfterOther realm es _ = _
    rw [ih (fun q hq => hes q (List.mem_cons_of_mem p hq))
      (fun q hq => hprops q (List.mem_cons_of_mem p hq))
      fun row hrow => hdata row (List.mem_filter.mp hrow).1, List.filter_filter]
    simp [Bool.and_comm]

theorem oneAfterOther_dollar (realm : Realm) {es : Props} (hes : ∀ p ∈ es, NumberTest p)
    (hprop : ∃ p ∈ es, p.1.head? = some dollar) {data : List Props}
    (hdata : ∀ row ∈ data, NumberRow row) :
    ∃ err, oneAfterOther realm es (data.map .obj) = .error err := by
  induction es generalizing data with
  | nil => simp at hprop
  | cons p es ih =>
    by_cases hp : p.1.head? = some dollar
    · obtain ⟨err, herr⟩ := run_dollar realm (hes p List.mem_cons_self) hp
        (data.map .obj)
      exact ⟨err, by rw [oneAfterOther, List.foldlM_cons, herr]; rfl⟩
    · have hfirst := run_single realm (hes p List.mem_cons_self) hp hdata
      obtain ⟨q, hq, hdollar⟩ := hprop
      have hrest : ∃ q ∈ es, q.1.head? = some dollar := by
        rcases List.mem_cons.mp hq with rfl | hq
        · exact absurd hdollar hp
        · exact ⟨q, hq, hdollar⟩
      rw [oneAfterOther, List.foldlM_cons, hfirst]
      exact ih (fun q hq => hes q (List.mem_cons_of_mem p hq)) hrest
        fun row hrow => hdata row (List.mem_filter.mp hrow).1

theorem meets_iff (realm : Realm) (es row : Props) : meets realm es row = true ↔
    (∃ p ∈ es, verdict realm row (.obj [p]) ≠ none) ∧
      ∀ p ∈ es, verdict realm row (.obj [p]) ≠ some false := by
  have hempty : ((es.map fun p => Json.obj [p]).filterMap (verdict realm row)).isEmpty = false ↔
      ∃ p ∈ es, verdict realm row (.obj [p]) ≠ none := by
    rw [← Bool.not_eq_true, List.isEmpty_iff, List.filterMap_eq_nil_iff]
    simp
  have hall : ((es.map fun p => Json.obj [p]).filterMap (verdict realm row)).all id = true ↔
      ∀ p ∈ es, verdict realm row (.obj [p]) ≠ some false := by
    simp only [List.all_eq_true, List.mem_filterMap, List.mem_map]
    constructor
    · intro h p hp hv
      exact absurd (h false ⟨_, ⟨p, hp, rfl⟩, hv⟩) (by simp)
    · rintro h b ⟨_, ⟨p, hp, rfl⟩, hv⟩
      cases b with
      | true => rfl
      | false => exact absurd hv (h p hp)
  rw [meets, Bool.and_eq_true, Bool.not_eq_true', hempty, hall]

theorem partialMatch_iff {es row : Props} (hes : ∀ p ∈ es, NumberTest p) (hrow : NumberRow row) :
    PartialMatch realm es row ↔ meets realm es row = true ∧
      (es.all fun p => verdict realm row (.obj [p]) = some true) = false := by
  have hnone : ∀ p ∈ es, verdict realm row (.obj [p]) = none ↔ get row p.1 = none := by
    intro p hp
    rcases (verdict_spec realm hrow (hes p hp)).2 with ⟨hget, hv⟩ | ⟨v, e, t, hget, -, -, hv⟩ <;>
      simp [hget, hv]
  have hfails : ∀ p ∈ es, verdict realm row (.obj [p]) ≠ some false ↔ ∀ v, get row p.1 = some v →
      ∀ e, Expression.new p.2 = .ok e → e.evaluate realm v = .ok (.bool true) := by
    intro p hp
    rcases (verdict_spec realm hrow (hes p hp)).2 with ⟨hget, hv⟩ | ⟨v, e, t, hget, he, ht, hv⟩
    · simp [hget, hv]
    · cases t <;> simp [hget, he, ht, hv, Outcome.bool]
  have hlacks : (es.all fun p => verdict realm row (.obj [p]) = some true) = false ↔
      ∃ p ∈ es, verdict realm row (.obj [p]) ≠ some true := by
    simp
  rw [PartialMatch, meets_iff, hlacks]
  constructor
  · rintro ⟨⟨p, hp, hget⟩, ⟨q, hq, hgot⟩, hall⟩
    refine ⟨⟨⟨q, hq, fun h => hgot ((hnone q hq).mp h)⟩, fun r hr => (hfails r hr).mpr (hall r hr)⟩,
      p, hp, ?_⟩
    rw [(hnone p hp).mpr hget]
    simp
  · rintro ⟨⟨⟨q, hq, hgot⟩, hall⟩, p, hp, hne⟩
    refine ⟨⟨p, hp, (hnone p hp).mp ?_⟩, ⟨q, hq, fun h => hgot ((hnone q hq).mpr h)⟩,
      fun r hr => (hfails r hr).mp (hall r hr)⟩
    cases hv : verdict realm row (.obj [p]) with
    | none => rfl
    | some t =>
      cases t with
      | true => exact absurd hv hne
      | false => exact absurd hv (hall p hp)

theorem filter_eq_filter_iff {p q : Props → Bool} {data : List Props}
    (h : ∀ row ∈ data, q row = true → p row = true) :
    data.filter p = data.filter q ↔ ∀ row ∈ data, ¬ (p row = true ∧ q row = false) := by
  constructor
  · rintro heq row hrow ⟨hp, hq⟩
    have hmem : row ∈ data.filter q := heq ▸ List.mem_filter.mpr ⟨hrow, hp⟩
    rw [(List.mem_filter.mp hmem).2] at hq
    cases hq
  · intro hno
    refine List.filter_congr fun row hrow => ?_
    cases hq : q row with
    | true => exact h row hrow hq
    | false =>
      rw [← Bool.not_eq_true]
      exact fun hp => hno row hrow ⟨hp, hq⟩

theorem and_is_intersection_iff (realm : Realm) {es : Props} (hne : es ≠ [])
    (hes : ∀ p ∈ es, NumberTest p) {data : List Props} (hdata : ∀ row ∈ data, NumberRow row) :
    run realm (andQuery es) (data.map .obj) = oneAfterOther realm es (data.map .obj) ↔
      (∀ p ∈ es, p.1.head? ≠ some dollar) ∧ ∀ row ∈ data, ¬ PartialMatch realm es row := by
  rw [run_and hes hdata]
  by_cases hprops : ∀ p ∈ es, p.1.head? ≠ some dollar
  · rw [oneAfterOther_eq hes hprops hdata, Except.ok.injEq,
      (List.map_injective_iff.mpr fun a b h => Json.obj.inj h).eq_iff, and_iff_right hprops,
      filter_eq_filter_iff]
    · refine forall₂_congr fun row hrow => ?_
      rw [partialMatch_iff hes (hdata row hrow)]
    · intro row _ hall
      rw [meets_iff]
      obtain ⟨p, es, rfl⟩ := List.exists_cons_of_ne_nil hne
      have htrue : ∀ q ∈ p :: es, verdict realm row (.obj [q]) = some true := by simpa using hall
      refine ⟨⟨p, List.mem_cons_self, by simp [htrue p List.mem_cons_self]⟩, fun q hq => ?_⟩
      rw [htrue q hq]
      simp
  · have hdollar : ∃ p ∈ es, p.1.head? = some dollar := by simpa using hprops
    obtain ⟨err, herr⟩ := oneAfterOther_dollar realm hes hdollar hdata
    rw [herr]
    exact iff_of_false (by simp) fun h => hprops h.1

theorem and_is_intersection_ages :
    let es : Props := [(js "age", .obj [(js "$gte", .ofInt 20)]), (js "age", .obj [(js "$lt", .ofInt 30)])]
    let data : List Props := [[(js "age", .ofInt 25)], [(js "age", .ofInt 4)]]
    run Realm.bare (andQuery es) (data.map .obj) = oneAfterOther Realm.bare es (data.map .obj) := by
  intro es data
  have hes : ∀ p ∈ es, NumberTest p := by
    intro p hp
    simp only [es, List.mem_cons, List.not_mem_nil, or_false] at hp
    rcases hp with rfl | rfl
    · exact ⟨.ge, .ofInt 20, .operator .ge _⟩
    · exact ⟨.lt, .ofInt 30, .operator .lt _⟩
  have hdata : ∀ row ∈ data, NumberRow row := by
    intro row hrow p hp
    simp only [data, List.mem_cons, List.not_mem_nil, or_false] at hrow
    rcases hrow with rfl | rfl
    all_goals
      obtain rfl := List.mem_singleton.mp hp
      exact ⟨_, rfl⟩
  refine (and_is_intersection_iff Realm.bare (by simp [es]) hes hdata).mpr ⟨by decide, ?_⟩
  rintro row hrow ⟨⟨p, hp, hlacks⟩, -, -⟩
  revert row p
  decide

/-- A row without `b` is returned by a query that asks for `a` and `b`. -/
theorem partial_row_returned :
    let es : Props := [(js "a", .ofInt 1), (js "b", .ofInt 2)]
    let data : List Json := [.obj [(js "a", .ofInt 1)]]
    run Realm.bare (andQuery es) data = .ok data ∧ oneAfterOther Realm.bare es data = .ok [] := by
  decide +kernel

end GlobalsJs.Query
