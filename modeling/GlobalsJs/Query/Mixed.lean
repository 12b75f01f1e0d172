import GlobalsJs.Query.Rows
import GlobalsJs.Query.Satisfaction

/-!
# Queries that mix fields and joiners

Every key of a query adds to one stack. A joiner is applied to the results of all tests
before it, those of another joiner included, and each joiner may return the row. A row is
returned twice exactly when it makes both joiners hold.
-/

namespace GlobalsJs.Query
open Ecma Collected
open scoped Classical

def listed : Json → Props
  | .arr es => es.filterMap fun e =>
    match e with
    | .obj (p :: _) => some p
    | _ => none
  | _ => []

theorem listed_tests (es : Props) : listed (.arr (es.map fun p => .obj [p])) = es := by
  rw [listed, List.filterMap_map]
  exact List.filterMap_some

section
variable (realm : Realm)

/-- A field with a test, or a joiner with a list of tests. -/
inductive Part : JsString × Json → Prop
  | field {p : JsString × Json} (name : p.1.head? ≠ some dollar) (test : IntegerTest realm p) : Part p
  | joiner (op : Connective) {es : Props} (tests : ∀ p ∈ es, IntegerTest realm p) :
    Part (joinerName op, .arr (es.map fun p => .obj [p]))

/-- What the joiner makes of the tests before it; those on fields that the row lacks do not count. -/
def JoinerHolds (row : Props) : Connective → Props → Prop
  | .and, ts => (∃ p ∈ ts, get row p.1 ≠ none) ∧ ∀ p ∈ ts, get row p.1 ≠ none → Satisfies realm row p
  | .or, ts => ∃ p ∈ ts, Satisfies realm row p

variable (qs : Props)

/-- The tests that keys of the query put on the stack: a field stands for the query, of
which only the first key is looked at. -/
def testsOf (done : Props) : Props :=
  done.flatMap fun p =>
    match joiners.lookup p.1 with
    | some _ => listed p.2
    | none => qs.head?.toList

/-- The query has the joiner, and the joiner holds of the tests before it. -/
def Joins (row : Props) (op : Connective) : Prop :=
  ∃ done es rest, qs = done ++ (joinerName op, es) :: rest ∧
    JoinerHolds realm row op (testsOf qs done ++ listed es)

/-- The query starts with a joiner and a field of it looks at the joiner's name, which is
a field of the row. -/
def Stumbles (row : Props) : Prop :=
  ∃ name e es rest, qs = (name, .arr (e :: es)) :: rest ∧ get row name ≠ none ∧
    ∃ p ∈ rest, p.1.head? ≠ some dollar

def part (p : JsString × Json) : Stack :=
  match joiners.lookup p.1 with
  | some op => (listed p.2).map (fun e => some (.obj [e])) ++ [some (.str (connectiveText op))]
  | none => [some (.obj qs)]

end

variable {realm : Realm} {qs : Props}

theorem lookup_joinerName (op : Connective) : joiners.lookup (joinerName op) = some op := by
  cases op <;> decide

theorem lookup_field {name : JsString} (h : name.head? ≠ some dollar) : joiners.lookup name = none := by
  have hne : ∀ op, name ≠ joinerName op := by
    rintro op rfl
    exact h (joinerName_eq op).1
  have hand : (name == js "$and") = false := beq_false_of_ne (hne .and)
  have hor : (name == js "$or") = false := beq_false_of_ne (hne .or)
  simp [joiners, List.lookup_cons, hand, hor]

theorem push_part {p : JsString × Json} (hp : Part realm p) :
    push (.obj qs) p.1 p.2 = .ok (part qs p) := by
  cases hp with
  | field name => rw [push_field name, part, lookup_field name]
  | @joiner op es =>
    obtain ⟨hdollar, htext⟩ := joinerName_eq op
    simp [push, hdollar, htext, part, lookup_joinerName, listed_tests]

theorem new_parts (hqs : ∀ p ∈ qs, Part realm p) : new (.obj qs) = .ok (qs.flatMap (part qs)) := by
  rw [new_eq_collected, collected_of_ok fun p hp => ⟨_, push_part (hqs p hp)⟩]
  refine congrArg Except.ok (List.flatMap_congr fun p hp => ?_)
  rw [value, push_part (hqs p hp)]
  rfl

theorem IsTest.not_list {e b : Json} {op : Rel} (h : IsTest e op b) (xs : List Json) : e ≠ .arr xs := by
  rintro rfl
  cases h with
  | implicit hplain => obtain ⟨n, hn⟩ | ⟨s, hs, -⟩ := hplain <;> simp_all

noncomputable def outcome (realm : Realm) (row : Props) (p : JsString × Json) : Option Outcome :=
  (get row p.1).map fun _ => if p.2 = .arr [] then .nan else .bool (decide (Satisfies realm row p))

variable {row : Props}

theorem outcome_of_test {p : JsString × Json} (hp : IntegerTest realm p) :
    outcome realm row p = (answer realm row p).map .bool := by
  obtain ⟨op, b, n, htest, -⟩ := hp
  rw [outcome, answer, Option.map_map, if_neg (htest.not_list [])]
  rfl

theorem outcome_spec {p : JsString × Json} {o : Outcome} (ho : outcome realm row p = some o) :
    o.Constant ∧ get row p.1 ≠ none ∧ (o.truthy = true ↔ Satisfies realm row p) := by
  obtain ⟨v, hv, rfl⟩ := Option.map_eq_some_iff.mp ho
  refine ⟨?_, by simp [hv], ?_⟩
  · split_ifs
    · exact .inr rfl
    · exact .inl ⟨_, rfl⟩
  · split_ifs with harr
    · refine iff_of_false (by decide) fun h => ?_
      obtain ⟨-, -, op, b, -, -, -, htest, -⟩ := h
      exact htest.not_list [] harr
    · exact decide_eq_true_iff

theorem outcome_some {p : JsString × Json} (hp : get row p.1 ≠ none) : ∃ o, outcome realm row p = some o := by
  obtain ⟨v, hv⟩ := Option.ne_none_iff_exists'.mp hp
  exact ⟨_, by rw [outcome, hv]; rfl⟩

theorem joinerHolds_iff (op : Connective) (ts : Props) :
    (!(ts.filterMap (outcome realm row)).isEmpty &&
        op.combine ((ts.filterMap (outcome realm row)).map (·.truthy))) = true ↔
      JoinerHolds realm row op ts := by
  have hne : (!(ts.filterMap (outcome realm row)).isEmpty) = true ↔ ∃ p ∈ ts, get row p.1 ≠ none := by
    rw [Bool.not_eq_true', List.isEmpty_eq_false_iff_exists_mem]
    constructor
    · rintro ⟨o, ho⟩
      obtain ⟨p, hp, ho⟩ := List.mem_filterMap.mp ho
      exact ⟨p, hp, (outcome_spec ho).2.1⟩
    · rintro ⟨p, hp, hget⟩
      obtain ⟨o, ho⟩ := @outcome_some realm row p hget
      exact ⟨o, List.mem_filterMap.mpr ⟨p, hp, ho⟩⟩
  rw [Bool.and_eq_true, hne]
  cases op with
  | and =>
    refine and_congr_right' ?_
    rw [Connective.combine, List.all_map, List.all_eq_true]
    constructor
    · intro h p hmem hp
      obtain ⟨o, ho⟩ := @outcome_some realm row p hp
      exact (outcome_spec ho).2.2.mp (h o (List.mem_filterMap.mpr ⟨p, hmem, ho⟩))
    · intro h o hmem
      obtain ⟨p, hp, ho⟩ := List.mem_filterMap.mp hmem
      obtain ⟨-, hget, htruthy⟩ := outcome_spec ho
      exact htruthy.mpr (h p hp hget)
  | or =>
    rw [Connective.combine, List.any_map, List.any_eq_true]
    constructor
    · rintro ⟨-, o, hmem, htrue⟩
      obtain ⟨p, hp, ho⟩ := List.mem_filterMap.mp hmem
      exact ⟨p, hp, (outcome_spec ho).2.2.mp htrue⟩
    · rintro ⟨p, hp, hsat⟩
      have hget : get row p.1 ≠ none := by
        obtain ⟨v, -, -, -, -, hv, -⟩ := id hsat
        simp [hv]
      obtain ⟨o, ho⟩ := @outcome_some realm row p hget
      exact ⟨⟨p, hp, hget⟩, o, List.mem_filterMap.mpr ⟨p, hp, ho⟩, (outcome_spec ho).2.2.mpr hsat⟩

/-- No program reads `NaN[object Object]`. -/
def RejectsObjectText (realm : Realm) : Prop :=
  ∀ names e v, realm.other names e v (js "NaN[object Object]") = .error .syntaxError

theorem number_of_integerRow (hrow : IntegerRow realm row) {f : JsString} {v : Json}
    (hget : get row f = some v) : ∃ x, v = .num x := by
  obtain ⟨n, x, -, hx, -⟩ := hrow _ (mem_of_get hget)
  exact ⟨x, hx⟩

theorem testRow_query (hround : realm.round.Symmetric) (hrow : IntegerRow realm row)
    (hqs : ∀ p ∈ qs, Part realm p) (hfield : ∃ p ∈ qs, p.1.head? ≠ some dollar)
    (hno : ¬ Stumbles qs row) {realm' : Realm} (hsame : realm'.round = realm.round) :
    testRow realm' (.obj row) (.obj qs) = .ok (qs.head?.bind (outcome realm row)) := by
  obtain ⟨p, hp, hname⟩ := hfield
  obtain ⟨first, rest, rfl⟩ := List.exists_cons_of_ne_nil (List.ne_nil_of_mem hp)
  cases hqs first List.mem_cons_self with
  | field _ htest =>
    rw [testRow_integers hround hrow htest rest hsame, List.head?_cons, Option.bind_some,
      outcome_of_test htest]
  | @joiner op es tests =>
    have hrest : p ∈ rest := by
      rcases List.mem_cons.mp hp with rfl | hrest
      · exact absurd (joinerName_eq op).1 hname
      · exact hrest
    rw [testRow_obj, List.head?_cons, Option.bind_some, outcome]
    cases hget : get row (joinerName op) with
    | none => rfl
    | some v =>
      obtain ⟨x, rfl⟩ := number_of_integerRow hrow hget
      cases es with
      | nil => rfl
      | cons e es =>
        exact absurd ⟨_, _, _, rest, rfl, by rw [hget]; simp, p, hrest, hname⟩ hno

theorem testRow_stumbles (hother : RejectsObjectText realm) (hrow : IntegerRow realm row)
    (hqs : ∀ p ∈ qs, Part realm p) (h : Stumbles qs row) (names : JsString → Except JsError Val) :
    ∃ err, testRow { realm with lookup := names } (.obj row) (.obj qs) = .error err := by
  obtain ⟨name, e, es, rest, rfl, hget, -⟩ := h
  obtain ⟨v, hv⟩ := Option.ne_none_iff_exists'.mp hget
  obtain ⟨x, rfl⟩ := number_of_integerRow hrow hv
  obtain ⟨q, rfl⟩ : ∃ q, e = .obj [q] := by
    have hpart := hqs _ List.mem_cons_self
    generalize hp : (name, Json.arr (e :: es)) = p at hpart
    cases hpart with
    | field _ htest =>
      obtain ⟨op, b, n, htest, -⟩ := htest
      rw [← hp] at htest
      exact absurd rfl (htest.not_list (e :: es))
    | @joiner op ts =>
      have hlist := Json.arr.inj (Prod.mk.inj hp).2
      obtain ⟨q, -, hq⟩ := List.mem_map.mp (hlist ▸ List.mem_cons_self (a := e) (l := es))
      exact ⟨q, hq.symm⟩
  rw [testRow_obj, hv]
  have heval : ∃ err, (Expression.mk (some (js "0")) (some (.obj [q]))).evaluate
      { realm with lookup := names } (.num x) = .error err := by
    cases hconv : (Json.obj [q]).convertible with
    | false => exact ⟨.typeError, by simp [Expression.evaluate, hconv]⟩
    | true =>
      refine ⟨.syntaxError, ?_⟩
      simp only [Expression.evaluate, Option.all_some, hconv, Bool.and_true]
      exact hother names _ _
  obtain ⟨err, herr⟩ := heval
  exact ⟨err, congrArg (Except.map some) herr⟩

noncomputable def heldAt (realm : Realm) (qs row done : Props) (p : JsString × Json) : List Connective :=
  match joiners.lookup p.1 with
  | some op => if JoinerHolds realm row op (testsOf qs done ++ listed p.2) then [op] else []
  | none => []

noncomputable def held (realm : Realm) (qs row : Props) : Props → Props → List Connective
  | _, [] => []
  | done, p :: rest => heldAt realm qs row done p ++ held realm qs row (done ++ [p]) rest

noncomputable def outcomes (realm : Realm) (qs row done : Props) : List Outcome :=
  (testsOf qs done).filterMap (outcome realm row)

theorem testsOf_append (done : Props) (p : JsString × Json) : testsOf qs (done ++ [p]) =
    testsOf qs done ++ match joiners.lookup p.1 with
      | some _ => listed p.2
      | none => qs.head?.toList := by
  simp [testsOf]

theorem foldlM_part (hround : realm.round.Symmetric) (hrow : IntegerRow realm row) {realm' : Realm}
    (hsame : realm'.round = realm.round) {p : JsString × Json} (hp : Part realm p)
    (hfield : p.1.head? ≠ some dollar →
      ∀ k, testRow (realm'.counted k) (.obj row) (.obj qs) = .ok (qs.head?.bind (outcome realm row)))
    {done : Props} {st : RowState} (hst : st.eval_results = outcomes realm qs row done) :
    ∃ k, (part qs p).foldlM (step realm' (.obj row)) st =
      .ok ⟨outcomes realm qs row (done ++ [p]), st.hit_joiner || (joiners.lookup p.1).isSome,
        st.results ++ List.replicate (heldAt realm qs row done p).length (.obj row), k⟩ := by
  cases hp with
  | field name htest =>
    have hlookup := lookup_field name
    refine ⟨st.k, ?_⟩
    rw [part, heldAt, hlookup, outcomes, testsOf_append, hlookup, List.foldlM_cons,
      step_test (.obj row) (by simp), hfield name]
    obtain ⟨eval_results, hit_joiner, results, k⟩ := st
    obtain rfl : eval_results = _ := hst
    cases qs.head? with
    | none => simp [outcomes, Except.map, bind, Except.bind, pure, Except.pure]
    | some q =>
      cases ho : outcome realm row q <;>
        simp [outcomes, ho, Except.map, bind, Except.bind, pure, Except.pure]
  | @joiner op es tests =>
    have hlookup := lookup_joinerName op
    have htests : ∀ e ∈ es, testRow (realm'.counted st.k) (.obj row) (.obj [e]) =
        .ok (outcome realm row e) := by
      intro e he
      have hcounted : (realm'.counted st.k).round = realm.round := hsame
      rw [testRow_integers hround hrow (tests e he) [] hcounted, outcome_of_test (tests e he)]
    have hfold := foldlM_tests (.obj row) (fun e => Json.obj [e]) (by simp) st htests
    rw [hst, outcomes, ← List.filterMap_append] at hfold
    have hconst : ∀ o ∈ (testsOf qs done ++ es).filterMap (outcome realm row), o.Constant := by
      intro o ho
      obtain ⟨e, -, ho⟩ := List.mem_filterMap.mp ho
      exact (outcome_spec ho).1
    have hjoin := @step_joiner realm' (.obj row)
      ⟨(testsOf qs done ++ es).filterMap (outcome realm row), st.hit_joiner, st.results, st.k⟩ op hconst
    refine ⟨some ((testsOf qs done ++ es).filterMap (outcome realm row)).length, ?_⟩
    rw [part, heldAt, hlookup, outcomes, testsOf_append, hlookup, listed_tests, List.foldlM_append, hfold]
    dsimp only [bind, Except.bind]
    rw [List.foldlM_cons, hjoin]
    have hcopies : (if (!((testsOf qs done ++ es).filterMap (outcome realm row)).isEmpty &&
          op.combine (((testsOf qs done ++ es).filterMap (outcome realm row)).map (·.truthy))) = true
        then [Json.obj row] else []) =
        List.replicate (if JoinerHolds realm row op (testsOf qs done ++ es) then [op] else []).length
          (.obj row) := by
      have hiff := @joinerHolds_iff realm row op (testsOf qs done ++ es)
      by_cases h : JoinerHolds realm row op (testsOf qs done ++ es)
      · rw [if_pos (hiff.mpr h), if_pos h]
        rfl
      · rw [if_neg (mt hiff.mp h), if_neg h]
        rfl
    dsimp only
    rw [hcopies, Option.isSome_some, Bool.or_true]
    rfl

theorem foldlM_parts (hround : realm.round.Symmetric) (hrow : IntegerRow realm row) {realm' : Realm}
    (hsame : realm'.round = realm.round) {done rest : Props}
    (hrest : ∀ p ∈ rest, Part realm p ∧ (p.1.head? ≠ some dollar →
      ∀ k, testRow (realm'.counted k) (.obj row) (.obj qs) = .ok (qs.head?.bind (outcome realm row))))
    {st : RowState} (hst : st.eval_results = outcomes realm qs row done) :
    ∃ k, (rest.flatMap (part qs)).foldlM (step realm' (.obj row)) st =
      .ok ⟨outcomes realm qs row (done ++ rest),
        st.hit_joiner || rest.any fun p => (joiners.lookup p.1).isSome,
        st.results ++ List.replicate (held realm qs row done rest).length (.obj row), k⟩ := by
  induction rest generalizing done st with
  | nil =>
    obtain ⟨eval_results, hit_joiner, results, k⟩ := st
    obtain rfl : eval_results = _ := hst
    exact ⟨k, by simp [held, pure, Except.pure]⟩
  | cons p rest ih =>
    obtain ⟨hp, hfield⟩ := hrest p List.mem_cons_self
    obtain ⟨k, hfirst⟩ := foldlM_part hround hrow hsame hp hfield hst
    obtain ⟨k', hlast⟩ := @ih (done ++ [p]) (fun q hq => hrest q (List.mem_cons_of_mem p hq)) ⟨_, _, _, k⟩ rfl
    refine ⟨k', ?_⟩
    rw [List.flatMap_cons, List.foldlM_append, hfirst]
    dsimp only [bind, Except.bind]
    refine hlast.trans ?_
    simp [held, Bool.or_assoc]

theorem joinerOf_eq {name : JsString} {op : Connective} (h : joiners.lookup name = some op) :
    name = joinerName op := by
  by_cases hand : name = js "$and"
  · subst hand
    obtain rfl := Option.some.inj h
    rfl
  by_cases hor : name = js "$or"
  · subst hor
    obtain rfl := Option.some.inj h
    rfl
  have hnone : joiners.lookup name = none := by
    simp [joiners, List.lookup_cons, beq_false_of_ne hand, beq_false_of_ne hor]
  rw [hnone] at h
  cases h

theorem mem_heldAt {done : Props} {p : JsString × Json} {op : Connective} :
    op ∈ heldAt realm qs row done p ↔
      p.1 = joinerName op ∧ JoinerHolds realm row op (testsOf qs done ++ listed p.2) := by
  rw [heldAt]
  cases hlookup : joiners.lookup p.1 with
  | none =>
    refine iff_of_false List.not_mem_nil fun h => ?_
    rw [h.1, lookup_joinerName] at hlookup
    cases hlookup
  | some op' =>
    have hname := joinerOf_eq hlookup
    constructor
    · intro h
      dsimp only at h
      split_ifs at h with hholds
      · obtain rfl := List.mem_singleton.mp h
        exact ⟨hname, hholds⟩
      · cases h
    · intro h
      obtain rfl : op' = op := by
        rw [h.1, lookup_joinerName] at hlookup
        exact (Option.some.inj hlookup).symm
      dsimp only
      rw [if_pos h.2]
      exact List.mem_singleton_self op'

theorem mem_held {done rest : Props} {op : Connective} : op ∈ held realm qs row done rest ↔
    ∃ mid es tail, rest = mid ++ (joinerName op, es) :: tail ∧
      JoinerHolds realm row op (testsOf qs (done ++ mid) ++ listed es) := by
  induction rest generalizing done with
  | nil => simp [held]
  | cons p rest ih =>
    rw [held, List.mem_append, mem_heldAt, ih]
    constructor
    · intro h
      rcases h with ⟨hname, hholds⟩ | ⟨mid, es, tail, rfl, hholds⟩
      · exact ⟨[], p.2, rest, by rw [← hname]; rfl, by rwa [List.append_nil]⟩
      · exact ⟨p :: mid, es, tail, rfl, by rwa [List.append_cons]⟩
    · intro ⟨mid, es, tail, hrest, hholds⟩
      cases mid with
      | nil =>
        obtain ⟨rfl, rfl⟩ := List.cons.inj hrest
        exact .inl ⟨rfl, by rwa [List.append_nil] at hholds⟩
      | cons q mid =>
        obtain ⟨rfl, rfl⟩ := List.cons.inj hrest
        exact .inr ⟨mid, es, tail, rfl, by rwa [List.append_cons] at hholds⟩

theorem held_nodup {done rest : Props} (hkeys : (rest.map Prod.fst).Nodup) :
    (held realm qs row done rest).Nodup := by
  induction rest generalizing done with
  | nil => exact List.nodup_nil
  | cons p rest ih =>
    obtain ⟨hnew, hrest⟩ := List.nodup_cons.mp hkeys
    refine List.Nodup.append ?_ (ih hrest) ?_
    · rw [heldAt]
      cases joiners.lookup p.1 with
      | none => exact List.nodup_nil
      | some op =>
        dsimp only
        split_ifs
        · exact List.nodup_singleton op
        · exact List.nodup_nil
    · intro op hfirst hlater
      obtain ⟨mid, es, tail, rfl, -⟩ := mem_held.mp hlater
      exact hnew (by rw [(mem_heldAt.mp hfirst).1]; simp)

theorem length_le_one_iff {ops : List Connective} (h : ops.Nodup) :
    ops.length ≤ 1 ↔ ¬ (.and ∈ ops ∧ .or ∈ ops) := by
  constructor
  · intro hlen ⟨hand, hor⟩
    have hpos := List.length_pos_of_mem hand
    obtain ⟨op, rfl⟩ := List.length_eq_one_iff.mp (show ops.length = 1 by omega)
    cases (List.mem_singleton.mp hand).trans (List.mem_singleton.mp hor).symm
  · intro hno
    by_contra hlen
    obtain ⟨a, b, ops, rfl⟩ : ∃ a b rest, ops = a :: b :: rest := by
      match ops with
      | [] | [_] => exact absurd (by simp) hlen
      | a :: b :: rest => exact ⟨a, b, rest, rfl⟩
    have hab : a ≠ b := fun heq => (List.nodup_cons.mp h).1 (heq ▸ List.mem_cons_self)
    cases a <;> cases b <;> simp_all

theorem joins_iff {op : Connective} : Joins realm qs row op ↔ op ∈ held realm qs row [] qs :=
  (@mem_held realm qs row [] qs op).symm

theorem foldlM_throws_at {data_row : Json} {e : Option Json}
    (h : ∀ st, ∃ err, step realm data_row st e = .error err) {stack : Stack} (he : e ∈ stack) (st : RowState) :
    ∃ err, stack.foldlM (step realm data_row) st = .error err := by
  induction stack generalizing st with
  | nil => cases he
  | cons x stack ih =>
    rw [List.foldlM_cons]
    cases hx : step realm data_row st x with
    | error err' => exact ⟨err', rfl⟩
    | ok st' =>
      rcases List.mem_cons.mp he with rfl | he
      · obtain ⟨err, herr⟩ := h st
        rw [herr] at hx
        cases hx
      · exact ih he st'

theorem rowAnswer_stumbles (hother : RejectsObjectText realm) (hrow : IntegerRow realm row)
    (hqs : ∀ p ∈ qs, Part realm p) (h : Stumbles qs row) (k : Option ℕ) :
    ∃ err, rowAnswer realm (.obj qs) k (.obj row) = .error err := by
  have hthrows : ∀ st, ∃ err,
      step (realm.constructed (.obj qs)) (.obj row) st (some (.obj qs)) = .error err := by
    intro st
    obtain ⟨err, herr⟩ := testRow_stumbles hother hrow hqs h
      ((realm.constructed (.obj qs)).counted st.k).lookup
    refine ⟨err, ?_⟩
    rw [step_test (.obj row) (by simp)]
    exact congrArg (Except.map _) herr
  have hmem : some (Json.obj qs) ∈ qs.flatMap (part qs) := by
    obtain ⟨name, e, es, rest, rfl, -, p, hp, hname⟩ := h
    refine List.mem_flatMap.mpr ⟨p, List.mem_cons_of_mem _ hp, ?_⟩
    rw [part, lookup_field hname]
    exact List.mem_singleton_self _
  obtain ⟨err, herr⟩ := foldlM_throws_at hthrows hmem ⟨[], false, [], k⟩
  refine ⟨err, ?_⟩
  rw [rowAnswer_of_new realm (new_parts hqs), contributes, executeRow, herr]
  rfl

theorem rowAnswer_parts (hround : realm.round.Symmetric) (hrow : IntegerRow realm row)
    (hqs : ∀ p ∈ qs, Part realm p) (hno : ¬ Stumbles qs row) :
    ∃ n, (held realm qs row [] qs = [] ∧ n ≤ 1 ∨ n = (held realm qs row [] qs).length) ∧
      ∀ k, rowAnswer realm (.obj qs) k (.obj row) = .ok (List.replicate n (.obj row)) := by
  have hparts : ∀ p ∈ qs, Part realm p ∧ (p.1.head? ≠ some dollar → ∀ k,
      testRow ((realm.constructed (.obj qs)).counted k) (.obj row) (.obj qs) =
        .ok (qs.head?.bind (outcome realm row))) :=
    fun p hp => ⟨hqs p hp, fun hname _ => testRow_query hround hrow hqs ⟨p, hp, hname⟩ hno rfl⟩
  have hfold := fun k => @foldlM_parts realm qs row hround hrow (realm.constructed (.obj qs)) rfl [] qs
    hparts ⟨[], false, [], k⟩ rfl
  have hrun : ∀ k, ∃ k', executeRow (realm.constructed (.obj qs)) (qs.flatMap (part qs)) k (.obj row) =
      .ok (if !(qs.any fun p => (joiners.lookup p.1).isSome) ∧
          (outcomes realm qs row qs).head?.any (·.truthy)
        then List.replicate (held realm qs row [] qs).length (.obj row) ++ [.obj row]
        else List.replicate (held realm qs row [] qs).length (.obj row), k') := by
    intro k
    obtain ⟨k', hk⟩ := hfold k
    refine ⟨k', ?_⟩
    rw [executeRow, hk]
    dsimp only [bind, Except.bind, pure, Except.pure]
    rw [Bool.false_or, List.nil_append, List.nil_append]
  have hanswer : ∀ n : ℕ, (if !(qs.any fun p => (joiners.lookup p.1).isSome) ∧
          (outcomes realm qs row qs).head?.any (·.truthy)
        then List.replicate (held realm qs row [] qs).length (Json.obj row) ++ [.obj row]
        else List.replicate (held realm qs row [] qs).length (.obj row)) = List.replicate n (.obj row) →
      ∀ k, rowAnswer realm (.obj qs) k (.obj row) = .ok (List.replicate n (.obj row)) := by
    intro n hn k
    obtain ⟨k', hk⟩ := hrun k
    rw [rowAnswer_of_new realm (new_parts hqs), contributes, hk, hn]
    rfl
  cases hhit : qs.any fun p => (joiners.lookup p.1).isSome with
  | true => exact ⟨_, .inr rfl, hanswer _ (by simp [hhit])⟩
  | false =>
    have hheld : held realm qs row [] qs = [] := by
      refine List.eq_nil_iff_forall_not_mem.mpr fun op hop => ?_
      obtain ⟨mid, es, tail, hsplit, -⟩ := mem_held.mp hop
      have hmem : (joinerName op, es) ∈ qs := by simp [hsplit]
      have hnone := List.any_eq_false.mp hhit _ hmem
      rw [lookup_joinerName] at hnone
      exact hnone rfl
    by_cases hfirst : (outcomes realm qs row qs).head?.any (·.truthy) = true
    · exact ⟨1, .inl ⟨hheld, le_refl 1⟩, hanswer 1 (by simp [hhit, hheld, hfirst])⟩
    · exact ⟨0, .inl ⟨hheld, Nat.zero_le 1⟩, hanswer 0 (by simp [hheld, hfirst])⟩

theorem row_once_iff (hround : realm.round.Symmetric) (hother : RejectsObjectText realm)
    (hrow : IntegerRow realm row) (hqs : ∀ p ∈ qs, Part realm p) (hkeys : (qs.map Prod.fst).Nodup)
    (k : Option ℕ) :
    (∃ n ≤ 1, rowAnswer realm (.obj qs) k (.obj row) = .ok (List.replicate n (.obj row))) ↔
      ¬ Stumbles qs row ∧ ¬ (Joins realm qs row .and ∧ Joins realm qs row .or) := by
  by_cases hstumbles : Stumbles qs row
  · obtain ⟨err, herr⟩ := rowAnswer_stumbles hother hrow hqs hstumbles k
    refine iff_of_false (fun ⟨n, _, hn⟩ => ?_) fun h => h.1 hstumbles
    rw [herr] at hn
    cases hn
  · rw [and_iff_right hstumbles, joins_iff, joins_iff, ← length_le_one_iff (held_nodup hkeys)]
    obtain ⟨n, hn, hanswer⟩ := rowAnswer_parts hround hrow hqs hstumbles
    have honce : (∃ m ≤ 1, rowAnswer realm (.obj qs) k (.obj row) = .ok (List.replicate m (.obj row))) ↔
        n ≤ 1 := by
      rw [hanswer k]
      simp [List.replicate_inj]
    rw [honce]
    rcases hn with ⟨hheld, hle⟩ | rfl
    · exact iff_of_true hle (by simp [hheld])
    · rfl

theorem run_sublist_iff (hround : realm.round.Symmetric) (hother : RejectsObjectText realm)
    (hqs : ∀ p ∈ qs, Part realm p) {data : List Props} (hdata : ∀ row ∈ data, IntegerRow realm row) :
    (∃ out, run realm (.obj qs) (data.map .obj) = .ok out ∧ out.Sublist (data.map .obj)) ↔
      ∀ row ∈ data, ∃ n ≤ 1, rowAnswer realm (.obj qs) none (.obj row) = .ok (List.replicate n (.obj row)) := by
  have hrows : data.map Json.obj = (counts (.obj qs) Json.obj data).map fun p => Json.obj p.2 := by
    conv_lhs => rw [← map_snd_counts (.obj qs) Json.obj data, List.map_map]
    rfl
  have hsteady : ∀ row ∈ data, ∀ k n, rowAnswer realm (.obj qs) k (.obj row) = .ok (List.replicate n (.obj row)) ↔
      rowAnswer realm (.obj qs) none (.obj row) = .ok (List.replicate n (.obj row)) := by
    intro row hrow k n
    by_cases hstumbles : Stumbles qs row
    · obtain ⟨err, herr⟩ := rowAnswer_stumbles hother (hdata row hrow) hqs hstumbles k
      obtain ⟨err', herr'⟩ := rowAnswer_stumbles hother (hdata row hrow) hqs hstumbles none
      simp [herr, herr']
    · obtain ⟨m, -, hanswer⟩ := rowAnswer_parts hround (hdata row hrow) hqs hstumbles
      rw [hanswer, hanswer]
  have hcopies := rowAnswer_copies realm (.obj qs) Json.obj
  rw [run_eq_collected realm _ _ (.inr ⟨_, new_parts hqs⟩), hrows, collected_sublist_iff hcopies]
  · constructor
    · intro h row hrow
      rw [← map_snd_counts (.obj qs) Json.obj data] at hrow
      obtain ⟨x, hx, rfl⟩ := List.mem_map.mp hrow
      obtain ⟨n, hn, hx'⟩ := h x hx
      exact ⟨n, hn, (hsteady x.2 (mem_of_counts hx) x.1 n).mp hx'⟩
    · intro h x hx
      obtain ⟨n, hn, hx'⟩ := h x.2 (mem_of_counts hx)
      exact ⟨n, hn, (hsteady x.2 (mem_of_counts hx) x.1 n).mpr hx'⟩
  · intro x hx y hy heq
    have hrow : y.2 = x.2 := Json.obj.inj heq
    have hsame : ∀ n, rowAnswer realm (.obj qs) y.1 (.obj y.2) = .ok (List.replicate n (.obj x.2)) ↔
        rowAnswer realm (.obj qs) x.1 (.obj x.2) = .ok (List.replicate n (.obj x.2)) := by
      intro n
      rw [hrow]
      exact (hsteady _ (mem_of_counts hx) _ n).trans (hsteady _ (mem_of_counts hx) _ n).symm
    cases hanswer : rowAnswer realm (.obj qs) x.1 (.obj x.2) with
    | ok ys =>
      obtain ⟨n, rfl⟩ := hcopies x ys hanswer
      simp only [value, hanswer, (hsame n).mpr hanswer]
    | error err =>
      cases hother' : rowAnswer realm (.obj qs) y.1 (.obj y.2) with
      | error err' => simp only [value, hanswer, hother']; rfl
      | ok ys =>
        obtain ⟨n, rfl⟩ := hcopies y ys hother'
        have hx' := (hsame n).mp (hrow ▸ hother')
        rw [hanswer] at hx'
        cases hx'

/-- The rows come back in order and once each exactly when none of them makes both joiners
hold, or stops the run. -/
theorem rows_once_iff (hround : realm.round.Symmetric) (hother : RejectsObjectText realm)
    (hqs : ∀ p ∈ qs, Part realm p) (hkeys : (qs.map Prod.fst).Nodup) {data : List Props}
    (hdata : ∀ row ∈ data, IntegerRow realm row) :
    (∃ out, run realm (.obj qs) (data.map .obj) = .ok out ∧ out.Sublist (data.map .obj)) ↔
      ∀ row ∈ data, ¬ Stumbles qs row ∧ ¬ (Joins realm qs row .and ∧ Joins realm qs row .or) := by
  rw [run_sublist_iff hround hother hqs hdata]
  exact forall₂_congr fun row hrow => row_once_iff hround hother (hdata row hrow) hqs hkeys none

theorem rejectsObjectText_bare : RejectsObjectText Realm.bare := fun _ _ _ => rfl

def twoJoiners : Props :=
  [(joinerName .and, .arr ([infant, tall].map fun p => .obj [p])),
    (joinerName .or, .arr ([infant].map fun p => .obj [p]))]

theorem parts_twoJoiners : ∀ p ∈ twoJoiners, Part Realm.bare p := by
  have hinfant : ∀ p ∈ [infant], IntegerTest Realm.bare p :=
    fun p hp => integerTests_children p (List.mem_of_mem_take (i := 1) hp)
  simp only [twoJoiners, List.forall_mem_cons, List.not_mem_nil, false_implies, implies_true, and_true]
  exact ⟨.joiner .and integerTests_children, .joiner .or hinfant⟩

theorem joins_twoJoiners (row : Props) :
    (Joins Realm.bare twoJoiners row .and ↔ JoinerHolds Realm.bare row .and [infant, tall]) ∧
      (Joins Realm.bare twoJoiners row .or ↔ JoinerHolds Realm.bare row .or [infant, tall, infant]) := by
  have hne : joinerName .or ≠ joinerName .and := by decide
  have htwo : listed (.arr [.obj [infant], .obj [tall]]) = [infant, tall] := rfl
  have hone : listed (.arr [.obj [infant]]) = [infant] := rfl
  constructor
  · simp [joins_iff, twoJoiners, held, mem_heldAt, testsOf, htwo, hne]
  · simp [joins_iff, twoJoiners, held, mem_heldAt, testsOf, htwo, hone, hne.symm, lookup_joinerName]

theorem rows_once_adult :
    let data := [intRow [(js "age", 25)]]
    ∃ out, run Realm.bare (.obj twoJoiners) (data.map .obj) = .ok out ∧
      out.Sublist (data.map .obj) := by
  refine (rows_once_iff symmetric_bare rejectsObjectText_bare parts_twoJoiners (by decide)
    (by simp [integerRow_bare])).mpr ?_
  rw [List.forall_mem_singleton]
  refine ⟨fun ⟨name, e, es, rest, hsplit, hget, _⟩ => ?_, fun h => ?_⟩
  · obtain ⟨hname, -⟩ := Prod.mk.inj (List.cons.inj hsplit).1
    subst hname
    exact hget rfl
  · have hage := (joins_twoJoiners _).1.mp h.1
    have hless : (25 : ℤ) < 5 :=
      (satisfies_bare rfl isTest_infant).mp (hage.2 infant (by simp) (by decide))
    exact absurd hless (by decide)

/-- A tall infant is returned by either joiner. -/
theorem infant_returned_twice :
    let data := [intRow [(js "age", 4), (js "height", 2)]]
    ¬ ∃ out, run Realm.bare (.obj twoJoiners) (data.map .obj) = .ok out ∧
      out.Sublist (data.map .obj) := by
  intro data
  have hinfant : Satisfies Realm.bare (intRow [(js "age", 4), (js "height", 2)]) infant :=
    (satisfies_bare rfl isTest_infant).mpr (show (4 : ℤ) < 5 by decide)
  have htall : Satisfies Realm.bare (intRow [(js "age", 4), (js "height", 2)]) tall :=
    (satisfies_bare rfl isTest_tall).mpr rfl
  rw [run_sublist_iff symmetric_bare rejectsObjectText_bare parts_twoJoiners (by simp [data, integerRow_bare])]
  intro h
  have honce := h _ List.mem_cons_self
  rw [row_once_iff symmetric_bare rejectsObjectText_bare (integerRow_bare _) parts_twoJoiners
    (by decide), (joins_twoJoiners _).1, (joins_twoJoiners _).2] at honce
  refine honce.2 ⟨⟨⟨infant, by simp, by decide⟩, ?_⟩, infant, by simp, hinfant⟩
  simpa using ⟨fun _ => hinfant, fun _ => htall⟩

end GlobalsJs.Query
