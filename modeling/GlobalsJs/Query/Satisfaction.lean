import GlobalsJs.Ecma.Comparison
import GlobalsJs.Query.Completion
import GlobalsJs.Query.Conjunction

/-!
# Tests on integers

On rows of integers every test compares two integers. `$or` returns the rows that
satisfy one of its tests. A query without a joiner returns the rows that satisfy the
test on its first field; the other fields do not matter.
-/

namespace GlobalsJs.Query
open Ecma
open scoped Classical

variable (realm : Realm)

def IntegerRow (row : Props) : Prop := ∀ p ∈ row, ∃ n, IsInteger realm.round p.2 n

def IntegerTest (p : JsString × Json) : Prop :=
  ∃ op b n, IsTest p.2 op b ∧ IsInteger realm.round b n

/-- The row has the field of the test, and the comparison holds of its value. -/
def Satisfies (row : Props) (p : JsString × Json) : Prop :=
  ∃ v m op b n, get row p.1 = some v ∧ IsInteger realm.round v m ∧
    IsTest p.2 op b ∧ IsInteger realm.round b n ∧ op.Holds m n

/-- The answer of a test, when the row has its field. -/
noncomputable def answer (row : Props) (p : JsString × Json) : Option Bool :=
  (get row p.1).map fun _ => decide (Satisfies realm row p)

variable {realm}

theorem IsTest.unique {e b c : Json} {op op' : Rel} (h : IsTest e op b) (h' : IsTest e op' c) :
    op = op' ∧ b = c := by
  have hnew := h.new_eq.symm.trans h'.new_eq
  rw [test, test, Except.ok.injEq, Expression.mk.injEq] at hnew
  obtain ⟨hop, hb⟩ := hnew
  have hlookup := congrArg (fun name => evaluators.lookup name) (Option.some.inj hop)
  simp only [lookup_operatorName] at hlookup
  exact ⟨Option.some.inj hlookup, Option.some.inj hb⟩

theorem answer_true {row : Props} {p : JsString × Json} :
    answer realm row p = some true ↔ Satisfies realm row p := by
  rw [answer, Option.map_eq_some_iff]
  constructor
  · rintro ⟨v, -, h⟩
    exact of_decide_eq_true h
  · intro h
    obtain ⟨v, -, -, -, -, hv, -⟩ := id h
    exact ⟨v, hv, decide_eq_true h⟩

theorem answer_none {row : Props} {p : JsString × Json} :
    answer realm row p = none ↔ get row p.1 = none := by
  rw [answer, Option.map_eq_none_iff]

theorem testRow_integers (hround : realm.round.Symmetric) {row : Props} (hrow : IntegerRow realm row)
    {p : JsString × Json} (hp : IntegerTest realm p) (rest : Props) {realm' : Realm}
    (hsame : realm'.round = realm.round) :
    testRow realm' (.obj row) (.obj (p :: rest)) = .ok ((answer realm row p).map .bool) := by
  obtain ⟨prop, e⟩ := p
  obtain ⟨op, b, n, htest, hb⟩ := hp
  rw [testRow_obj]
  cases hget : get row prop with
  | none => rw [answer_none.mpr hget]; rfl
  | some v =>
    obtain ⟨m, hm⟩ := hrow _ (mem_of_get hget)
    obtain ⟨x, -, hx, -⟩ := id hm
    obtain ⟨y, -, rfl, -⟩ := id hb
    dsimp only at hx hm
    subst hx
    have heval : (test op (.num y)).evaluate realm' (.num x) = .ok (.bool (compare realm.round op
        (.num (numberOf realm.round x.text)) (.num (numberOf realm.round y.text)))) := by
      rw [← hsame] at hround ⊢
      exact (evaluate_bare realm' op rfl rfl rfl).trans (Scope.eval_numbers hround op x y)
    have hholds : Satisfies realm row (prop, e) ↔ op.Holds m n := by
      constructor
      · rintro ⟨v, m', op', b, n', hv, hm', htest', hn', hh⟩
        obtain rfl : Json.num x = v := Option.some.inj (hget.symm.trans hv)
        obtain ⟨rfl, rfl⟩ := htest.unique htest'
        rwa [hm.unique hm', hb.unique hn']
      · exact fun hh => ⟨_, m, op, _, n, hget, hm, htest, hb, hh⟩
    have hanswer : answer realm row (prop, e) = some (compare realm.round op
        (.num (numberOf realm.round x.text)) (.num (numberOf realm.round y.text))) := by
      rw [answer, hget, Option.map_some, Option.some_inj, ← Bool.coe_iff_coe, decide_eq_true_iff,
        hholds, compare_integers hm hb]
    rw [htest.new_eq, hanswer]
    simp only [Except.bind, heval]
    rfl

/-- A list of single-field expressions under a joiner. -/
def listQuery (op : Connective) (es : Props) : Json :=
  .obj [(joinerName op, .arr (es.map fun p => .obj [p]))]

/-- `$or` returns the rows that satisfy one of its tests. -/
theorem or_is_union (hround : realm.round.Symmetric) {es : Props}
    (hes : ∀ p ∈ es, IntegerTest realm p) {data : List Props}
    (hdata : ∀ row ∈ data, IntegerRow realm row) :
    run realm (listQuery .or es) (data.map .obj) =
      .ok ((data.filter fun row => ∃ p ∈ es, Satisfies realm row p).map .obj) := by
  refine run_filter (new_list .or es) fun k row hrow => ?_
  have htests : ∀ p ∈ es, testRow ((realm.constructed (listQuery .or es)).counted k) (.obj row) (.obj [p]) =
      .ok ((answer realm row p).map .bool) :=
    fun p hp => testRow_integers hround (hdata row hrow) (hes p hp) [] rfl
  have hrun := contributes_joined k (.obj row) .or (fun p => Json.obj [p]) (by simp) htests
  have hany : (!(es.filterMap (answer realm row)).isEmpty &&
      Connective.or.combine (es.filterMap (answer realm row))) =
        decide (∃ p ∈ es, Satisfies realm row p) := by
    rw [← Bool.coe_iff_coe, decide_eq_true_iff, Bool.and_eq_true, Connective.combine, List.any_eq_true]
    simp only [← answer_true]
    constructor
    · rintro ⟨-, b, hb, rfl⟩
      exact List.mem_filterMap.mp hb
    · intro h
      have hmem := List.mem_filterMap.mpr h
      exact ⟨by simp [List.ne_nil_of_mem hmem], true, hmem, rfl⟩
  rw [hany] at hrun
  rw [List.map_map]
  exact hrun

theorem isInteger_bare (n : ℤ) : IsInteger Realm.bare.round (.ofInt n) n := isInteger_ofInt rfl

theorem symmetric_bare : Realm.bare.round.Symmetric := fun _ => rfl

def intRow (row : List (JsString × ℤ)) : Props := row.map fun p => (p.1, .ofInt p.2)

theorem integerRow_bare (row : List (JsString × ℤ)) : IntegerRow Realm.bare (intRow row) := by
  intro p hp
  obtain ⟨q, -, rfl⟩ := List.mem_map.mp hp
  exact ⟨q.2, isInteger_bare q.2⟩

theorem integerTest_bare {p : JsString × Json} {op : Rel} {n : ℤ} (h : IsTest p.2 op (.ofInt n)) :
    IntegerTest Realm.bare p := ⟨op, _, n, h, isInteger_bare n⟩

theorem satisfies_bare {row : Props} {p : JsString × Json} {op : Rel} {m n : ℤ}
    (hget : get row p.1 = some (.ofInt m)) (h : IsTest p.2 op (.ofInt n)) :
    Satisfies Realm.bare row p ↔ op.Holds m n := by
  constructor
  · rintro ⟨v, m', op', b, n', hv, hm, htest, hn, hh⟩
    obtain ⟨rfl, rfl⟩ := h.unique htest
    obtain rfl := Option.some.inj (hget.symm.trans hv)
    rwa [hm.unique (isInteger_bare m), hn.unique (isInteger_bare n)] at hh
  · exact fun hh => ⟨_, m, op, _, n, hget, isInteger_bare m, h, isInteger_bare n, hh⟩

def infant : JsString × Json := (js "age", .obj [(js "$lt", .ofInt 5)])
def tall : JsString × Json := (js "height", .ofInt 2)

theorem isTest_infant : IsTest infant.2 .lt (.ofInt 5) := .operator .lt _
theorem isTest_tall : IsTest tall.2 .eq (.ofInt 2) := .implicit (.inl ⟨_, rfl⟩)

theorem integerTests_children : ∀ p ∈ [infant, tall], IntegerTest Realm.bare p := by
  simpa using ⟨integerTest_bare isTest_infant, integerTest_bare isTest_tall⟩

theorem or_is_union_children :
    let data := [intRow [(js "age", 25)], intRow [(js "age", 4), (js "height", 2)]]
    run Realm.bare (listQuery .or [infant, tall]) (data.map .obj) =
      .ok ((data.filter fun row => ∃ p ∈ [infant, tall], Satisfies Realm.bare row p).map .obj) :=
  or_is_union symmetric_bare integerTests_children (by simp [integerRow_bare])

theorem first_field_decides (hround : realm.round.Symmetric) {p : JsString × Json} {ps : Props}
    (hnames : ∀ q ∈ p :: ps, q.1.head? ≠ some dollar) (hp : IntegerTest realm p) {data : List Props}
    (hdata : ∀ row ∈ data, IntegerRow realm row) :
    run realm (.obj (p :: ps)) (data.map .obj) =
      .ok ((data.filter fun row => Satisfies realm row p).map .obj) := by
  have hstack : (p :: ps).map (fun _ => some (Json.obj (p :: ps))) =
      List.replicate (ps.length + 1) (some (.obj (p :: ps))) := by
    simp [List.replicate_succ]
  refine run_filter ((new_of_fields hnames).trans (by rw [hstack])) fun k row hrow => ?_
  have htest : testRow ((realm.constructed (.obj (p :: ps))).counted k) (.obj row) (.obj (p :: ps)) =
      .ok ((answer realm row p).map .bool) := testRow_integers hround (hdata row hrow) hp ps rfl
  rw [contributes_single k (.obj row) ps.length (by simp) htest]
  simp only [answer_true, decide_eq_true_eq]

/-- All fields of a query constrain its rows exactly when the first one implies the others. -/
theorem fields_constrain_iff (hround : realm.round.Symmetric) {p : JsString × Json} {ps : Props}
    (hnames : ∀ q ∈ p :: ps, q.1.head? ≠ some dollar) (htests : ∀ q ∈ p :: ps, IntegerTest realm q)
    {data : List Props} (hdata : ∀ row ∈ data, IntegerRow realm row) :
    run realm (.obj (p :: ps)) (data.map .obj) =
        .ok ((data.filter fun row => ∀ q ∈ p :: ps, Satisfies realm row q).map .obj) ↔
      ∀ row ∈ data, Satisfies realm row p → ∀ q ∈ ps, Satisfies realm row q := by
  rw [first_field_decides hround hnames (htests p List.mem_cons_self) hdata, Except.ok.injEq,
    (List.map_injective_iff.mpr fun a b h => Json.obj.inj h).eq_iff, filter_eq_filter_iff]
  · refine forall₂_congr fun row _ => ?_
    rw [decide_eq_true_iff, decide_eq_false_iff_not, List.forall_mem_cons, not_and, not_not]
    exact ⟨fun h hp => (h hp).2, fun h hp => ⟨hp, h hp⟩⟩
  · intro row _ hall
    exact decide_eq_true (of_decide_eq_true hall p List.mem_cons_self)

theorem fields_constrain_children :
    let data := [intRow [(js "age", 25)], intRow [(js "age", 4), (js "height", 2)]]
    run Realm.bare (.obj [infant, tall]) (data.map .obj) =
      .ok ((data.filter fun row => ∀ q ∈ [infant, tall], Satisfies Realm.bare row q).map .obj) := by
  refine (fields_constrain_iff symmetric_bare (by decide) integerTests_children
    (by simp [integerRow_bare])).mpr ?_
  simp only [List.forall_mem_cons, List.not_mem_nil, false_implies, implies_true, and_true]
  constructor
  · intro h
    have hless : (25 : ℤ) < 5 := (satisfies_bare rfl isTest_infant).mp h
    exact absurd hless (by decide)
  · exact fun _ => (satisfies_bare rfl isTest_tall).mpr rfl

/-- An infant whose height is not known is returned as a tall one. -/
theorem second_field_ignored :
    let data := [intRow [(js "age", 4)]]
    run Realm.bare (.obj [infant, tall]) (data.map .obj) ≠
      .ok ((data.filter fun row => ∀ q ∈ [infant, tall], Satisfies Realm.bare row q).map .obj) := by
  intro data h
  rw [first_field_decides symmetric_bare (by decide) (integerTest_bare isTest_infant)
    (by simp [data, integerRow_bare]), Except.ok.injEq,
    (List.map_injective_iff.mpr fun a b h => Json.obj.inj h).eq_iff] at h
  have hfirst : intRow [(js "age", 4)] ∈ data.filter fun row => Satisfies Realm.bare row infant :=
    List.mem_filter.mpr ⟨List.mem_cons_self,
      decide_eq_true ((satisfies_bare rfl isTest_infant).mpr (show (4 : ℤ) < 5 by decide))⟩
  rw [h] at hfirst
  have hall := of_decide_eq_true (List.mem_filter.mp hfirst).2
  obtain ⟨v, -, -, -, -, hget, -⟩ := hall tall (by simp)
  cases hget

end GlobalsJs.Query
