import GlobalsJs.Query.Query

/-!
# When a query completes

On words and numbers a query throws in two ways: a joiner with a bare expression
always does, and a value that converts to a number is put into the program without
quotes, where it and the other side have to read as operands.
-/

namespace GlobalsJs.Query
open Ecma Collected

def PlainTest (p : JsString × Json) : Prop := ∃ op b, IsTest p.2 op b ∧ Plain b

def PlainRow (row : Props) : Prop := ∀ p ∈ row, Plain p.2

def joinerName : Connective → JsString
  | .and => js "$and"
  | .or => js "$or"

/-- A query of the grammar and the tests that `execute` makes of it: it looks at the first
field only, unless there is a joiner. -/
inductive Documented : Json → Props → Prop
  | fields {ps : Props} : (∀ p ∈ ps, PlainTest p) → Documented (.obj ps) ps.head?.toList
  | list (op : Connective) {es : Props} : (∀ p ∈ es, PlainTest p) →
      Documented (.obj [(joinerName op, .arr (es.map fun p => .obj [p]))]) es
  | bare (op : Connective) {p : JsString × Json} : PlainTest p →
      Documented (.obj [(joinerName op, .obj [p])]) [p]

/-- Every key that begins with the sign of a joiner has a list. -/
def JoinersHaveLists (q : Json) : Prop :=
  ∀ ps, q = .obj ps → ∀ p ∈ ps, p.1.head? = some dollar → ∃ xs, p.2 = .arr xs

/-- The test compares the value that the row has for its field, if it has one. -/
def TestComparable (realm : Realm) (row : Props) (p : JsString × Json) : Prop :=
  ∀ v, get row p.1 = some v → ∀ e, Expression.new p.2 = .ok e → Comparable realm e v

theorem testRow_settles (realm : Realm) {row : Props} (hrow : PlainRow row) {p : JsString × Json}
    (hp : PlainTest p) (rest : Props) :
    (TestComparable realm row p ∧
        ∃ r : Option Bool, testRow realm (.obj row) (.obj (p :: rest)) = .ok (r.map .bool)) ∨
      (¬ TestComparable realm row p ∧
        ∃ err, testRow realm (.obj row) (.obj (p :: rest)) = .error err) := by
  obtain ⟨prop, e⟩ := p
  obtain ⟨op, b, hb, hplain⟩ := hp
  have htest := testRow_obj realm row prop e rest
  cases hget : get row prop with
  | none =>
    rw [hget] at htest
    exact Or.inl ⟨fun v hv => by simp [hget] at hv, none, htest⟩
  | some v =>
    have hsettles := evaluate_settles realm op (hrow _ (mem_of_get hget)) hplain
    have hiff : TestComparable realm row (prop, e) ↔ Comparable realm (test op b) v := by
      simp [TestComparable, hget, hb.new_eq]
    rw [hget, hb.new_eq] at htest
    rw [hiff, htest]
    simp only [Except.bind]
    generalize (test op b).evaluate realm v = result at hsettles
    cases hsettles with
    | answers hok t => exact Or.inl ⟨hok, some t, rfl⟩
    | throws hno err => exact Or.inr ⟨hno, err, rfl⟩

theorem contributes_throws {realm : Realm} {es : List Json} (hobj : ∀ e ∈ es, ∀ s, e ≠ .str s)
    {k : Option ℕ} {row : Json} (h : ∃ e ∈ es, ∃ err, testRow (realm.counted k) row e = .error err)
    (rest : Stack) : ¬ ∃ out, contributes realm (es.map some ++ rest) k row = .ok out := by
  obtain ⟨err, herr⟩ := foldlM_throws row hobj ⟨[], false, [], k⟩ h rest
  intro ⟨out, hout⟩
  rw [contributes, executeRow, herr] at hout
  cases hout

theorem contributes_list_iff (realm : Realm) (op : Connective) (k : Option ℕ) {row : Props}
    (hrow : PlainRow row) {es : Props} (hes : ∀ p ∈ es, PlainTest p) :
    (∃ out, contributes realm ((es.map fun p => Json.obj [p]).map some ++
        [some (.str (connectiveText op))]) k (.obj row) = .ok out) ↔
      ∀ p ∈ es, TestComparable (realm.counted k) row p := by
  have hobj : ∀ e ∈ es.map fun p => Json.obj [p], ∀ s, e ≠ .str s := by
    intro e he s
    obtain ⟨p, -, rfl⟩ := List.mem_map.mp he
    simp
  by_cases hall : ∀ p ∈ es, TestComparable (realm.counted k) row p
  · -- choose the truth value of every test
    have htests : ∀ e : Json, ∃ r : Option Bool, e ∈ (es.map fun p => Json.obj [p]) →
        testRow (realm.counted k) (.obj row) e = .ok (r.map .bool) := by
      intro e
      by_cases he : e ∈ es.map fun p => Json.obj [p]
      · obtain ⟨p, hp, rfl⟩ := List.mem_map.mp he
        rcases testRow_settles (realm.counted k) hrow (hes p hp) [] with ⟨-, r, hr⟩ | ⟨hno, -⟩
        · exact ⟨r, fun _ => hr⟩
        · exact absurd (hall p hp) hno
      · exact ⟨none, fun h => absurd h he⟩
    choose r hr using htests
    exact iff_of_true ⟨_, contributes_joined k (.obj row) op (fun e => e) hobj hr⟩ hall
  · obtain ⟨p, hp, hno⟩ : ∃ p ∈ es, ¬ TestComparable (realm.counted k) row p := by simpa using hall
    refine iff_of_false (contributes_throws hobj ?_ _) hall
    rcases testRow_settles (realm.counted k) hrow (hes p hp) [] with ⟨hyes, -⟩ | ⟨-, herr⟩
    · exact absurd hyes hno
    · exact ⟨_, List.mem_map.mpr ⟨p, hp, rfl⟩, herr⟩

theorem contributes_fields_iff (realm : Realm) (k : Option ℕ) {row : Props} (hrow : PlainRow row)
    {ps : Props} (hps : ∀ p ∈ ps, PlainTest p) :
    (∃ out, contributes realm (ps.map fun _ => some (Json.obj ps)) k (.obj row) = .ok out) ↔
      ∀ p ∈ ps.head?.toList, TestComparable (realm.counted k) row p := by
  cases ps with
  | nil => exact iff_of_true ⟨_, rfl⟩ (by simp)
  | cons p ps =>
    have hstack : (p :: ps).map (fun _ => some (Json.obj (p :: ps))) =
        List.replicate (ps.length + 1) (some (.obj (p :: ps))) := by
      simp [List.replicate_succ]
    rw [hstack]
    simp only [List.head?_cons, Option.toList_some, List.mem_singleton, forall_eq]
    rcases testRow_settles (realm.counted k) hrow (hps p List.mem_cons_self) ps with
      ⟨hyes, r, hr⟩ | ⟨hno, err, herr⟩
    · exact iff_of_true ⟨_, contributes_single k (.obj row) ps.length (by simp) hr⟩ hyes
    · have hthrows : ∃ e ∈ [Json.obj (p :: ps)], ∃ err, testRow (realm.counted k) (.obj row) e = .error err :=
        ⟨_, List.mem_singleton_self _, err, herr⟩
      exact iff_of_false (contributes_throws (by simp) hthrows _) hno

theorem joinerName_eq (op : Connective) :
    (joinerName op).head? = some dollar ∧ joinerText (joinerName op) = some (.str (connectiveText op)) := by
  cases op <;> decide

theorem PlainTest.not_list {p : JsString × Json} (h : PlainTest p) (xs : List Json) :
    p.2 ≠ .arr xs := by
  obtain ⟨op, b, hb, -⟩ := h
  intro heq
  rw [heq] at hb
  cases hb with
  | implicit hplain => obtain ⟨n, hn⟩ | ⟨s, hs, -⟩ := hplain <;> simp_all

theorem new_list (op : Connective) (es : Props) :
    new (.obj [(joinerName op, .arr (es.map fun p => .obj [p]))]) =
      .ok ((es.map fun p => Json.obj [p]).map some ++ [some (.str (connectiveText op))]) := by
  obtain ⟨hdollar, htext⟩ := joinerName_eq op
  simp [new, entries, push, hdollar, htext, bind, Except.bind, pure, Except.pure]

theorem push_throws {q : Json} {p : JsString × Json} (hdollar : p.1.head? = some dollar)
    (hlist : ∀ xs, p.2 ≠ .arr xs) : push q p.1 p.2 = .error (.referenceError (js "quer")) := by
  obtain ⟨prop, v⟩ := p
  cases v with
  | arr xs => exact absurd rfl (hlist xs)
  | null | bool | num | str | obj => exact if_pos hdollar

theorem push_field {q : Json} {p : JsString × Json} (h : p.1.head? ≠ some dollar) :
    push q p.1 p.2 = .ok [some q] := by
  simp [push, h]

theorem new_fields {ps : Props} (hps : ∀ p ∈ ps, p.1.head? ≠ some dollar) (q : Json) :
    (ps.mapM fun p => push q p.1 p.2) = .ok (ps.map fun _ => [some q]) := by
  induction ps with
  | nil => rfl
  | cons p ps ih =>
    rw [List.mapM_cons, push_field (hps p List.mem_cons_self),
      ih fun x hx => hps x (List.mem_cons_of_mem p hx)]
    rfl

theorem new_of_fields {ps : Props} (hps : ∀ p ∈ ps, p.1.head? ≠ some dollar) :
    new (.obj ps) = .ok (ps.map fun _ => some (.obj ps)) := by
  have hpush := new_fields hps (.obj ps)
  have hflat : (ps.map fun _ => [some (Json.obj ps)]).flatten = ps.map fun _ => some (.obj ps) := by
    rw [← List.flatMap_def, ← List.map_eq_flatMap]
  simp only [new, entries, bind, Except.bind, hpush, pure, Except.pure, hflat]

theorem new_fields_throws {ps : Props} (hps : ∃ p ∈ ps, p.1.head? = some dollar)
    (hlist : ∀ p ∈ ps, ∀ xs, p.2 ≠ .arr xs) (q : Json) :
    ∃ err, (ps.mapM fun p => push q p.1 p.2) = .error err := by
  induction ps with
  | nil => simp at hps
  | cons p ps ih =>
    by_cases hp : p.1.head? = some dollar
    · exact ⟨_, by rw [List.mapM_cons, push_throws hp (hlist p List.mem_cons_self)]; rfl⟩
    · have hrest : ∃ x ∈ ps, x.1.head? = some dollar := by
        obtain ⟨x, hx, hdollar⟩ := hps
        rcases List.mem_cons.mp hx with rfl | hx
        · exact absurd hdollar hp
        · exact ⟨x, hx, hdollar⟩
      obtain ⟨err, herr⟩ := ih hrest fun x hx => hlist x (List.mem_cons_of_mem p hx)
      exact ⟨err, by rw [List.mapM_cons, push_field hp, herr]; rfl⟩

theorem run_ok_iff (realm : Realm) {q : Json} {stack : Stack} (hnew : new q = .ok stack)
    (data : List Props) : (∃ rows, run realm q (data.map .obj) = .ok rows) ↔
      ∀ x ∈ counts q Json.obj data,
        ∃ out, contributes (realm.constructed q) stack x.1 (.obj x.2) = .ok out := by
  rw [run_of_new hnew, collected_ok_iff]

theorem not_run_ok (realm : Realm) {q : Json} {err : JsError} (hnew : new q = .error err)
    (data : List Json) : ¬ ∃ rows, run realm q data = .ok rows := by
  rintro ⟨rows, hrows⟩
  rw [run_of_error hnew] at hrows
  cases hrows

theorem map_snd_counts {α : Type} (q : Json) (row : α → Json) (xs : List α) :
    (counts q row xs).map Prod.snd = xs := map_snd_along _ _ _

theorem mem_of_counts {α : Type} {q : Json} {row : α → Json} {xs : List α} {x : Option ℕ × α}
    (hx : x ∈ counts q row xs) : x.2 ∈ xs := by
  have hmem := List.mem_map_of_mem (f := Prod.snd) hx
  rwa [map_snd_counts] at hmem

theorem query_completes_iff (realm : Realm) {q : Json} {tests : Props} (hq : Documented q tests)
    {data : List Props} (hdata : ∀ row ∈ data, PlainRow row) :
    (∃ rows, run realm q (data.map .obj) = .ok rows) ↔
      JoinersHaveLists q ∧ ∀ x ∈ counts q Json.obj data, ∀ p ∈ tests,
        TestComparable ((realm.constructed q).counted x.1) x.2 p := by
  cases hq with
  | @fields ps hps =>
    by_cases hdollar : ∃ p ∈ ps, p.1.head? = some dollar
    · obtain ⟨err, herr⟩ := new_fields_throws hdollar (fun p hp => (hps p hp).not_list) (.obj ps)
      have hnew : new (.obj ps) = .error err := by
        simp only [new, entries, bind, Except.bind, herr]
      refine iff_of_false (not_run_ok realm hnew _) ?_
      rintro ⟨hlists, -⟩
      obtain ⟨p, hp, hd⟩ := hdollar
      obtain ⟨xs, hxs⟩ := hlists ps rfl p hp hd
      exact (hps p hp).not_list xs hxs
    · have hprops : ∀ p ∈ ps, p.1.head? ≠ some dollar := by simpa using hdollar
      have hlists : JoinersHaveLists (.obj ps) := by
        rintro ps' heq p hp hd
        obtain rfl := Json.obj.inj heq
        exact absurd hd (hprops p hp)
      rw [run_ok_iff realm (new_of_fields hprops), and_iff_right hlists]
      exact forall₂_congr fun x hx =>
        contributes_fields_iff _ x.1 (hdata x.2 (mem_of_counts hx)) hps
  | list op hes =>
    have hlists : JoinersHaveLists (.obj [(joinerName op,
        .arr (tests.map fun p => .obj [p]))]) := by
      rintro ps' heq p hp -
      obtain rfl := Json.obj.inj heq
      rw [List.mem_singleton.mp hp]
      exact ⟨_, rfl⟩
    rw [run_ok_iff realm (new_list op tests), and_iff_right hlists]
    exact forall₂_congr fun x hx =>
      contributes_list_iff _ op x.1 (hdata x.2 (mem_of_counts hx)) hes
  | @bare op p hp =>
    have hnew : new (.obj [(joinerName op, .obj [p])]) =
        .error (.referenceError (js "quer")) := by
      simp [new, entries, push, (joinerName_eq op).1, bind, Except.bind]
    refine iff_of_false (not_run_ok realm hnew _) ?_
    rintro ⟨hlists, -⟩
    obtain ⟨xs, hxs⟩ := hlists _ rfl _ List.mem_cons_self (joinerName_eq op).1
    cases hxs

theorem query_completes_people :
    let q := Json.obj [(js "$and", .arr [.obj [(js "age", .obj [(js "$gte", .ofInt 20)])],
      .obj [(js "name", .str (js "Suzy"))]])]
    let data : List Props := [[(js "age", .ofInt 30), (js "name", .str (js "Suzy"))]]
    ∃ rows, run Realm.bare q (data.map .obj) = .ok rows := by
  intro q data
  have hage : PlainTest (js "age", .obj [(js "$gte", .ofInt 20)]) :=
    ⟨.ge, _, .operator .ge _, Or.inl ⟨_, rfl⟩⟩
  have hname : PlainTest (js "name", .str (js "Suzy")) :=
    ⟨.eq, _, .implicit (Or.inr ⟨_, rfl, by decide⟩), Or.inr ⟨_, rfl, by decide⟩⟩
  have hes : ∀ p ∈ [(js "age", .obj [(js "$gte", .ofInt 20)]), (js "name", .str (js "Suzy"))],
      PlainTest p := by simpa using ⟨hage, hname⟩
  have hq : Documented q _ := .list .and hes
  have hrow : ∀ row ∈ data, PlainRow row := by
    intro row hrow p hp
    obtain rfl := List.mem_singleton.mp hrow
    simp only [List.mem_cons, List.not_mem_nil, or_false] at hp
    rcases hp with rfl | rfl
    · exact Or.inl ⟨_, rfl⟩
    · exact Or.inr ⟨_, rfl, by decide⟩
  refine (query_completes_iff Realm.bare hq hrow).mpr ⟨?_, ?_⟩
  · rintro ps hps p hp -
    obtain rfl := Json.obj.inj hps
    exact ⟨_, by rw [List.mem_singleton.mp hp]⟩
  · intro ⟨k, row⟩ hx p hp v hv e he
    obtain rfl : row = _ := List.mem_singleton.mp (mem_of_counts hx)
    simp only [List.mem_cons, List.not_mem_nil, or_false] at hp
    rcases hp with rfl | rfl
    · -- a number against a number
      obtain rfl : Json.ofInt 30 = v := Option.some.inj hv
      obtain rfl := Except.ok.inj he
      exact Or.inr fun source _ => ⟨readable_numeral _ (.ofInt 30), readable_numeral _ (.ofInt 20)⟩
    · obtain rfl : Json.str (js "Suzy") = v := Option.some.inj hv
      exact Or.inl (by decide)

/-- An age compared with the empty string leaves the program without its right side. -/
theorem empty_literal_throws :
    let ps : Props := [(js "age", .obj [(js "$lt", .str [])])]
    let row : Props := [(js "age", .ofInt 5)]
    Documented (.obj ps) ps ∧ PlainRow row ∧
      ∀ realm, run realm (.obj ps) [.obj row] = .error .syntaxError := by
  intro ps row
  have hps : ∀ p ∈ ps, PlainTest p := by
    intro p hp
    obtain rfl := List.mem_singleton.mp hp
    exact ⟨.lt, _, .operator .lt _, Or.inr ⟨_, rfl, rfl⟩⟩
  refine ⟨.fields hps, fun p hp => ?_, fun realm => rfl⟩
  obtain rfl := List.mem_singleton.mp hp
  exact Or.inl ⟨_, rfl⟩

-- a row without the field leaves a count in `k`, which the next row is compared with
example :
    let query := Json.obj [(js "$or", .arr [.obj [(js "age", .obj [(js "$lt", .str (js "k"))])]])]
    let row := Json.obj [(js "age", .ofInt 5)]
    run Realm.bare query [.obj [], row] = .ok [] ∧
      run Realm.bare query [row] = .error (.referenceError (js "k")) := by decide +kernel

end GlobalsJs.Query
