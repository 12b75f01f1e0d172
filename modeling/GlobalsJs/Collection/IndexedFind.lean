import GlobalsJs.Collection.Exactness
import GlobalsJs.Query.Rows

/-!
# Finding through an index

`find` takes the identifiers under the query's value in the first index it can use, or
scans the collection when there are none. The query processor sees the objects that were
found and no others, so that it decides over fewer objects than without the index.
-/

namespace GlobalsJs
open Ecma Cache Query Calls.Prog Collected

namespace Collection
variable {σ κ : Type} [LinearOrder κ] {b : Binding σ} {view : σ → Globals κ} {sub : Json → κ}

/-- What a call returns when it is not given up; `none` when it throws. -/
def Answers {α : Type} (b : Binding σ) (p : ℕ → Prog α) (s : σ) (answer : Option α) : Prop :=
  ∃ n, ∀ fuel, n < fuel → ∃ x : Except JsError α,
    run b (p fuel) s = (s, x.mapError Stop.error) ∧ x.toOption = answer

/-- The collection with no index defined. -/
def plain (self : Collection) : Collection := { self with indexes := [] }

def indexedKey (self : Collection) (qs : Props) : Option (JsString × Json) :=
  qs.find? fun p => self.indexes.any fun index => p.1 ∈ keys index

/-- The object under a subscript has the query's value in the field of that key. -/
def Filed (self : Collection) (sub : Json → κ) (g : Globals κ) (qs : Props) (k : κ) : Prop :=
  ∃ p, self.indexedKey qs = some p ∧ self.HasValue sub g p.1 (sub p.2) k

/-- The indexes are on single fields and list exactly the stored objects that define them. -/
structure Catalogued (c : Collection) (sub : Json → κ) (g : Globals κ) : Prop where
  single : c.SingleField
  nodes : ∀ p, ¬ g.node c.name p
  objects : ∀ k, g.object c.index_global k = none
  exact : ∀ f ∈ c.fields, ∀ value k : κ,
    g.Child c.index_global [sub (.str f), value] k ↔ c.HasValue sub g f value k

omit [LinearOrder κ] in
theorem Catalogued.plain {self : Collection} {g : Globals κ} (hg : self.Catalogued sub g) :
    self.plain.Catalogued sub g where
  single _ hindex := absurd hindex List.not_mem_nil
  nodes := hg.nodes
  objects := hg.objects
  exact _ hf := absurd hf List.not_mem_nil

theorem indexedKey_plain (self : Collection) (qs : Props) : self.plain.indexedKey qs = none :=
  List.find?_eq_none.mpr fun _ _ => Bool.false_ne_true

omit [LinearOrder κ] in
theorem Filed.stored {self : Collection} {g : Globals κ} {qs : Props} {k : κ}
    (hk : self.Filed sub g qs k) : (g.object self.name k).isSome := by
  obtain ⟨p, _, o, v, ho, -⟩ := hk
  rw [ho]
  rfl

omit [LinearOrder κ] in
theorem Filed.ne_nil {self : Collection} {g : Globals κ} {qs : Props} {k : κ}
    (hk : self.Filed sub g qs k) : qs ≠ [] := by
  obtain ⟨p, hp, _⟩ := hk
  exact List.ne_nil_of_mem (List.mem_of_find?_eq_some hp)

omit [LinearOrder κ] in
theorem Filed.indexed {self : Collection} {g : Globals κ} {qs : Props} {k : κ}
    (hk : self.Filed sub g qs k) : self.indexes ≠ [] := by
  obtain ⟨p, hp, _⟩ := hk
  intro hindexes
  have hkey := List.find?_some hp
  rw [hindexes] at hkey
  cases hkey

theorem filed_eq_nil_iff {self : Collection} {g : Globals κ} {qs : Props} {fs : List κ}
    (hfs : Enumerates {k | self.Filed sub g qs k ∧ sub (.ofInt 0) < k} fs) :
    fs = [] ↔ ∀ k ∈ self.visited sub g, ¬ self.Filed sub g qs k := by
  rw [List.eq_nil_iff_forall_not_mem]
  refine forall_congr' fun k => ?_
  rw [hfs.mem]
  exact ⟨fun h hk hfiled => h ⟨hfiled, hk.2⟩, fun h hfiled => h ⟨hfiled.1.stored, hfiled.2⟩ hfiled.1⟩

theorem indexedKey_mem {self : Collection} (hsingle : self.SingleField) {qs : Props}
    {p : JsString × Json} (hp : self.indexedKey qs = some p) : p.1 ∈ self.fields := by
  have hany := List.find?_some hp
  obtain ⟨index, hindex, hkey⟩ := List.any_eq_true.mp hany
  obtain ⟨f, order, rfl, _⟩ := hsingle index hindex
  obtain rfl : p.1 = f := List.mem_singleton.mp (of_decide_eq_true hkey)
  exact List.mem_filterMap.mpr ⟨_, hindex, rfl⟩

def rowAt (self : Collection) (g : Globals κ) (k : κ) : Json :=
  ((g.object self.name k).map Json.obj).getD .null

def selected (self : Collection) (realm : Realm) (g : Globals κ) (qs : Props) (ks : List κ) :
    Except JsError (List (Option Json)) :=
  if qs = [] then .ok (self.objectsAt g ks) else filter_results realm (.obj qs) (self.objectsAt g ks)

omit [LinearOrder κ] in
theorem selected_rows (self : Collection) (realm : Realm) (g : Globals κ) {qs : Props} (ks : List κ)
    (hqs : qs ≠ []) : (self.selected realm g qs ks).toOption =
      (Query.run realm (.obj qs) (ks.map (self.rowAt g))).toOption.map (·.map some) := by
  have hrows : (self.objectsAt g ks).map (fun o => o.getD .null) = ks.map (self.rowAt g) := by
    rw [objectsAt, List.map_map]
    rfl
  rw [selected, if_neg hqs, filter_results, hrows]
  cases Query.run realm (.obj qs) (ks.map (self.rowAt g)) <;> rfl

def meets (self : Collection) (g : Globals κ) (qs : Props) (ks : List κ) : List (Option ℕ × κ) :=
  counts (.obj qs) (self.rowAt g) ks

def answerAt (self : Collection) (realm : Realm) (g : Globals κ) (qs : Props) (x : Option ℕ × κ) :
    Except JsError (List Json) :=
  rowAnswer realm (.obj qs) x.1 (self.rowAt g x.2)

omit [LinearOrder κ] in
theorem selected_toOption (self : Collection) (realm : Realm) (g : Globals κ) {qs : Props} {ks : List κ}
    (hqs : qs ≠ []) (hks : ks ≠ []) : (self.selected realm g qs ks).toOption =
      (collected (self.answerAt realm g qs) (self.meets g qs ks)).toOption.map (·.map some) := by
  rw [selected_rows self realm g ks hqs, run_eq_collected realm _ _ (.inl hks)]
  rfl

/-- The visible objects differ, as objects do that carry their identifiers, or the query does
not look at `k`. -/
def Distinguished (self : Collection) (sub : Json → κ) (realm : Realm) (g : Globals κ) (qs : Props) : Prop :=
  (∀ k ∈ self.visited sub g, ∀ l ∈ self.visited sub g, g.object self.name k = g.object self.name l → k = l) ∨
    Steady realm (.obj qs)

theorem Indexed.distinguished {self : Collection} {g : Globals κ} (hg : self.Indexed sub g) (realm : Realm)
    (qs : Props) : self.Distinguished sub realm g qs := by
  refine .inl fun k hk l _ heq => ?_
  obtain ⟨o, ho⟩ := Option.isSome_iff_exists.mp hk.1
  obtain ⟨id, hid, rfl⟩ := hg.own k o ho
  obtain ⟨id', hid', rfl⟩ := hg.own l o (heq ▸ ho)
  rw [Option.some.inj (hid.symm.trans hid')]

section
variable (law : Lawful b view sub)
include law

theorem run_select (self : Collection) (realm : Realm) {s : σ} (qs : Props) {ids : List Json}
    (hids : ∀ id ∈ ids, Scalar id)
    (hstored : ∀ k ∈ ids.map sub, ((view s).object self.name k).isSome) :
    run b (self.select realm (some (.obj qs)) ids) s =
      (s, (self.selected realm (view s) qs (ids.map sub)).mapError Stop.error) := by
  have hall := run_retrieve_all law self hids fun id hid => hstored _ (List.mem_map_of_mem hid)
  rw [select, run_bind_ok hall, selected]
  cases qs with
  | nil => rfl
  | cons p qs => exact run_liftM _ s

theorem exists_index_walk {self : Collection} {s : σ} (hs : self.Catalogued sub (view s)) {qs : Props}
    {p : JsString × Json} (hp : self.indexedKey qs = some p) :
    ∃ ids, Walk b s self.index_global [.str p.1, p.2] (.ofInt 0) ids ∧ (∀ id ∈ ids, Scalar id) ∧
      Enumerates {k | self.Filed sub (view s) qs k ∧ sub (.ofInt 0) < k} (ids.map sub) := by
  obtain ⟨ids, hwalk, hids, hlists⟩ :=
    exists_walk law s self.index_global [.str p.1, p.2] (.inr hs.objects) (scalar_ofInt 0)
  refine ⟨ids, hwalk, hids, ?_⟩
  have hset : {l | (view s).Child self.index_global ([Json.str p.1, p.2].map sub) l ∧
      sub (.ofInt 0) < l} = {k | self.Filed sub (view s) qs k ∧ sub (.ofInt 0) < k} := by
    ext l
    have hexact := hs.exact p.1 (indexedKey_mem hs.single hp) (sub p.2) l
    simp only [Set.mem_ofPred_eq, List.map_cons, List.map_nil, hexact, Filed, hp,
      Option.some.injEq, exists_eq_left']
  exact hset ▸ hlists

theorem exists_lookup (self : Collection) {s : σ}
    (hobjects : ∀ k, (view s).object self.index_global k = none) (qs : Props) :
    ∃ ids, (∀ id ∈ ids, Scalar id) ∧
      Enumerates {k | (∃ p, self.indexedKey qs = some p ∧
        (view s).Child self.index_global [sub (.str p.1), sub p.2] k) ∧ sub (.ofInt 0) < k} (ids.map sub) ∧
      ∀ fuel, ids.length < fuel → run b (self.index_ids fuel (some (.obj qs))) s = (s, .ok ids) := by
  have hbuild : self.build_index_glo_ref_from_query (.obj qs) = .ok ((self.indexedKey qs).map fun p =>
      self.index_glo_ref [some (.str p.1), some p.2, some (.ofInt 0)]) := rfl
  cases hp : self.indexedKey qs with
  | none =>
    refine ⟨[], by simp, .nil fun k => ?_, fun fuel _ => ?_⟩
    · rintro ⟨⟨p, hp', _⟩, _⟩
      cases hp'
    · rw [hp] at hbuild
      exact run_bind_ok (a := none) ((run_liftM _ s).trans (by rw [hbuild]; rfl)) _
  | some p =>
    obtain ⟨ids, hwalk, hids, hlists⟩ :=
      exists_walk law s self.index_global [.str p.1, p.2] (.inr hobjects) (scalar_ofInt 0)
    refine ⟨ids, hids, ?_, fun fuel hfuel => ?_⟩
    · simpa only [Option.some.injEq, exists_eq_left', List.map_cons, List.map_nil] using hlists
    · rw [hp] at hbuild
      refine (run_bind_ok (a := some _) ((run_liftM _ s).trans (by rw [hbuild]; rfl)) _).trans ?_
      exact hwalk.run_order_ids law hfuel

theorem exists_index_ids {self : Collection} {s : σ} (hs : self.Catalogued sub (view s)) (qs : Props) :
    ∃ ids, (∀ id ∈ ids, Scalar id) ∧
      Enumerates {k | self.Filed sub (view s) qs k ∧ sub (.ofInt 0) < k} (ids.map sub) ∧
      ∀ fuel, ids.length < fuel → run b (self.index_ids fuel (some (.obj qs))) s = (s, .ok ids) := by
  obtain ⟨ids, hids, hlists, hrun⟩ := exists_lookup law self hs.objects qs
  refine ⟨ids, hids, ?_, hrun⟩
  have hset : {k | (∃ p, self.indexedKey qs = some p ∧
      (view s).Child self.index_global [sub (.str p.1), sub p.2] k) ∧ sub (.ofInt 0) < k} =
      {k | self.Filed sub (view s) qs k ∧ sub (.ofInt 0) < k} := by
    ext k
    simp only [Set.mem_ofPred_eq, Filed]
    refine and_congr_left fun _ => exists_congr fun p => and_congr_right fun hp => ?_
    exact hs.exact p.1 (indexedKey_mem hs.single hp) (sub p.2) k
  exact hset ▸ hlists

theorem find_answers {self : Collection} (realm : Realm) {s : σ} (hs : self.Catalogued sub (view s))
    {qs : Props} (hsubs : ∀ xs, get qs (js "subscripts") ≠ some (.arr xs)) :
    ∃ ks fs, Enumerates (self.visited sub (view s)) ks ∧
      Enumerates {k | self.Filed sub (view s) qs k ∧ sub (.ofInt 0) < k} fs ∧
      Answers b (fun fuel => self.find realm fuel (some (.obj qs))) s
        (if fs ≠ [] then (self.selected realm (view s) qs fs).toOption
        else if get qs (js "subscripts") = none then (self.selected realm (view s) qs ks).toOption
        else none) := by
  obtain ⟨ids, hwalk, hids, hlists⟩ := exists_scan law self hs.nodes
  obtain ⟨found, hfound, hfiled, hindex⟩ := exists_index_ids law hs qs
  have hvisited : ∀ k ∈ ids.map sub, ((view s).object self.name k).isSome :=
    fun k hk => ((hlists.mem k).mp hk).1
  have hstored : ∀ k ∈ found.map sub, ((view s).object self.name k).isSome :=
    fun k hk => ((hfiled.mem k).mp hk).1.stored
  refine ⟨ids.map sub, found.map sub, hlists, hfiled, max ids.length found.length, ?_⟩
  intro fuel hfuel
  obtain ⟨hn, hm⟩ := max_lt_iff.mp hfuel
  by_cases hnone : found = []
  · rw [if_neg (by simp [hnone])]
    have hempty : run b (self.index_ids fuel (some (.obj qs))) s = (s, .ok []) := hnone ▸ hindex fuel hm
    cases hget : get qs (js "subscripts") with
    | none =>
      have hread : query_subscripts (some (.obj qs)) = .ok none := congrArg Except.ok hget
      refine ⟨self.selected realm (view s) qs (ids.map sub), ?_, by simp⟩
      rw [run_find_scan self realm (q := some (.obj qs)) rfl hread hempty (hwalk.run_order_ids law hn)]
      exact run_select law self realm qs hids hvisited
    | some v =>
      have hread : query_subscripts (some (.obj qs)) = .ok (some v) := congrArg Except.ok hget
      have hpush : push_zero (some (.obj qs)) (some v) = .error .typeError := by
        cases v with
        | arr xs => exact absurd hget (hsubs xs)
        | null | bool | num | str | obj => rfl
      exact ⟨.error .typeError, run_find_throws self realm rfl hread hempty hpush,
        by simp [Except.toOption]⟩
  · refine ⟨self.selected realm (view s) qs (found.map sub), ?_, by simp [hnone]⟩
    rw [run_find_index self realm rfl rfl (hindex fuel hm) hnone]
    exact run_select law self realm qs hfound hstored

/-- The indexes make no difference to a query over the visible objects `ks`, of which `fs`
have the value: it uses none, no visible object has the value, the query fails on an object
that has it and on one of the scan, or it matches no visible object without the value and
answers the same on the others. -/
inductive Agrees (self : Collection) (sub : Json → κ) (realm : Realm) (g : Globals κ) (qs : Props)
    (ks fs : List κ) : Prop
  | unused : (∀ k ∈ self.visited sub g, ¬ self.Filed sub g qs k) → Agrees self sub realm g qs ks fs
  | throws : (∃ x ∈ self.meets g qs fs, ∃ err, self.answerAt realm g qs x = .error err) →
    (get qs (js "subscripts") = none →
      ∃ x ∈ self.meets g qs ks, ∃ err, self.answerAt realm g qs x = .error err) →
    Agrees self sub realm g qs ks fs
  | covers : get qs (js "subscripts") = none →
    (∀ x ∈ self.meets g qs ks, ¬ self.Filed sub g qs x.2 → self.answerAt realm g qs x = .ok []) →
    (∀ x ∈ self.meets g qs ks, ∀ y ∈ self.meets g qs fs, x.2 = y.2 →
      self.answerAt realm g qs x = self.answerAt realm g qs y) → Agrees self sub realm g qs ks fs

omit law [LinearOrder κ] in
theorem exists_rowAt {self : Collection} {g : Globals κ} {k : κ} (hk : (g.object self.name k).isSome) :
    ∃ o, g.object self.name k = some o ∧ self.rowAt g k = .obj o := by
  obtain ⟨o, ho⟩ := Option.isSome_iff_exists.mp hk
  exact ⟨o, ho, by rw [rowAt, ho]; rfl⟩

open Classical in
omit law in
theorem filed_eq_filter {self : Collection} {g : Globals κ} {qs : Props} {ks fs : List κ}
    (hks : Enumerates (self.visited sub g) ks)
    (hfs : Enumerates {k | self.Filed sub g qs k ∧ sub (.ofInt 0) < k} fs) :
    fs = ks.filter fun k => self.Filed sub g qs k := by
  have hset : {k | k ∈ self.visited sub g ∧ decide (self.Filed sub g qs k) = true} =
      {k | self.Filed sub g qs k ∧ sub (.ofInt 0) < k} := by
    ext k
    rw [Set.mem_ofPred_eq, decide_eq_true_iff]
    exact ⟨fun h => ⟨h.2, h.1.2⟩, fun h => ⟨⟨h.1.stored, h.2⟩, h.1⟩⟩
  exact hfs.eq (hset ▸ hks.filter _)

omit law [LinearOrder κ] in
theorem filed_alike {self : Collection} {g : Globals κ} {qs : Props} {k l : κ}
    (h : g.object self.name k = g.object self.name l) : self.Filed sub g qs k ↔ self.Filed sub g qs l := by
  simp only [Filed, HasValue, h]

omit law in
theorem answerAt_alike {self : Collection} (realm : Realm) {g : Globals κ} {qs : Props}
    (hdistinct : self.Distinguished sub realm g qs) {k l : κ} (hk : k ∈ self.visited sub g)
    (hl : l ∈ self.visited sub g) (heq : self.rowAt g l = self.rowAt g k) :
    (∀ meet : κ → Option ℕ, self.answerAt realm g qs (meet l, l) = self.answerAt realm g qs (meet k, k)) ∧
      (self.Filed sub g qs l ↔ self.Filed sub g qs k) := by
  obtain ⟨o, ho, hok⟩ := exists_rowAt hk.1
  obtain ⟨o', ho', hol⟩ := exists_rowAt hl.1
  have hobject : g.object self.name l = g.object self.name k := by
    rw [hok, hol] at heq
    rw [ho, ho', Json.obj.inj heq]
  rcases hdistinct with hdistinct | hsteady
  · rw [hdistinct l hl k hk hobject]
    exact ⟨fun _ => rfl, Iff.rfl⟩
  · refine ⟨fun meet => ?_, filed_alike hobject⟩
    simp only [answerAt, heq]
    exact hsteady _ _ _

omit law [LinearOrder κ] in
theorem exists_meets (self : Collection) (g : Globals κ) (qs : Props) {ks : List κ} (hks : ks.Nodup) :
    ∃ meet : κ → Option ℕ, self.meets g qs ks = ks.map fun k => (meet k, k) := by
  classical
  exact exists_along (fun k x => leaves (self.rowAt g x) ((Query.new (.obj qs)).toOption.getD []) 0 k) none hks

section
variable {self : Collection} (realm : Realm) {g : Globals κ} {qs : Props} {ks fs : List κ}
  (hks : Enumerates (self.visited sub g) ks)
  (hfs : Enumerates {k | self.Filed sub g qs k ∧ sub (.ofInt 0) < k} fs)
include hks hfs

omit law in
theorem collected_eq (hrest : ∀ x ∈ self.meets g qs ks, ¬ self.Filed sub g qs x.2 →
      self.answerAt realm g qs x = .ok [])
    (hsame : ∀ x ∈ self.meets g qs ks, ∀ y ∈ self.meets g qs fs, x.2 = y.2 →
      self.answerAt realm g qs x = self.answerAt realm g qs y) :
    collected (self.answerAt realm g qs) (self.meets g qs fs) =
      collected (self.answerAt realm g qs) (self.meets g qs ks) := by
  classical
  obtain ⟨scan, hscan⟩ := exists_meets self g qs hks.nodup
  obtain ⟨index, hindex⟩ := exists_meets self g qs hfs.nodup
  rw [hscan, hindex] at hsame
  rw [hscan] at hrest
  rw [hscan, hindex, collected_map, collected_map, filed_eq_filter hks hfs]
  refine collected_filter fun k hk => ?_
  have hmeets := List.mem_map_of_mem (f := fun k => (scan k, k)) hk
  by_cases hfiled : self.Filed sub g qs k
  · rw [if_pos (decide_eq_true hfiled)]
    have hmem : k ∈ fs := (hfs.mem k).mpr ⟨hfiled, ((hks.mem k).mp hk).2⟩
    exact hsame _ hmeets _ (List.mem_map_of_mem hmem) rfl
  · rw [if_neg (by simpa using hfiled)]
    exact hrest _ hmeets hfiled

omit law in
theorem alike_of_collected_eq (hdistinct : self.Distinguished sub realm g qs)
    (heq : (collected (self.answerAt realm g qs) (self.meets g qs fs)).toOption =
      (collected (self.answerAt realm g qs) (self.meets g qs ks)).toOption) :
    ((∃ x ∈ self.meets g qs fs, ∃ err, self.answerAt realm g qs x = .error err) ∧
      ∃ x ∈ self.meets g qs ks, ∃ err, self.answerAt realm g qs x = .error err) ∨
    ((∀ x ∈ self.meets g qs ks, ¬ self.Filed sub g qs x.2 → self.answerAt realm g qs x = .ok []) ∧
      ∀ x ∈ self.meets g qs ks, ∀ y ∈ self.meets g qs fs, x.2 = y.2 →
        self.answerAt realm g qs x = self.answerAt realm g qs y) := by
  classical
  have hfilter := filed_eq_filter hks hfs
  -- each subscript meets one `k` in either run
  obtain ⟨scan, hscan⟩ := exists_meets self g qs hks.nodup
  obtain ⟨index, hindex⟩ := exists_meets self g qs hfs.nodup
  have halike : ∀ k ∈ ks, ∀ l ∈ ks, self.rowAt g l = self.rowAt g k →
      self.answerAt realm g qs (scan l, l) = self.answerAt realm g qs (scan k, k) ∧
        decide (self.Filed sub g qs l) = decide (self.Filed sub g qs k) ∧
        self.answerAt realm g qs (index l, l) = self.answerAt realm g qs (index k, k) := by
    intro k hk l hl hrow
    obtain ⟨hanswer, hfiled⟩ := answerAt_alike realm hdistinct ((hks.mem k).mp hk) ((hks.mem l).mp hl) hrow
    exact ⟨hanswer scan, decide_eq_decide.mpr hfiled, hanswer index⟩
  have hcopies : ∀ meet : κ → Option ℕ,
      Copies (self.rowAt g) fun k => self.answerAt realm g qs (meet k, k) := fun meet k ys h =>
    rowAnswer_copies realm (.obj qs) (self.rowAt g) (meet k, k) ys h
  rw [hscan, hindex, collected_map, collected_map, hfilter, collected_filter_iff (hcopies scan) (hcopies index)
    (fun k => decide (self.Filed sub g qs k)) halike] at heq
  rw [hscan, hindex, hfilter]
  rcases heq with ⟨⟨k, hk, hfiled, herr⟩, l, hl, herr'⟩ | hsame
  · have hmem : k ∈ ks.filter fun k => self.Filed sub g qs k := List.mem_filter.mpr ⟨hk, hfiled⟩
    exact .inl ⟨⟨_, List.mem_map_of_mem hmem, herr⟩, _, List.mem_map_of_mem hl, herr'⟩
  · refine .inr ⟨List.forall_mem_map.mpr fun k hk hfiled => ?_, List.forall_mem_map.mpr fun k hk =>
      List.forall_mem_map.mpr fun l hl hkl => ?_⟩
    · rw [hsame k hk, if_neg (by simpa using hfiled)]
    · obtain rfl : k = l := hkl
      rw [hsame k hk, if_pos (List.mem_filter.mp hl).2]

omit law in
theorem ne_nil_of_listed (hne : fs ≠ []) : qs ≠ [] ∧ ks ≠ [] := by
  obtain ⟨k, hk⟩ := List.exists_mem_of_ne_nil fs hne
  obtain ⟨hfiled, hlt⟩ := (hfs.mem k).mp hk
  exact ⟨hfiled.ne_nil, List.ne_nil_of_mem ((hks.mem k).mpr ⟨hfiled.stored, hlt⟩)⟩

omit law in
theorem Agrees.answers_eq (h : self.Agrees sub realm g qs ks fs) :
    (if fs ≠ [] then (self.selected realm g qs fs).toOption
      else if get qs (js "subscripts") = none then (self.selected realm g qs ks).toOption else none) =
    if get qs (js "subscripts") = none then (self.selected realm g qs ks).toOption else none := by
  by_cases hnone : fs = []
  · rw [if_neg (not_not.mpr hnone)]
  obtain ⟨hqs, hne⟩ := ne_nil_of_listed hks hfs hnone
  rw [if_pos hnone, selected_toOption self realm g hqs hnone]
  cases h with
  | unused h => exact absurd ((filed_eq_nil_iff hfs).mpr h) hnone
  | throws hindex hscan =>
    rw [collected_eq_none_iff.mpr hindex]
    by_cases hget : get qs (js "subscripts") = none
    · rw [if_pos hget, selected_toOption self realm g hqs hne, collected_eq_none_iff.mpr (hscan hget)]
    · rw [if_neg hget]
      rfl
  | covers hget hrest hsame =>
    rw [if_pos hget, selected_toOption self realm g hqs hne, collected_eq realm hks hfs hrest hsame]

omit law in
theorem agrees_of_answers_eq (hdistinct : self.Distinguished sub realm g qs)
    (heq : (if fs ≠ [] then (self.selected realm g qs fs).toOption
        else if get qs (js "subscripts") = none then (self.selected realm g qs ks).toOption else none) =
      if get qs (js "subscripts") = none then (self.selected realm g qs ks).toOption else none) :
    self.Agrees sub realm g qs ks fs := by
  by_cases hnone : fs = []
  · exact .unused ((filed_eq_nil_iff hfs).mp hnone)
  obtain ⟨hqs, hne⟩ := ne_nil_of_listed hks hfs hnone
  rw [if_pos hnone, selected_toOption self realm g hqs hnone] at heq
  by_cases hget : get qs (js "subscripts") = none
  · rw [if_pos hget, selected_toOption self realm g hqs hne,
      (Option.map_injective (List.map_injective_iff.mpr (Option.some_injective _))).eq_iff] at heq
    rcases alike_of_collected_eq realm hks hfs hdistinct heq with ⟨hindex, hscan⟩ | ⟨hrest, hsame⟩
    · exact .throws hindex fun _ => hscan
    · exact .covers hget hrest hsame
  · rw [if_neg hget, Option.map_eq_none_iff, collected_eq_none_iff] at heq
    exact .throws heq fun h => absurd h hget

end

/-- `find` answers with the indexes what it answers without when they make no difference to the
query, and where the objects are distinguished only then. -/
theorem index_transparent_iff {self : Collection} (realm : Realm) {s : σ}
    (hs : self.Catalogued sub (view s)) {qs : Props}
    (hsubs : ∀ xs, get qs (js "subscripts") ≠ some (.arr xs)) :
    ∃ ks fs, Enumerates (self.visited sub (view s)) ks ∧
      Enumerates {k | self.Filed sub (view s) qs k ∧ sub (.ofInt 0) < k} fs ∧
      ∃ answer plainAnswer,
        Answers b (fun fuel => self.find realm fuel (some (.obj qs))) s answer ∧
        Answers b (fun fuel => self.plain.find realm fuel (some (.obj qs))) s plainAnswer ∧
        (self.Agrees sub realm (view s) qs ks fs → answer = plainAnswer) ∧
        (self.Distinguished sub realm (view s) qs →
          (answer = plainAnswer ↔ self.Agrees sub realm (view s) qs ks fs)) := by
  obtain ⟨ks, fs, hks, hfs, hfind⟩ := find_answers law realm hs hsubs
  obtain ⟨ls, gs, hls, hgs, hplain⟩ := find_answers law realm hs.plain hsubs
  obtain rfl : ks = ls := hks.eq hls
  obtain rfl : gs = [] := by
    refine List.eq_nil_iff_forall_not_mem.mpr fun k hk => ?_
    obtain ⟨⟨p, hp, _⟩, _⟩ := (hgs.mem k).mp hk
    rw [indexedKey_plain] at hp
    cases hp
  rw [if_neg (not_not.mpr rfl)] at hplain
  have henough := fun h => Agrees.answers_eq realm hks hfs h
  exact ⟨ks, fs, hks, hfs, _, _, hfind, hplain, henough,
    fun hdistinct => ⟨agrees_of_answers_eq realm hks hfs hdistinct, henough⟩⟩

/-- The collection's global holds objects only, and its index global entries only. -/
structure Shaped (c : Collection) (g : Globals κ) : Prop where
  nodes : ∀ p, ¬ g.node c.name p
  objects : ∀ k, g.object c.index_global k = none
  entries : ∀ p, g.node c.index_global p → p.length = 3

omit law [LinearOrder κ] in
theorem Indexing.shaped {self : Collection} {operation : IndexOperation} {ps : Props} {id : Json}
    {g h : Globals κ} (hindex : self.Indexing sub operation ps id g h) (hg : self.Shaped g)
    (hsingle : self.SingleField) (hscalar : self.ScalarFields ps) : self.Shaped h := by
  have hnode : h.node self.name = g.node self.name := hindex.same.2.2
  have hentries := hindex.entries hsingle hscalar
  refine ⟨fun p => by rw [hnode]; exact hg.nodes p, ?_, ?_⟩
  · subst hentries
    cases operation with
    | SAVE | REMOVE => exact hg.objects
  · subst hentries
    intro p hp
    cases operation with
    | SAVE =>
      rcases hp with hp | ⟨-, hp⟩
      · exact hg.entries p hp
      · obtain ⟨f, _, v, _, rfl⟩ := mem_paths.mp hp
        rfl
    | REMOVE => exact hg.entries p hp.1

omit law in
theorem shaped_step {self : Collection} (hsingle : self.SingleField) {g h : Globals κ} {op : Op}
    (hg : self.Shaped g) (hop : self.Indexable sub g op) (hchanged : self.Changed sub g h op) :
    self.Shaped h := by
  have hne := self.index_global_ne
  cases hchanged with
  | @insert ps hnew hindex =>
    refine hindex.shaped ⟨hg.nodes, fun k => ?_, hg.entries⟩ hsingle (scalarFields_stored hop.2.1 _)
    simp [inserted, Globals.update, Globals.increment, hne.symm, hg.objects]
  | @save ps id hid hindex =>
    refine hindex.shaped ⟨hg.nodes, fun k => ?_, hg.entries⟩ hsingle hop.2.1
    simp [Globals.update, hne.symm, hg.objects]
  | @remove ps id hid hindex =>
    refine hindex.shaped ⟨fun p hp => hg.nodes p hp.1, fun k => ?_, fun p hp => hg.entries p hp.1⟩
      hsingle hop.1
    simp [Globals.kill, hne.symm, hg.objects]
  | removeAll => exact hop.elim

omit law [LinearOrder κ] in
theorem Shaped.catalogued {self : Collection} {g : Globals κ} (hg : self.Shaped g)
    (hsingle : self.SingleField) (hindexed : self.Indexed sub g) : self.Catalogued sub g where
  single := hsingle
  nodes := hg.nodes
  objects := hg.objects
  exact f hf value k := by
    rw [← hindexed.exact f hf value k]
    constructor
    · rintro (⟨rest, hnode⟩ | ⟨hnil, -⟩)
      · have hlen := hg.entries _ hnode
        obtain rfl : rest = [] := List.length_eq_zero_iff.mp (by simpa using hlen)
        exact hnode
      · cases hnil
    · exact fun hnode => .inl ⟨[], hnode⟩

theorem catalogued_after {self : Collection} (hsingle : self.SingleField) {s : σ}
    (hempty : self.Empty (view s)) (hshaped : self.Shaped (view s))
    (hindex : ∀ p, ¬ (view s).node self.index_global p) {ops : List Op}
    (hops : Along b view self (fun g op => self.Indexable sub g op ∧ self.KeepsEntries sub g op) ops s) :
    self.Catalogued sub (view (after b self ops s)) ∧ self.Indexed sub (view (after b self ops s)) := by
  have hreached := after_along law self (I := fun g => self.Indexed sub g ∧ self.Shaped g)
    (fun g op hop => hop.1.proper) (fun g h op hg hop hchanged =>
      ⟨(indexed_step law self hsingle hg.1 hop.1 hchanged).1 hop.2,
        shaped_step hsingle hg.2 hop.1 hchanged⟩) hops ⟨indexed_empty hempty hindex, hshaped⟩
  exact ⟨hreached.2.catalogued hsingle hreached.1, hreached.1⟩

end

def resident (age : ℤ) : Props := [(js "city", .ofInt 1), (js "age", .ofInt age)]

def residents : Disk := after Disk.binding people [.save (resident 30), .save (resident 31)] Disk.empty

theorem residents_reached : people.Catalogued Subscript.of residents.view ∧
    people.Indexed Subscript.of residents.view := by
  have hnew : ∀ age, get (resident age) idKey = none := fun _ => rfl
  have hop : ∀ g age, people.Indexable Subscript.of g (.save (resident age)) ∧
      people.KeepsEntries Subscript.of g (.save (resident age)) := by
    intro g age
    refine ⟨⟨List.cons_ne_nil _ _, fun f hf v hv => ?_, fun id hid => ?_⟩, fun id hid => ?_⟩
    · obtain rfl : f = js "age" := List.mem_singleton.mp hf
      rw [← Option.some.inj hv]
      exact scalar_ofInt age
    · rw [hnew] at hid
      cases hid
    · rw [hnew] at hid
      cases hid
  refine catalogued_after Disk.lawful people_single people_empty ?_ ?_ ⟨hop _ 30, hop _ 31, trivial⟩
  · refine ⟨people_empty.2.2, fun k => ?_, fun p hp => ?_⟩
    · simp [Disk.view, Disk.empty]
    · simp [Disk.view, Disk.empty] at hp
  · intro p hp
    simp [Disk.view, Disk.empty] at hp

theorem residents_catalogued : people.Catalogued Subscript.of residents.view := residents_reached.1

theorem index_transparent_residents :
    ∃ ks fs, Enumerates (people.visited Subscript.of residents.view) ks ∧
      Enumerates {k | people.Filed Subscript.of residents.view (ann 30) k ∧ Subscript.of (.ofInt 0) < k} fs ∧
      ∃ answer plainAnswer,
        Answers Disk.binding (fun fuel => people.find Realm.bare fuel (some (.obj (ann 30)))) residents
          answer ∧
        Answers Disk.binding (fun fuel => people.plain.find Realm.bare fuel (some (.obj (ann 30)))) residents
          plainAnswer ∧
        (answer = plainAnswer ↔ people.Agrees Subscript.of Realm.bare residents.view (ann 30) ks fs) :=
  let ⟨ks, fs, hks, hfs, answer, plainAnswer, hanswer, hplain, _, hiff⟩ :=
    index_transparent_iff Disk.lawful Realm.bare residents_catalogued fun xs h => by cases h
  ⟨ks, fs, hks, hfs, answer, plainAnswer, hanswer, hplain, hiff (residents_reached.2.distinguished Realm.bare _)⟩

/-- The processor looks at the city only, so that the index on the age leaves a resident out. -/
theorem index_drops_resident :
    people.Catalogued Subscript.of residents.view ∧
    (run Disk.binding (people.find Realm.bare 5 (some (.obj (resident 30)))) residents).2 =
      .ok [some (.obj (stored (resident 30) 1))] ∧
    (run Disk.binding (people.plain.find Realm.bare 5 (some (.obj (resident 30)))) residents).2 =
      .ok [some (.obj (stored (resident 30) 1)), some (.obj (stored (resident 31) 2))] :=
  ⟨residents_catalogued, by decide +kernel, by decide +kernel⟩

end Collection

end GlobalsJs
