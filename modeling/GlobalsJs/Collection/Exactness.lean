import GlobalsJs.Collection.Contents

/-!
# Exactness of the indexes

`save` sets the entries of the object it is given and `remove` kills those of the
object it is given. Neither looks at the stored object, so that its entries are only
overwritten or killed when the caller's object still has its indexed values.
-/

namespace GlobalsJs
open Ecma Cache Query Calls.Prog

namespace Collection
variable {σ κ : Type} [LinearOrder κ] {b : Binding σ} {view : σ → Globals κ} {sub : Json → κ}

/-- The entries of an index are the pairs of the value and the `__ID` of the stored objects
that define the field. -/
def IndexExact (self : Collection) (sub : Json → κ) (g : Globals κ) : Prop :=
  ∀ f ∈ self.fields, ∀ value id : κ, g.node self.index_global [sub (.str f), value, id] ↔
    ∃ k o i v, g.object self.name k = some o ∧ get o idKey = some i ∧ sub i = id ∧
      get o f = some v ∧ sub v = value

/-- New objects and objects with a stored `__ID` are saved, and objects with an `__ID` removed.
Indexed values may be subscripts. -/
def Indexable (self : Collection) (sub : Json → κ) (g : Globals κ) : Op → Prop
  | .save ps => ps ≠ [] ∧ self.ScalarFields ps ∧ ∀ id, get ps idKey = some id →
    Scalar id ∧ (g.object self.name (sub id)).isSome
  | .remove ps => self.ScalarFields ps ∧ ∃ id, HasId ps id
  | .removeAll => False

/-- The object still has the indexed values of the one that is stored under its `__ID`. -/
def KeepsEntries (self : Collection) (sub : Json → κ) (g : Globals κ) : Op → Prop
  | .save ps | .remove ps => ∀ id, get ps idKey = some id → ∀ o, g.object self.name (sub id) = some o →
    ∀ f ∈ self.fields, ∀ v, get o f = some v → ∃ w, get ps f = some w ∧ sub w = sub v
  | .removeAll => True

def HasValue (self : Collection) (sub : Json → κ) (g : Globals κ) (f : JsString) (value k : κ) : Prop :=
  ∃ o v, g.object self.name k = some o ∧ get o f = some v ∧ sub v = value

/-- Objects are stored under their own `__ID`, which is at most the counter, and the indexes
are exact. -/
structure Indexed (c : Collection) (sub : Json → κ) (g : Globals κ) : Prop where
  own : ∀ k o, g.object c.name k = some o → ∃ id, get o idKey = some id ∧ sub id = k
  bound : ∀ k, (g.object c.name k).isSome → ∃ n : ℕ, n ≤ (g.root c.name).getD 0 ∧ k = subId sub n
  exact : ∀ f ∈ c.fields, ∀ value k : κ,
    g.node c.index_global [sub (.str f), value, k] ↔ c.HasValue sub g f value k

omit [LinearOrder κ] in
theorem indexExact_iff {self : Collection} {g : Globals κ}
    (hown : ∀ k o, g.object self.name k = some o → ∃ id, get o idKey = some id ∧ sub id = k) :
    self.IndexExact sub g ↔ ∀ f ∈ self.fields, ∀ value k : κ,
      g.node self.index_global [sub (.str f), value, k] ↔ self.HasValue sub g f value k := by
  refine forall₄_congr fun f _ value k => iff_congr Iff.rfl ?_
  constructor
  · rintro ⟨l, o, i, v, ho, hi, rfl, hv⟩
    obtain ⟨id, hid, rfl⟩ := hown l o ho
    obtain rfl : id = i := Option.some.inj (hid.symm.trans hi)
    exact ⟨o, v, ho, hv⟩
  · rintro ⟨o, v, ho, hv⟩
    obtain ⟨id, hid, hk⟩ := hown k o ho
    exact ⟨k, o, id, v, ho, hid, hk, hv⟩

section
variable (law : Lawful b view sub)
include law

theorem mem_paths_entry (self : Collection) {ps : Props} {id : Json} {f : JsString}
    (hf : f ∈ self.fields) (value k : κ) : [sub (.str f), value, k] ∈ self.paths sub ps id ↔
      k = sub id ∧ ∃ v, get ps f = some v ∧ sub v = value := by
  rw [mem_paths]
  constructor
  · rintro ⟨f', _, v, hv, hpath⟩
    simp only [List.cons.injEq, and_true] at hpath
    obtain rfl := law.sub_str _ _ hpath.1
    exact ⟨hpath.2.2, v, hv, hpath.2.1.symm⟩
  · rintro ⟨rfl, v, hv, rfl⟩
    exact ⟨f, hf, v, hv, rfl⟩

theorem node_saved (self : Collection) {g : Globals κ} {ps : Props} {id : Json} {f : JsString}
    (hf : f ∈ self.fields) (value k : κ) :
    (IndexOperation.SAVE.apply g self.index_global (self.paths sub ps id)).node self.index_global
      [sub (.str f), value, k] ↔
      g.node self.index_global [sub (.str f), value, k] ∨
        (k = sub id ∧ ∃ v, get ps f = some v ∧ sub v = value) := by
  rw [← mem_paths_entry law self hf]
  simp [IndexOperation.apply, Globals.addNodes]

theorem node_removed (self : Collection) {g : Globals κ} {ps : Props} {id : Json} {f : JsString}
    (hf : f ∈ self.fields) (value k : κ) :
    (IndexOperation.REMOVE.apply g self.index_global (self.paths sub ps id)).node self.index_global
      [sub (.str f), value, k] ↔
      g.node self.index_global [sub (.str f), value, k] ∧
        ¬ (k = sub id ∧ ∃ v, get ps f = some v ∧ sub v = value) := by
  rw [← mem_paths_entry law self hf]
  have hpre : (∃ path ∈ self.paths sub ps id, path <+: [sub (.str f), value, k]) ↔
      [sub (.str f), value, k] ∈ self.paths sub ps id := by
    constructor
    · rintro ⟨path, hpath, hpre⟩
      obtain ⟨f', _, v, _, rfl⟩ := mem_paths.mp hpath
      rwa [hpre.eq_of_length rfl] at hpath
    · exact fun hmem => ⟨_, hmem, List.prefix_refl _⟩
  simp only [IndexOperation.apply, Globals.killNodes, true_and, hpre]

omit law [LinearOrder κ] in
theorem scalarFields_stored {self : Collection} {ps : Props} (h : self.ScalarFields ps) (n : ℕ) :
    self.ScalarFields (stored ps n) := by
  intro f hf v hv
  rw [stored, get_put] at hv
  split_ifs at hv with hfid
  · rw [← Option.some.inj hv]
    exact scalar_ofInt n
  · exact h f hf v hv

omit law in
theorem Rewrites.own {self : Collection} {g h : Globals κ} {k : κ} {o : Option Props} {n : Option ℕ}
    (hwrites : self.Rewrites g h k o n)
    (hg : ∀ l p, g.object self.name l = some p → ∃ id, get p idKey = some id ∧ sub id = l)
    (ho : ∀ p, o = some p → ∃ id, get p idKey = some id ∧ sub id = k) :
    ∀ l p, h.object self.name l = some p → ∃ id, get p idKey = some id ∧ sub id = l := by
  intro l p hp
  rw [hwrites.object] at hp
  split_ifs at hp with hl
  · exact hl ▸ ho p hp
  · exact hg l p hp

omit law in
theorem Rewrites.bound {self : Collection} {g h : Globals κ} {k : κ} {o : Option Props} {n : Option ℕ}
    (hwrites : self.Rewrites g h k o n) (hle : (g.root self.name).getD 0 ≤ n.getD 0)
    (hg : ∀ l, (g.object self.name l).isSome → ∃ m : ℕ, m ≤ (g.root self.name).getD 0 ∧ l = subId sub m)
    (ho : o.isSome → ∃ m : ℕ, m ≤ n.getD 0 ∧ k = subId sub m) :
    ∀ l, (h.object self.name l).isSome → ∃ m : ℕ, m ≤ (h.root self.name).getD 0 ∧ l = subId sub m := by
  intro l hl
  rw [hwrites.object] at hl
  rw [hwrites.root]
  split_ifs at hl with hlk
  · exact hlk ▸ ho hl
  · obtain ⟨m, hm, hsub⟩ := hg l hl
    exact ⟨m, hm.trans hle, hsub⟩

theorem indexed_insert (self : Collection) (hsingle : self.SingleField) {g h : Globals κ} {ps : Props}
    (hg : self.Indexed sub g) (hscalar : self.ScalarFields ps)
    (hindex : self.Indexing sub .SAVE (stored ps (self.newId g)) (.ofInt (self.newId g))
      (self.inserted sub g ps) h) : self.Indexed sub h := by
  have hwrites := hindex.inserts
  set n := self.newId g with hn
  have hfree : g.object self.name (subId sub n) = none := by
    rw [← Option.not_isSome_iff_eq_none]
    intro hsome
    obtain ⟨m, hle, hm⟩ := hg.bound _ hsome
    rw [(subId_strictMono law).injective hm |>.symm, hn, newId] at hle
    omega
  have hnode : ∀ f ∈ self.fields, ∀ value k : κ,
      h.node self.index_global [sub (.str f), value, k] ↔ self.HasValue sub g f value k ∨
        (k = subId sub n ∧ ∃ v, get (stored ps n) f = some v ∧ sub v = value) := by
    intro f hf value k
    rw [hindex.entries hsingle (scalarFields_stored hscalar n), node_saved law self hf, ← hg.exact f hf]
    rfl
  refine ⟨hwrites.own hg.own ?_, hwrites.bound ?_ hg.bound ?_, fun f hf value k => ?_⟩
  · intro o ho
    rw [← Option.some.inj ho]
    exact ⟨.ofInt n, by simp [stored], rfl⟩
  · rw [Option.getD_some, hn, newId]
    omega
  · exact fun _ => ⟨n, le_refl n, rfl⟩
  · rw [hnode f hf, HasValue, HasValue, hwrites.object]
    by_cases hk : k = subId sub n
    · subst hk
      simp [hfree]
    · simp [hk]

theorem indexed_save (self : Collection) (hsingle : self.SingleField) {g h : Globals κ} {ps : Props}
    {id : Json} (hg : self.Indexed sub g) (hid : HasId ps id) (hscalar : self.ScalarFields ps)
    (hsome : (g.object self.name (sub id)).isSome)
    (hindex : self.Indexing sub .SAVE ps id (g.update self.name (sub id) ps) h) :
    (self.KeepsEntries sub g (.save ps) → self.Indexed sub h) ∧
      (self.IndexExact sub h → self.KeepsEntries sub g (.save ps)) := by
  have hwrites := hindex.replaces
  obtain ⟨old, hold⟩ := Option.isSome_iff_exists.mp hsome
  have hnode : ∀ f ∈ self.fields, ∀ value k : κ,
      h.node self.index_global [sub (.str f), value, k] ↔ self.HasValue sub g f value k ∨
        (k = sub id ∧ ∃ v, get ps f = some v ∧ sub v = value) := by
    intro f hf value k
    rw [hindex.entries hsingle hscalar, node_saved law self hf, ← hg.exact f hf]
    rfl
  have hown := hwrites.own hg.own fun o ho => ⟨id, Option.some.inj ho ▸ hid.1, rfl⟩
  refine ⟨fun hkeeps => ⟨hown, ?_, fun f hf value k => ?_⟩, fun hh => ?_⟩
  · exact hwrites.bound le_rfl hg.bound fun _ => hg.bound _ hsome
  · rw [hnode f hf, HasValue, HasValue, hwrites.object]
    by_cases hk : k = sub id
    · subst hk
      rw [hold]
      simp only [true_and, if_true, Option.some.injEq, exists_eq_left', exists_and_left]
      refine ⟨?_, Or.inr⟩
      rintro (⟨v, hv, rfl⟩ | hnew)
      · exact hkeeps id hid.1 old hold f hf v hv
      · exact hnew
    · simp [hk]
  · rw [indexExact_iff hown] at hh
    intro i hi o ho f hf v hv
    obtain rfl : id = i := Option.some.inj (hid.1.symm.trans hi)
    have hstays := (hnode f hf (sub v) (sub id)).mpr (.inl ⟨o, v, ho, hv, rfl⟩)
    obtain ⟨p, w, hp, hw, hsub⟩ := (hh f hf _ _).mp hstays
    rw [hwrites.object, if_pos rfl] at hp
    exact ⟨w, Option.some.inj hp ▸ hw, hsub⟩

theorem indexed_remove (self : Collection) (hsingle : self.SingleField) {g h : Globals κ} {ps : Props}
    {id : Json} (hg : self.Indexed sub g) (hid : HasId ps id) (hscalar : self.ScalarFields ps)
    (hindex : self.Indexing sub .REMOVE ps id (g.kill self.name [sub id]) h) :
    (self.KeepsEntries sub g (.remove ps) → self.Indexed sub h) ∧
      (self.IndexExact sub h → self.KeepsEntries sub g (.remove ps)) := by
  have hwrites := hindex.removes
  have hnode : ∀ f ∈ self.fields, ∀ value k : κ,
      h.node self.index_global [sub (.str f), value, k] ↔ self.HasValue sub g f value k ∧
        ¬ (k = sub id ∧ ∃ v, get ps f = some v ∧ sub v = value) := by
    intro f hf value k
    rw [hindex.entries hsingle hscalar, node_removed law self hf, ← hg.exact f hf]
    simp [Globals.kill, self.index_global_ne.symm]
  have hown := hwrites.own hg.own fun o ho => by cases ho
  refine ⟨fun hkeeps => ⟨hown, ?_, fun f hf value k => ?_⟩, fun hh => ?_⟩
  · exact hwrites.bound le_rfl hg.bound fun hnone => by cases hnone
  · rw [hnode f hf, HasValue, HasValue, hwrites.object]
    by_cases hk : k = sub id
    · subst hk
      refine iff_of_false ?_ (by simp)
      rintro ⟨⟨o, v, ho, hv, rfl⟩, hnot⟩
      exact hnot ⟨rfl, hkeeps id hid.1 o ho f hf v hv⟩
    · simp [hk]
  · rw [indexExact_iff hown] at hh
    intro i hi o ho f hf v hv
    obtain rfl : id = i := Option.some.inj (hid.1.symm.trans hi)
    by_contra hnone
    have hstays := (hnode f hf (sub v) (sub id)).mpr ⟨⟨o, v, ho, hv, rfl⟩, fun h => hnone h.2⟩
    obtain ⟨p, w, hp, -, -⟩ := (hh f hf _ _).mp hstays
    rw [hwrites.object, if_pos rfl] at hp
    cases hp

theorem indexed_step (self : Collection) (hsingle : self.SingleField) {g h : Globals κ} {op : Op}
    (hg : self.Indexed sub g) (hop : self.Indexable sub g op) (hchanged : self.Changed sub g h op) :
    (self.KeepsEntries sub g op → self.Indexed sub h) ∧
      (self.IndexExact sub h → self.KeepsEntries sub g op) := by
  cases hchanged with
  | insert hnew hindex =>
    refine ⟨fun _ => indexed_insert law self hsingle hg hop.2.1 hindex, fun _ id hid => ?_⟩
    rw [hnew] at hid
    cases hid
  | save hid hindex =>
    exact indexed_save law self hsingle hg hid hop.2.1 (hop.2.2 _ hid.1).2 hindex
  | remove hid hindex => exact indexed_remove law self hsingle hg hid hop.1 hindex
  | removeAll => exact hop.elim

omit law [LinearOrder κ] in
theorem Indexable.proper {self : Collection} {g : Globals κ} {op : Op} (h : self.Indexable sub g op) :
    op.Proper := by
  cases op with
  | save ps => exact ⟨h.1, fun id hid => (h.2.2 id hid).1⟩
  | remove ps => exact h.2
  | removeAll => exact h.elim

omit law [LinearOrder κ] in
theorem indexed_empty {self : Collection} {g : Globals κ} (hempty : self.Empty g)
    (hindex : ∀ p, ¬ g.node self.index_global p) : self.Indexed sub g := by
  refine ⟨fun k o ho => ?_, fun k hk => ?_, fun f _ value k => ?_⟩
  · rw [hempty.2.1] at ho
    cases ho
  · rw [hempty.2.1] at hk
    cases hk
  · refine iff_of_false (hindex _) ?_
    rintro ⟨o, v, ho, -⟩
    rw [hempty.2.1] at ho
    cases ho

/-- Over runs from an empty collection: the indexes are exact after every call exactly when
every call keeps the entries of the stored object it replaces or removes. -/
theorem index_exact_iff (self : Collection) (hsingle : self.SingleField) {s : σ}
    (hempty : self.Empty (view s)) (hindex : ∀ p, ¬ (view s).node self.index_global p) {ops : List Op}
    (hops : Along b view self (self.Indexable sub) ops s) :
    (∀ done, done <+: ops → self.IndexExact sub (view (after b self done s))) ↔
      Along b view self (self.KeepsEntries sub) ops s := by
  have hexact : ∀ g, self.Indexed sub g → self.IndexExact sub g :=
    fun g hg => (indexExact_iff hg.own).mpr hg.exact
  exact along_iff law self (fun g op h => h.proper) (fun s hs => hexact _ hs)
    (fun g h op hg hop hchanged hkeeps => (indexed_step law self hsingle hg hop hchanged).1 hkeeps)
    (fun s t op hs hop hchanged hnot hh => hnot ((indexed_step law self hsingle hs hop hchanged).2 hh))
    (indexed_empty hempty hindex) hops

end

theorem people_single : people.SingleField := by
  intro index hindex
  exact ⟨js "age", .ofInt 1, List.mem_singleton.mp hindex, by decide⟩

theorem ann_scalar (age : ℤ) (n : ℕ) : people.ScalarFields (stored (ann age) n) := by
  refine scalarFields_stored (fun f hf v hv => ?_) n
  obtain rfl : f = js "age" := List.mem_singleton.mp hf
  rw [← Option.some.inj hv]
  exact scalar_ofInt age

theorem index_exact_people :
    let ops : List Op := [.save (ann 30), .save (stored (ann 30) 1), .remove (stored (ann 30) 1)]
    (∀ done, done <+: ops → people.IndexExact Subscript.of
        (Disk.view (after Disk.binding people done Disk.empty))) ↔
      Along Disk.binding Disk.view people (people.KeepsEntries Subscript.of) ops Disk.empty := by
  refine index_exact_iff Disk.lawful people people_single people_empty
    (fun p hp => by simp [Disk.view, Disk.empty] at hp) ?_
  have hscalar : people.ScalarFields (ann 30) := by
    intro f hf v hv
    obtain rfl : f = js "age" := List.mem_singleton.mp hf
    rw [← Option.some.inj hv]
    exact scalar_ofInt 30
  refine ⟨⟨by decide, hscalar, fun id h => by cases h⟩, ⟨by decide, ann_scalar 30 1, fun id h => ?_⟩,
    ⟨ann_scalar 30 1, .ofInt 1, rfl, trivial⟩, trivial⟩
  obtain rfl : Json.ofInt 1 = id := Option.some.inj h
  exact ⟨trivial, rfl⟩

/-- An update of the indexed value leaves the old entry behind. -/
theorem stale_entry :
    let g := Disk.view (after Disk.binding people [.save (ann 30), .save (stored (ann 31) 1)] Disk.empty)
    g.node people.index_global [.of (.str (js "age")), .of (.ofInt 30), .of (.ofInt 1)] ∧
      g.object people.name (.of (.ofInt 1)) = some (stored (ann 31) 1) ∧
      ¬ people.IndexExact Subscript.of g := by
  intro g
  have hnode : g.node people.index_global [.of (.str (js "age")), .of (.ofInt 30), .of (.ofInt 1)] := by
    decide +kernel
  refine ⟨hnode, rfl, fun hexact => ?_⟩
  obtain ⟨k, o, i, v, ho, -, -, hv, hsub⟩ := (hexact (js "age") (by decide) _ _).mp hnode
  -- the only stored object has the new value
  have hobjects : ∀ k o, g.object people.name k = some o → o = stored (ann 31) 1 := by
    intro k o ho
    have hview : g.object people.name k = if k.text = [] then none else
        List.lookup (people.name, k) [((people.name, .of (.ofInt 1)), stored (ann 31) 1),
          ((people.name, .of (.ofInt 1)), stored (ann 30) 1)] := rfl
    rw [hview] at ho
    by_cases hk : k = Subscript.of (.ofInt 1)
    · subst hk
      exact (Option.some.inj ho).symm
    · have hne : ((people.name, k) == (people.name, Subscript.of (.ofInt 1))) = false :=
        beq_false_of_ne fun h => hk (Prod.mk.inj h).2
      simp [List.lookup_cons, hne] at ho
  rw [hobjects k o ho] at hv
  obtain rfl : Json.ofInt 31 = v := Option.some.inj hv
  exact absurd hsub (by decide +kernel)

end Collection

end GlobalsJs
