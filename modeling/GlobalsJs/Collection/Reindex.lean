import GlobalsJs.Collection.IndexedFind
import GlobalsJs.Collection.Operations

/-!
# Indexing again

`reIndex` goes through all objects and sets the entries of each, whatever the indexes
held before. Entries are set and never killed, so that doing it twice adds nothing.
-/

namespace GlobalsJs
open Ecma Cache Query Calls.Prog

namespace Collection
variable {σ κ : Type} [LinearOrder κ] {b : Binding σ} {view : σ → Globals κ} {sub : Json → κ}

/-- A scan comes to every stored object, and their entries have proper subscripts. -/
structure Enumerable (c : Collection) (sub : Json → κ) (g : Globals κ) : Prop where
  nodes : ∀ p, ¬ g.node c.name p
  visited : ∀ k, (g.object c.name k).isSome → sub (.ofInt 0) < k
  stored : ∀ k o, g.object c.name k = some o → (∃ id, HasId o id) ∧ c.ScalarFields o

def rowPaths (self : Collection) (sub : Json → κ) : Option Json → List (List κ)
  | some (.obj ps) => (get ps idKey).elim [] (self.paths sub ps)
  | _ => []

/-- Every stored object has its entry in every index on one of its fields. -/
def Populated (self : Collection) (sub : Json → κ) (g : Globals κ) : Prop :=
  ∀ k o f v id, g.object self.name k = some o → f ∈ self.fields → get o f = some v →
    get o idKey = some id → g.node self.index_global [sub (.str f), sub v, sub id]

/-- The second database has the entries of the stored objects of the first in addition. -/
structure Reindexed (c : Collection) (sub : Json → κ) (g h : Globals κ) : Prop where
  elsewhere : ∀ name, name ≠ c.index_global → h.SameAt g name
  root : h.root c.index_global = g.root c.index_global
  object : h.object c.index_global = g.object c.index_global
  entries : ∀ p, h.node c.index_global p ↔ g.node c.index_global p ∨
    ∃ k o id, g.object c.name k = some o ∧ get o idKey = some id ∧ p ∈ c.paths sub o id

omit [LinearOrder κ] in
theorem Reindexed.objects {self : Collection} {g h : Globals κ} (hgh : self.Reindexed sub g h) :
    h.object self.name = g.object self.name :=
  (hgh.elsewhere self.name self.index_global_ne).2.1

omit [LinearOrder κ] in
theorem Reindexed.populated {self : Collection} {g h : Globals κ} (hgh : self.Reindexed sub g h) :
    self.Populated sub h := by
  intro k o f v id ho hf hv hid
  rw [hgh.objects] at ho
  exact (hgh.entries _).mpr (.inr ⟨k, o, id, ho, hid, mem_paths.mpr ⟨f, hf, v, hv, rfl⟩⟩)

omit [LinearOrder κ] in
theorem Reindexed.again {self : Collection} {g h i : Globals κ} (hgh : self.Reindexed sub g h)
    (hhi : self.Reindexed sub h i) : i = h := by
  have hnode : ∀ p, i.node self.index_global p ↔ h.node self.index_global p := by
    intro p
    rw [hhi.entries, hgh.objects]
    refine or_iff_left_of_imp fun hp => ?_
    exact (hgh.entries p).mpr (.inr hp)
  have hsame : ∀ name, i.SameAt h name := by
    intro name
    by_cases hname : name = self.index_global
    · subst hname
      exact ⟨hhi.root, hhi.object, funext fun p => propext (hnode p)⟩
    · exact hhi.elsewhere name hname
  ext1
  · exact funext fun name => (hsame name).1
  · exact funext fun name => (hsame name).2.1
  · exact funext fun name => (hsame name).2.2

theorem Enumerable.kept {self : Collection} {g h : Globals κ} (hg : self.Enumerable sub g)
    (hgh : self.Reindexed sub g h) : self.Enumerable sub h := by
  obtain ⟨-, hobject, hnode⟩ := hgh.elsewhere self.name self.index_global_ne
  constructor
  · rw [hnode]
    exact hg.nodes
  · rw [hobject]
    exact hg.visited
  · rw [hobject]
    exact hg.stored

omit [LinearOrder κ] in
theorem mem_rowPaths {self : Collection} {g : Globals κ} {ks : List κ}
    (hks : ∀ k, k ∈ ks ↔ (g.object self.name k).isSome) (p : List κ) :
    p ∈ (self.objectsAt g ks).flatMap (self.rowPaths sub) ↔
      ∃ k o id, g.object self.name k = some o ∧ get o idKey = some id ∧ p ∈ self.paths sub o id := by
  have hrow : ∀ o : Props, p ∈ self.rowPaths sub (some (.obj o)) ↔
      ∃ id, get o idKey = some id ∧ p ∈ self.paths sub o id := by
    intro o
    rw [rowPaths]
    cases get o idKey with
    | none => simp
    | some id => simp
  rw [List.mem_flatMap]
  constructor
  · intro ⟨row, hmem, hp⟩
    obtain ⟨k, hk, rfl⟩ := List.mem_map.mp hmem
    obtain ⟨o, ho⟩ := Option.isSome_iff_exists.mp ((hks k).mp hk)
    rw [ho] at hp
    obtain ⟨id, hid, hp⟩ := (hrow o).mp hp
    exact ⟨k, o, id, ho, hid, hp⟩
  · intro ⟨k, o, id, ho, hid, hp⟩
    refine ⟨_, List.mem_map.mpr ⟨k, (hks k).mpr (by rw [ho]; rfl), rfl⟩, ?_⟩
    rw [ho]
    exact (hrow o).mpr ⟨id, hid, hp⟩

section
variable (law : Lawful b view sub)
include law

theorem run_index_rows {self : Collection} (hsingle : self.SingleField) {s : σ}
    (hs : self.Enumerable sub (view s)) {ks : List κ}
    (hks : ∀ k ∈ ks, ((view s).object self.name k).isSome) :
    ∃ t, run b ((self.objectsAt (view s) ks).forM (self.update_index .SAVE)) s = (t, .ok ⟨⟩) ∧
      view t = (view s).addNodes self.index_global
        ((self.objectsAt (view s) ks).flatMap (self.rowPaths sub)) := by
  refine run_forM (I := fun done u => view u =
    (view s).addNodes self.index_global (done.flatMap (self.rowPaths sub))) ?_ ?_
  · simp [Globals.addNodes]
  intro done row rest u hrows hu
  have hmem : row ∈ self.objectsAt (view s) ks := by simp [hrows]
  obtain ⟨k, hk, rfl⟩ := List.mem_map.mp hmem
  obtain ⟨o, ho⟩ := Option.isSome_iff_exists.mp (hks k hk)
  obtain ⟨⟨id, hid, hidScalar⟩, hscalar⟩ := hs.stored k o ho
  obtain ⟨w, hw, hview⟩ := run_update_index_keyed law self .SAVE hsingle.keyed hscalar hidScalar hid u
  have hpaths : self.rowPaths sub (some (.obj o)) = self.paths sub o id := by
    rw [rowPaths, hid]
    rfl
  rw [ho]
  refine ⟨w, hw, ?_⟩
  have happly := IndexOperation.apply_apply .SAVE (view s) self.index_global
    (done.flatMap (self.rowPaths sub)) (self.paths sub o id)
  rw [hview, hu]
  refine happly.trans ?_
  simp only [IndexOperation.apply, Option.map_some, List.flatMap_append, List.flatMap_cons,
    List.flatMap_nil, List.append_nil, hpaths]

theorem run_reIndex {self : Collection} (realm : Realm) (hsingle : self.SingleField) {s : σ}
    (hs : self.Enumerable sub (view s)) :
    ∃ t n, (∀ fuel, n < fuel → run b (self.reIndex realm fuel) s = (t, .ok ⟨⟩)) ∧
      self.Reindexed sub (view s) (view t) := by
  obtain ⟨ks, hks, hfind⟩ := run_find_all law self realm hs.nodes (.inl rfl)
  have hstored : ∀ k, k ∈ ks ↔ ((view s).object self.name k).isSome := by
    intro k
    rw [hks.mem]
    exact ⟨fun h => h.1, fun h => ⟨h, hs.visited k h⟩⟩
  obtain ⟨t, ht, hview⟩ := run_index_rows law hsingle hs fun k hk => (hstored k).mp hk
  refine ⟨t, ks.length, fun fuel hfuel => ?_, ?_⟩
  · rw [reIndex, run_bind_ok (hfind fuel hfuel)]
    exact ht
  · rw [hview]
    refine ⟨fun name hname => ⟨rfl, rfl, ?_⟩, rfl, rfl, fun p => ?_⟩
    · funext p
      simp [Globals.addNodes, hname]
    · rw [← mem_rowPaths hstored]
      simp [Globals.addNodes]

/-- After `reIndex` every stored object has its entries, nothing else has changed, and a second
`reIndex` changes nothing. -/
theorem reIndex_populates (self : Collection) (realm : Realm) (hsingle : self.SingleField) {s : σ}
    (hs : self.Enumerable sub (view s)) :
    ∃ t u, (∃ n, ∀ fuel, n < fuel → run b (self.reIndex realm fuel) s = (t, .ok ⟨⟩)) ∧
      self.Populated sub (view t) ∧ self.Reindexed sub (view s) (view t) ∧
      (∃ n, ∀ fuel, n < fuel → run b (self.reIndex realm fuel) t = (u, .ok ⟨⟩)) ∧
      view u = view t := by
  obtain ⟨t, n, ht, hfirst⟩ := run_reIndex law realm hsingle hs
  obtain ⟨u, m, hu, hsecond⟩ := run_reIndex law realm hsingle (hs.kept hfirst)
  exact ⟨t, u, ⟨n, ht⟩, hfirst.populated, hfirst, ⟨m, hu⟩, hfirst.again hsecond⟩

end

def unlisted : Disk :=
  after Disk.binding people.plain [.save (resident 30), .save (resident 31)] Disk.empty

theorem unlisted_enumerable : people.Enumerable Subscript.of unlisted.view := by
  have hobject : ∀ k o, unlisted.view.object people.name k = some o →
      (k = .of (.ofInt 2) ∧ o = stored (resident 31) 2) ∨ (k = .of (.ofInt 1) ∧ o = stored (resident 30) 1) := by
    intro k o ho
    have hlisted : unlisted.objects = [((people.name, .of (.ofInt 2)), stored (resident 31) 2),
        ((people.name, .of (.ofInt 1)), stored (resident 30) 1)] := rfl
    have hmem := Disk.mem_objects ho
    simpa [hlisted] using hmem
  have hscalar : ∀ age n, people.ScalarFields (stored (resident age) n) := by
    intro age n
    refine scalarFields_stored (fun f hf v hv => ?_) n
    obtain rfl : f = js "age" := List.mem_singleton.mp hf
    rw [← Option.some.inj hv]
    exact scalar_ofInt age
  refine ⟨fun p hp => ?_, fun k hk => ?_, fun k o ho => ?_⟩
  · have hnone : unlisted.nodes = [] := rfl
    have hmem := hp.1
    rw [hnone] at hmem
    cases hmem
  · obtain ⟨o, ho⟩ := Option.isSome_iff_exists.mp hk
    rcases hobject k o ho with ⟨rfl, -⟩ | ⟨rfl, -⟩
    · exact Disk.lawful.sub_lt 0 2 (by decide)
    · exact Disk.lawful.sub_lt 0 1 (by decide)
  · rcases hobject k o ho with ⟨-, rfl⟩ | ⟨-, rfl⟩
    · exact ⟨⟨.ofInt 2, rfl, trivial⟩, hscalar 31 2⟩
    · exact ⟨⟨.ofInt 1, rfl, trivial⟩, hscalar 30 1⟩

theorem reIndex_populates_people : ∃ t u,
    (∃ n, ∀ fuel, n < fuel → run Disk.binding (people.reIndex Realm.bare fuel) unlisted = (t, .ok ⟨⟩)) ∧
      people.Populated Subscript.of t.view ∧ people.Reindexed Subscript.of unlisted.view t.view ∧
      (∃ n, ∀ fuel, n < fuel → run Disk.binding (people.reIndex Realm.bare fuel) t = (u, .ok ⟨⟩)) ∧
      u.view = t.view :=
  reIndex_populates Disk.lawful people Realm.bare people_single unlisted_enumerable

end Collection

end GlobalsJs
