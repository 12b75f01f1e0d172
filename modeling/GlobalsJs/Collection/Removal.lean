import GlobalsJs.Collection.IndexedFind
import GlobalsJs.Collection.Failures
import GlobalsJs.Collection.Maintenance
import GlobalsJs.Collection.Names

/-!
# What a removal takes with it

Without a callback a removal kills the entries of the object it is given. With one it kills
the whole index global and the whole system global. A drop kills neither: the entries
stay, and objects that get the old identifiers are found by them.
-/

namespace GlobalsJs
open Ecma Cache Query Calls.Prog

namespace Collection
variable {σ κ : Type} [LinearOrder κ] {b : Binding σ} {view : σ → Globals κ} {sub : Json → κ}

/-- The object under a subscript is gone with all its entries, and everything else is there. -/
structure SparesOthers (c : Collection) (k : κ) (g h : Globals κ) : Prop where
  gone : h.object c.name k = none
  unindexed : ∀ f value, ¬ h.node c.index_global [f, value, k]
  objects : ∀ l, l ≠ k → h.object c.name l = g.object c.name l
  entries : ∀ f value l, l ≠ k →
    (h.node c.index_global [f, value, l] ↔ g.node c.index_global [f, value, l])
  definitions : ∀ p, h.node c.system_global p ↔ g.node c.system_global p

/-- There are no definitions of indexes, and no entries beside those of the object. -/
structure OnlyEntries (c : Collection) (sub : Json → κ) (o : Props) (id : Json) (g : Globals κ) :
    Prop where
  undefined : g.Bare c.system_global
  root : g.root c.index_global = none
  objects : ∀ k, g.object c.index_global k = none
  entries : ∀ p, g.node c.index_global p → ∃ path ∈ c.paths sub o id, path <+: p

omit [LinearOrder κ] in
theorem entry_mem_paths {self : Collection} {o : Props} {id : Json} {f value k : κ} :
    (∃ path ∈ self.paths sub o id, path <+: [f, value, k]) ↔ [f, value, k] ∈ self.paths sub o id := by
  constructor
  · rintro ⟨path, hpath, hpre⟩
    obtain ⟨g, _, v, _, rfl⟩ := mem_paths.mp hpath
    rwa [hpre.eq_of_length rfl] at hpath
  · exact fun hmem => ⟨_, hmem, List.prefix_refl _⟩

omit [LinearOrder κ] in
theorem paths_id {self : Collection} {o : Props} {id : Json} {f value k : κ}
    (h : [f, value, k] ∈ self.paths sub o id) : k = sub id := by
  obtain ⟨g, _, v, _, hpath⟩ := mem_paths.mp h
  simp only [List.cons.injEq, and_true] at hpath
  exact hpath.2.2

def removed (self : Collection) (sub : Json → κ) (o : Props) (id : Json) (g : Globals κ) : Globals κ :=
  (g.kill self.name [sub id]).killNodes self.index_global (self.paths sub o id)

def removedAsync (self : Collection) (sub : Json → κ) (id : Json) (g : Globals κ) : Globals κ :=
  ((g.kill self.name [sub id]).kill self.system_global []).kill self.index_global []

theorem run_remove_keyed (law : Lawful b view sub) {self : Collection} (hkeyed : self.Keyed) {o : Props}
    {id : Json} (hid : HasId o id) (hscalar : self.ScalarFields o) (s : σ) :
    ∃ t r, run b (self.remove (some (.obj o))) s = (t, .ok r) ∧
      view t = self.removed sub o id (view s) := by
  have hok := law.kill_ok s ⟨self.name, [some id]⟩
  have hkill : view (b (.kill ⟨self.name, [some id]⟩) s).1 = (view s).kill self.name [sub id] :=
    law.kill s self.name [id] (by simpa using hid.2)
  obtain ⟨t, ht, hview⟩ := run_update_index_keyed law self .REMOVE hkeyed hscalar hid.2 hid.1
    (b (.kill ⟨self.name, [some id]⟩) s).1
  refine ⟨t, ⟨some (b (.kill ⟨self.name, [some id]⟩) s).2.result, some (.obj o)⟩, ?_,
    by rw [hview, hkill]; rfl⟩
  rw [remove_stored self hid.1, run_bind_ok (run_sync _ s),
    run_bind_ok (a := true) (by rw [run_liftM, hok]; rfl), if_pos rfl]
  exact run_bind_ok ht _

theorem removed_object (self : Collection) (o : Props) (id : Json) (g : Globals κ) (k : κ) :
    (self.removed sub o id g).object self.name k = if k = sub id then none else g.object self.name k := by
  simp [removed, Globals.killNodes, Globals.kill, eq_comm]

theorem removed_entry (self : Collection) (o : Props) (id : Json) (g : Globals κ) (p : List κ) :
    (self.removed sub o id g).node self.index_global p ↔
      g.node self.index_global p ∧ ¬ ∃ path ∈ self.paths sub o id, path <+: p := by
  simp [removed, Globals.killNodes, Globals.kill, self.index_global_ne.symm]

theorem removed_definition (self : Collection) (o : Props) (id : Json) (g : Globals κ) (p : List κ) :
    (self.removed sub o id g).node self.system_global p ↔ g.node self.system_global p := by
  simp [removed, Globals.killNodes, Globals.kill, self.system_global_ne.symm, self.system_global_ne_index]

theorem removed_spares_iff (self : Collection) (o : Props) (id : Json) (g : Globals κ) :
    self.SparesOthers (sub id) g (self.removed sub o id g) ↔
      ∀ f value, g.node self.index_global [f, value, sub id] →
        [f, value, sub id] ∈ self.paths sub o id := by
  constructor
  · intro h f value hnode
    by_contra hpath
    exact h.unindexed f value ((removed_entry self o id g _).mpr ⟨hnode, mt entry_mem_paths.mp hpath⟩)
  · intro hown
    refine ⟨by rw [removed_object, if_pos rfl], fun f value hnode => ?_, fun l hl => ?_,
      fun f value l hl => ?_, removed_definition self o id g⟩
    · obtain ⟨hnode, hpath⟩ := (removed_entry self o id g _).mp hnode
      exact hpath (entry_mem_paths.mpr (hown f value hnode))
    · rw [removed_object, if_neg hl]
    · rw [removed_entry, entry_mem_paths]
      exact and_iff_left fun hpath => hl (paths_id hpath)

theorem removedAsync_eq_iff (self : Collection) (o : Props) (id : Json) (g : Globals κ) :
    self.removedAsync sub id g = self.removed sub o id g ↔ self.OnlyEntries sub o id g := by
  have hne := self.system_global_ne_index
  constructor
  · intro h
    have hroot := congrFun (congrArg Globals.root h)
    have hobject := fun n => congrFun (congrFun (congrArg Globals.object h) n)
    have hnode := fun n => congrFun (congrFun (congrArg Globals.node h) n)
    refine ⟨⟨?_, fun k => ?_, fun p hp => ?_⟩, ?_, fun k => ?_, fun p hp => ?_⟩
    · simpa [removedAsync, removed, Globals.kill, Globals.killNodes, hne] using (hroot self.system_global).symm
    · simpa [removedAsync, removed, Globals.kill, Globals.killNodes, hne, self.system_global_ne.symm] using
        (hobject self.system_global k).symm
    · have hgone : (self.removed sub o id g).node self.system_global p :=
        (removed_definition self o id g p).mpr hp
      rw [← hnode] at hgone
      simp [removedAsync, Globals.kill] at hgone
    · simpa [removedAsync, removed, Globals.kill, Globals.killNodes, hne] using (hroot self.index_global).symm
    · simpa [removedAsync, removed, Globals.kill, Globals.killNodes, self.index_global_ne.symm] using
        (hobject self.index_global k).symm
    · by_contra hpath
      have hgone := (removed_entry self o id g p).mpr ⟨hp, hpath⟩
      rw [← hnode] at hgone
      simp [removedAsync, Globals.kill] at hgone
  · intro h
    refine Globals.ext (funext fun n => ?_) (funext fun n => funext fun k => ?_)
      (funext fun n => funext fun p => ?_)
    · by_cases hindex : n = self.index_global
      · simp [removedAsync, removed, Globals.kill, Globals.killNodes, hindex, h.root]
      · by_cases hsystem : n = self.system_global
        · simp [removedAsync, removed, Globals.kill, Globals.killNodes, hsystem, h.undefined.1]
        · simp [removedAsync, removed, Globals.kill, Globals.killNodes, hindex, hsystem]
    · by_cases hindex : n = self.index_global
      · simp [removedAsync, removed, Globals.kill, Globals.killNodes, hindex, h.objects]
      · by_cases hsystem : n = self.system_global
        · simp [removedAsync, removed, Globals.kill, Globals.killNodes, hsystem, h.undefined.2.1]
        · simp [removedAsync, removed, Globals.kill, Globals.killNodes, hindex, hsystem]
    · rw [eq_iff_iff]
      by_cases hindex : n = self.index_global
      · subst hindex
        rw [removed_entry]
        exact iff_of_false (by simp [removedAsync, Globals.kill]) fun hp => hp.2 (h.entries p hp.1)
      · by_cases hsystem : n = self.system_global
        · subst hsystem
          rw [removed_definition]
          exact iff_of_false (by simp [removedAsync, Globals.kill]) (h.undefined.2.2 p)
        · simp [removedAsync, removed, Globals.kill, Globals.killNodes, hindex, hsystem]

theorem removal_spares_iff (law : Lawful b view sub) {self : Collection} (hkeyed : self.Keyed) {o : Props}
    {id : Json} (hid : HasId o id) (hscalar : self.ScalarFields o) (s : σ) :
    ∃ t r u, run b (self.remove (some (.obj o))) s = (t, .ok r) ∧
      run b (self.remove_async (some (.obj o))) s = (u, .ok ⟨⟩) ∧
      ((self.SparesOthers (sub id) (view s) (view t) ∧ self.SparesOthers (sub id) (view s) (view u) ∧
        view u = view t) ↔ self.OnlyEntries sub o id (view s)) := by
  obtain ⟨t, r, ht, hview⟩ := run_remove_keyed law hkeyed hid hscalar s
  obtain ⟨u, hu, hview'⟩ := run_remove_async law self hid.2 hid.1 s
  refine ⟨t, r, u, ht, hu, ?_⟩
  rw [hview, show view u = self.removedAsync sub id (view s) from hview']
  constructor
  · intro ⟨_, _, heq⟩
    exact (removedAsync_eq_iff self o id (view s)).mp heq
  · intro h
    have heq := (removedAsync_eq_iff self o id (view s)).mpr h
    have hspares := (removed_spares_iff self o id (view s)).mpr fun f value hnode =>
      entry_mem_paths.mp (h.entries _ hnode)
    exact ⟨hspares, heq ▸ hspares, heq⟩

structure Cleared (c : Collection) (g h : Globals κ) : Prop where
  objects : ∀ k, h.object c.name k = none
  nodes : ∀ p, ¬ h.node c.name p
  entries : ∀ p, ¬ h.node c.index_global p
  others : ∀ n, n ≠ c.name → n ≠ c.index_global → h.SameAt g n

def afterSaves (b : Binding σ) (self : Collection) (saves : List (Style × Props)) (s : σ) : σ :=
  saves.foldl (fun s x => (run b (self.program x.1 (.save x.2)) s).1) s

def SavedIn (b : Binding σ) (view : σ → Globals κ) (sub : Json → κ) (self : Collection) :
    List (Style × Props) → σ → κ → Prop
  | [], _, _ => False
  | x :: saves, s, k => k = sub (self.savedId (view s) x.2) ∨
    SavedIn b view sub self saves (run b (self.program x.1 (.save x.2)) s).1 k

def LooksUpNew (b : Binding σ) (view : σ → Globals κ) (sub : Json → κ) (self : Collection) (t : σ) : Prop :=
  ∀ saves : List (Style × Props), (∀ x ∈ saves, (Op.save x.2).Proper ∧ self.ScalarFields x.2) → ∀ qs : Props,
    ∃ ids n, (∀ fuel, n < fuel → run b (self.index_ids fuel (some (.obj qs))) (afterSaves b self saves t) =
      (afterSaves b self saves t, .ok ids)) ∧ ∀ id ∈ ids, SavedIn b view sub self saves t (sub id)

/-- A drop clears the collection, and without a callback it returns the status of the kill. -/
def Drops (b : Binding σ) (view : σ → Globals κ) (sub : Json → κ) (self : Collection) (s : σ) :
    Style → Prop
  | .sync => ∃ t, run b (self.remove none) s =
      (t, .ok ⟨some (b (.killGlobal self.name) s).2.result, none⟩) ∧
      self.Cleared (view s) (view t) ∧ LooksUpNew b view sub self t
  | .async => ∃ t, run b (self.remove_async none) s = (t, .ok ⟨⟩) ∧
      self.Cleared (view s) (view t) ∧ LooksUpNew b view sub self t

section
variable (law : Lawful b view sub)
include law

theorem run_remove_all_async (self : Collection) (s : σ) :
    ∃ t, run b (self.remove_async none) s = (t, .ok ⟨⟩) ∧ view t = (view s).kill self.name [] := by
  have hrun : run b (self.remove_async none) s =
      run b (callBack (b (.killGlobal self.name) s).2.error (some (b (.killGlobal self.name) s).2.result))
        (b (.killGlobal self.name) s).1 := rfl
  refine ⟨(b (.killGlobal self.name) s).1, ?_, law.killGlobal s self.name⟩
  rw [hrun]
  exact run_callback law .async _ _ _

theorem index_afterSaves {self : Collection} (hkeyed : self.Keyed) {saves : List (Style × Props)}
    (hsaves : ∀ x ∈ saves, (Op.save x.2).Proper ∧ self.ScalarFields x.2) (s : σ) :
    (∀ k, (view (afterSaves b self saves s)).object self.index_global k =
      (view s).object self.index_global k) ∧
    ∀ p, (view (afterSaves b self saves s)).node self.index_global p →
      (view s).node self.index_global p ∨ ∃ f value k, p = [f, value, k] ∧
        SavedIn b view sub self saves s k := by
  induction saves generalizing s with
  | nil => exact ⟨fun _ => rfl, fun p hp => .inl hp⟩
  | cons x saves ih =>
    obtain ⟨hproper, hscalar⟩ := hsaves x List.mem_cons_self
    obtain ⟨hobjects, hnodes⟩ := ih (fun y hy => hsaves y (List.mem_cons_of_mem x hy))
      (run b (self.program x.1 (.save x.2)) s).1
    obtain ⟨g, hsame, hview⟩ := index_after_save law hkeyed x.1 hproper hscalar s
    refine ⟨fun k => ?_, fun p hp => ?_⟩
    · rw [← hsame.2.1]
      exact (hobjects k).trans (by rw [hview]; rfl)
    · rcases hnodes p hp with hp | ⟨f, value, k, rfl, hk⟩
      · rw [node_after_save law hkeyed x.1 hproper hscalar] at hp
        rcases hp with hp | hp
        · exact .inl hp
        · obtain ⟨f, _, v, _, rfl⟩ := mem_paths.mp hp
          exact .inr ⟨_, _, _, rfl, .inl rfl⟩
      · exact .inr ⟨f, value, k, rfl, .inr hk⟩

theorem looksUpNew_of_empty {self : Collection} (hkeyed : self.Keyed) {t : σ}
    (hobjects : ∀ k, (view t).object self.index_global k = none)
    (hentries : ∀ p, ¬ (view t).node self.index_global p) : LooksUpNew b view sub self t := by
  intro saves hsaves qs
  obtain ⟨hsame, hnodes⟩ := index_afterSaves law hkeyed hsaves t
  obtain ⟨ids, -, hlists, hrun⟩ :=
    exists_lookup law self (s := afterSaves b self saves t) (fun k => (hsame k).trans (hobjects k)) qs
  refine ⟨ids, ids.length, hrun, fun id hid => ?_⟩
  obtain ⟨⟨p, -, hchild⟩, -⟩ := (hlists.mem (sub id)).mp (List.mem_map_of_mem hid)
  rcases hchild with ⟨rest, hnode⟩ | ⟨hpath, -⟩
  · rcases hnodes _ hnode with hbefore | ⟨f, value, k, hpath, hk⟩
    · exact absurd hbefore (hentries _)
    · simp only [List.cons_append, List.nil_append, List.cons.injEq] at hpath
      rwa [hpath.2.2.1]
  · cases hpath

omit law in
theorem cleared_kill_iff (self : Collection) (g : Globals κ) :
    self.Cleared g (g.kill self.name []) ↔ ∀ p, ¬ g.node self.index_global p := by
  have hentry : ∀ p, (g.kill self.name []).node self.index_global p ↔ g.node self.index_global p := by
    intro p
    simp [Globals.kill, self.index_global_ne.symm]
  constructor
  · exact fun h p hp => h.entries p ((hentry p).mpr hp)
  · intro h
    refine ⟨fun k => by simp [Globals.kill], fun p hp => hp.2 ⟨rfl, List.nil_prefix⟩,
      fun p hp => h p ((hentry p).mp hp), fun n hn _ => ⟨?_, ?_, ?_⟩⟩
    · simp [Globals.kill, hn]
    · simp [Globals.kill, hn]
    · simp [Globals.kill, hn]

/-- A drop does what it should exactly when it has a callback and there are no index entries. -/
theorem drop_iff {self : Collection} (hkeyed : self.Keyed) {s : σ}
    (hobjects : ∀ k, (view s).object self.index_global k = none) (style : Style) :
    Drops b view sub self s style ↔ style = .async ∧ ∀ p, ¬ (view s).node self.index_global p := by
  cases style with
  | sync =>
    refine iff_of_false ?_ (by simp)
    intro ⟨t, ht, _⟩
    obtain ⟨u, hu, -⟩ := run_remove_all law self s
    have hended := Except.ok.inj (Prod.mk.inj (hu.symm.trans ht)).2
    cases (Ended.mk.inj hended).1
  | async =>
    obtain ⟨u, hu, hview⟩ := run_remove_all_async law self s
    constructor
    · intro ⟨t, ht, hcleared, _⟩
      obtain rfl : u = t := (Prod.mk.inj (hu.symm.trans ht)).1
      rw [hview] at hcleared
      exact ⟨rfl, (cleared_kill_iff self (view s)).mp hcleared⟩
    · intro ⟨_, hentries⟩
      refine ⟨u, hu, by rw [hview]; exact (cleared_kill_iff self (view s)).mpr hentries, ?_⟩
      refine looksUpNew_of_empty law hkeyed (fun k => ?_) fun p hp => ?_
      · rw [hview]
        simp [Globals.kill, self.index_global_ne.symm, hobjects k]
      · rw [hview] at hp
        exact hentries p hp.1

end

def tracked : Disk := afterAccess Disk.binding ⟨js "people", []⟩ [.ensureIndex .sync [(js "age", .ofInt 1)],
  .save .sync (some (.obj (ann 30))), .save .sync (some (.obj (ann 40)))] Disk.empty

def ageEntry (age id : ℤ) : List Subscript := [.of (.str (js "age")), .of (.ofInt age), .of (.ofInt id)]

theorem removal_spares_people :
    ∃ t r u, run Disk.binding (people.remove (some (.obj (stored (ann 30) 1)))) tracked = (t, .ok r) ∧
      run Disk.binding (people.remove_async (some (.obj (stored (ann 30) 1)))) tracked = (u, .ok ⟨⟩) ∧
      ((people.SparesOthers (.of (.ofInt 1)) tracked.view t.view ∧
        people.SparesOthers (.of (.ofInt 1)) tracked.view u.view ∧ u.view = t.view) ↔
        people.OnlyEntries Subscript.of (stored (ann 30) 1) (.ofInt 1) tracked.view) :=
  removal_spares_iff Disk.lawful people_single.keyed ⟨rfl, scalar_ofInt 1⟩ (ann_scalar 30 1) tracked

/-- A removal with a callback takes the entry of another object and the definition of the index. -/
theorem removal_takes_others :
    let t := (run Disk.binding (people.remove (some (.obj (stored (ann 30) 1)))) tracked).1
    let u := (run Disk.binding (people.remove_async (some (.obj (stored (ann 30) 1)))) tracked).1
    tracked.view.object people.name (.of (.ofInt 1)) = some (stored (ann 30) 1) ∧
      (t.view.node people.index_global (ageEntry 40 2) ∧ ¬ u.view.node people.index_global (ageEntry 40 2)) ∧
      (t.view.node people.system_global (definitionPath Subscript.of (js "age")) ∧
        ¬ u.view.node people.system_global (definitionPath Subscript.of (js "age"))) ∧
      ¬ people.SparesOthers (.of (.ofInt 1)) tracked.view u.view := by
  intro t u
  have hbefore : tracked.view.node people.index_global (ageEntry 40 2) := by decide +kernel
  have hafter : ¬ u.view.node people.index_global (ageEntry 40 2) := by decide +kernel
  refine ⟨rfl, ⟨by decide +kernel, hafter⟩, ⟨by decide +kernel, by decide +kernel⟩, fun hspares => ?_⟩
  have hne : Subscript.of (.ofInt 2) ≠ .of (.ofInt 1) := by decide +kernel
  exact hafter ((hspares.entries _ _ _ hne).mpr hbefore)

theorem drop_people : Drops Disk.binding Disk.view Subscript.of people tracked .async ↔
    Style.async = .async ∧ ∀ p, ¬ tracked.view.node people.index_global p := by
  refine drop_iff Disk.lawful people_single.keyed (fun k => ?_) .async
  have hobjects : tracked.objects = [((people.name, .of (.ofInt 2)), stored (ann 40) 2),
      ((people.name, .of (.ofInt 1)), stored (ann 30) 1)] := rfl
  have hne : ∀ l, ((people.index_global, k) == (people.name, l)) = false :=
    fun l => beq_false_of_ne fun h => people.index_global_ne (Prod.mk.inj h).1.symm
  simp [Disk.view, hobjects, List.lookup_cons, hne]

/-- The entry of an object that is gone stays, and the status of the kill is not returned. -/
theorem drop_leaves_entries :
    let t := (run Disk.binding (people.remove none) tracked).1
    let u := (run Disk.binding (people.remove_async none) tracked).1
    (run Disk.binding (people.remove none) tracked).2 = .ok ⟨none, none⟩ ∧
      (Disk.binding (.killGlobal people.name) tracked).2.result = Disk.ok ∧
      (t.view.node people.index_global (ageEntry 30 1) ∧ u.view.node people.index_global (ageEntry 30 1)) ∧
      ∀ style, ¬ Drops Disk.binding Disk.view Subscript.of people tracked style := by
  intro t u
  refine ⟨rfl, rfl, ⟨by decide +kernel, by decide +kernel⟩, fun style hdrops => ?_⟩
  cases style with
  | sync =>
    obtain ⟨v, hrun, -⟩ := hdrops
    cases (Ended.mk.inj (Except.ok.inj (Prod.mk.inj hrun).2)).1
  | async =>
    obtain ⟨v, hrun, hcleared, -⟩ := hdrops
    obtain rfl : u = v := (Prod.mk.inj hrun).1
    exact hcleared.entries (ageEntry 30 1) (by decide +kernel)

end Collection

end GlobalsJs
