import GlobalsJs.Collection.Contents

/-!
# The count of a collection

`count` reads the counter that new identifiers are taken from. It is the number of
objects as long as the stored identifiers are exactly those up to the counter.
-/

namespace Enumerates
variable {κ : Type} [LinearOrder κ] {S : Set κ} {ks : List κ}

theorem length_eq (h : Enumerates S ks) : ks.length = S.ncard := by
  have hnodup : ks.Nodup := h.ascending.imp fun hlt => ne_of_lt hlt
  have hset : S = (ks.toFinset : Set κ) := by
    ext k
    rw [Finset.mem_coe, List.mem_toFinset, h.mem]
  rw [hset, Set.ncard_coe_finset, List.toFinset_card_of_nodup hnodup]

theorem finite (h : Enumerates S ks) : S.Finite :=
  (List.finite_toSet ks).subset fun k hk => (h.mem k).mpr hk

end Enumerates

namespace GlobalsJs
open Ecma Cache Query Calls.Prog

namespace Collection
variable {σ κ : Type} [LinearOrder κ] {b : Binding σ} {view : σ → Globals κ} {sub : Json → κ}

/-- `find()` ends, whatever bound above some number its loop is given. -/
def Finds (b : Binding σ) (self : Collection) (realm : Realm) (s : σ) (rows : List (Option Json)) : Prop :=
  ∃ n, ∀ fuel, n < fuel → run b (self.find realm fuel none) s = (s, .ok rows)

/-- `count()` equals `find().length`. -/
def Counts (b : Binding σ) (self : Collection) (realm : Realm) (s : σ) : Prop :=
  ∃ rows, Finds b self realm s rows ∧ run b self.count s = (s, .ok (.ofInt rows.length))

/-- `count(callback)` gives `find().length` to the callback. -/
def CountsAsync (b : Binding σ) (self : Collection) (realm : Realm) (s : σ) : Prop :=
  ∃ rows, Finds b self realm s rows ∧
    (run (recording b) self.count_async (s, [])).1.2 = [⟨none, some (.ofInt rows.length)⟩]

/-- Identifiers at or before the place where the scan starts are not counted and not found. -/
def KeepsCount (self : Collection) (sub : Json → κ) (g : Globals κ) : Op → Prop
  | .save ps => ∀ id, get ps idKey = some id →
    sub id ∈ self.visited sub g ∨ ¬ sub (.ofInt 0) < sub id
  | .remove ps => ∀ id, get ps idKey = some id → sub id ∉ self.visited sub g
  | .removeAll => True

/-- The stored identifiers above 0 are those up to the counter. -/
structure Dense (c : Collection) (sub : Json → κ) (g : Globals κ) : Prop where
  visited : c.visited sub g = {k | ∃ n : ℕ, 0 < n ∧ n ≤ (g.root c.name).getD 0 ∧ k = subId sub n}
  root : g.root c.name ≠ some 0
  nodes : ∀ p, ¬ g.node c.name p

section
variable (law : Lawful b view sub)
include law

theorem Dense.lists {self : Collection} {g : Globals κ} (hg : self.Dense sub g) :
    Enumerates (self.visited sub g)
      ((List.range ((g.root self.name).getD 0)).map fun n => subId sub (n + 1)) where
  ascending := by
    rw [List.pairwise_map]
    exact List.pairwise_lt_range.imp fun h => subId_strictMono law (by omega)
  mem k := by
    rw [hg.visited, List.mem_map]
    constructor
    · rintro ⟨n, hn, rfl⟩
      have hlt := List.mem_range.mp hn
      exact ⟨n + 1, by omega, by omega, rfl⟩
    · rintro ⟨n, hpos, hle, rfl⟩
      refine ⟨n - 1, List.mem_range.mpr (by omega), ?_⟩
      rw [Nat.sub_add_cancel hpos]

theorem Dense.card {self : Collection} {g : Globals κ} (hg : self.Dense sub g) :
    (self.visited sub g).ncard = (g.root self.name).getD 0 := by
  rw [← (hg.lists law).length_eq, List.length_map, List.length_range]

theorem run_count_async (self : Collection) (s : σ) :
    (run (recording b) self.count_async (s, [])).1.2 =
      [⟨none, ((view s).root self.name).map fun n : ℕ => Json.ofInt n⟩] := by
  have hrun : (run (recording b) self.count_async (s, [])).1.2 =
      [⟨(b (.get ⟨self.name, []⟩) s).2.error, (b (.get ⟨self.name, []⟩) s).2.result⟩] := rfl
  rw [hrun, law.no_error, law.get_root]

theorem finds_iff (self : Collection) (realm : Realm) {s : σ}
    (hnodes : ∀ p, ¬ (view s).node self.name p) (rows : List (Option Json)) :
    Finds b self realm s rows ↔
      ∃ ks, Enumerates (self.visited sub (view s)) ks ∧ rows = self.objectsAt (view s) ks := by
  obtain ⟨ks, hks, hfind⟩ := run_find_all law self realm hnodes (.inl rfl)
  constructor
  · rintro ⟨n, hn⟩
    have hfuel := hfind (max n ks.length + 1) (by omega)
    rw [hn _ (by omega)] at hfuel
    exact ⟨ks, hks, Except.ok.inj (Prod.mk.inj hfuel).2⟩
  · rintro ⟨ls, hls, rfl⟩
    rw [hls.eq hks]
    exact ⟨ks.length, hfind⟩

theorem counts_iff (self : Collection) (realm : Realm) {s : σ}
    (hnodes : ∀ p, ¬ (view s).node self.name p) :
    Counts b self realm s ↔ (self.visited sub (view s)).ncard = ((view s).root self.name).getD 0 := by
  obtain ⟨ks, hks, -⟩ := run_find_all law self realm hnodes (.inl rfl)
  have hlen : (self.objectsAt (view s) ks).length = (self.visited sub (view s)).ncard := by
    rw [objectsAt, List.length_map, hks.length_eq]
  have hcount := run_count law self s
  constructor
  · rintro ⟨rows, hrows, hrun⟩
    obtain ⟨ls, hls, rfl⟩ := (finds_iff law self realm hnodes rows).mp hrows
    rw [hls.eq hks, hlen, hcount] at hrun
    exact (Json.ofInt_nat_inj.mp (Except.ok.inj (Prod.mk.inj hrun).2)).symm
  · intro h
    refine ⟨_, (finds_iff law self realm hnodes _).mpr ⟨ks, hks, rfl⟩, ?_⟩
    rw [hlen, h]
    exact hcount

theorem Dense.countsAsync_iff {self : Collection} {s : σ} (hg : self.Dense sub (view s))
    (realm : Realm) : CountsAsync b self realm s ↔ (self.visited sub (view s)).Nonempty := by
  obtain ⟨ks, hks, -⟩ := run_find_all law self realm hg.nodes (.inl rfl)
  have hlen : (self.objectsAt (view s) ks).length = ((view s).root self.name).getD 0 := by
    rw [objectsAt, List.length_map, hks.length_eq, hg.card law]
  have hfinite := hks.finite
  have hrun := run_count_async law self s
  rw [← Set.ncard_pos hfinite, hg.card law]
  constructor
  · rintro ⟨rows, -, hcalls⟩
    rw [hrun] at hcalls
    cases hroot : (view s).root self.name with
    | none => simp [hroot] at hcalls
    | some n =>
      have hne := hg.root
      rw [hroot] at hne
      exact Nat.pos_of_ne_zero fun hn => hne (congrArg some hn)
  · intro hpos
    refine ⟨_, (finds_iff law self realm hg.nodes _).mpr ⟨ks, hks, rfl⟩, ?_⟩
    rw [hlen, hrun]
    cases hroot : (view s).root self.name with
    | none => simp [hroot] at hpos
    | some n => rfl

omit law in
theorem Rewrites.mem_visited {self : Collection} {g h : Globals κ} {k : κ} {o : Option Props} {n : Option ℕ}
    (hwrites : self.Rewrites g h k o n) (l : κ) : l ∈ self.visited sub h ↔
      if l = k then o.isSome ∧ sub (.ofInt 0) < k else l ∈ self.visited sub g := by
  simp only [visited, Set.mem_ofPred_eq, hwrites.object]
  split_ifs with hl
  · rw [hl]
  · exact Iff.rfl

omit law in
theorem Dense.unnoded {self : Collection} {g h : Globals κ} {k : κ} {o : Option Props} {n : Option ℕ}
    (hg : self.Dense sub g) (hwrites : self.Rewrites g h k o n) (p : List κ) : ¬ h.node self.name p :=
  fun hp => hg.nodes p (hwrites.node p hp)

theorem dense_insert {self : Collection} {g h : Globals κ} {o : Props} (hg : self.Dense sub g)
    (hwrites : self.Rewrites g h (subId sub (self.newId g)) (some o) (some (self.newId g))) :
    self.Dense sub h := by
  have hnext : self.newId g = (g.root self.name).getD 0 + 1 := rfl
  refine ⟨?_, ?_, hg.unnoded hwrites⟩
  · ext k
    rw [hwrites.mem_visited, hwrites.root, Option.getD_some, Set.mem_ofPred_eq]
    split_ifs with hk
    · exact iff_of_true ⟨rfl, law.sub_lt 0 _ (Nat.succ_pos _)⟩ ⟨_, Nat.succ_pos _, le_refl _, hk⟩
    · rw [hg.visited, Set.mem_ofPred_eq]
      constructor
      · rintro ⟨n, hpos, hle, rfl⟩
        exact ⟨n, hpos, by omega, rfl⟩
      · rintro ⟨n, hpos, hle, rfl⟩
        have hn : n ≠ self.newId g := fun hn => hk (congrArg (subId sub) hn)
        exact ⟨n, hpos, by omega, rfl⟩
  · rw [hwrites.root, hnext]
    simp

theorem dense_save {self : Collection} {g h : Globals κ} {o : Props} {k : κ} (hg : self.Dense sub g)
    (hwrites : self.Rewrites g h k (some o) (g.root self.name)) :
    ((k ∈ self.visited sub g ∨ ¬ sub (.ofInt 0) < k) → self.Dense sub h) ∧
      (¬ (k ∈ self.visited sub g ∨ ¬ sub (.ofInt 0) < k) →
        (self.visited sub h).ncard ≠ (h.root self.name).getD 0) := by
  constructor
  · intro hor
    have hsame : self.visited sub h = self.visited sub g := by
      ext l
      rw [hwrites.mem_visited]
      split_ifs with hl
      · subst hl
        exact ⟨fun hnew => hor.resolve_right (not_not.mpr hnew.2), fun hold => ⟨rfl, hold.2⟩⟩
      · exact Iff.rfl
    exact ⟨by rw [hsame, hwrites.root, hg.visited], by rw [hwrites.root]; exact hg.root, hg.unnoded hwrites⟩
  · intro hnot
    rw [not_or, not_not] at hnot
    have hset : self.visited sub h = insert k (self.visited sub g) := by
      ext l
      rw [hwrites.mem_visited, Set.mem_insert_iff]
      split_ifs with hl
      · exact iff_of_true ⟨rfl, hnot.2⟩ (.inl hl)
      · exact (or_iff_right hl).symm
    rw [hset, Set.ncard_insert_of_notMem hnot.1 (hg.lists law).finite, hwrites.root, hg.card law]
    omega

theorem dense_remove {self : Collection} {g h : Globals κ} {k : κ} (hg : self.Dense sub g)
    (hwrites : self.Rewrites g h k none (g.root self.name)) :
    (k ∉ self.visited sub g → self.Dense sub h) ∧
      (¬ k ∉ self.visited sub g → (self.visited sub h).ncard ≠ (h.root self.name).getD 0) := by
  have hset : self.visited sub h = self.visited sub g \ {k} := by
    ext l
    rw [hwrites.mem_visited, Set.mem_sdiff, Set.mem_singleton_iff]
    split_ifs with hl
    · exact iff_of_false (fun h => by cases h.1) fun h => h.2 hl
    · exact (and_iff_left hl).symm
  constructor
  · intro hnot
    rw [Set.sdiff_singleton_eq_self hnot] at hset
    exact ⟨by rw [hset, hwrites.root, hg.visited], by rw [hwrites.root]; exact hg.root, hg.unnoded hwrites⟩
  · intro hmem
    have hlt := Set.ncard_sdiff_singleton_lt_of_mem (not_not.mp hmem) (hg.lists law).finite
    have hcard := hg.card law
    rw [hset, hwrites.root]
    omega

omit law in
theorem dense_empty {self : Collection} {g : Globals κ} (hg : self.Empty g) :
    self.Dense sub g where
  visited := by
    ext k
    simp only [visited, hg.2.1, hg.1, Set.mem_ofPred_eq]
    constructor
    · rintro ⟨hk, -⟩
      cases hk
    · rintro ⟨n, hpos, hle, -⟩
      simp at hle
      omega
  root := by simp [hg.1]
  nodes := hg.2.2

theorem dense_step (self : Collection) {g h : Globals κ} {op : Op} (hg : self.Dense sub g)
    (hchanged : self.Changed sub g h op) :
    (∀ p, ¬ h.node self.name p) ∧ (self.KeepsCount sub g op → self.Dense sub h) ∧
      (¬ self.KeepsCount sub g op → (self.visited sub h).ncard ≠ (h.root self.name).getD 0) := by
  cases hchanged with
  | @insert ps hnew hindex =>
    refine ⟨hg.unnoded hindex.inserts, fun _ => dense_insert law hg hindex.inserts, fun hkeeps => (hkeeps ?_).elim⟩
    intro id hid
    rw [hnew] at hid
    cases hid
  | @save ps id hid hindex =>
    have hkeeps : self.KeepsCount sub g (.save ps) ↔
        (sub id ∈ self.visited sub g ∨ ¬ sub (.ofInt 0) < sub id) := by
      simp [KeepsCount, hid.1]
    rw [hkeeps]
    exact ⟨hg.unnoded hindex.replaces, dense_save law hg hindex.replaces⟩
  | @remove ps id hid hindex =>
    have hkeeps : self.KeepsCount sub g (.remove ps) ↔ sub id ∉ self.visited sub g := by
      simp [KeepsCount, hid.1]
    rw [hkeeps]
    exact ⟨hg.unnoded hindex.removes, dense_remove law hg hindex.removes⟩
  | removeAll hkill =>
    subst hkill
    have hempty : self.Empty (g.kill self.name []) :=
      ⟨by simp [Globals.kill], fun k => by simp [Globals.kill], fun p hp => hg.nodes p hp.1⟩
    exact ⟨hempty.2.2, fun _ => dense_empty hempty, fun hkeeps => (hkeeps trivial).elim⟩

/-- Over runs from an empty collection: the count is right in every state exactly when every
call keeps it, and then the callback's count is right where something is stored. -/
theorem count_agrees_iff (self : Collection) (realm : Realm) {s : σ} (hempty : self.Empty (view s))
    {ops : List Op} (hproper : ∀ op ∈ ops, op.Proper) :
    ((∀ done, done <+: ops → Counts b self realm (after b self done s)) ↔
      Along b view self (self.KeepsCount sub) ops s) ∧
    (Along b view self (self.KeepsCount sub) ops s →
      (CountsAsync b self realm (after b self ops s) ↔
        ∃ row rows, Finds b self realm (after b self ops s) (row :: rows))) := by
  refine ⟨along_iff law self (A := fun _ op => op.Proper) (fun _ _ h => h)
    (fun s hs => (counts_iff law self realm hs.nodes).mpr (hs.card law))
    (fun g h op hg _ hchanged hkeeps => (dense_step law self hg hchanged).2.1 hkeeps)
    (fun s t op hs _ hchanged hbreaks hcounts => ?_) (dense_empty hempty)
    (along_of_forall s hproper), fun hops => ?_⟩
  · obtain ⟨hnodes, -, hne⟩ := dense_step law self hs hchanged
    exact hne hbreaks ((counts_iff law self realm hnodes).mp hcounts)
  have hops := hops.mono (Q := fun g op => self.KeepsCount sub g op ∧ op.Proper)
    fun g op hop hkeeps => ⟨hkeeps, hproper op hop⟩
  have hdense : self.Dense sub (view (after b self ops s)) :=
    after_along law self (fun g op h => h.2)
      (fun g h op hg hop hchanged => (dense_step law self hg hchanged).2.1 hop.1) hops
      (dense_empty hempty)
  obtain ⟨ks, hks, -⟩ := run_find_all law self realm hdense.nodes (.inl rfl)
  rw [hdense.countsAsync_iff law realm]
  simp only [finds_iff law self realm hdense.nodes]
  constructor
  · rintro ⟨k, hk⟩
    obtain ⟨l, ls, rfl⟩ := List.exists_cons_of_ne_nil (List.ne_nil_of_mem ((hks.mem k).mpr hk))
    exact ⟨_, _, _, hks, rfl⟩
  · rintro ⟨row, rows, ls, hls, hrows⟩
    cases ls with
    | nil => cases hrows
    | cons l ls => exact ⟨l, (hls.mem l).mp List.mem_cons_self⟩

end

theorem count_agrees_people :
    let ops : List Op := [.save (ann 30), .save (stored (ann 31) 1), .removeAll, .save (ann 40)]
    ((∀ done, done <+: ops → Counts Disk.binding people Realm.bare
        (after Disk.binding people done Disk.empty)) ↔
      Along Disk.binding Disk.view people (people.KeepsCount Subscript.of) ops Disk.empty) ∧
    (Along Disk.binding Disk.view people (people.KeepsCount Subscript.of) ops Disk.empty →
      (CountsAsync Disk.binding people Realm.bare (after Disk.binding people ops Disk.empty) ↔
        ∃ row rows, Finds Disk.binding people Realm.bare
          (after Disk.binding people ops Disk.empty) (row :: rows))) := by
  refine count_agrees_iff Disk.lawful people Realm.bare people_empty fun op hop => ?_
  simp only [List.mem_cons, List.not_mem_nil, or_false] at hop
  rcases hop with rfl | rfl | rfl | rfl
  · exact ⟨by decide, fun id h => by cases h⟩
  · exact ⟨by decide, fun id h => by cases h; exact trivial⟩
  · exact trivial
  · exact ⟨by decide, fun id h => by cases h⟩

/-- One object is saved and removed again: the count stays at one. -/
theorem count_after_remove :
    let s := after Disk.binding people [.save (ann 30), .remove (stored [] 1)] Disk.empty
    run Disk.binding people.count s = (s, .ok (.ofInt 1)) ∧
      (∀ fuel, run Disk.binding (people.find Realm.bare (fuel + 1) none) s = (s, .ok [])) ∧
      ¬ Counts Disk.binding people Realm.bare s := by
  intro s
  have hcount : run Disk.binding people.count s = (s, .ok (.ofInt 1)) := rfl
  have hfind : ∀ fuel, run Disk.binding (people.find Realm.bare (fuel + 1) none) s = (s, .ok []) :=
    fun _ => rfl
  refine ⟨hcount, hfind, ?_⟩
  rintro ⟨rows, ⟨n, hn⟩, hrun⟩
  have hrows : rows = [] := by
    have hboth := (hn (n + 1) (Nat.lt_succ_self n)).symm.trans (hfind n)
    exact Except.ok.inj (Prod.mk.inj hboth).2
  rw [hrows, hcount] at hrun
  have hone : (Json.ofInt 1) = Json.ofInt 0 := Except.ok.inj (Prod.mk.inj hrun).2
  exact absurd hone (by decide)

end Collection

end GlobalsJs
