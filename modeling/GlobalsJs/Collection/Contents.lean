import GlobalsJs.Cache.Disk
import GlobalsJs.Collection.Runs

/-!
# The contents of a collection

A collection is a map from identifiers to objects. New identifiers come from the
counter at the root of the global: `Refines` relates the two by the bound that the
counter is on all stored identifiers, which also holds after a wipe.
-/

namespace GlobalsJs
open Ecma Cache Query Calls.Prog

namespace Collection
variable {σ κ : Type} [LinearOrder κ] {b : Binding σ} {view : σ → Globals κ} {sub : Json → κ}

def Empty (self : Collection) (g : Globals κ) : Prop :=
  g.root self.name = none ∧ (∀ k, g.object self.name k = none) ∧ ∀ p, ¬ g.node self.name p

omit [LinearOrder κ] in
theorem Indexing.same {self : Collection} {operation : IndexOperation} {ps : Props} {id : Json}
    {g h : Globals κ} (hindex : self.Indexing sub operation ps id g h) : h.SameAt g self.name :=
  hindex.elsewhere self.name self.index_global_ne

abbrev subId (sub : Json → κ) (n : ℕ) : κ := sub (.ofInt n)

theorem subId_strictMono (law : Lawful b view sub) : StrictMono (subId sub) := law.sub_lt

structure Rewrites (c : Collection) (g h : Globals κ) (k : κ) (o : Option Props) (counter : Option ℕ) : Prop where
  object : ∀ l, h.object c.name l = if l = k then o else g.object c.name l
  root : h.root c.name = counter
  node : ∀ p, h.node c.name p → g.node c.name p

theorem Indexing.inserts {self : Collection} {g h : Globals κ} {ps : Props}
    (hindex : self.Indexing sub .SAVE (stored ps (self.newId g)) (.ofInt (self.newId g))
      (self.inserted sub g ps) h) :
    self.Rewrites g h (subId sub (self.newId g)) (some (stored ps (self.newId g))) (some (self.newId g)) := by
  obtain ⟨hroot, hobject, hnode⟩ := hindex.same
  refine ⟨fun l => ?_, ?_, fun p hp => ?_⟩
  · rw [hobject]
    simp [inserted, Globals.update, Globals.increment]
  · rw [hroot]
    simp [inserted, Globals.update, Globals.increment, newId]
  · rw [hnode] at hp
    exact hp

theorem Indexing.replaces {self : Collection} {g h : Globals κ} {ps : Props} {id : Json}
    (hindex : self.Indexing sub .SAVE ps id (g.update self.name (sub id) ps) h) :
    self.Rewrites g h (sub id) (some ps) (g.root self.name) := by
  obtain ⟨hroot, hobject, hnode⟩ := hindex.same
  refine ⟨fun l => ?_, hroot, fun p hp => ?_⟩
  · rw [hobject]
    simp [Globals.update]
  · rw [hnode] at hp
    exact hp

theorem Indexing.removes {self : Collection} {g h : Globals κ} {ps : Props} {id : Json}
    (hindex : self.Indexing sub .REMOVE ps id (g.kill self.name [sub id]) h) :
    self.Rewrites g h (sub id) none (g.root self.name) := by
  obtain ⟨hroot, hobject, hnode⟩ := hindex.same
  refine ⟨fun l => ?_, ?_, fun p hp => ?_⟩
  · rw [hobject]
    simp [Globals.kill, eq_comm]
  · rw [hroot]
    simp [Globals.kill]
  · rw [hnode] at hp
    exact hp.1

abbrev Map := ℕ → Option Props

/-- The calls on the map: a new object gets an identifier that is not in it. -/
inductive MapStep (sub : Json → κ) (m : Map) : Op → Map → Prop
  | insert {ps : Props} {n : ℕ} : get ps idKey = none → m n = none →
    MapStep sub m (.save ps) (Function.update m n (some (stored ps n)))
  | save {ps : Props} {id : Json} {n : ℕ} : get ps idKey = some id → sub id = subId sub n →
    (m n).isSome → MapStep sub m (.save ps) (Function.update m n (some ps))
  | remove {ps : Props} {id : Json} {n : ℕ} : get ps idKey = some id → sub id = subId sub n →
    (m n).isSome → MapStep sub m (.remove ps) (Function.update m n none)
  | removeAll : MapStep sub m .removeAll fun _ => none

/-- Identifiers that a caller uses are stored. -/
def Stored (self : Collection) (sub : Json → κ) (g : Globals κ) : Op → Prop
  | .save ps => ps ≠ [] ∧ ∀ id, get ps idKey = some id →
    Scalar id ∧ (g.object self.name (sub id)).isSome
  | .remove ps => ∃ id, HasId ps id ∧ (g.object self.name (sub id)).isSome
  | .removeAll => True

structure Refines (c : Collection) (sub : Json → κ) (g : Globals κ) (m : Map) : Prop where
  object : ∀ n, g.object c.name (subId sub n) = m n
  ids : ∀ k, (g.object c.name k).isSome → ∃ n, k = subId sub n
  bound : ∀ n, (m n).isSome → 0 < n ∧ n ≤ (g.root c.name).getD 0
  nodes : ∀ p, ¬ g.node c.name p

omit [LinearOrder κ] in
theorem Stored.proper {self : Collection} {g : Globals κ} {op : Op} (h : self.Stored sub g op) :
    op.Proper := by
  cases op with
  | save ps => exact ⟨h.1, fun id hid => (h.2 id hid).1⟩
  | remove ps =>
    obtain ⟨id, hid, _⟩ := h
    exact ⟨id, hid⟩
  | removeAll => trivial

section
variable (law : Lawful b view sub)
include law

theorem Refines.update {self : Collection} {g h : Globals κ} {m : Map} {n : ℕ} {v : Option Props}
    (hg : self.Refines sub g m)
    (hobject : ∀ k, h.object self.name k = if k = subId sub n then v else g.object self.name k)
    (hroot : (g.root self.name).getD 0 ≤ (h.root self.name).getD 0)
    (hbound : v.isSome → 0 < n ∧ n ≤ (h.root self.name).getD 0)
    (hnode : ∀ p, h.node self.name p → g.node self.name p) :
    self.Refines sub h (Function.update m n v) where
  object l := by
    rw [hobject, Function.update_apply, hg.object]
    simp only [(subId_strictMono law).injective.eq_iff]
  ids k hk := by
    rw [hobject] at hk
    split_ifs at hk with hkn
    · exact ⟨n, hkn⟩
    · exact hg.ids k hk
  bound l hl := by
    rw [Function.update_apply] at hl
    split_ifs at hl with hln
    · exact hln ▸ hbound hl
    · obtain ⟨hpos, hle⟩ := hg.bound l hl
      exact ⟨hpos, hle.trans hroot⟩
  nodes p hp := hg.nodes p (hnode p hp)

theorem refines_step (self : Collection) {g h : Globals κ} {op : Op} {m : Map}
    (hg : self.Refines sub g m) (hop : self.Stored sub g op) (hchanged : self.Changed sub g h op) :
    ∃ m', MapStep sub m op m' ∧ self.Refines sub h m' := by
  -- an identifier that the caller uses names an entry of the map
  have hentry : ∀ id, (g.object self.name (sub id)).isSome →
      ∃ n, sub id = subId sub n ∧ (m n).isSome := by
    intro id hsome
    obtain ⟨n, hn⟩ := hg.ids _ hsome
    exact ⟨n, hn, by rw [← hg.object, ← hn]; exact hsome⟩
  cases hchanged with
  | @insert ps hnew hindex =>
    have hnext : self.newId g = (g.root self.name).getD 0 + 1 := rfl
    have hfree : m (self.newId g) = none := by
      rw [← Option.not_isSome_iff_eq_none]
      intro hsome
      have hle := (hg.bound _ hsome).2
      omega
    have hcounter : (h.root self.name).getD 0 = self.newId g := by rw [hindex.inserts.root, Option.getD_some]
    refine ⟨_, .insert hnew hfree, hg.update law hindex.inserts.object ?_ ?_ hindex.inserts.node⟩
    · omega
    · intro _
      omega
  | @save ps id hid hindex =>
    obtain ⟨n, hn, hmn⟩ := hentry id (hop.2 id hid.1).2
    have hwrites := hindex.replaces
    rw [hn] at hwrites
    refine ⟨_, .save hid.1 hn hmn, hg.update law hwrites.object ?_ ?_ hwrites.node⟩
    · rw [hwrites.root]
    · intro _
      rw [hwrites.root]
      exact hg.bound n hmn
  | @remove ps id hid hindex =>
    obtain ⟨id', hid', hsome⟩ := hop
    obtain rfl : id = id' := Option.some.inj (hid.1.symm.trans hid'.1)
    obtain ⟨n, hn, hmn⟩ := hentry id hsome
    have hwrites := hindex.removes
    rw [hn] at hwrites
    refine ⟨_, .remove hid.1 hn hmn, hg.update law hwrites.object ?_ ?_ hwrites.node⟩
    · rw [hwrites.root]
    · intro hnone
      cases hnone
  | removeAll hkill =>
    subst hkill
    refine ⟨_, .removeAll, ?_⟩
    exact {
      object := fun l => by simp [Globals.kill]
      ids := fun k hk => by simp [Globals.kill] at hk
      bound := fun l hl => by cases hl
      nodes := fun p hp => hg.nodes p hp.1 }

omit [LinearOrder κ] law in
theorem refines_empty {self : Collection} {g : Globals κ} (hg : self.Empty g) :
    self.Refines sub g fun _ => none where
  object n := hg.2.1 _
  ids k hk := by rw [hg.2.1] at hk; cases hk
  bound n hn := by cases hn
  nodes := hg.2.2

/-- The entries of a map that a collection refines, in ascending order. -/
def Map.ids (m : Map) (bound : ℕ) : List ℕ := (List.range (bound + 1)).filter fun n => (m n).isSome

theorem Refines.find_all {self : Collection} {s : σ} {m : Map} (hg : self.Refines sub (view s) m)
    (realm : Realm) {query : Option Json} (hquery : query = none ∨ query = some (.obj [])) :
    ∃ ids : List ℕ, ids.Pairwise (· < ·) ∧ (∀ n, n ∈ ids ↔ (m n).isSome) ∧ ∀ fuel, ids.length < fuel →
      run b (self.find realm fuel query) s = (s, .ok (ids.map fun n => (m n).map .obj)) := by
  obtain ⟨ks, hks, hfind⟩ := run_find_all law self realm hg.nodes hquery
  have hmono := subId_strictMono law
  have hmem : ∀ n, n ∈ Map.ids m (((view s).root self.name).getD 0) ↔ (m n).isSome := by
    intro n
    rw [Map.ids, List.mem_filter, List.mem_range]
    refine ⟨fun h => h.2, fun h => ⟨?_, h⟩⟩
    have hle := (hg.bound n h).2
    omega
  have hsorted : (Map.ids m (((view s).root self.name).getD 0)).Pairwise (· < ·) :=
    List.pairwise_lt_range.filter _
  have hlists : Enumerates (self.visited sub (view s))
      ((Map.ids m (((view s).root self.name).getD 0)).map (subId sub)) := by
    refine ⟨List.pairwise_map.mpr (hsorted.imp fun h => hmono h), fun k => ?_⟩
    rw [List.mem_map]
    constructor
    · rintro ⟨n, hn, rfl⟩
      have hsome := (hmem n).mp hn
      exact ⟨by rw [hg.object]; exact hsome, hmono (hg.bound n hsome).1⟩
    · rintro ⟨hsome, _⟩
      obtain ⟨n, rfl⟩ := hg.ids k hsome
      exact ⟨n, (hmem n).mpr (by rw [← hg.object]; exact hsome), rfl⟩
  rw [hks.eq hlists] at hfind
  refine ⟨_, hsorted, hmem, fun fuel hfuel => ?_⟩
  rw [hfind fuel (by simpa using hfuel), objectsAt, List.map_map]
  simp only [Function.comp_def, hg.object]

/-- After any run, `find()` and `find({})` list the objects of the map that the same
calls build, each once and by ascending identifier. -/
theorem collection_refines_map (self : Collection) (realm : Realm) {s : σ}
    (hempty : self.Empty (view s)) {ops : List Op} (hops : Along b view self (self.Stored sub) ops s)
    {query : Option Json} (hquery : query = none ∨ query = some (.obj [])) :
    ∃ m : Map, Runs (MapStep sub) (fun _ => none) ops m ∧
      ∃ ids : List ℕ, ids.Pairwise (· < ·) ∧ (∀ n, n ∈ ids ↔ (m n).isSome) ∧
        ∀ fuel, ids.length < fuel → run b (self.find realm fuel query) (after b self ops s) =
          (after b self ops s, .ok (ids.map fun n => (m n).map .obj)) := by
  have hproper : ∀ g op, self.Stored sub g op → op.Proper := fun g op h => h.proper
  obtain ⟨m, hruns, hrefines⟩ := after_simulates law self hproper
    (fun g h op m hg hop hchanged => refines_step law self hg hop hchanged) hops
    (refines_empty hempty)
  exact ⟨m, hruns, hrefines.find_all law realm hquery⟩

end

def people : Collection := ⟨js "people", [[(js "age", .ofInt 1)]]⟩

def ann (age : ℤ) : Props := [(js "age", .ofInt age)]

theorem people_empty : people.Empty Disk.empty.view :=
  ⟨rfl, fun _ => by simp [Disk.view, Disk.empty], fun _ hp => by simp [Disk.view, Disk.empty] at hp⟩

theorem collection_refines_map_people :
    let ops : List Op := [.save (ann 30), .save (ann 40), .save (stored (ann 31) 1), .remove (stored [] 2)]
    let s := after Disk.binding people ops Disk.empty
    ∃ m : Map, Runs (MapStep Subscript.of) (fun _ => none) ops m ∧
      ∃ ids : List ℕ, ids.Pairwise (· < ·) ∧ (∀ n, n ∈ ids ↔ (m n).isSome) ∧
        ∀ fuel, ids.length < fuel → run Disk.binding (people.find Realm.bare fuel none) s =
          (s, .ok (ids.map fun n => (m n).map .obj)) := by
  refine collection_refines_map Disk.lawful people Realm.bare people_empty ?_ (.inl rfl)
  refine ⟨⟨by decide, fun id h => by cases h⟩, ⟨by decide, fun id h => by cases h⟩,
    ⟨by decide, fun id h => ?_⟩, ⟨.ofInt 2, ⟨rfl, trivial⟩, rfl⟩, trivial⟩
  obtain rfl : Json.ofInt 1 = id := Option.some.inj h
  exact ⟨trivial, rfl⟩

end Collection

end GlobalsJs
