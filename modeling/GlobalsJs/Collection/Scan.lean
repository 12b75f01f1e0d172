import GlobalsJs.Collection.Effects
import Mathlib.Data.Set.Card
import Mathlib.Data.Set.Finite.Lemmas

/-!
# Scanning a level of the database

Repeated `order` calls visit every subscript of a level above the one they start from,
each once and in ascending order. `Walk` is the sequence of their results, which all
the loops of a collection share.
-/

/-- The list of the members of a set in ascending order. -/
structure Enumerates {κ : Type} [LinearOrder κ] (S : Set κ) (ks : List κ) : Prop where
  ascending : ks.Pairwise (· < ·)
  mem : ∀ k, k ∈ ks ↔ k ∈ S

namespace Enumerates
variable {κ : Type} [LinearOrder κ] {S : Set κ} {ks ls : List κ}

theorem nil (h : ∀ k, k ∉ S) : Enumerates S [] := ⟨.nil, fun k => by simp [h k]⟩

theorem nodup (h : Enumerates S ks) : ks.Nodup := h.ascending.imp ne_of_lt

theorem cons {k : κ} (hk : IsLeast S k) (hks : Enumerates {l | l ∈ S ∧ k < l} ks) : Enumerates S (k :: ks) where
  ascending := List.pairwise_cons.mpr ⟨fun l hl => ((hks.mem l).mp hl).2, hks.ascending⟩
  mem l := by
    rw [List.mem_cons, hks.mem]
    constructor
    · rintro (rfl | hl)
      · exact hk.1
      · exact hl.1
    · intro hl
      rcases eq_or_lt_of_le (hk.2 hl) with rfl | hlt
      · exact Or.inl rfl
      · exact Or.inr ⟨hl, hlt⟩

theorem eq (hks : Enumerates S ks) (hls : Enumerates S ls) : ks = ls :=
  hks.ascending.eq_of_mem_iff hls.ascending fun k => (hks.mem k).trans (hls.mem k).symm

theorem filter (hks : Enumerates S ks) (p : κ → Bool) : Enumerates {k | k ∈ S ∧ p k = true} (ks.filter p) where
  ascending := hks.ascending.filter p
  mem k := by rw [List.mem_filter, hks.mem]; rfl

end Enumerates

namespace GlobalsJs
open Ecma Cache Query Calls.Prog

namespace Collection
variable {σ κ : Type} [LinearOrder κ] {b : Binding σ} {view : σ → Globals κ} {sub : Json → κ}

/-- The results of `order` from the subscript `x` on. -/
inductive Walk (b : Binding σ) (s : σ) (name : JsString) (subs : List Json) : Json → List Json → Prop
  | done {x : Json} :
    (b (.order ⟨name, (subs ++ [x]).map some⟩) s).2.result.result = .str [] → Walk b s name subs x []
  | next {x y : Json} {ys : List Json} :
    (b (.order ⟨name, (subs ++ [x]).map some⟩) s).2.result = ⟨name, (subs ++ [y]).map some, y⟩ →
    isEnd y = false → Walk b s name subs y ys → Walk b s name subs x (y :: ys)

section
variable (law : Lawful b view sub)
include law

theorem exists_walk (s : σ) (name : JsString) (subs : List Json)
    (hlevel : subs = [] ∨ ∀ l, (view s).object name l = none) {x : Json} (hx : Scalar x) :
    ∃ ids, Walk b s name subs x ids ∧ (∀ id ∈ ids, Scalar id) ∧
      Enumerates {l | (view s).Child name (subs.map sub) l ∧ sub x < l} (ids.map sub) := by
  have hfin : ∀ x, {l | (view s).Child name (subs.map sub) l ∧ sub x < l}.Finite := fun x =>
    (law.finite s name (subs.map sub)).subset fun l hl => hl.1
  -- by the number of subscripts that are left
  induction hcard : {l | (view s).Child name (subs.map sub) l ∧ sub x < l}.ncard
    using Nat.strongRecOn generalizing x with
  | ind n ih =>
    by_cases hnone : {l | (view s).Child name (subs.map sub) l ∧ sub x < l}.Nonempty
    · obtain ⟨k, hk, hle⟩ := Set.exists_min_image _ id (hfin x) hnone
      obtain ⟨hglobal, hsubscripts, hres, hsub, hend⟩ :=
        law.order s name subs x k hx hlevel ⟨hk, fun l hl => hle l hl⟩
      generalize hr : (b (.order ⟨name, (subs ++ [x]).map some⟩) s).2.result = r at *
      have hset : {l | (view s).Child name (subs.map sub) l ∧ sub r.result < l} =
          {l | l ∈ {l | (view s).Child name (subs.map sub) l ∧ sub x < l} ∧ k < l} := by
        ext l
        simp only [Set.mem_ofPred_eq, hsub]
        exact ⟨fun h => ⟨⟨h.1, hk.2.trans h.2⟩, h.2⟩, fun h => ⟨h.1.1, h.2⟩⟩
      have hlt : {l | (view s).Child name (subs.map sub) l ∧ sub r.result < l}.ncard < n := by
        rw [← hcard, hset]
        refine Set.ncard_lt_ncard ⟨fun l hl => hl.1, fun hsup => ?_⟩ (hfin x)
        exact lt_irrefl k (hsup hk).2
      obtain ⟨ids, hwalk, hids, hlists⟩ := ih _ hlt hres rfl
      refine ⟨r.result :: ids, .next ?_ hend hwalk, ?_, ?_⟩
      · rw [hr]
        cases r with
        | mk global subscripts result =>
          simp only at hglobal hsubscripts
          rw [hglobal, hsubscripts]
      · intro id hid
        rcases List.mem_cons.mp hid with rfl | hid
        · exact hres
        · exact hids id hid
      · rw [List.map_cons, hsub]
        exact .cons ⟨hk, fun l hl => hle l hl⟩ (hset ▸ hlists)
    · rw [Set.not_nonempty_iff_eq_empty, Set.eq_empty_iff_forall_notMem] at hnone
      refine ⟨[], .done (law.order_end s name subs x hx hlevel fun l hl hxl => ?_), by simp,
        .nil hnone⟩
      exact hnone l ⟨hl, hxl⟩

theorem exists_walk_first (start : Starting b view sub) (s : σ) (name : JsString) (subs : List Json)
    (hlevel : ∀ l, (view s).object name l = none) :
    ∃ ids, Walk b s name subs (.str []) ids ∧
      Enumerates {l | (view s).Child name (subs.map sub) l} (ids.map sub) := by
  by_cases hnone : {l | (view s).Child name (subs.map sub) l}.Nonempty
  · obtain ⟨k, hk, hle⟩ := Set.exists_min_image _ id (law.finite s name (subs.map sub)) hnone
    obtain ⟨hglobal, hsubscripts, hres, hsub, hend⟩ :=
      start.order_first s name subs k hlevel ⟨hk, fun l hl => hle l hl⟩
    generalize hr : (b (.order ⟨name, (subs ++ [Json.str []]).map some⟩) s).2.result = r at *
    obtain ⟨ids, hwalk, -, hlists⟩ := exists_walk law s name subs (.inr hlevel) hres
    refine ⟨r.result :: ids, .next ?_ hend hwalk, ?_⟩
    · rw [hr]
      cases r with
      | mk global subscripts result =>
        simp only at hglobal hsubscripts
        rw [hglobal, hsubscripts]
    · rw [List.map_cons, hsub]
      rw [hsub] at hlists
      exact .cons ⟨hk, fun l hl => hle l hl⟩ hlists
  · rw [Set.not_nonempty_iff_eq_empty, Set.eq_empty_iff_forall_notMem] at hnone
    exact ⟨[], .done (start.order_none s name subs hlevel hnone), .nil hnone⟩

omit [LinearOrder κ] law in
theorem Walk.exists_order {s : σ} {name : JsString} {subs : List Json} {x : Json} {ids : List Json}
    (hwalk : Walk b s name subs x ids) {id : Json} (hid : id ∈ ids) :
    ∃ ref, (b (.order ref) s).2.result.result = id := by
  induction hwalk with
  | done => cases hid
  | next hr _ _ ih =>
    rcases List.mem_cons.mp hid with rfl | hid
    · exact ⟨_, congrArg Ordered.result hr⟩
    · exact ih hid

theorem Walk.run_order_ids {s : σ} {name : JsString} {subs : List Json} {x : Json} {ids : List Json}
    (hwalk : Walk b s name subs x ids) {fuel : ℕ} (hfuel : ids.length < fuel) :
    run b (order_ids fuel ⟨name, (subs ++ [x]).map some⟩) s = (s, .ok ids) := by
  have hstate : ∀ ref, (b (.order ref) s).1 = s := fun ref => (law.reads s ref).1
  induction hwalk generalizing fuel with
  | done hend =>
    obtain ⟨n, rfl⟩ := Nat.exists_eq_succ_of_ne_zero (Nat.ne_of_gt (Nat.zero_lt_of_lt hfuel))
    rw [order_ids, run_bind_ok (run_sync _ s), hend, if_pos (by decide), hstate]
    rfl
  | next hr hend _ ih =>
    obtain ⟨n, rfl⟩ := Nat.exists_eq_succ_of_ne_zero (Nat.ne_of_gt (Nat.zero_lt_of_lt hfuel))
    rw [order_ids, run_bind_ok (run_sync _ s), hr, hend, hstate,
      if_neg Bool.false_ne_true, run_bind_ok (ih (by simpa using hfuel))]
    rfl

omit law in
theorem run_find_scan (self : Collection) (realm : Realm) {fuel : ℕ} {query q : Option Json} {s : σ}
    {ids : List Json} (hpop : pop query = q) (hsubs : query_subscripts q = .ok none)
    (hindex : run b (self.index_ids fuel q) s = (s, .ok []))
    (hscan : run b (order_ids fuel ⟨self.name, [some (.ofInt 0)]⟩) s = (s, .ok ids)) :
    run b (self.find realm fuel query) s = run b (self.select realm q ids) s := by
  rw [find, hpop, hsubs, run_bind_ok (a := none) (run_liftM _ s), run_bind_ok hindex, if_pos rfl,
    run_bind_ok (a := ([some (.ofInt 0)], q)) (run_liftM _ s)]
  exact run_bind_ok hscan _

omit law in
theorem run_find_index (self : Collection) (realm : Realm) {fuel : ℕ} {query q subs : Option Json}
    {s : σ} {ids : List Json} (hpop : pop query = q) (hsubs : query_subscripts q = .ok subs)
    (hindex : run b (self.index_ids fuel q) s = (s, .ok ids)) (hids : ids ≠ []) :
    run b (self.find realm fuel query) s = run b (self.select realm q ids) s := by
  rw [find, hpop, hsubs, run_bind_ok (a := subs) (run_liftM _ s), run_bind_ok hindex, if_neg hids]

omit law in
theorem run_find_throws (self : Collection) (realm : Realm) {fuel : ℕ} {query q subs : Option Json}
    {s : σ} {err : JsError} (hpop : pop query = q) (hsubs : query_subscripts q = .ok subs)
    (hindex : run b (self.index_ids fuel q) s = (s, .ok [])) (hpush : push_zero q subs = .error err) :
    run b (self.find realm fuel query) s = (s, .error (.error err)) := by
  rw [find, hpop, hsubs, run_bind_ok (a := subs) (run_liftM _ s), run_bind_ok hindex, if_pos rfl]
  exact run_bind_error ((run_liftM _ s).trans (by rw [hpush]; rfl)) _

theorem run_retrieve_all (self : Collection) {s : σ} {ids : List Json} (hids : ∀ id ∈ ids, Scalar id)
    (hstored : ∀ id ∈ ids, ((view s).object self.name (sub id)).isSome) :
    run b (self.retrieve_all ids) s =
      (s, .ok ((ids.map sub).map fun k => ((view s).object self.name k).map .obj)) := by
  rw [List.map_map]
  refine run_mapM fun id hid => ?_
  obtain ⟨ps, hps⟩ := Option.isSome_iff_exists.mp (hstored id hid)
  have hret := law.retrieve s self.name id ps (hids id hid) hps
  have hstate : (b (.retrieve ⟨self.name, [some id]⟩) s).1 = s := (law.reads s _).2.1
  refine (run_sync _ s).trans ?_
  rw [hret, hstate, Function.comp_apply, hps]
  rfl

/-- The subscripts of the stored objects that a scan visits. -/
def visited (self : Collection) (sub : Json → κ) (g : Globals κ) : Set κ :=
  {k | (g.object self.name k).isSome ∧ sub (.ofInt 0) < k}

def objectsAt (self : Collection) (g : Globals κ) (ks : List κ) : List (Option Json) :=
  ks.map fun k => (g.object self.name k).map .obj

theorem exists_scan (self : Collection) {s : σ} (hnodes : ∀ p, ¬ (view s).node self.name p) :
    ∃ ids, Walk b s self.name [] (.ofInt 0) ids ∧ (∀ id ∈ ids, Scalar id) ∧
      Enumerates (self.visited sub (view s)) (ids.map sub) := by
  obtain ⟨ids, hwalk, hids, hlists⟩ :=
    exists_walk law s self.name [] (.inl rfl) (scalar_ofInt 0)
  refine ⟨ids, hwalk, hids, ?_⟩
  have hset : {l | (view s).Child self.name ([].map sub) l ∧ sub (.ofInt 0) < l} =
      self.visited sub (view s) := by
    ext l
    simp [visited, Globals.Child, hnodes]
  exact hset ▸ hlists

theorem run_find_all (self : Collection) (realm : Realm) {s : σ}
    (hnodes : ∀ p, ¬ (view s).node self.name p) {query : Option Json}
    (hquery : query = none ∨ query = some (.obj [])) :
    ∃ ks, Enumerates (self.visited sub (view s)) ks ∧ ∀ fuel, ks.length < fuel →
      run b (self.find realm fuel query) s = (s, .ok (self.objectsAt (view s) ks)) := by
  obtain ⟨ids, hwalk, hids, hlists⟩ := exists_scan law self hnodes
  refine ⟨ids.map sub, hlists, fun fuel hfuel => ?_⟩
  have hscan := hwalk.run_order_ids law ((List.length_map (f := sub)).symm.trans_lt hfuel)
  have hall := run_retrieve_all law self hids fun id hid =>
    ((hlists.mem (sub id)).mp (List.mem_map_of_mem hid)).1
  have hsubs : query_subscripts query = .ok none := by rcases hquery with rfl | rfl <;> rfl
  have hpop : pop query = query := by rcases hquery with rfl | rfl <;> rfl
  have hindex : run b (self.index_ids fuel query) s = (s, .ok []) := by
    rcases hquery with rfl | rfl <;> rfl
  rw [run_find_scan self realm hpop hsubs hindex hscan, select, run_bind_ok hall]
  rcases hquery with rfl | rfl <;> rfl

end

end Collection

end GlobalsJs
