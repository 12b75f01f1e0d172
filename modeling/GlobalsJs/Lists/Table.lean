import Mathlib.Data.List.AList
import Mathlib.Data.List.MinMax

/-!
# Tables that are read in the order of their keys

A table is walked by asking for the least key after the last one. What is merged into a
table comes before what it had.
-/

abbrev Table (κ α : Type) := AList fun _ : κ => α

namespace Table

variable {κ α : Type} [LinearOrder κ]

/-- The keys after `x`; nothing stands for the place before the first key. -/
def above (ks : List κ) (x : Option κ) : List κ := ks.filter fun k => x.all (· < k)

def order (ks : List κ) (x : Option κ) : Option κ := (above ks x).argmin id

def walk (ks : List κ) : ℕ → Option κ → List κ
  | 0, _ => []
  | fuel + 1, x => match order ks x with
    | none => []
    | some k => k :: walk ks fuel (some k)

def inOrder (ks : List κ) : List κ := walk ks ks.length none

theorem mem_above {ks : List κ} {x : Option κ} {k : κ} :
    k ∈ above ks x ↔ k ∈ ks ∧ ∀ y ∈ x, y < k := by
  simp [above, Option.all_eq_true]

theorem order_eq_some {ks : List κ} {x : Option κ} {k : κ} :
    order ks x = some k ↔ k ∈ above ks x ∧ ∀ l ∈ above ks x, k ≤ l := by
  constructor
  · intro h
    exact ⟨List.argmin_mem h, fun l hl => List.le_of_mem_argmin hl h⟩
  · intro ⟨hk, hleast⟩
    cases hm : (above ks x).argmin id with
    | none => rw [List.argmin_eq_none.mp hm] at hk; cases hk
    | some m =>
      have hmk : m ≤ k := List.le_of_mem_argmin hk hm
      exact hm.trans (congrArg some (le_antisymm hmk (hleast m (List.argmin_mem hm))))

theorem order_eq_none {ks : List κ} {x : Option κ} : order ks x = none ↔ above ks x = [] :=
  List.argmin_eq_none

theorem above_shorter {ks : List κ} {x : Option κ} {k : κ} (h : order ks x = some k) :
    (above ks (some k)).length < (above ks x).length := by
  obtain ⟨hk, -⟩ := order_eq_some.mp h
  have hsub : above ks (some k) = (above ks x).filter fun l => k < l := by
    rw [above, above, List.filter_filter]
    refine List.filter_congr fun l _ => ?_
    rw [Option.all_some]
    by_cases hl : k < l
    · have hall : x.all (· < l) = true := by
        rw [Option.all_eq_true]
        exact fun y hy => decide_eq_true (((mem_above.mp hk).2 y hy).trans hl)
      simp [hl, hall]
    · simp [hl]
  rw [hsub]
  exact List.length_filter_lt_length_iff_exists.mpr ⟨k, hk, by simp⟩

theorem mem_walk {ks : List κ} {fuel : ℕ} {x : Option κ} (hfuel : (above ks x).length ≤ fuel) {k : κ} :
    k ∈ walk ks fuel x ↔ k ∈ above ks x := by
  induction fuel generalizing x with
  | zero => simp [walk, List.eq_nil_of_length_eq_zero (Nat.le_zero.mp hfuel)]
  | succ fuel ih =>
    rw [walk]
    cases hnext : order ks x with
    | none => simp [order_eq_none.mp hnext]
    | some n =>
      have hshort := above_shorter hnext
      obtain ⟨hn, hleast⟩ := order_eq_some.mp hnext
      simp only [List.mem_cons, ih (by omega : (above ks (some n)).length ≤ fuel)]
      constructor
      · intro h
        rcases h with rfl | h
        · exact hn
        · obtain ⟨hks, hlt⟩ := mem_above.mp h
          exact mem_above.mpr ⟨hks, fun y hy => ((mem_above.mp hn).2 y hy).trans (hlt n rfl)⟩
      · intro h
        rcases (hleast k h).eq_or_lt with rfl | hlt
        · exact .inl rfl
        · exact .inr (mem_above.mpr ⟨(mem_above.mp h).1, by simpa using hlt⟩)

theorem walk_eq_nil {ks : List κ} {fuel : ℕ} {x : Option κ} (hfuel : (above ks x).length ≤ fuel) :
    walk ks fuel x = [] ↔ order ks x = none := by
  rw [order_eq_none, List.eq_nil_iff_forall_not_mem, List.eq_nil_iff_forall_not_mem]
  exact forall_congr' fun k => not_congr (mem_walk hfuel)

theorem walk_sorted (ks : List κ) (fuel : ℕ) (x : Option κ) :
    (walk ks fuel x).Pairwise (· < ·) ∧ ∀ k ∈ walk ks fuel x, ∀ y ∈ x, y < k := by
  induction fuel generalizing x with
  | zero => simp [walk]
  | succ fuel ih =>
    rw [walk]
    cases hnext : order ks x with
    | none => simp
    | some n =>
      obtain ⟨hsorted, hafter⟩ := ih (some n)
      have hn := (mem_above.mp (order_eq_some.mp hnext).1).2
      refine ⟨List.pairwise_cons.mpr ⟨fun k hk => hafter k hk n rfl, hsorted⟩, fun k hk y hy => ?_⟩
      rcases List.mem_cons.mp hk with rfl | hk
      · exact hn y hy
      · exact (hn y hy).trans (hafter k hk n rfl)

theorem mem_inOrder {ks : List κ} {k : κ} : k ∈ inOrder ks ↔ k ∈ ks := by
  rw [inOrder, mem_walk (List.length_filter_le _ ks), mem_above]
  simp

theorem inOrder_congr {ks ls : List κ} (h : ∀ k, k ∈ ks ↔ k ∈ ls) : inOrder ks = inOrder ls := by
  have hks := (walk_sorted ks ks.length none).1
  have hls := (walk_sorted ls ls.length none).1
  refine List.Perm.eq_of_pairwise (fun a b _ _ hab hba => absurd hba hab.asymm) hks hls ?_
  refine (List.perm_ext_iff_of_nodup (hks.imp ne_of_lt) (hls.imp ne_of_lt)).mpr fun k => ?_
  exact mem_inOrder.trans ((h k).trans mem_inOrder.symm)

def Same (s t : Table κ α) : Prop := ∀ k, s.lookup k = t.lookup k

theorem Same.mem_keys {s t : Table κ α} (h : Same s t) (k : κ) : k ∈ s.keys ↔ k ∈ t.keys := by
  rw [← AList.mem_keys, ← AList.mem_keys, ← AList.lookup_isSome, ← AList.lookup_isSome, h k]

theorem same_union_iff {s t : Table κ α} : Same (s ∪ t) s ↔ t.keys ⊆ s.keys := by
  constructor
  · intro h k hk
    exact (h.mem_keys k).mp (AList.mem_keys.mp (AList.mem_union.mpr (.inr (AList.mem_keys.mpr hk))))
  · intro h k
    by_cases hk : k ∈ s
    · exact AList.lookup_union_left hk
    · rw [AList.lookup_union_right hk, AList.lookup_eq_none.mpr hk, AList.lookup_eq_none]
      exact fun ht => hk (AList.mem_keys.mpr (h (AList.mem_keys.mp ht)))

theorem keys_union_subset {s t : Table κ α} {ks : List κ} :
    (s ∪ t).keys ⊆ ks ↔ s.keys ⊆ ks ∧ t.keys ⊆ ks := by
  have hmem : ∀ k, k ∈ (s ∪ t).keys ↔ k ∈ s.keys ∨ k ∈ t.keys := fun k => AList.mem_union
  refine ⟨fun h => ⟨fun k hk => h ((hmem k).mpr (.inl hk)), fun k hk => h ((hmem k).mpr (.inr hk))⟩,
    fun h k hk => ?_⟩
  rcases (hmem k).mp hk with hs | ht
  · exact h.1 hs
  · exact h.2 ht

end Table
