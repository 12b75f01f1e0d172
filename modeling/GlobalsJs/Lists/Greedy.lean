import Mathlib.Data.List.Induction
import Mathlib.Data.List.Lattice
import Mathlib.Data.List.Pairwise

/-!
# Taking groups that do not meet

Groups are offered one after the other, and a group is taken when it has no element in
common with those that were taken before.
-/

namespace Greedy

variable {α : Type} [DecidableEq α]

def Meets (taken : List (List α)) (group : List α) : Prop := ∃ t ∈ taken, ∃ x ∈ t, x ∈ group

instance (taken : List (List α)) (group : List α) : Decidable (Meets taken group) :=
  inferInstanceAs (Decidable (∃ t ∈ taken, ∃ x ∈ t, x ∈ group))

def take (taken : List (List α)) (group : List α) : List (List α) :=
  if Meets taken group then taken else taken ++ [group]

def takeAll (groups : List (List α)) : List (List α) := groups.foldl take []

def Alone (x : α) (group : List α) : Prop := x ∈ group ∧ ∀ y ∈ group, y = x

/-- Every element is offered alone, and a larger group has an element that was offered alone
before it. -/
structure OneByOne (groups : List (List α)) : Prop where
  alone : ∀ g ∈ groups, ∀ x ∈ g, ∃ other ∈ groups, Alone x other
  larger : ∀ done g rest, groups = done ++ g :: rest →
    (∃ x, Alone x g) ∨ ∃ x ∈ g, ∃ earlier ∈ done, Alone x earlier

theorem takeAll_concat (groups : List (List α)) (group : List α) :
    takeAll (groups ++ [group]) = take (takeAll groups) group := by
  rw [takeAll, List.foldl_concat]
  rfl

theorem mem_takeAll {groups : List (List α)} {group : List α} :
    group ∈ takeAll groups ↔
      ∃ done rest, groups = done ++ group :: rest ∧ ¬ Meets (takeAll done) group := by
  induction groups using List.reverseRecOn with
  | nil => simp [takeAll]
  | append_singleton groups last ih =>
    have hsplit : (∃ done rest, groups ++ [last] = done ++ group :: rest ∧ ¬ Meets (takeAll done) group) ↔
        group ∈ takeAll groups ∨ (group = last ∧ ¬ Meets (takeAll groups) last) := by
      rw [ih]
      constructor
      · intro ⟨done, rest, hgroups, hmeets⟩
        rcases List.eq_nil_or_concat rest with rfl | ⟨rest, l, rfl⟩
        · obtain ⟨rfl, hlast⟩ := List.append_inj' hgroups rfl
          obtain rfl : last = group := List.singleton_inj.mp hlast
          exact .inr ⟨rfl, hmeets⟩
        · rw [List.concat_eq_append, ← List.cons_append, ← List.append_assoc] at hgroups
          obtain ⟨hgroups, -⟩ := List.append_inj' hgroups rfl
          exact .inl ⟨done, rest, hgroups, hmeets⟩
      · intro h
        rcases h with ⟨done, rest, rfl, hmeets⟩ | ⟨rfl, hmeets⟩
        · exact ⟨done, rest ++ [last], by simp, hmeets⟩
        · exact ⟨groups, [], rfl, hmeets⟩
    rw [hsplit, takeAll_concat, take]
    split_ifs with hmeets
    · simp [hmeets]
    · simp [hmeets]

theorem mem_of_mem_takeAll {groups : List (List α)} {group : List α} (h : group ∈ takeAll groups) :
    group ∈ groups := by
  obtain ⟨done, rest, rfl, -⟩ := mem_takeAll.mp h
  simp

theorem takeAll_sublist (done rest : List (List α)) : ∀ t ∈ takeAll done, t ∈ takeAll (done ++ rest) := by
  intro t ht
  obtain ⟨first, last, rfl, hmeets⟩ := mem_takeAll.mp ht
  exact mem_takeAll.mpr ⟨first, last ++ rest, by simp, hmeets⟩

theorem meets_takeAll {groups : List (List α)} {group : List α} (hgroup : group ∈ groups)
    (hne : group ≠ []) : Meets (takeAll groups) group := by
  obtain ⟨done, rest, rfl⟩ := List.append_of_mem hgroup
  by_cases hmeets : Meets (takeAll done) group
  · obtain ⟨t, ht, hx⟩ := hmeets
    exact ⟨t, takeAll_sublist _ _ t ht, hx⟩
  · obtain ⟨x, hx⟩ := List.exists_mem_of_ne_nil group hne
    exact ⟨group, mem_takeAll.mpr ⟨done, rest, rfl, hmeets⟩, x, hx, hx⟩

theorem eq_of_mem_takeAll {groups : List (List α)} {t u : List α} {x : α} (ht : t ∈ takeAll groups)
    (hu : u ∈ takeAll groups) (hxt : x ∈ t) (hxu : x ∈ u) : t = u := by
  have hdisjoint : (takeAll groups).Pairwise List.Disjoint := by
    clear ht hu
    induction groups using List.reverseRecOn with
    | nil => exact .nil
    | append_singleton groups last ih =>
      rw [takeAll_concat, take]
      split_ifs with hmeets
      · exact ih
      · refine List.pairwise_append.mpr ⟨ih, List.pairwise_singleton _ _, fun t ht u hu y hyt hyu => ?_⟩
        obtain rfl := List.mem_singleton.mp hu
        exact hmeets ⟨t, ht, y, hyt, hyu⟩
  by_contra hne
  have : Std.Symm (List.Disjoint : List α → List α → Prop) := ⟨fun _ _ h => h.symm⟩
  exact (hdisjoint.forall ht hu hne) hxt hxu

theorem heads_cover_iff {groups : List (List α)} (hne : ∀ g ∈ groups, g ≠ []) :
    (∀ g ∈ groups, ∀ x ∈ g, ∃ t ∈ takeAll groups, t.head? = some x) ↔ OneByOne groups := by
  constructor
  · intro hcover
    have halone : ∀ t ∈ takeAll groups, ∀ x ∈ t, Alone x t := by
      have hhead : ∀ t ∈ takeAll groups, ∀ x ∈ t, t.head? = some x := by
        intro t ht x hx
        obtain ⟨u, hu, hhead⟩ := hcover t (mem_of_mem_takeAll ht) x hx
        rwa [eq_of_mem_takeAll ht hu hx (List.mem_of_mem_head? hhead)]
      intro t ht x hx
      refine ⟨hx, fun y hy => ?_⟩
      exact Option.some.inj ((hhead t ht y hy).symm.trans (hhead t ht x hx))
    refine ⟨fun g hg x hx => ?_, fun done g rest hgroups => ?_⟩
    · obtain ⟨t, ht, hhead⟩ := hcover g hg x hx
      exact ⟨t, mem_of_mem_takeAll ht, halone t ht x (List.mem_of_mem_head? hhead)⟩
    subst hgroups
    by_cases hmeets : Meets (takeAll done) g
    · obtain ⟨t, ht, x, hxt, hxg⟩ := hmeets
      exact .inr ⟨x, hxg, t, mem_of_mem_takeAll ht, halone t (takeAll_sublist _ _ t ht) x hxt⟩
    · obtain ⟨x, hx⟩ := List.exists_mem_of_ne_nil g (hne g (by simp))
      exact .inl ⟨x, halone g (mem_takeAll.mpr ⟨done, rest, rfl, hmeets⟩) x hx⟩
  · intro ⟨halone, hsmall⟩
    -- an element that was offered alone is in a group that was taken
    have htaken : ∀ done, (∀ g ∈ done, g ∈ groups) → ∀ x, (∃ g ∈ done, Alone x g) →
        ∃ t ∈ takeAll done, x ∈ t := by
      intro done hdone x ⟨g, hg, hx⟩
      obtain ⟨t, ht, y, hyt, hyg⟩ := meets_takeAll hg (hne g (hdone g hg))
      exact ⟨t, ht, hx.2 y hyg ▸ hyt⟩
    have hsingle : ∀ t ∈ takeAll groups, ∃ x, Alone x t := by
      intro t ht
      obtain ⟨done, rest, hgroups, hmeets⟩ := mem_takeAll.mp ht
      rcases hsmall done t rest hgroups with hx | ⟨x, hxt, hearlier⟩
      · exact hx
      · obtain ⟨u, hu, hxu⟩ := htaken done (fun g hg => by simp [hgroups, hg]) x hearlier
        exact absurd ⟨u, hu, x, hxu, hxt⟩ hmeets
    intro g hg x hx
    obtain ⟨t, ht, hxt⟩ := htaken groups (fun _ h => h) x (halone g hg x hx)
    obtain ⟨y, hy⟩ := hsingle t ht
    refine ⟨t, ht, ?_⟩
    cases t with
    | nil => cases hxt
    | cons z t =>
      have hz := hy.2 z List.mem_cons_self
      have hxy := hy.2 x hxt
      rw [List.head?_cons, hz, hxy]

end Greedy
