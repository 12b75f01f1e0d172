import Mathlib.Data.List.Infix
import Mathlib.Data.List.Count

/-!
# Brackets

The depth of a text is the number of brackets that it opens and does not close. A text is
balanced if its depth is zero and that of no prefix is negative.
-/

namespace Brackets

variable {α : Type} [DecidableEq α] {opening closing : α}

def depth (opening closing : α) (s : List α) : ℤ := s.count opening - s.count closing

structure Balanced (opening closing : α) (s : List α) : Prop where
  closed : depth opening closing s = 0
  nonneg : ∀ p, p <+: s → 0 ≤ depth opening closing p

instance (s : List α) : Decidable (Balanced opening closing s) :=
  decidable_of_iff (depth opening closing s = 0 ∧ ∀ p ∈ s.inits, 0 ≤ depth opening closing p)
    ⟨fun h => ⟨h.1, fun p hp => h.2 p ((List.mem_inits p s).mpr hp)⟩,
      fun h => ⟨h.closed, fun p hp => h.nonneg p ((List.mem_inits p s).mp hp)⟩⟩

theorem depth_append (s t : List α) :
    depth opening closing (s ++ t) = depth opening closing s + depth opening closing t := by
  simp only [depth, List.count_append]
  omega

theorem depth_of_single {s : List α} (hopening : s.count opening ≤ 1) (hclosing : s.count closing ≤ 1) :
    depth opening closing s = (if opening ∈ s then 1 else 0) - (if closing ∈ s then 1 else 0) := by
  have hcount : ∀ c : α, s.count c ≤ 1 → (s.count c : ℤ) = if c ∈ s then 1 else 0 := by
    intro c hc
    split_ifs with hmem
    · have hpos := List.count_pos_iff.mpr hmem
      omega
    · rw [List.count_eq_zero.mpr hmem]
      rfl
  rw [depth, hcount opening hopening, hcount closing hclosing]

end Brackets
