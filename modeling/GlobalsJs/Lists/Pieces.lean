import Mathlib.Data.List.Infix

/-!
# Pieces of a text

A separator cuts a text into pieces that are counted from 1. The text before the first
separator is the first piece, and a text without the separator is its own only piece.
-/

namespace Pieces

variable {α : Type} [DecidableEq α] {sep : α}

def piece (sep : α) (n : ℕ) (s : List α) : List α := (s.splitOn sep).getD (n - 1) []

def pieceCount (sep : α) (s : List α) : ℕ := (s.splitOn sep).length

def pieces (sep : α) (first last : ℕ) (s : List α) : List α :=
  [sep].intercalate (((s.splitOn sep).take last).drop (first - 1))

theorem piece_one_self {s : List α} (hs : sep ∉ s) : piece sep 1 s = s := by
  rw [piece, List.splitOn_eq_singleton hs]
  rfl

theorem piece_one_append {s : List α} (hs : sep ∉ s) (t : List α) : piece sep 1 (s ++ sep :: t) = s := by
  rw [piece, List.splitOn_append_cons_self_of_not_mem hs]
  rfl

theorem piece_one_eq_iff {s : List α} : piece sep 1 s = s ↔ sep ∉ s := by
  constructor
  · intro hpiece hs
    obtain ⟨u, v, rfl, hu⟩ := List.eq_append_cons_of_mem hs
    rw [piece_one_append hu] at hpiece
    have hlen := congrArg List.length hpiece
    simp at hlen
  · exact piece_one_self

theorem piece_succ_append {s : List α} (hs : sep ∉ s) (t : List α) (n : ℕ) :
    piece sep (n + 2) (s ++ sep :: t) = piece sep (n + 1) t := by
  rw [piece, List.splitOn_append_cons_self_of_not_mem hs]
  rfl

theorem piece_last {s : List α} (hs : sep ∉ s) (t : List α) :
    piece sep (pieceCount sep (t ++ sep :: s)) (t ++ sep :: s) = s := by
  rw [piece, pieceCount, List.splitOn_append_cons_self, List.splitOn_eq_singleton hs]
  simp

theorem piece_last_ne_nil {c : α} (hc : c ≠ sep) (s : List α) :
    piece sep (pieceCount sep (s ++ [c])) (s ++ [c]) ≠ [] := by
  by_cases hs : sep ∈ s
  · -- the text behind the last separator
    obtain ⟨u, v, huv, hu⟩ := List.eq_append_cons_of_mem (List.mem_reverse.mpr hs)
    have hsplit : s ++ [c] = v.reverse ++ sep :: (u.reverse ++ [c]) := by
      rw [List.reverse_eq_iff.mp huv]
      simp
    have hlast : sep ∉ u.reverse ++ [c] := by simpa [hc.symm] using hu
    rw [hsplit, piece_last hlast]
    simp
  · have hlast : sep ∉ s ++ [c] := by simpa [hc.symm] using hs
    rw [piece, pieceCount, List.splitOn_eq_singleton hlast]
    simp

theorem pieces_rest {s : List α} (hs : sep ∉ s) (t : List α) :
    pieces sep 2 (pieceCount sep (s ++ sep :: t)) (s ++ sep :: t) = t := by
  rw [pieces, pieceCount, List.take_length, List.splitOn_append_cons_self_of_not_mem hs]
  exact List.intercalate_splitOn sep

omit [DecidableEq α] in
theorem infix_separated {w s t : List α} (hw : sep ∉ w) : w <:+: s ++ sep :: t ↔ w <:+: s ∨ w <:+: t := by
  rw [List.infix_append_iff, List.infix_cons_iff]
  constructor
  · rintro (h | (h | h) | ⟨u, v, rfl, hu, hv⟩)
    · exact .inl h
    · cases w with
      | nil => exact .inr (List.nil_infix)
      | cons c w =>
        rw [List.cons_prefix_cons] at h
        exact absurd (h.1 ▸ List.mem_cons_self) hw
    · exact .inr h
    · cases v with
      | nil =>
        rw [List.append_nil]
        exact .inl hu.isInfix
      | cons c v =>
        rw [List.cons_prefix_cons] at hv
        exact absurd (List.mem_append_right u (hv.1 ▸ List.mem_cons_self)) hw
  · rintro (h | h)
    · exact .inl h
    · exact .inr (.inl (.inr h))

omit [DecidableEq α] in
theorem intercalate_cons (t u : List α) (texts : List (List α)) :
    [sep].intercalate (t :: u :: texts) = t ++ sep :: [sep].intercalate (u :: texts) := by
  rw [List.intercalate_cons_cons, List.append_assoc]
  rfl

omit [DecidableEq α] in
theorem map_intercalate {β : Type} (f : α → β) (texts : List (List α)) :
    ([sep].intercalate texts).map f = [f sep].intercalate (texts.map (List.map f)) := by
  induction texts with
  | nil => rfl
  | cons t texts ih =>
    cases texts with
    | nil => simp
    | cons u texts =>
      rw [intercalate_cons, List.map_append, List.map_cons, ih]
      exact (intercalate_cons _ _ _).symm

omit [DecidableEq α] in
theorem infix_intercalate {w : List α} (hw : sep ∉ w) (hne : w ≠ []) (texts : List (List α)) :
    w <:+: [sep].intercalate texts ↔ ∃ t ∈ texts, w <:+: t := by
  induction texts with
  | nil => simpa using hne
  | cons t texts ih =>
    cases texts with
    | nil => simp
    | cons u texts =>
      rw [intercalate_cons, infix_separated hw, ih]
      simp only [List.mem_cons, exists_eq_or_imp]

omit [DecidableEq α] in
theorem notMem_intercalate {c : α} (hc : c ≠ sep) {texts : List (List α)} (htexts : ∀ t ∈ texts, c ∉ t) :
    c ∉ [sep].intercalate texts := by
  induction texts with
  | nil => simp
  | cons t texts ih =>
    have ht := htexts t List.mem_cons_self
    have hrest := ih fun u hu => htexts u (List.mem_cons_of_mem t hu)
    cases texts with
    | nil => simpa using ht
    | cons u texts =>
      rw [intercalate_cons, List.mem_append, List.mem_cons]
      exact not_or.mpr ⟨ht, not_or.mpr ⟨hc, hrest⟩⟩

end Pieces
