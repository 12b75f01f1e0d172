import GlobalsJs.Stream.Cuts

/-!
# A link that carries lines

A writer adds lines at one end, chunks of any length arrive at the other end and are read by
trial. `Link` says how far the reader is: it is kept when lines are added and when a chunk
arrives that does not end behind an acceptable part of a line. A reader with a state sees the
lines in the order in which they were written.
-/

namespace LineReader

variable {α σ : Type*}

/-- Of some line a part with the property has arrived, and the rest has not. -/
def Torn (P : List α → Prop) (sep : α) (lines : List (List α)) (rest : List α) : Prop :=
  ∃ done p q more, lines = done ++ (p ++ q) :: more ∧ p ≠ [] ∧ q ≠ [] ∧ P p ∧
    rest = q ++ sep :: wire sep more

theorem not_torn_nil {P : List α → Prop} {sep : α} {lines : List (List α)} {rest : List α} (h : rest = []) :
    ¬ Torn P sep lines rest := by
  rintro ⟨done, p, q, more, -, -, -, -, hrest⟩
  rw [h] at hrest
  have hlen := congrArg List.length hrest
  rw [List.length_append, List.length_cons, List.length_nil] at hlen
  omega

theorem not_torn_start {P : List α → Prop} {sep : α} {lines : List (List α)} {rest : List α}
    (h : rest = wire sep lines) : ¬ Torn P sep lines rest := by
  rintro ⟨done, p, q, more, rfl, hp, -, -, hrest⟩
  rw [h] at hrest
  have hlen := congrArg List.length hrest
  have hpos := List.length_pos_of_ne_nil hp
  simp only [wire_append, wire_cons, List.length_append, List.length_cons] at hlen
  omega

/-- The lines `done` were read, `kept` is a part of the next one and `rest` is on its way. -/
structure Link (ok : List α → Bool) (sep : α) (lines done : List (List α)) (kept rest : List α) : Prop where
  place : Place ok sep lines done kept rest
  suffix : rest <:+ wire sep lines

variable {ok : List α → Bool} {sep : α} {lines done : List (List α)} {kept rest : List α}

theorem Link.start : Link ok sep [] [] [] [] := ⟨.finished, List.suffix_refl _⟩

theorem Link.send (h : Link ok sep lines done kept rest) {new : List (List α)}
    (hne : ∀ l ∈ lines ++ new, l ≠ []) : Link ok sep (lines ++ new) done kept (rest ++ wire sep new) := by
  refine ⟨?_, ?_⟩
  · cases h.place with
    | @inside _ more p q hlines hq hrefused =>
      have hnew : lines ++ new = done ++ (kept ++ q) :: (more ++ new) := by simp [hlines]
      have hrest : q ++ sep :: wire sep more ++ wire sep new = q ++ sep :: wire sep (more ++ new) := by
        rw [wire_append, List.append_assoc, List.cons_append]
      rw [hrest]
      exact .inside hnew hq hrefused
    | @ended _ more hlines =>
      have hrest : sep :: wire sep more ++ wire sep new = sep :: wire sep (more ++ new) := by
        rw [wire_append, List.cons_append]
      rw [hrest]
      exact .ended (by rw [hlines, List.append_assoc])
    | finished => exact .start rfl hne
  · rw [wire_append]
    obtain ⟨arrived, harrived⟩ := h.suffix
    exact ⟨arrived, by rw [← harrived, List.append_assoc]⟩

theorem Link.read (h : Link ok sep lines done kept rest) : done <+: lines := by
  cases h.place with
  | inside hlines => exact ⟨_, hlines.symm⟩
  | ended hlines => exact ⟨_, hlines.symm⟩
  | finished => exact List.prefix_refl _

theorem Link.drained (h : Link ok sep lines done kept []) : done = lines ∧ kept = [] := h.place.at_end

theorem Link.torn (h : Link ok sep lines done kept rest) (hkept : kept ≠ []) :
    Torn (fun _ => True) sep lines rest := by
  cases h.place with
  | inside hlines hq => exact ⟨_, _, _, _, hlines, hkept, hq, trivial, rfl⟩
  | ended => exact absurd rfl hkept
  | finished => exact absurd rfl hkept

section
variable {handle : σ → List α → σ × Bool}

theorem pieces_grow (ok : List α → Bool) (ps : List (List α)) (st : List (List α) × List α) :
    st.1 <+: (ps.foldl (piece (accepting ok)) st).1 := by
  induction ps generalizing st with
  | nil => exact List.prefix_refl _
  | cons p ps ih =>
    have hstep : st.1 <+: (piece (accepting ok) st p).1 := by
      by_cases hp : p = []
      · have hkeep : piece (accepting ok) st p = st := by rw [hp, piece_nil]
        exact hkeep.symm ▸ List.prefix_refl st.1
      · rw [piece_accepting st.1 st.2 hp]
        split_ifs
        · exact List.prefix_append _ _
        · exact List.prefix_refl _
    exact hstep.trans (ih _)

theorem pieces_smooth (hrefuse : ∀ s p, ok p = false → handle s p = (s, false)) {ps more : List (List α)}
    {s : σ} (h : (ps.foldl (piece (accepting ok)) (done, kept)).1 = done ++ more)
    (hsmooth : Smooth handle s more) : ps.foldl (piece handle) (s, kept) =
      (run handle s more, (ps.foldl (piece (accepting ok)) (done, kept)).2) := by
  induction ps generalizing s done kept more with
  | nil =>
    obtain rfl : more = [] := by simpa using h
    rfl
  | cons p ps ih =>
    rw [List.foldl_cons] at h ⊢
    rw [List.foldl_cons]
    by_cases hp : p = []
    · rw [hp, piece_nil] at h ⊢
      exact ih h hsmooth
    rw [piece_accepting done kept hp] at h ⊢
    by_cases hok : ok p = true
    · rw [if_pos hok] at h ⊢
      -- the accepted piece is the first of the lines
      obtain ⟨later, hlater⟩ := pieces_grow ok ps (done ++ [p], [])
      rw [h, List.append_assoc] at hlater
      obtain rfl : p :: later = more := List.append_cancel_left hlater
      rw [piece_accepted kept hp hsmooth.1]
      exact ih (by rw [h, List.append_assoc]; rfl) hsmooth.2
    · rw [if_neg hok] at h ⊢
      rw [piece_refused kept hp (hrefuse s p (Bool.eq_false_iff.mpr hok))]
      exact ih h hsmooth

variable [DecidableEq α]

theorem Link.receive (hrefuse : ∀ s p, ok p = false → handle s p = (s, false))
    (hsep : ∀ l ∈ lines, sep ∉ l) (hok : ∀ l ∈ lines, l ≠ [] ∧ ok l = true) {chunk : List α} {s : σ}
    (h : Link ok sep lines done kept (chunk ++ rest)) (hclean : ¬ Torn (fun p => ok p = true) sep lines rest)
    (hsmooth : ∀ more, done ++ more <+: lines → Smooth handle s more) :
    ∃ more, feed handle sep (s, kept) chunk =
        (run handle s more, (feed (accepting ok) sep (done, kept) chunk).2) ∧
      Link ok sep lines (done ++ more) (feed (accepting ok) sep (done, kept) chunk).2 rest := by
  obtain ⟨arrived, harrived⟩ := h.suffix
  have hwhole : (arrived ++ chunk) ++ rest = wire sep lines := by rw [← harrived, List.append_assoc]
  rcases h.place.feed hsep hok harrived with hplace | ⟨done', p, hcut, -⟩
  · obtain ⟨more, hmore⟩ := pieces_grow ok (glue kept (chunk.splitOn sep)) (done, kept)
    have hnext : Link ok sep lines (done ++ more) (feed (accepting ok) sep (done, kept) chunk).2 rest := by
      refine ⟨?_, ⟨_, hwhole⟩⟩
      rw [hmore]
      exact hplace
    exact ⟨more, pieces_smooth hrefuse hmore.symm (hsmooth more hnext.read), hnext⟩
  · exfalso
    obtain ⟨q, more, hlines, hq⟩ := hcut.part
    apply hclean
    refine ⟨done', p, q, more, hlines, hcut.nonempty, hq, hcut.accepted, ?_⟩
    rw [hcut.arrived, hlines, wire_append, wire_cons, List.append_assoc, List.append_assoc] at hwhole
    exact List.append_cancel_left (List.append_cancel_left hwhole)

end

end LineReader
