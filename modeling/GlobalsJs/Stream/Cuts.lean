import GlobalsJs.Stream.LineReader

/-!
# Where a stream of lines can be cut

A reader that accepts a piece by its looks alone reads the lines back exactly when no chunk
ends behind a part of a line that is accepted itself.
-/

namespace LineReader

variable {α : Type*}

def accepting (ok : List α → Bool) (texts : List (List α)) (p : List α) : List (List α) × Bool :=
  if ok p then (texts ++ [p], true) else (texts, false)

structure CutShort (ok : List α → Bool) (sep : α) (lines : List (List α)) (arrived : List α)
    (done : List (List α)) (p : List α) : Prop where
  part : ∃ q more, lines = done ++ (p ++ q) :: more ∧ q ≠ []
  nonempty : p ≠ []
  accepted : ok p = true
  arrived : arrived = wire sep done ++ p

/-- The lines that were accepted, what is kept, and what is still to arrive. -/
inductive Place (ok : List α → Bool) (sep : α) (lines : List (List α)) :
    List (List α) → List α → List α → Prop
  | inside {done more : List (List α)} {p q : List α} : lines = done ++ (p ++ q) :: more → q ≠ [] →
    (p ≠ [] → ok p = false) → Place ok sep lines done p (q ++ sep :: wire sep more)
  | ended {done more : List (List α)} : lines = done ++ more →
    Place ok sep lines done [] (sep :: wire sep more)
  | finished : Place ok sep lines lines [] []

variable {ok : List α → Bool} {sep : α} {lines : List (List α)}

theorem wire_append (ls ms : List (List α)) : wire sep (ls ++ ms) = wire sep ls ++ wire sep ms :=
  List.flatMap_append

theorem Place.start {done more : List (List α)} (hlines : lines = done ++ more)
    (hne : ∀ l ∈ lines, l ≠ []) : Place ok sep lines done [] (wire sep more) := by
  cases more with
  | nil =>
    rw [List.append_nil] at hlines
    exact hlines ▸ .finished
  | cons l more =>
    rw [wire_cons]
    exact .inside hlines (hne l (by simp [hlines])) fun h => absurd rfl h

theorem Place.at_end {done : List (List α)} {kept : List α} (h : Place ok sep lines done kept []) :
    done = lines ∧ kept = [] := by
  generalize hrest : ([] : List α) = rest at h
  cases h with
  | inside _ hq _ => exact absurd (List.append_eq_nil_iff.mp hrest.symm).1 hq
  | ended => cases hrest
  | finished => exact ⟨rfl, rfl⟩

theorem piece_accepting (texts : List (List α)) (k : List α) {p : List α} (hp : p ≠ []) :
    piece (accepting ok) (texts, k) p = if ok p then (texts ++ [p], []) else (texts, p) := by
  by_cases h : ok p = true
  · simp [piece, accepting, hp, h]
  · simp [piece, accepting, hp, h]

section
variable [DecidableEq α]

theorem feed_kept {σ : Type*} {handle : σ → List α → σ × Bool} (s : σ) {kept : List α} (hkept : sep ∉ kept)
    (chunk : List α) : feed handle sep (s, kept) chunk = feed handle sep (s, []) (kept ++ chunk) := by
  have hsplit : (kept ++ chunk).splitOn sep = glue kept (chunk.splitOn sep) := by
    rcases splitOn_cases sep chunk with ⟨hnone, hsplit⟩ | ⟨p, more, rfl, hp, hsplit⟩
    · have hall : sep ∉ kept ++ chunk := fun h => (List.mem_append.mp h).elim hkept hnone
      rw [hsplit, glue, List.splitOn_eq_singleton hall]
    · have hall : sep ∉ kept ++ p := fun h => (List.mem_append.mp h).elim hkept hp
      rw [hsplit, glue, ← List.append_assoc, List.splitOn_append_cons_self_of_not_mem hall]
  rw [feed_empty, hsplit, feed]
  cases hps : chunk.splitOn sep with
  | nil => exact absurd hps (List.splitOn_ne_nil sep chunk)
  | cons p ps =>
    rw [glue, List.foldl_cons, List.foldl_cons]
    by_cases hnil : kept ++ p = []
    · rw [(List.append_eq_nil_iff.mp hnil).1]
    · rw [piece_kept s kept [] hnil]

theorem feed_start (hsep : ∀ l ∈ lines, sep ∉ l) (hok : ∀ l ∈ lines, l ≠ [] ∧ ok l = true)
    {done more : List (List α)} (hlines : lines = done ++ more) {chunk rest : List α}
    (hrest : chunk ++ rest = wire sep more) :
    (Place ok sep lines (feed (accepting ok) sep (done, []) chunk).1
        (feed (accepting ok) sep (done, []) chunk).2 rest) ∨
      ∃ done' p, CutShort ok sep lines (wire sep done ++ chunk) done' p ∧
        done' ++ [p] <+: (feed (accepting ok) sep (done, []) chunk).1 := by
  induction more generalizing done chunk with
  | nil =>
    obtain ⟨rfl, rfl⟩ := List.append_eq_nil_iff.mp hrest
    rw [List.append_nil] at hlines
    subst hlines
    exact .inl (by simpa [feed_nil] using .finished)
  | cons l more ih =>
    have hl : l ∈ lines := by simp [hlines]
    rw [wire_cons] at hrest
    rw [feed_empty]
    rcases splitOn_cases sep chunk with ⟨hnone, hsplit⟩ | ⟨p, chunk', rfl, hp, hsplit⟩
    · obtain ⟨q, rfl, rfl⟩ := within_padding hnone hrest.symm
      rw [hsplit, List.foldl_cons, List.foldl_nil]
      by_cases hnil : chunk = []
      · subst hnil
        exact .inl (.inside hlines (hok _ hl).1 fun h => absurd rfl h)
      rw [piece_accepting done [] hnil]
      by_cases hq : q = []
      · subst hq
        rw [List.append_nil] at hlines hl
        rw [if_pos (hok _ hl).2]
        exact .inl (.ended (by simp [hlines]))
      by_cases hchunk : ok chunk = true
      · rw [if_pos hchunk]
        exact .inr ⟨done, chunk, ⟨⟨q, more, hlines, hq⟩, hnil, hchunk, rfl⟩, List.prefix_refl _⟩
      · rw [if_neg hchunk]
        exact .inl (.inside hlines hq fun _ => Bool.eq_false_iff.mpr hchunk)
    · rw [List.append_assoc, List.cons_append] at hrest
      obtain ⟨pad, rfl, hpad⟩ := within_padding hp hrest.symm
      -- the line ends at the separator
      cases pad with
      | cons c pad =>
        obtain ⟨rfl, -⟩ := List.cons.inj hpad
        exact absurd (by simp) (hsep _ hl)
      | nil =>
        obtain ⟨-, hmore⟩ := List.cons.inj hpad
        rw [List.append_nil] at hlines hl
        rw [hsplit, List.foldl_cons, piece_accepting done [] (hok p hl).1, if_pos (hok p hl).2, ← feed_empty]
        have hlines' : lines = (done ++ [p]) ++ more := by simp [hlines]
        rcases ih hlines' hmore with hplace | ⟨done', p', hcut, hpre⟩
        · exact .inl hplace
        · refine .inr ⟨done', p', ?_, hpre⟩
          rwa [wire_append, List.append_assoc, wire_cons, wire_nil, List.append_assoc] at hcut

theorem Place.feed (hsep : ∀ l ∈ lines, sep ∉ l) (hok : ∀ l ∈ lines, l ≠ [] ∧ ok l = true)
    {done : List (List α)} {kept chunk arrived rest : List α}
    (h : Place ok sep lines done kept (chunk ++ rest)) (harrived : arrived ++ (chunk ++ rest) = wire sep lines) :
    (Place ok sep lines (LineReader.feed (accepting ok) sep (done, kept) chunk).1
        (LineReader.feed (accepting ok) sep (done, kept) chunk).2 rest) ∨
      ∃ done' p, CutShort ok sep lines (arrived ++ chunk) done' p ∧
        done' ++ [p] <+: (LineReader.feed (accepting ok) sep (done, kept) chunk).1 := by
  generalize htext : chunk ++ rest = text at h
  cases h with
  | @inside _ more _ q hlines hq _ =>
    have hl : kept ++ q ∈ lines := by simp [hlines]
    have hkept : sep ∉ kept := fun h => hsep _ hl (List.mem_append_left q h)
    have hflat : arrived = wire sep done ++ kept := by
      rw [htext, hlines, wire_append, wire_cons, List.append_assoc kept, ← List.append_assoc _ kept] at harrived
      exact List.append_cancel_right harrived
    rw [feed_kept done hkept, hflat, List.append_assoc]
    exact feed_start hsep hok hlines (by rw [List.append_assoc, htext, wire_cons, List.append_assoc])
  | @ended _ more hlines =>
    cases chunk with
    | nil =>
      rw [List.nil_append] at htext
      exact .inl (by rw [feed_nil, htext]; exact .ended hlines)
    | cons c chunk =>
      obtain rfl : c = sep := (List.cons.inj htext).1
      have hmore : chunk ++ rest = wire c more := (List.cons.inj htext).2
      have hflat : arrived ++ [c] = wire c done := by
        rw [hlines, wire_append, List.cons_append, hmore, ← List.singleton_append, ← List.append_assoc] at harrived
        exact List.append_cancel_right harrived
      rw [feed_sep, piece_nil, ← feed_empty, ← List.singleton_append, ← List.append_assoc arrived, hflat]
      exact feed_start hsep hok hlines hmore
  | finished =>
    obtain ⟨rfl, rfl⟩ := List.append_eq_nil_iff.mp htext
    exact .inl (by rw [feed_nil]; exact .finished)

theorem splitOn_part {done : List (List α)} (hsep : ∀ l ∈ done, sep ∉ l) {p : List α} (hp : sep ∉ p) :
    (wire sep done ++ p).splitOn sep = done ++ [p] := by
  induction done with
  | nil => exact List.splitOn_eq_singleton hp
  | cons l ls ih =>
    rw [wire_cons, List.append_assoc, List.cons_append,
      List.splitOn_append_cons_self_of_not_mem (hsep l List.mem_cons_self),
      ih fun m hm => hsep m (List.mem_cons_of_mem l hm)]
    rfl

theorem part_unique {done done' : List (List α)} {p p' : List α} (hsep : ∀ l ∈ done, sep ∉ l)
    (hsep' : ∀ l ∈ done', sep ∉ l) (hp : sep ∉ p) (hp' : sep ∉ p')
    (h : wire sep done ++ p = wire sep done' ++ p') : done = done' ∧ p = p' := by
  have hsplit := congrArg (·.splitOn sep) h
  simp only [splitOn_part hsep hp, splitOn_part hsep' hp'] at hsplit
  obtain ⟨hdone, hlast⟩ := List.append_inj' hsplit rfl
  exact ⟨hdone, (List.cons.inj hlast).1⟩

theorem Place.not_cut (hsep : ∀ l ∈ lines, sep ∉ l) {done done' : List (List α)}
    {kept arrived rest p : List α} (h : Place ok sep lines done kept rest)
    (harrived : arrived ++ rest = wire sep lines) : ¬ CutShort ok sep lines arrived done' p := by
  rintro ⟨⟨q', more', hlines', hq'⟩, hp, hok, rfl⟩
  have hdone' : ∀ l ∈ done', sep ∉ l := fun l hl => hsep l (by simp [hlines', hl])
  have hpart : sep ∉ p := fun h => hsep (p ++ q') (by simp [hlines']) (List.mem_append_left q' h)
  cases h with
  | @inside _ more _ q hlines hq hrefused =>
    have hdone : ∀ l ∈ done, sep ∉ l := fun l hl => hsep l (by simp [hlines, hl])
    have hkept : sep ∉ kept := fun h => hsep (kept ++ q) (by simp [hlines]) (List.mem_append_left q h)
    rw [hlines, wire_append, wire_cons, List.append_assoc kept, ← List.append_assoc _ kept] at harrived
    obtain ⟨-, rfl⟩ := part_unique hdone' hdone hpart hkept (List.append_cancel_right harrived)
    rw [hrefused hp] at hok
    cases hok
  | @ended _ more hlines =>
    have hdone : ∀ l ∈ done, sep ∉ l := fun l hl => hsep l (by simp [hlines, hl])
    have hwire : wire sep (done' ++ [p]) = wire sep done := by
      rw [hlines, wire_append, ← List.singleton_append, ← List.append_assoc] at harrived
      rw [wire_append, wire_cons, wire_nil, ← List.append_assoc]
      exact List.append_cancel_right harrived
    have hends : ∀ l ∈ done' ++ [p], sep ∉ l := by
      intro l hl
      rcases List.mem_append.mp hl with hl | hl
      · exact hdone' l hl
      · exact List.mem_singleton.mp hl ▸ hpart
    rw [← wire_inj hends hdone hwire, List.append_assoc, hlines'] at hlines
    obtain ⟨hpq, -⟩ := List.cons.inj (List.append_cancel_left hlines)
    exact hq' (List.append_right_eq_self.mp hpq)
  | finished =>
    have hnil : sep ∉ ([] : List α) := List.not_mem_nil
    rw [List.append_nil, ← List.append_nil (wire sep lines)] at harrived
    exact hp (part_unique hdone' hsep hpart hnil harrived).2

theorem feeds_place (hsep : ∀ l ∈ lines, sep ∉ l) (hok : ∀ l ∈ lines, l ≠ [] ∧ ok l = true)
    {chunks : List (List α)} {done : List (List α)} {kept arrived : List α}
    (h : Place ok sep lines done kept chunks.flatten) (harrived : arrived ++ chunks.flatten = wire sep lines) :
    ((chunks.foldl (LineReader.feed (accepting ok) sep) (done, kept)).1 = lines ∧
        ∀ before, before <+: chunks → ∀ done p, ¬ CutShort ok sep lines (arrived ++ before.flatten) done p) ∨
      ∃ before, before <+: chunks ∧ ∃ done' p, CutShort ok sep lines (arrived ++ before.flatten) done' p ∧
        done' ++ [p] <+: (chunks.foldl (LineReader.feed (accepting ok) sep) (done, kept)).1 := by
  induction chunks generalizing done kept arrived with
  | nil =>
    refine .inl ⟨h.at_end.1, fun before hbefore done p => ?_⟩
    rw [List.prefix_nil.mp hbefore, List.flatten_nil, List.append_nil]
    exact h.not_cut hsep harrived
  | cons c cs ih =>
    rw [List.flatten_cons] at h harrived
    have hflat : ∀ before, arrived ++ (c :: before).flatten = (arrived ++ c) ++ before.flatten :=
      fun before => by simp
    rcases h.feed hsep hok harrived with hplace | ⟨done', p, hcut, hpre⟩
    · rcases ih hplace (by rw [← harrived, List.append_assoc]) with ⟨hlines, hclean⟩ | ⟨before, hpre, done', p, hcut, hall⟩
      · refine .inl ⟨hlines, fun before hbefore done p => ?_⟩
        cases before with
        | nil =>
          rw [List.flatten_nil, List.append_nil]
          exact h.not_cut hsep harrived
        | cons d before =>
          obtain ⟨rfl, hrest⟩ := List.cons_prefix_cons.mp hbefore
          rw [hflat]
          exact hclean before hrest done p
      · exact .inr ⟨c :: before, List.cons_prefix_cons.mpr ⟨rfl, hpre⟩, done', p, (hflat before).symm ▸ hcut, hall⟩
    · refine .inr ⟨[c], by simp, done', p, by simpa using hcut, ?_⟩
      have hgrows : ∀ (s : List (List α)) (q : List α), done' ++ [p] <+: s →
          done' ++ [p] <+: (accepting ok s q).1 := by
        intro s q hs
        rw [accepting]
        split_ifs
        · exact hs.trans (List.prefix_append s [q])
        · exact hs
      exact @feeds_keep _ _ (accepting ok) sep _ (fun s => done' ++ [p] <+: s) hgrows (_, _) hpre cs

theorem lines_accepted (hsep : ∀ l ∈ lines, sep ∉ l) (hok : ∀ l ∈ lines, l ≠ [] ∧ ok l = true)
    {chunks : List (List α)} (hcut : chunks.flatten = wire sep lines) :
    ((chunks.foldl (LineReader.feed (accepting ok) sep) ([], [])).1 = lines ∧
        ∀ before, before <+: chunks → ∀ done p, ¬ CutShort ok sep lines before.flatten done p) ∨
      ∃ before, before <+: chunks ∧ ∃ done' p, CutShort ok sep lines before.flatten done' p ∧
        done' ++ [p] <+: (chunks.foldl (LineReader.feed (accepting ok) sep) ([], [])).1 := by
  have hstart : Place ok sep lines [] [] chunks.flatten :=
    hcut ▸ .start (List.nil_append lines).symm fun l hl => (hok l hl).1
  have h := feeds_place hsep hok hstart (show [] ++ chunks.flatten = wire sep lines from hcut)
  simpa only [List.nil_append] using h

end

theorem mem_splitOn [DecidableEq α] {chunk p : List α} (hp : p ∈ chunk.splitOn sep) : ∀ x ∈ p, x ∈ chunk := by
  induction chunk generalizing p with
  | nil =>
    rw [List.splitOn_nil, List.mem_singleton] at hp
    exact fun x hx => absurd (hp ▸ hx) List.not_mem_nil
  | cons c chunk ih =>
    obtain ⟨q, qs, hq⟩ := List.exists_cons_of_ne_nil (List.splitOn_ne_nil sep chunk)
    rw [List.splitOn_cons_eq_if_modifyHead, hq] at hp
    rw [hq] at ih
    split_ifs at hp with hc
    · rcases List.mem_cons.mp hp with rfl | hp
      · exact fun x hx => absurd hx List.not_mem_nil
      · exact fun x hx => List.mem_cons_of_mem c (ih hp x hx)
    · rcases List.mem_cons.mp hp with rfl | hp
      · intro x hx
        rcases List.mem_cons.mp hx with rfl | hx
        · exact List.mem_cons_self
        · exact List.mem_cons_of_mem c (ih List.mem_cons_self x hx)
      · exact fun x hx => List.mem_cons_of_mem c (ih (List.mem_cons_of_mem q hp) x hx)

theorem feeds_units [DecidableEq α] {P : α → Prop} {chunks : List (List α)} (h : ∀ x ∈ chunks.flatten, P x) :
    ∀ l ∈ (chunks.foldl (feed (accepting ok) sep) ([], [])).1, ∀ x ∈ l, P x := by
  let good : List (List α) × List α → Prop := fun st => (∀ l ∈ st.1, ∀ x ∈ l, P x) ∧ ∀ x ∈ st.2, P x
  have hpiece : ∀ (st : List (List α) × List α) (p : List α), good st → (∀ x ∈ p, P x) →
      good (piece (accepting ok) st p) := by
    rintro ⟨noted, kept⟩ p ⟨hnoted, hkept⟩ hp
    by_cases hnil : p = []
    · rw [hnil, piece_nil]
      exact ⟨hnoted, hkept⟩
    · rw [piece_accepting noted kept hnil]
      split_ifs
      · exact ⟨List.forall_mem_append.mpr ⟨hnoted, List.forall_mem_singleton.mpr hp⟩,
          fun x hx => absurd hx List.not_mem_nil⟩
      · exact ⟨hnoted, hp⟩
  have hpieces : ∀ (ps : List (List α)) (st : List (List α) × List α), good st → (∀ p ∈ ps, ∀ x ∈ p, P x) →
      good (ps.foldl (piece (accepting ok)) st) := by
    intro ps
    induction ps with
    | nil => exact fun st hst _ => hst
    | cons p ps ih =>
      intro st hst hps
      obtain ⟨hp, hps⟩ := List.forall_mem_cons.mp hps
      exact ih _ (hpiece st p hst hp) hps
  have hchunks : ∀ (cs : List (List α)) (st : List (List α) × List α), good st → (∀ x ∈ cs.flatten, P x) →
      good (cs.foldl (feed (accepting ok) sep) st) := by
    intro cs
    induction cs with
    | nil => exact fun st hst _ => hst
    | cons c cs ih =>
      intro st hst hcs
      rw [List.flatten_cons] at hcs
      obtain ⟨hc, hcs⟩ := List.forall_mem_append.mp hcs
      refine ih _ (hpieces _ st hst ?_) hcs
      obtain ⟨p, ps, hps⟩ := List.exists_cons_of_ne_nil (List.splitOn_ne_nil sep c)
      have hsplit : ∀ q ∈ p :: ps, ∀ x ∈ q, P x := fun q hq x hx => hc x (mem_splitOn (hps ▸ hq) x hx)
      rw [hps, glue]
      obtain ⟨hp, hps⟩ := List.forall_mem_cons.mp hsplit
      exact List.forall_mem_cons.mpr ⟨List.forall_mem_append.mpr ⟨hst.2, hp⟩, hps⟩
  exact (hchunks chunks ([], []) ⟨fun l hl => absurd hl List.not_mem_nil, fun x hx => absurd hx List.not_mem_nil⟩ h).1

end LineReader
