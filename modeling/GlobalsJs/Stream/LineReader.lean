import Mathlib.Data.List.Basic

/-!
# Reading separated pieces by trial

A reader without a length prefix cuts each chunk at the separator, offers every
piece to a handler that may refuse it, and keeps a refused piece to be put in
front of the next chunk. `feed` is that loop. When every line is refused until its
core has arrived, and blank units around the core make no difference, the chunking
does not matter: this is `feed_chunks`, carried by the invariant `Stage` over the
pieces of a chunk.
-/

namespace LineReader

variable {α σ : Type*}

section Definitions
variable (handle : σ → List α → σ × Bool)

/-- Offer one piece. An empty piece is skipped, a refused one is kept. -/
def piece (st : σ × List α) (p : List α) : σ × List α :=
  if p = [] then st else ((handle st.1 p).1, if (handle st.1 p).2 then [] else p)

def glue (kept : List α) : List (List α) → List (List α)
  | [] => []
  | p :: ps => (kept ++ p) :: ps

def feed [DecidableEq α] (sep : α) (st : σ × List α) (chunk : List α) : σ × List α :=
  (glue st.2 (chunk.splitOn sep)).foldl (piece handle) st

def run (s : σ) (lines : List (List α)) : σ := lines.foldl (fun s l => (handle s l).1) s

def Smooth : σ → List (List α) → Prop
  | _, [] => True
  | s, l :: ls => (handle s l).2 = true ∧ Smooth (handle s l).1 ls

def Blank (blank : α → Prop) (b : List α) : Prop := ∀ x ∈ b, blank x

/-- A line that is refused as long as its core has not arrived in full. Blank units in
front of the core, and less padding after it, do not change what it does. -/
structure Splits (sep : α) (blank : α → Prop) (core pad : List α) : Prop where
  core_ne_nil : core ≠ []
  sep_notMem : sep ∉ core ++ pad
  pad_blank : Blank blank pad
  refused : ∀ s b p q, Blank blank b → p ++ q = core → q ≠ [] → b ++ p ≠ [] →
    handle s (b ++ p) = (s, false)
  accepted : ∀ s b r, Blank blank b → r <+: pad → handle s (b ++ core ++ r) = handle s (core ++ pad)

def Framed (sep : α) (blank : α → Prop) (l : List α) : Prop :=
  ∃ core pad, core ++ pad = l ∧ Splits handle sep blank core pad

/-- Blank text alone is refused. -/
def RefusesBlank (blank : α → Prop) : Prop :=
  ∀ s b, Blank blank b → b ≠ [] → handle s b = (s, false)

end Definitions

def wire (sep : α) (lines : List (List α)) : List α := lines.flatMap (· ++ [sep])

variable {handle : σ → List α → σ × Bool} {sep : α} {blank : α → Prop}

@[simp] theorem wire_nil : wire sep [] = [] := rfl

@[simp] theorem wire_cons (l : List α) (ls : List (List α)) :
    wire sep (l :: ls) = l ++ sep :: wire sep ls := by
  simp [wire]

theorem blank_nil : Blank blank [] := by simp [Blank]

theorem Blank.append {b c : List α} (hb : Blank blank b) (hc : Blank blank c) :
    Blank blank (b ++ c) := by
  intro x hx
  rcases List.mem_append.mp hx with h | h
  · exact hb x h
  · exact hc x h

theorem Blank.left {b c : List α} (h : Blank blank (b ++ c)) : Blank blank b :=
  fun x hx => h x (List.mem_append_left c hx)

theorem Blank.right {b c : List α} (h : Blank blank (b ++ c)) : Blank blank c :=
  fun x hx => h x (List.mem_append_right b hx)

theorem Smooth.drop {s : σ} {done todo : List (List α)} (h : Smooth handle s (done ++ todo)) :
    Smooth handle (run handle s done) todo := by
  induction done generalizing s with
  | nil => exact h
  | cons l done ih => exact ih h.2

@[simp] theorem piece_nil (st : σ × List α) : piece handle st [] = st := rfl

theorem piece_accepted {s : σ} {p : List α} (k : List α) (hp : p ≠ [])
    (h : (handle s p).2 = true) : piece handle (s, k) p = ((handle s p).1, []) := by
  simp [piece, hp, h]

theorem piece_refused {s : σ} {p : List α} (k : List α) (hp : p ≠ [])
    (h : handle s p = (s, false)) : piece handle (s, k) p = (s, p) := by
  simp [piece, hp, h]

theorem piece_waits {s : σ} {k p : List α} (hp : p ≠ [] → handle s p = (s, false))
    (hk : p = [] → k = []) : piece handle (s, k) p = (s, p) := by
  by_cases hnil : p = []
  · rw [hnil, piece_nil, hk hnil]
  · exact piece_refused k hnil (hp hnil)

theorem piece_kept (s : σ) (k k' : List α) {p : List α} (hp : p ≠ []) :
    piece handle (s, k) p = piece handle (s, k') p := by
  simp [piece, hp]

section Chunks
variable [DecidableEq α]

theorem feed_nil (st : σ × List α) : feed handle sep st [] = piece handle st st.2 := by
  simp [feed, glue, List.splitOn_nil]

theorem feed_sep (st : σ × List α) (chunk : List α) :
    feed handle sep st (sep :: chunk) =
      (chunk.splitOn sep).foldl (piece handle) (piece handle st st.2) := by
  simp [feed, List.splitOn_cons_eq_if_modifyHead, glue]

theorem splitOn_wire {lines : List (List α)} (hsep : ∀ l ∈ lines, sep ∉ l) :
    (wire sep lines).splitOn sep = lines ++ [[]] := by
  induction lines with
  | nil => simp [List.splitOn_nil]
  | cons l ls ih =>
    rw [wire_cons, List.splitOn_append_cons_self_of_not_mem (hsep l List.mem_cons_self),
      ih fun m hm => hsep m (List.mem_cons_of_mem l hm)]
    rfl

theorem wire_inj {lines lines' : List (List α)} (hsep : ∀ l ∈ lines, sep ∉ l)
    (hsep' : ∀ l ∈ lines', sep ∉ l) (h : wire sep lines = wire sep lines') : lines = lines' := by
  have hsplit := congrArg (·.splitOn sep) h
  simp only [splitOn_wire hsep, splitOn_wire hsep'] at hsplit
  exact List.append_cancel_right hsplit

theorem feed_wire (s : σ) {lines : List (List α)} (hsep : ∀ l ∈ lines, sep ∉ l) :
    feed handle sep (s, []) (wire sep lines) = lines.foldl (piece handle) (s, []) := by
  rw [feed, splitOn_wire hsep]
  cases lines with
  | nil => rfl
  | cons l ls => simp [glue]

theorem feed_wire_kept (s : σ) (kept : List α) {l : List α} {lines : List (List α)} (hl : sep ∉ l)
    (hsep : ∀ m ∈ lines, sep ∉ m) :
    feed handle sep (s, kept) (wire sep (l :: lines)) =
      lines.foldl (piece handle) (piece handle (s, kept) (kept ++ l)) := by
  rw [feed, splitOn_wire (List.forall_mem_cons.mpr ⟨hl, hsep⟩), List.cons_append, glue, List.foldl_cons,
    List.foldl_append]
  rfl

theorem splitOn_cases (sep : α) (chunk : List α) :
    (sep ∉ chunk ∧ chunk.splitOn sep = [chunk]) ∨
      ∃ p more, chunk = p ++ sep :: more ∧ sep ∉ p ∧
        chunk.splitOn sep = p :: more.splitOn sep := by
  by_cases h : sep ∈ chunk
  · obtain ⟨p, more, rfl, hp⟩ := List.eq_append_cons_of_mem h
    exact Or.inr ⟨p, more, rfl, hp, List.splitOn_append_cons_self_of_not_mem hp more⟩
  · exact Or.inl ⟨h, List.splitOn_eq_singleton h⟩

theorem feed_empty (s : σ) (chunk : List α) :
    feed handle sep (s, []) chunk = (chunk.splitOn sep).foldl (piece handle) (s, []) := by
  obtain ⟨p, ps, hps⟩ := List.exists_cons_of_ne_nil (List.splitOn_ne_nil sep chunk)
  simp [feed, hps, glue]

theorem feed_keeps {I : σ → Prop} (hI : ∀ s p, I s → I (handle s p).1) {st : σ × List α} (h : I st.1)
    (chunk : List α) : I (feed handle sep st chunk).1 := by
  have hpieces : ∀ (ps : List (List α)) (st : σ × List α), I st.1 →
      I (ps.foldl (piece handle) st).1 := by
    intro ps
    induction ps with
    | nil => exact fun _ h => h
    | cons p ps ih =>
      intro st h
      refine ih _ ?_
      by_cases hp : p = []
      · rwa [hp, piece_nil]
      · rw [piece, if_neg hp]
        exact hI st.1 p h
  exact hpieces _ st h

theorem feeds_keep {I : σ → Prop} (hI : ∀ s p, I s → I (handle s p).1) {st : σ × List α} (h : I st.1)
    (chunks : List (List α)) : I (chunks.foldl (feed handle sep) st).1 := by
  induction chunks generalizing st with
  | nil => exact h
  | cons c cs ih => exact ih (feed_keeps hI h c)

theorem feed_same {handle' : σ → List α → σ × Bool} {I good : σ → Prop} (hI : ∀ s p, I s → I (handle s p).1)
    (hback : ∀ s p, I s → good (handle s p).1 → good s ∧ handle s p = handle' s p) {st : σ × List α}
    (hst : I st.1) (chunk : List α) (h : good (feed handle sep st chunk).1) :
    good st.1 ∧ feed handle sep st chunk = feed handle' sep st chunk := by
  rw [feed] at h ⊢
  rw [feed]
  generalize glue st.2 (chunk.splitOn sep) = ps at h
  induction ps generalizing st with
  | nil => exact ⟨h, rfl⟩
  | cons p ps ih =>
    rw [List.foldl_cons] at h ⊢
    rw [List.foldl_cons]
    by_cases hp : p = []
    · rw [hp, piece_nil] at h ⊢
      rw [piece_nil]
      exact ih hst h
    · have hkeep : I (piece handle st p).1 := by
        rw [piece, if_neg hp]
        exact hI st.1 p hst
      obtain ⟨hgood, hrest⟩ := ih hkeep h
      rw [piece, if_neg hp] at hgood
      obtain ⟨hbefore, hsame⟩ := hback st.1 p hst hgood
      refine ⟨hbefore, hrest.trans ?_⟩
      rw [piece, piece, if_neg hp, if_neg hp, hsame]

theorem feed_view {τ : Type*} {view : σ → τ} {seen : τ → List α → τ × Bool}
    (h : ∀ s p, seen (view s) p = (view (handle s p).1, (handle s p).2)) (st : σ × List α)
    (chunk : List α) :
    feed seen sep (view st.1, st.2) chunk =
      (view (feed handle sep st chunk).1, (feed handle sep st chunk).2) := by
  rw [feed, feed]
  generalize glue st.2 (chunk.splitOn sep) = ps
  induction ps generalizing st with
  | nil => rfl
  | cons p ps ih =>
    have hpiece : piece seen (view st.1, st.2) p = (view (piece handle st p).1, (piece handle st p).2) := by
      by_cases hp : p = []
      · rw [hp, piece_nil, piece_nil]
      · rw [piece, piece, if_neg hp, if_neg hp, h]
    rw [List.foldl_cons, List.foldl_cons, hpiece]
    exact ih _

theorem feeds_view {τ : Type*} {view : σ → τ} {seen : τ → List α → τ × Bool}
    (h : ∀ s p, seen (view s) p = (view (handle s p).1, (handle s p).2)) (st : σ × List α)
    (chunks : List (List α)) :
    chunks.foldl (feed seen sep) (view st.1, st.2) =
      (view (chunks.foldl (feed handle sep) st).1, (chunks.foldl (feed handle sep) st).2) := by
  induction chunks generalizing st with
  | nil => rfl
  | cons c cs ih => rw [List.foldl_cons, List.foldl_cons, feed_view h, ih]

end Chunks

/-- `Stage kept todo rest`: the lines `todo` are not accepted yet and `rest` is still to
arrive. `kept` is blank text and what has arrived of the core of the first line. -/
inductive Stage (handle : σ → List α → σ × Bool) (sep : α) (blank : α → Prop) :
    List α → List (List α) → List α → Prop
  | inside {b p q pad : List α} (todo : List (List α)) : Blank blank b → q ≠ [] →
      Splits handle sep blank (p ++ q) pad →
      Stage handle sep blank (b ++ p) ((p ++ q ++ pad) :: todo) (q ++ (pad ++ sep :: wire sep todo))
  | ended {b pad : List α} (todo : List (List α)) : Blank blank b → Blank blank pad → sep ∉ pad →
      Stage handle sep blank b todo (pad ++ sep :: wire sep todo)
  | finished {b : List α} : Blank blank b → Stage handle sep blank b [] []

theorem Stage.start {b : List α} {todo : List (List α)} (hb : Blank blank b)
    (hframed : ∀ l ∈ todo, Framed handle sep blank l) :
    Stage handle sep blank b todo (wire sep todo) := by
  cases todo with
  | nil => exact .finished hb
  | cons l ls =>
    obtain ⟨core, pad, rfl, hl⟩ := hframed l List.mem_cons_self
    have h : Stage handle sep blank (b ++ []) (([] ++ core ++ pad) :: ls) _ :=
      .inside ls hb hl.core_ne_nil hl
    rw [List.append_nil, List.nil_append] at h
    rwa [wire_cons, List.append_assoc]

theorem Stage.at_end {kept : List α} {todo : List (List α)}
    (h : Stage handle sep blank kept todo []) : Blank blank kept ∧ todo = [] := by
  generalize hrest : ([] : List α) = rest at h
  cases h with
  | inside todo hb hq => exact absurd (List.append_eq_nil_iff.mp hrest.symm).1 hq
  | ended todo => simp at hrest
  | finished hb => exact ⟨hb, rfl⟩

theorem Stage.at_sep {kept rest : List α} {todo : List (List α)}
    (h : Stage handle sep blank kept todo (sep :: rest)) :
    Blank blank kept ∧ rest = wire sep todo := by
  generalize htext : sep :: rest = text at h
  cases h with
  | @inside _ p q pad todo hb hq hl =>
    obtain ⟨c, q, rfl⟩ := List.exists_cons_of_ne_nil hq
    obtain ⟨rfl, -⟩ := List.cons.inj htext
    exact absurd (by simp) hl.sep_notMem
  | @ended _ pad todo hb hpad hsep =>
    cases pad with
    | nil => exact ⟨hb, (List.cons.inj htext).2⟩
    | cons c pad =>
      obtain ⟨rfl, -⟩ := List.cons.inj htext
      exact absurd List.mem_cons_self hsep
  | finished => cases htext

theorem within_padding {p pad rest more : List α} (hp : sep ∉ p)
    (h : pad ++ sep :: more = p ++ rest) :
    ∃ pad', pad = p ++ pad' ∧ rest = pad' ++ sep :: more := by
  rcases List.append_eq_append_iff.mp h with ⟨a, rfl, ha⟩ | ⟨pad', rfl, hrest⟩
  · cases a with
    | nil => exact ⟨[], by simp, by simpa using ha.symm⟩
    | cons c a =>
      obtain ⟨rfl, -⟩ := List.cons.inj ha
      exact absurd (by simp) hp
  · exact ⟨pad', rfl, hrest⟩

theorem before_or_reaches {p q rest more : List α} (h : p ++ rest = q ++ more) :
    (∃ q', q' ≠ [] ∧ q = p ++ q' ∧ rest = q' ++ more) ∨ ∃ r, p = q ++ r ∧ more = r ++ rest := by
  rcases List.append_eq_append_iff.mp h with ⟨q', rfl, hrest⟩ | ⟨r, rfl, hmore⟩
  · by_cases hq' : q' = []
    · subst hq'
      exact Or.inr ⟨[], by simp, by simpa using hrest.symm⟩
    · exact Or.inl ⟨q', hq', rfl, hrest⟩
  · exact Or.inr ⟨r, rfl, hmore⟩

theorem piece_stage (hblank : RefusesBlank handle blank) {s : σ} {k kept p rest : List α}
    {todo : List (List α)} (hst : Stage handle sep blank kept todo (p ++ rest)) (hp : sep ∉ p)
    (hsmooth : Smooth handle s todo) (hk : kept ++ p = [] → k = []) :
    ∃ done todo', todo = done ++ todo' ∧
      (piece handle (s, k) (kept ++ p)).1 = run handle s done ∧
      Stage handle sep blank (piece handle (s, k) (kept ++ p)).2 todo' rest := by
  generalize htext : p ++ rest = text at hst
  cases hst with
  | @inside b p₀ q pad todo hb hq hl =>
    rcases before_or_reaches htext with ⟨q', hq', rfl, rfl⟩ | ⟨r, rfl, hmore⟩
    · have hl' : Splits handle sep blank (p₀ ++ p ++ q') pad := by
        rwa [← List.append_assoc] at hl
      have hno : b ++ p₀ ++ p ≠ [] → handle s (b ++ p₀ ++ p) = (s, false) := by
        rw [List.append_assoc]
        exact hl.refused s b (p₀ ++ p) q' hb (List.append_assoc _ _ _) hq'
      rw [piece_waits hno hk, List.append_assoc b]
      refine ⟨[], _, rfl, rfl, ?_⟩
      rw [← List.append_assoc p₀]
      exact .inside todo hb hq' hl'
    · obtain ⟨pad', rfl, rfl⟩ := within_padding (fun h => hp (by simp [h])) hmore
      have hacc : handle s (b ++ p₀ ++ (q ++ r)) = handle s (p₀ ++ q ++ (r ++ pad')) := by
        rw [← hl.accepted s b r hb (List.prefix_append _ _)]
        simp
      have hok : (handle s (b ++ p₀ ++ (q ++ r))).2 = true := by
        rw [hacc]; exact hsmooth.1
      rw [piece_accepted k (by simp [hq]) hok, hacc]
      exact ⟨[_], todo, rfl, rfl, .ended todo blank_nil hl.pad_blank.right
        fun h => hl.sep_notMem (by simp [h])⟩
  | @ended _ pad todo hb hpad hsep =>
    obtain ⟨pad', rfl, rfl⟩ := within_padding hp htext.symm
    have hbp : Blank blank (kept ++ p) := hb.append hpad.left
    rw [piece_waits (hblank s _ hbp) hk]
    exact ⟨[], todo, rfl, rfl, .ended todo hbp hpad.right fun h => hsep (by simp [h])⟩
  | finished hb =>
    obtain ⟨rfl, rfl⟩ := List.append_eq_nil_iff.mp htext
    rw [List.append_nil] at hk ⊢
    rw [piece_waits (hblank s _ hb) hk]
    exact ⟨[], [], rfl, rfl, .finished hb⟩

theorem run_append (s : σ) (done more : List (List α)) :
    run handle s (done ++ more) = run handle (run handle s done) more :=
  List.foldl_append

theorem piece_stage_start (hblank : RefusesBlank handle blank) {s : σ} {k p rest : List α}
    {todo : List (List α)} (hk : Blank blank k) (hp : sep ∉ p) (hrest : p ++ rest = wire sep todo)
    (hframed : ∀ l ∈ todo, Framed handle sep blank l) (hsmooth : Smooth handle s todo) :
    ∃ done todo', todo = done ++ todo' ∧ (piece handle (s, k) p).1 = run handle s done ∧
      Stage handle sep blank (piece handle (s, k) p).2 todo' rest := by
  by_cases hnil : p = []
  · subst hnil
    rw [List.nil_append] at hrest
    exact ⟨[], todo, rfl, rfl, hrest ▸ .start hk hframed⟩
  · have hst : Stage handle sep blank [] todo (p ++ rest) := hrest ▸ .start blank_nil hframed
    rw [piece_kept s k [] hnil]
    exact piece_stage hblank hst hp hsmooth fun _ => rfl

variable [DecidableEq α]

theorem pieces_stage (hblank : RefusesBlank handle blank) {s : σ} {k chunk rest : List α}
    {todo : List (List α)} (hk : Blank blank k) (hrest : chunk ++ rest = wire sep todo)
    (hframed : ∀ l ∈ todo, Framed handle sep blank l) (hsmooth : Smooth handle s todo) :
    ∃ done todo', todo = done ++ todo' ∧
      ((chunk.splitOn sep).foldl (piece handle) (s, k)).1 = run handle s done ∧
      Stage handle sep blank ((chunk.splitOn sep).foldl (piece handle) (s, k)).2 todo' rest := by
  induction hn : chunk.length using Nat.strongRecOn generalizing s k chunk todo with
  | ind n ih =>
    rcases splitOn_cases sep chunk with ⟨hp, hsplit⟩ | ⟨p, more, rfl, hp, hsplit⟩
    · rw [hsplit]
      exact piece_stage_start hblank hk hp hrest hframed hsmooth
    · rw [List.append_assoc, List.cons_append] at hrest
      obtain ⟨done, todo', rfl, hrun, hstage⟩ :=
        piece_stage_start hblank hk hp hrest hframed hsmooth
      obtain ⟨hk', hmore⟩ := hstage.at_sep
      have hlen : more.length < n := by
        rw [← hn, List.length_append, List.length_cons]
        omega
      have hsmooth' : Smooth handle (piece handle (s, k) p).1 todo' := by
        rw [hrun]; exact hsmooth.drop
      obtain ⟨done', todo'', rfl, hrun', hstage'⟩ :=
        ih _ hlen hk' hmore (fun l hl => hframed l (by simp [hl])) hsmooth' rfl
      rw [hsplit, List.foldl_cons]
      exact ⟨done ++ done', todo'', by simp, by rw [run_append, ← hrun, hrun'], hstage'⟩

theorem feed_stage (hblank : RefusesBlank handle blank) (chunk : List α) {s : σ}
    {kept rest : List α} {todo : List (List α)}
    (hst : Stage handle sep blank kept todo (chunk ++ rest))
    (hframed : ∀ l ∈ todo, Framed handle sep blank l) (hsmooth : Smooth handle s todo) :
    ∃ done todo', todo = done ++ todo' ∧
      (feed handle sep (s, kept) chunk).1 = run handle s done ∧
      Stage handle sep blank (feed handle sep (s, kept) chunk).2 todo' rest := by
  have hk : ∀ p, kept ++ p = [] → kept = [] := fun _ h => (List.append_eq_nil_iff.mp h).1
  rcases splitOn_cases sep chunk with ⟨hp, hsplit⟩ | ⟨p, more, rfl, hp, hsplit⟩
  · rw [feed, hsplit]
    exact piece_stage hblank hst hp hsmooth (hk chunk)
  · rw [List.append_assoc, List.cons_append] at hst
    obtain ⟨done, todo', rfl, hrun, hstage⟩ := piece_stage hblank hst hp hsmooth (hk p)
    obtain ⟨hk', hmore⟩ := hstage.at_sep
    have hsmooth' : Smooth handle (piece handle (s, kept) (kept ++ p)).1 todo' := by
      rw [hrun]; exact hsmooth.drop
    obtain ⟨done', todo'', rfl, hrun', hstage'⟩ :=
      pieces_stage hblank hk' hmore (fun l hl => hframed l (by simp [hl])) hsmooth'
    rw [feed, hsplit, glue, List.foldl_cons]
    exact ⟨done ++ done', todo'', by simp, by rw [run_append, ← hrun, hrun'], hstage'⟩

/-- Chunking invariance: any cut of the stream gives the state of the uncut lines, and
only blank text is kept at its end. -/
theorem feed_chunks (hblank : RefusesBlank handle blank) {s : σ} {lines chunks : List (List α)}
    (hcut : chunks.flatten = wire sep lines) (hframed : ∀ l ∈ lines, Framed handle sep blank l)
    (hsmooth : Smooth handle s lines) :
    (chunks.foldl (feed handle sep) (s, [])).1 = run handle s lines ∧
      Blank blank (chunks.foldl (feed handle sep) (s, [])).2 := by
  suffices hgen : ∀ (cs : List (List α)) (st : σ × List α) (todo : List (List α)),
      Stage handle sep blank st.2 todo cs.flatten → (∀ l ∈ todo, Framed handle sep blank l) →
      Smooth handle st.1 todo →
      (cs.foldl (feed handle sep) st).1 = run handle st.1 todo ∧
        Blank blank (cs.foldl (feed handle sep) st).2 by
    exact hgen chunks (s, []) lines (by rw [hcut]; exact .start blank_nil hframed) hframed hsmooth
  intro cs
  induction cs with
  | nil =>
    intro st todo hst _ _
    obtain ⟨hkept, rfl⟩ := hst.at_end
    exact ⟨rfl, hkept⟩
  | cons c cs ih =>
    intro st todo hst hf hs
    obtain ⟨done, todo', rfl, hrun, hstage⟩ := feed_stage hblank c hst hf hs
    have hs' : Smooth handle (feed handle sep st c).1 todo' := by rw [hrun]; exact hs.drop
    rw [List.foldl_cons, run_append, ← hrun]
    exact ih _ todo' hstage (fun l hl => hf l (by simp [hl])) hs'

abbrev NoBlank : α → Prop := fun _ => False

omit [DecidableEq α] in
theorem blank_noBlank {b : List α} (h : Blank NoBlank b) : b = [] :=
  List.eq_nil_iff_forall_not_mem.mpr h

omit [DecidableEq α] in
theorem refusesBlank_noBlank : RefusesBlank handle NoBlank :=
  fun _ _ hb hne => absurd (blank_noBlank hb) hne

omit [DecidableEq α] in
theorem framed_noBlank {l : List α} (hl : l ≠ []) (hsep : sep ∉ l)
    (hno : ∀ s p q, p ++ q = l → q ≠ [] → p ≠ [] → handle s p = (s, false)) :
    Framed handle sep NoBlank l := by
  refine ⟨l, [], List.append_nil l, hl, by simpa using hsep, blank_nil, ?_, ?_⟩
  · intro s b p q hb hpq hq hne
    obtain rfl := blank_noBlank hb
    exact hno s p q hpq hq hne
  · intro s b r hb hr
    obtain rfl := blank_noBlank hb
    obtain rfl := List.prefix_nil.mp hr
    rfl

theorem feed_chunks_noBlank {s : σ} {lines chunks : List (List α)}
    (hcut : chunks.flatten = wire sep lines) (hframed : ∀ l ∈ lines, Framed handle sep NoBlank l)
    (hsmooth : Smooth handle s lines) :
    chunks.foldl (feed handle sep) (s, []) = (run handle s lines, []) := by
  obtain ⟨hrun, hkept⟩ := feed_chunks refusesBlank_noBlank hcut hframed hsmooth
  exact Prod.ext hrun (blank_noBlank hkept)

end LineReader
