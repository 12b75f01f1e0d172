import Mathlib.Data.List.Infix
import Mathlib.Tactic.Ring

/-!
# Replacing parts of a text

Every occurrence of a part is replaced from the left, and what was put in its place is not
looked at again. A unit that is not in the part separates texts that are replaced each for
itself.
-/

namespace Replace

variable {α : Type} [DecidableEq α] {old new : List α}

/-- The number of units that belong to the last occurrence and are still to be skipped. -/
def replaceFrom (old new : List α) : ℕ → List α → List α
  | _, [] => []
  | n + 1, _ :: s => replaceFrom old new n s
  | 0, c :: s =>
    if old <+: c :: s then new ++ replaceFrom old new (old.length - 1) s else c :: replaceFrom old new 0 s

def replace (old new s : List α) : List α := replaceFrom old new 0 s

@[simp] theorem replace_nil : replace old new [] = [] := rfl

theorem replaceFrom_append (s t : List α) : replaceFrom old new s.length (s ++ t) = replace old new t := by
  induction s with
  | nil => rfl
  | cons c s ih => exact ih

theorem replace_match (hold : old ≠ []) (t : List α) :
    replace old new (old ++ t) = new ++ replace old new t := by
  obtain ⟨c, rest, rfl⟩ := List.exists_cons_of_ne_nil hold
  rw [List.cons_append, replace, replaceFrom, if_pos ⟨t, rfl⟩]
  exact congrArg (new ++ ·) (replaceFrom_append rest t)

theorem replace_cons {c : α} {s : List α} (h : ¬ old <+: c :: s) :
    replace old new (c :: s) = c :: replace old new s := by
  rw [replace, replaceFrom, if_neg h]
  rfl

theorem replace_cases (hold : old ≠ []) (s : List α) : s = [] ∨
    (∃ t, s = old ++ t ∧ t.length < s.length ∧ replace old new s = new ++ replace old new t) ∨
    ∃ c t, s = c :: t ∧ ¬ old <+: s ∧ replace old new s = c :: replace old new t := by
  cases s with
  | nil => exact .inl rfl
  | cons c s =>
    by_cases h : old <+: c :: s
    · obtain ⟨t, ht⟩ := h
      refine .inr (.inl ⟨t, ht.symm, ?_, by rw [← ht, replace_match hold]⟩)
      have hlen := congrArg List.length ht
      have hpos := List.length_pos_of_ne_nil hold
      rw [List.length_append] at hlen
      omega
    · exact .inr (.inr ⟨c, s, rfl, h, replace_cons h⟩)

theorem replace_append {s t : List α} (h : ∀ r, r <:+ s → r ≠ [] → ¬ old <+: r ++ t) :
    replace old new (s ++ t) = s ++ replace old new t := by
  induction s with
  | nil => rfl
  | cons c s ih =>
    have hhead : ¬ old <+: c :: (s ++ t) := h (c :: s) List.suffix_rfl (List.cons_ne_nil c s)
    rw [List.cons_append, replace_cons hhead, ih fun r hr => h r (hr.trans (List.suffix_cons c s))]
    rfl

theorem replace_of_not_infix {s : List α} (h : ¬ old <:+: s) : replace old new s = s := by
  have happend : replace old new (s ++ []) = s ++ replace old new [] := by
    refine replace_append fun r hr _ hpre => ?_
    rw [List.append_nil] at hpre
    exact h (hpre.isInfix.trans hr.isInfix)
  rwa [List.append_nil, replace_nil, List.append_nil] at happend

omit [DecidableEq α] in
theorem prefix_of_prefix_append {sep : α} (hsep : sep ∉ old) {s t : List α} (h : old <+: s ++ sep :: t) :
    old <+: s := by
  rcases List.prefix_or_prefix_of_prefix h (List.prefix_append s (sep :: t)) with hpre | ⟨r, hr⟩
  · exact hpre
  · cases r with
    | nil => rw [← hr, List.append_nil]
    | cons d r =>
      obtain ⟨u, hu⟩ := h
      rw [← hr, List.append_assoc, List.append_cancel_left_eq] at hu
      obtain rfl : d = sep := (List.cons.inj hu).1
      exact absurd (by rw [← hr]; simp) hsep

omit [DecidableEq α] in
theorem append_separator_inj {sep : α} {u v s t : List α} (hu : sep ∉ u) (hv : sep ∉ v)
    (h : u ++ sep :: s = v ++ sep :: t) : u = v ∧ s = t := by
  have hleft : u <+: v := prefix_of_prefix_append hu ⟨sep :: s, h⟩
  have hright : v <+: u := prefix_of_prefix_append hv ⟨sep :: t, h.symm⟩
  obtain rfl := hleft.eq_of_length (le_antisymm hleft.length_le hright.length_le)
  exact ⟨rfl, (List.cons.inj (List.append_cancel_left h)).2⟩

theorem replace_separator {sep : α} (hold : old ≠ []) (hsep : sep ∉ old) (s t : List α) :
    replace old new (s ++ sep :: t) = replace old new s ++ sep :: replace old new t := by
  induction hn : s.length using Nat.strong_induction_on generalizing s with
  | _ n ih =>
    rcases @replace_cases α _ old new hold s with rfl | ⟨r, rfl, hlen, hr⟩ | ⟨c, r, rfl, hnot, hr⟩
    · refine replace_cons fun hpre => ?_
      have hnil := prefix_of_prefix_append hsep (show old <+: [] ++ sep :: t from hpre)
      exact hold (List.prefix_nil.mp hnil)
    · rw [hr, List.append_assoc, replace_match hold, ih _ (hn ▸ hlen) r rfl, List.append_assoc]
    · have hnot' : ¬ old <+: c :: (r ++ sep :: t) := fun hpre =>
        hnot (prefix_of_prefix_append hsep (show old <+: c :: r ++ sep :: t from hpre))
      rw [hr, List.cons_append, List.cons_append, replace_cons hnot', ih _ (by rw [← hn]; simp) r rfl]

theorem replace_intercalate {sep : α} (hold : old ≠ []) (hsep : sep ∉ old) (texts : List (List α)) :
    replace old new ([sep].intercalate texts) = [sep].intercalate (texts.map (replace old new)) := by
  induction texts with
  | nil => rfl
  | cons s texts ih =>
    cases texts with
    | nil => simp
    | cons t texts =>
      rw [List.map_cons, List.map_cons, List.intercalate_cons_cons, List.intercalate_cons_cons,
        List.append_assoc, List.append_assoc, List.singleton_append, List.singleton_append,
        replace_separator hold hsep, ih, List.map_cons]

theorem count_replace (hold : old ≠ []) (c : α) (s : List α) : ∃ n,
    (replace old new s).count c + n * old.count c = s.count c + n * new.count c := by
  induction hlen : s.length using Nat.strong_induction_on generalizing s with
  | _ m ih =>
    rcases @replace_cases α _ old new hold s with rfl | ⟨r, rfl, hshort, hr⟩ | ⟨d, r, rfl, -, hr⟩
    · exact ⟨0, by simp⟩
    · obtain ⟨n, hn⟩ := ih _ (hlen ▸ hshort) r rfl
      refine ⟨n + 1, ?_⟩
      rw [hr, List.count_append, List.count_append, Nat.add_mul, Nat.add_mul]
      omega
    · obtain ⟨n, hn⟩ := ih _ (by rw [← hlen]; simp) r rfl
      refine ⟨n, ?_⟩
      rw [hr, List.count_cons, List.count_cons]
      omega

theorem notMem_replace (hold : old ≠ []) {c : α} {s : List α} (hs : c ∉ s) (hnew : c ∉ new) :
    c ∉ replace old new s := by
  obtain ⟨n, hn⟩ := @count_replace α _ old new hold c s
  rw [List.count_eq_zero.mpr hs, List.count_eq_zero.mpr hnew] at hn
  rw [← List.count_eq_zero]
  omega

theorem count_le_replace (hold : old ≠ []) {c : α} (hc : c ∉ old) (s : List α) :
    s.count c ≤ (replace old new s).count c := by
  obtain ⟨n, hn⟩ := @count_replace α _ old new hold c s
  rw [List.count_eq_zero.mpr hc] at hn
  omega

theorem sum_replace (hold : old ≠ []) {weight : α → ℕ} (hnew : (new.map weight).sum = (old.map weight).sum)
    (s : List α) : ((replace old new s).map weight).sum = (s.map weight).sum := by
  induction hlen : s.length using Nat.strong_induction_on generalizing s with
  | _ m ih =>
    rcases @replace_cases α _ old new hold s with rfl | ⟨r, rfl, hshort, hr⟩ | ⟨d, r, rfl, -, hr⟩
    · rfl
    · rw [hr, List.map_append, List.sum_append, List.map_append, List.sum_append, hnew,
        ih _ (hlen ▸ hshort) r rfl]
    · rw [hr, List.map_cons, List.sum_cons, List.map_cons, List.sum_cons, ih _ (by rw [← hlen]; simp) r rfl]

variable {blank : α} {word : List α}

theorem replace_word {w : List α} (hw : blank ∉ w) (hword : blank ∉ word) (hend : ¬ w <:+ word) (t : List α) :
    replace (w ++ [blank]) new (word ++ blank :: t) = word ++ blank :: replace (w ++ [blank]) new t := by
  have hbefore : ∀ r, r <:+ word ++ [blank] → r ≠ [] → ¬ w ++ [blank] <+: r ++ t := by
    intro r hr hne hpre
    obtain ⟨p, hp⟩ := hr
    obtain ⟨r', rfl⟩ : ∃ r', r = r' ++ [blank] := by
      obtain ⟨r', c, rfl⟩ := List.eq_nil_or_concat' r |>.resolve_left hne
      rw [← List.append_assoc] at hp
      exact ⟨r', by rw [(List.append_inj' hp rfl).2]⟩
    rw [← List.append_assoc] at hp
    have hp' : p ++ r' = word := (List.append_inj' hp rfl).1
    have hr' : blank ∉ r' := fun hmem => hword (hp' ▸ List.mem_append_right p hmem)
    obtain ⟨u, hu⟩ := hpre
    rw [List.append_assoc, List.append_assoc, List.singleton_append, List.singleton_append] at hu
    exact hend ((append_separator_inj hw hr' hu).1 ▸ ⟨p, hp'⟩)
  have happend : replace (w ++ [blank]) new (word ++ [blank] ++ t) =
      word ++ [blank] ++ replace (w ++ [blank]) new t := replace_append hbefore
  rwa [List.append_assoc, List.singleton_append, List.append_assoc, List.singleton_append] at happend

theorem replace_word_end {w : List α} (hw : blank ∉ w) (hword : blank ∉ word) (t : List α) :
    replace (w ++ [blank]) new (word ++ w ++ blank :: t) =
      word ++ new ++ replace (w ++ [blank]) new t := by
  have hbefore : ∀ r, r <:+ word → r ≠ [] → ¬ w ++ [blank] <+: r ++ (w ++ blank :: t) := by
    intro r hr hrne hpre
    obtain ⟨p, rfl⟩ := hr
    obtain ⟨u, hu⟩ := hpre
    have hr' : blank ∉ r ++ w := by
      rw [List.mem_append, not_or]
      exact ⟨fun hmem => hword (List.mem_append_right p hmem), hw⟩
    rw [← List.append_assoc, List.append_assoc w, List.singleton_append] at hu
    exact hrne (List.append_left_eq_self.mp (append_separator_inj hw hr' hu).1.symm)
  rw [List.append_assoc, replace_append hbefore, List.append_assoc]
  have hmatch : replace (w ++ [blank]) new (w ++ [blank] ++ t) = new ++ replace (w ++ [blank]) new t :=
    replace_match (by simp) t
  rw [List.append_assoc, List.singleton_append] at hmatch
  rw [hmatch]

theorem replace_between {w u t : List α} (hu : blank ∉ u) (ht : blank ∉ t) :
    replace (blank :: (w ++ [blank])) new (u ++ blank :: (w ++ blank :: t)) = u ++ new ++ t := by
  have hbefore : ∀ r, r <:+ u → r ≠ [] → ¬ blank :: (w ++ [blank]) <+: r ++ blank :: (w ++ blank :: t) := by
    intro r hr hne hpre
    obtain ⟨c, r, rfl⟩ := List.exists_cons_of_ne_nil hne
    obtain rfl : blank = c := (List.cons_prefix_cons.mp hpre).1
    exact hu (hr.mem List.mem_cons_self)
  have hmatch : replace (blank :: (w ++ [blank])) new (blank :: (w ++ [blank]) ++ t) =
      new ++ replace (blank :: (w ++ [blank])) new t := replace_match (by simp) t
  have hrest : replace (blank :: (w ++ [blank])) new t = t :=
    replace_of_not_infix fun h => ht (h.mem List.mem_cons_self)
  rw [hrest, List.cons_append, List.append_assoc, List.singleton_append] at hmatch
  rw [replace_append hbefore, hmatch, List.append_assoc]

theorem replace_between_ne {w u v t : List α} (hw : blank ∉ w) (hu : blank ∉ u) (hv : blank ∉ v)
    (ht : blank ∉ t) (hne : w ≠ v) :
    replace (blank :: (w ++ [blank])) new (u ++ blank :: (v ++ blank :: t)) = u ++ blank :: (v ++ blank :: t) := by
  refine replace_of_not_infix fun hin => ?_
  obtain ⟨p, q, hpq⟩ := hin
  have hsame : p ++ blank :: (w ++ blank :: q) = u ++ blank :: (v ++ blank :: t) := by
    rw [← hpq]
    simp
  -- the two blanks of the part are all the blanks there are
  have hcount := congrArg (List.count blank) hsame
  simp only [List.count_append, List.count_cons_self, List.count_eq_zero.mpr hw,
    List.count_eq_zero.mpr hu, List.count_eq_zero.mpr hv, List.count_eq_zero.mpr ht] at hcount
  have hp : blank ∉ p := List.count_eq_zero.mp (by omega)
  exact hne (append_separator_inj hw hv (append_separator_inj hp hu hsame).2).1

def replaceEach (new : List α) (olds : List (List α)) (s : List α) : List α :=
  olds.foldl (fun out old => replace old new out) s

variable {olds : List (List α)}

@[simp] theorem replaceEach_cons (w : List α) (s : List α) :
    replaceEach new (w :: olds) s = replaceEach new olds (replace w new s) := rfl

theorem replaceEach_intercalate {sep : α} (holds : ∀ old ∈ olds, old ≠ [] ∧ sep ∉ old)
    (texts : List (List α)) :
    replaceEach new olds ([sep].intercalate texts) = [sep].intercalate (texts.map (replaceEach new olds)) := by
  induction olds generalizing texts with
  | nil => exact congrArg ([sep].intercalate ·) (List.map_id texts).symm
  | cons old olds ih =>
    obtain ⟨⟨hold, hsep⟩, holds⟩ := List.forall_mem_cons.mp holds
    rw [replaceEach_cons, replace_intercalate hold hsep, ih holds, List.map_map]
    rfl

theorem notMem_replaceEach (holds : ∀ old ∈ olds, old ≠ []) {c : α} {s : List α} (hs : c ∉ s)
    (hnew : c ∉ new) : c ∉ replaceEach new olds s := by
  induction olds generalizing s with
  | nil => exact hs
  | cons old olds ih =>
    obtain ⟨hold, holds⟩ := List.forall_mem_cons.mp holds
    exact ih holds (notMem_replace hold hs hnew)

theorem count_le_replaceEach {c : α} (holds : ∀ old ∈ olds, old ≠ [] ∧ c ∉ old) (s : List α) :
    s.count c ≤ (replaceEach new olds s).count c := by
  induction olds generalizing s with
  | nil => exact le_rfl
  | cons old olds ih =>
    obtain ⟨⟨hold, hc⟩, holds⟩ := List.forall_mem_cons.mp holds
    exact (count_le_replace hold hc s).trans (ih holds _)

theorem sum_replaceEach {weight : α → ℕ}
    (holds : ∀ old ∈ olds, old ≠ [] ∧ (new.map weight).sum = (old.map weight).sum) (s : List α) :
    ((replaceEach new olds s).map weight).sum = (s.map weight).sum := by
  induction olds generalizing s with
  | nil => rfl
  | cons old olds ih =>
    obtain ⟨⟨hold, hnew⟩, holds⟩ := List.forall_mem_cons.mp holds
    rw [replaceEach_cons, ih holds, sum_replace hold hnew]

theorem replaceEach_head {c : α} (holds : ∀ old ∈ olds, old ≠ [] ∧ old.head? ≠ some c) (s : List α) :
    replaceEach new olds (c :: s) = c :: replaceEach new olds s := by
  induction olds generalizing s with
  | nil => rfl
  | cons old olds ih =>
    obtain ⟨⟨hold, hhead⟩, holds⟩ := List.forall_mem_cons.mp holds
    have hnot : ¬ old <+: c :: s := by
      obtain ⟨d, old, rfl⟩ := List.exists_cons_of_ne_nil hold
      exact fun hpre => hhead (congrArg some (List.cons_prefix_cons.mp hpre).1)
    rw [replaceEach_cons, replace_cons hnot, ih holds, replaceEach_cons]

theorem replaceEach_eq_self {c : α} (holds : ∀ old ∈ olds, c ∈ old) {s : List α} (hs : c ∉ s) :
    replaceEach new olds s = s := by
  induction olds with
  | nil => rfl
  | cons old olds ih =>
    obtain ⟨hc, holds⟩ := List.forall_mem_cons.mp holds
    rw [replaceEach_cons, replace_of_not_infix fun h => hs (h.mem hc), ih holds]

variable {ws : List (List α)}

theorem replaceEach_word (hws : ∀ w ∈ ws, blank ∉ w) (hword : blank ∉ word)
    (hend : ∀ w ∈ ws, ¬ w <:+ word) (t : List α) :
    replaceEach new (ws.map (· ++ [blank])) (word ++ blank :: t) =
      word ++ blank :: replaceEach new (ws.map (· ++ [blank])) t := by
  induction ws generalizing t with
  | nil => rfl
  | cons w ws ih =>
    obtain ⟨hw, hws⟩ := List.forall_mem_cons.mp hws
    obtain ⟨hnot, hend⟩ := List.forall_mem_cons.mp hend
    rw [List.map_cons, replaceEach_cons, replace_word hw hword hnot, ih hws hend, replaceEach_cons]

theorem mem_replaceEach_word {c : α} (hws : ∀ w ∈ ws, blank ∉ w ∧ c ∉ w) (hcb : c ≠ blank)
    (hword : blank ∉ word) (hend : ∃ w ∈ ws, w <:+ word) (t : List α) :
    c ∈ replaceEach [c] (ws.map (· ++ [blank])) (word ++ blank :: t) := by
  induction ws generalizing t with
  | nil => exact absurd hend (by simp)
  | cons w ws ih =>
    obtain ⟨⟨hw, -⟩, hws⟩ := List.forall_mem_cons.mp hws
    rw [List.map_cons, replaceEach_cons]
    by_cases hsuf : w <:+ word
    · -- it comes in here and is not lost later
      obtain ⟨p, rfl⟩ := hsuf
      rw [replace_word_end hw fun h => hword (List.mem_append_left w h)]
      refine List.count_pos_iff.mp (lt_of_lt_of_le ?_ (count_le_replaceEach (fun old hold => ?_) _))
      · simp
      · obtain ⟨v, hv, rfl⟩ := List.mem_map.mp hold
        exact ⟨by simp, by simp [(hws v hv).2, hcb]⟩
    · rw [replace_word hw hword hsuf]
      obtain ⟨v, hv, hvsuf⟩ := hend
      rcases List.mem_cons.mp hv with rfl | hv
      · exact absurd hvsuf hsuf
      · exact ih hws ⟨v, hv, hvsuf⟩ _

theorem replaceEach_word_self {c : α} (hws : ∀ w ∈ ws, blank ∉ w ∧ w ≠ [] ∧ c ∉ w)
    (hword : word ∈ ws) (hend : ∀ w ∈ ws, w <:+ word → w = word) (t : List α) :
    replaceEach [c] (ws.map (· ++ [blank])) (word ++ blank :: t) =
      c :: replaceEach [c] (ws.map (· ++ [blank])) t := by
  have hblank : blank ∉ word := (hws word hword).1
  induction ws generalizing t with
  | nil => cases hword
  | cons w ws ih =>
    obtain ⟨⟨hw, -, -⟩, hws⟩ := List.forall_mem_cons.mp hws
    obtain ⟨hsuf, hend⟩ := List.forall_mem_cons.mp hend
    rw [List.map_cons, replaceEach_cons, replaceEach_cons]
    by_cases heq : w = word
    · subst heq
      have hmatch : replace (w ++ [blank]) [c] ([] ++ w ++ blank :: t) =
          [] ++ [c] ++ replace (w ++ [blank]) [c] t := replace_word_end hw List.not_mem_nil t
      rw [List.nil_append, List.nil_append, List.singleton_append] at hmatch
      rw [hmatch, replaceEach_head fun old hold => ?_]
      obtain ⟨v, hv, rfl⟩ := List.mem_map.mp hold
      obtain ⟨-, hne, hc⟩ := hws v hv
      obtain ⟨d, v, rfl⟩ := List.exists_cons_of_ne_nil hne
      exact ⟨by simp, fun h => hc (by simp [Option.some.inj h])⟩
    · rw [replace_word hw hblank fun h => heq (hsuf h),
        ih hws ((List.mem_cons.mp hword).resolve_left (Ne.symm heq)) hend]

theorem replaceEach_between {w u t : List α} (hws : ∀ w ∈ ws, blank ∉ w) (hw : w ∈ ws) (hu : blank ∉ u)
    (ht : blank ∉ t) (hnew : blank ∉ new) :
    replaceEach new (ws.map fun w => blank :: (w ++ [blank])) (u ++ blank :: (w ++ blank :: t)) =
      u ++ new ++ t := by
  have hblank : blank ∉ w := hws w hw
  induction ws with
  | nil => cases hw
  | cons v ws ih =>
    obtain ⟨hv, hws⟩ := List.forall_mem_cons.mp hws
    rw [List.map_cons, replaceEach_cons]
    by_cases heq : v = w
    · subst heq
      rw [replace_between hu ht]
      refine replaceEach_eq_self (c := blank) (fun old hold => ?_) ?_
      · obtain ⟨x, -, rfl⟩ := List.mem_map.mp hold
        exact List.mem_cons_self
      · simp [hu, ht, hnew]
    · rw [replace_between_ne hv hu hblank ht heq]
      exact ih hws ((List.mem_cons.mp hw).resolve_left (Ne.symm heq))

end Replace
