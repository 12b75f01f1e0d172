import Mathlib.Data.List.Flatten
import Mathlib.Data.List.Basic
import Mathlib.Tactic.ByContra

/-!
# Collecting results along a list

A loop that gathers what each element contributes, and stops at the first error. Where it
passes a state on, and what an element leaves there does not depend on its result, it
collects over the elements paired with the states that they meet.
-/

namespace Collected
variable {α β ε : Type}

def collected (e : α → Except ε (List β)) (xs : List α) : Except ε (List β) :=
  (xs.mapM e).map List.flatten

def value (e : α → Except ε (List β)) (x : α) : List β := (e x).toOption.getD []

theorem ok_of_not_error {e : Except ε α} (h : ¬ ∃ err, e = .error err) : ∃ a, e = .ok a := by
  cases e with
  | error err => exact absurd ⟨err, rfl⟩ h
  | ok a => exact ⟨a, rfl⟩

theorem collected_of_ok {e : α → Except ε (List β)} {xs : List α} (h : ∀ x ∈ xs, ∃ ys, e x = .ok ys) :
    collected e xs = .ok (xs.flatMap (value e)) := by
  suffices hmap : xs.mapM e = .ok (xs.map (value e)) by
    rw [collected, hmap, List.flatMap_def]
    rfl
  induction xs with
  | nil => rfl
  | cons x xs ih =>
    obtain ⟨ys, hys⟩ := h x List.mem_cons_self
    rw [List.mapM_cons, hys, ih fun z hz => h z (List.mem_cons_of_mem x hz), List.map_cons]
    simp only [value, hys]
    rfl

theorem collected_of_error {e : α → Except ε (List β)} {xs : List α} (h : ∃ x ∈ xs, ∃ err, e x = .error err) :
    ∃ err, collected e xs = .error err := by
  suffices hmap : ∃ err, xs.mapM e = .error err by
    obtain ⟨err, herr⟩ := hmap
    exact ⟨err, by rw [collected, herr]; rfl⟩
  induction xs with
  | nil => simp at h
  | cons x xs ih =>
    rw [List.mapM_cons]
    cases hx : e x with
    | error err => exact ⟨err, rfl⟩
    | ok ys =>
      obtain ⟨z, hz, err, herr⟩ := h
      have hz' : z ∈ xs := by
        rcases List.mem_cons.mp hz with rfl | hz
        · rw [hx] at herr
          cases herr
        · exact hz
      obtain ⟨err', herr'⟩ := ih ⟨z, hz', err, herr⟩
      rw [herr']
      exact ⟨err', rfl⟩

theorem collected_eq_none_iff {e : α → Except ε (List β)} {xs : List α} :
    (collected e xs).toOption = none ↔ ∃ x ∈ xs, ∃ err, e x = .error err := by
  constructor
  · intro h
    by_contra hnot
    rw [collected_of_ok fun x hx => ok_of_not_error fun herr => hnot ⟨x, hx, herr⟩] at h
    cases h
  · intro h
    obtain ⟨err, herr⟩ := collected_of_error h
    rw [herr]
    rfl

theorem collected_ok_iff {e : α → Except ε (List β)} {xs : List α} :
    (∃ ys, collected e xs = .ok ys) ↔ ∀ x ∈ xs, ∃ ys, e x = .ok ys := by
  constructor
  · intro ⟨ys, hys⟩ x hx
    refine ok_of_not_error fun herr => ?_
    obtain ⟨err, herr⟩ := collected_of_error ⟨x, hx, herr⟩
    rw [herr] at hys
    cases hys
  · exact fun h => ⟨_, collected_of_ok h⟩

theorem collected_cons (e : α → Except ε (List β)) (x : α) (xs : List α) :
    collected e (x :: xs) = (e x).bind fun ys => (collected e xs).map (ys ++ ·) := by
  rw [collected, collected, List.mapM_cons]
  cases e x with
  | error err => rfl
  | ok ys => cases xs.mapM e <;> rfl

theorem collected_filter {e e' : α → Except ε (List β)} {p : α → Bool} {xs : List α}
    (h : ∀ x ∈ xs, e x = if p x then e' x else .ok []) : collected e' (xs.filter p) = collected e xs := by
  induction xs with
  | nil => rfl
  | cons x xs ih =>
    have hx := h x List.mem_cons_self
    have hrest := ih fun y hy => h y (List.mem_cons_of_mem x hy)
    rw [collected_cons, hx]
    cases hp : p x with
    | true => rw [List.filter_cons_of_pos hp, collected_cons, hrest, if_pos rfl]
    | false =>
      rw [List.filter_cons_of_neg (by simp [hp]), hrest, if_neg Bool.false_ne_true]
      cases collected e xs <;> rfl

theorem collected_keep {e : α → Except ε (List β)} {f : α → β} {keep : β → Bool} {xs : List α}
    (h : ∀ x ∈ xs, e x = .ok (if keep (f x) then [f x] else [])) :
    collected e xs = .ok ((xs.map f).filter keep) := by
  induction xs with
  | nil => rfl
  | cons x xs ih =>
    rw [collected_cons, h x List.mem_cons_self, ih fun y hy => h y (List.mem_cons_of_mem x hy), List.map_cons,
      List.filter_cons]
    cases keep (f x) <;> rfl

/-- A loop that passes a state from element to element. -/
def threaded {σ : Type} (e : σ → α → Except ε (List β × σ)) : σ → List α → Except ε (List β)
  | _, [] => .ok []
  | c, x :: xs => do
    let r ← e c x
    return r.1 ++ (← threaded e r.2 xs)

/-- Each element with the state that it meets. -/
def along {σ : Type} (next : σ → α → σ) : σ → List α → List (σ × α)
  | _, [] => []
  | c, x :: xs => (c, x) :: along next (next c x) xs

theorem threaded_eq_collected {σ : Type} {e : σ → α → Except ε (List β × σ)} {next : σ → α → σ}
    (hnext : ∀ c x r, e c x = .ok r → r.2 = next c x) (c : σ) (xs : List α) :
    threaded e c xs = collected (fun p => (e p.1 p.2).map Prod.fst) (along next c xs) := by
  induction xs generalizing c with
  | nil => rfl
  | cons x xs ih =>
    rw [threaded, along, collected, List.mapM_cons]
    generalize hg : (fun p : σ × α => (e p.1 p.2).map Prod.fst) = g at ih ⊢
    dsimp only
    cases hx : e c x with
    | error err => rfl
    | ok r =>
      have htail : threaded e r.2 xs = ((along next (next c x) xs).mapM g).map List.flatten := by
        rw [hnext c x r hx]
        exact ih (next c x)
      simp only [bind, Except.bind, htail]
      cases (along next (next c x) xs).mapM g <;> rfl

theorem map_snd_along {σ : Type} (next : σ → α → σ) (c : σ) (xs : List α) :
    (along next c xs).map Prod.snd = xs := by
  induction xs generalizing c with
  | nil => rfl
  | cons x xs ih => rw [along, List.map_cons, ih]

theorem along_map {σ γ : Type} (next : σ → α → σ) (f : γ → α) (c : σ) (xs : List γ) :
    along next c (xs.map f) = (along (fun c x => next c (f x)) c xs).map (Prod.map id f) := by
  induction xs generalizing c with
  | nil => rfl
  | cons x xs ih =>
    rw [List.map_cons, along, ih]
    rfl

theorem exists_along {σ : Type} [DecidableEq α] (next : σ → α → σ) (c : σ) {xs : List α}
    (hxs : xs.Nodup) : ∃ meets : α → σ, along next c xs = xs.map fun x => (meets x, x) := by
  induction xs generalizing c with
  | nil => exact ⟨fun _ => c, rfl⟩
  | cons x xs ih =>
    obtain ⟨hx, hrest⟩ := List.nodup_cons.mp hxs
    obtain ⟨meets, hmeets⟩ := ih (next c x) hrest
    refine ⟨fun y => if y = x then c else meets y, ?_⟩
    rw [along, hmeets, List.map_cons]
    dsimp only
    rw [if_pos rfl]
    refine congrArg _ (List.map_congr_left fun y hy => ?_)
    have hne : y ≠ x := by
      rintro rfl
      exact hx hy
    rw [if_neg hne]

theorem collected_map {γ : Type} (e : α → Except ε (List β)) (f : γ → α) (xs : List γ) :
    collected e (xs.map f) = collected (fun x => e (f x)) xs := by
  rw [collected, collected, List.mapM_map]
  rfl

variable (f : α → β)

/-- Every result is a number of copies of the element. -/
def Copies (e : α → Except ε (List β)) : Prop := ∀ x ys, e x = .ok ys → ∃ n, ys = List.replicate n (f x)

variable [DecidableEq β]

theorem count_replicas (m : α → ℕ) {xs : List α} {x : α} (hm : ∀ y ∈ xs, f y = f x → m y = m x) :
    (xs.flatMap fun y => List.replicate (m y) (f y)).count (f x) = (xs.map f).count (f x) * m x := by
  induction xs with
  | nil => simp
  | cons y xs ih =>
    rw [List.flatMap_cons, List.count_append, ih fun z hz => hm z (List.mem_cons_of_mem y hz),
      List.map_cons, List.count_cons, Nat.add_mul, Nat.add_comm]
    by_cases hxy : f y = f x
    · simp [hxy, hm y List.mem_cons_self hxy]
    · simp [List.count_replicate, hxy]

theorem replicas_eq_iff {m n : α → ℕ} {xs : List α}
    (halike : ∀ x ∈ xs, ∀ y ∈ xs, f y = f x → m y = m x ∧ n y = n x) :
    (xs.flatMap fun x => List.replicate (m x) (f x)) = (xs.flatMap fun x => List.replicate (n x) (f x)) ↔
      ∀ x ∈ xs, m x = n x := by
  constructor
  · intro h x hx
    have hcount := congrArg (List.count (f x)) h
    rw [count_replicas f m fun y hy hxy => (halike x hx y hy hxy).1,
      count_replicas f n fun y hy hxy => (halike x hx y hy hxy).2] at hcount
    exact Nat.eq_of_mul_eq_mul_left (List.count_pos_iff.mpr (List.mem_map_of_mem hx)) hcount
  · intro h
    exact List.flatMap_congr fun x hx => by rw [h x hx]

variable {f}

omit [DecidableEq β] in
theorem collected_of_copies {e : α → Except ε (List β)} (hcopies : Copies f e) {xs : List α}
    (hall : ∀ x ∈ xs, ∃ ys, e x = .ok ys) :
    (∀ x ∈ xs, e x = .ok (List.replicate (value e x).length (f x))) ∧
      collected e xs = .ok (xs.flatMap fun x => List.replicate (value e x).length (f x)) := by
  have hvalue : ∀ x ∈ xs, e x = .ok (List.replicate (value e x).length (f x)) := by
    intro x hx
    obtain ⟨ys, hys⟩ := hall x hx
    obtain ⟨n, rfl⟩ := hcopies x ys hys
    simp [value, hys, Except.toOption]
  refine ⟨hvalue, ?_⟩
  rw [collected_of_ok hall]
  refine congrArg Except.ok (List.flatMap_congr fun x hx => ?_)
  have hx := hvalue x hx
  conv_lhs => rw [value, hx]
  rfl

theorem collected_filter_iff {e e' : α → Except ε (List β)} (hcopies : Copies f e)
    (hcopies' : Copies f e') (p : α → Bool) {xs : List α}
    (halike : ∀ x ∈ xs, ∀ y ∈ xs, f y = f x → e y = e x ∧ p y = p x ∧ e' y = e' x) :
    (collected e' (xs.filter p)).toOption = (collected e xs).toOption ↔
      (∃ x ∈ xs, p x = true ∧ ∃ err, e' x = .error err) ∧ (∃ x ∈ xs, ∃ err, e x = .error err) ∨
        ∀ x ∈ xs, e x = if p x then e' x else .ok [] := by
  by_cases hbad' : ∃ x ∈ xs, p x = true ∧ ∃ err, e' x = .error err
  · have hnone : (collected e' (xs.filter p)).toOption = none := by
      obtain ⟨x, hx, hp, herr⟩ := hbad'
      exact collected_eq_none_iff.mpr ⟨x, List.mem_filter.mpr ⟨hx, hp⟩, herr⟩
    rw [hnone, eq_comm, collected_eq_none_iff, and_iff_right hbad', or_iff_left_of_imp]
    intro h
    obtain ⟨x, hx, hp, err, herr⟩ := hbad'
    exact ⟨x, hx, err, by rw [h x hx, if_pos hp, herr]⟩
  have hall' : ∀ x ∈ xs.filter p, ∃ ys, e' x = .ok ys := by
    intro x hx
    obtain ⟨hmem, hp⟩ := List.mem_filter.mp hx
    exact ok_of_not_error fun herr => hbad' ⟨x, hmem, hp, herr⟩
  rw [or_iff_right fun h => hbad' h.1]
  by_cases hbad : ∃ x ∈ xs, ∃ err, e x = .error err
  · rw [collected_eq_none_iff.mpr hbad, collected_of_ok hall']
    refine iff_of_false (by simp [Except.toOption]) fun h => ?_
    obtain ⟨x, hx, err, herr⟩ := hbad
    rw [h x hx] at herr
    split_ifs at herr with hp
    exact hbad' ⟨x, hx, hp, err, herr⟩
  have hall : ∀ x ∈ xs, ∃ ys, e x = .ok ys := fun x hx =>
    ok_of_not_error fun herr => hbad ⟨x, hx, herr⟩
  obtain ⟨hvalue, hcollected⟩ := collected_of_copies hcopies hall
  obtain ⟨hvalue', hcollected'⟩ := collected_of_copies hcopies' hall'
  have hfilter : ((xs.filter p).flatMap fun x => List.replicate (value e' x).length (f x)) =
      xs.flatMap fun x => List.replicate (if p x then (value e' x).length else 0) (f x) := by
    clear * -
    induction xs with
    | nil => rfl
    | cons x xs ih => cases hp : p x <;> simp [hp, ih]
  rw [hcollected, hcollected', hfilter]
  change some _ = some _ ↔ _
  rw [Option.some_inj, replicas_eq_iff f fun x hx y hy hxy => ?_]
  · refine forall₂_congr fun x hx => ?_
    split_ifs with hp
    · have hcopy := hvalue x hx
      have hcopy' := hvalue' x (List.mem_filter.mpr ⟨hx, hp⟩)
      generalize (value e x).length = m at hcopy ⊢
      generalize (value e' x).length = n at hcopy' ⊢
      rw [hcopy, hcopy', Except.ok.injEq, List.replicate_inj]
      simp [eq_comm]
    · have hcopy := hvalue x hx
      generalize (value e x).length = m at hcopy ⊢
      rw [hcopy, Except.ok.injEq, List.replicate_eq_nil_iff]
      exact eq_comm
  · obtain ⟨he, hp, he'⟩ := halike x hx y hy hxy
    have hvalues : value e y = value e x ∧ value e' y = value e' x := by
      simp only [value, he, he', and_self]
    exact ⟨by rw [hp, hvalues.2], by rw [hvalues.1]⟩

theorem collected_eq_filter_iff {e : α → Except ε (List β)} (hcopies : Copies f e) (keep : β → Bool)
    {xs : List α} (halike : ∀ x ∈ xs, ∀ y ∈ xs, f y = f x → e y = e x) :
    (collected e xs).toOption = some ((xs.map f).filter keep) ↔
      ∀ x ∈ xs, e x = .ok (if keep (f x) then [f x] else []) := by
  have hkeep : (xs.map f).filter keep =
      xs.flatMap fun x => List.replicate (if keep (f x) then 1 else 0) (f x) := by
    clear halike
    induction xs with
    | nil => rfl
    | cons x xs ih => cases hx : keep (f x) <;> simp [hx, ih]
  by_cases hall : ∀ x ∈ xs, ∃ ys, e x = .ok ys
  · obtain ⟨hvalue, hcollected⟩ := collected_of_copies hcopies hall
    rw [hcollected, hkeep]
    change some _ = some _ ↔ _
    rw [Option.some_inj, replicas_eq_iff f fun x hx y hy hxy => ?_]
    · refine forall₂_congr fun x hx => ?_
      have hcopy : (if keep (f x) then [f x] else []) = List.replicate (if keep (f x) then 1 else 0) (f x) := by
        cases keep (f x) <;> rfl
      rw [hvalue x hx, Except.ok.injEq, hcopy, List.replicate_inj]
      simp
    · have hvalues : value e y = value e x := by simp only [value, halike x hx y hy hxy]
      exact ⟨by rw [hvalues], by rw [hxy]⟩
  · refine iff_of_false (fun h => ?_) fun h => hall fun x hx => ⟨_, h x hx⟩
    have hnone : (collected e xs).toOption = none := by
      rw [collected_eq_none_iff]
      by_contra hnot
      exact hall fun x hx => ok_of_not_error fun herr => hnot ⟨x, hx, herr⟩
    rw [hnone] at h
    cases h

theorem replicas_sublist_iff (f : α → β) {m : α → ℕ} {xs : List α}
    (halike : ∀ x ∈ xs, ∀ y ∈ xs, f y = f x → m y = m x) :
    (xs.flatMap fun x => List.replicate (m x) (f x)).Sublist (xs.map f) ↔ ∀ x ∈ xs, m x ≤ 1 := by
  constructor
  · intro h x hx
    have hcount := h.count_le (f x)
    rw [count_replicas f m fun y hy hxy => halike x hx y hy hxy] at hcount
    have hpos := List.count_pos_iff.mpr (List.mem_map_of_mem (f := f) hx)
    by_contra hm
    have htwo : (xs.map f).count (f x) * 2 ≤ (xs.map f).count (f x) * m x :=
      Nat.mul_le_mul_left _ (by omega)
    omega
  · clear halike
    intro h
    induction xs with
    | nil => exact .refl _
    | cons y ys ih =>
      have hrest := ih fun x hx => h x (List.mem_cons_of_mem y hx)
      obtain hm | hm : m y = 0 ∨ m y = 1 := by
        have hy := h y List.mem_cons_self
        omega
      · rw [List.flatMap_cons, hm]
        exact hrest.cons (f y)
      · rw [List.flatMap_cons, hm]
        exact hrest.cons_cons (f y)

theorem collected_sublist_iff {e : α → Except ε (List β)} (hcopies : Copies f e) {xs : List α}
    (halike : ∀ x ∈ xs, ∀ y ∈ xs, f y = f x → value e y = value e x) :
    (∃ out, collected e xs = .ok out ∧ out.Sublist (xs.map f)) ↔
      ∀ x ∈ xs, ∃ n ≤ 1, e x = .ok (List.replicate n (f x)) := by
  by_cases hall : ∀ x ∈ xs, ∃ ys, e x = .ok ys
  · obtain ⟨hvalue, hcollected⟩ := collected_of_copies hcopies hall
    rw [hcollected]
    simp only [Except.ok.injEq, exists_eq_left']
    rw [replicas_sublist_iff f fun x hx y hy hxy => by rw [halike x hx y hy hxy]]
    refine forall₂_congr fun x hx => ?_
    constructor
    · exact fun hle => ⟨_, hle, hvalue x hx⟩
    · intro ⟨n, hn, heq⟩
      rw [hvalue x hx, Except.ok.injEq] at heq
      have hlen := congrArg List.length heq
      rw [List.length_replicate, List.length_replicate] at hlen
      omega
  · refine iff_of_false ?_ fun h => hall fun x hx => ?_
    · intro ⟨out, hout, _⟩
      exact hall (collected_ok_iff.mp ⟨out, hout⟩)
    · obtain ⟨n, -, hn⟩ := h x hx
      exact ⟨_, hn⟩

end Collected
