import Mathlib.Data.List.Basic

/-!
# Programs that call a store

A program returns, stops with an error, or makes a call and goes on with its reply.
It is run against a handler that answers each call from a state. What every call
keeps, every run keeps; what the calls of a program cannot touch, its run does not.
-/

namespace Calls

variable {C : Type} {R : C → Type} {ε α β σ : Type}

inductive Prog (C : Type) (R : C → Type) (ε α : Type)
  | ret (a : α)
  | throw (e : ε)
  | call (c : C) (k : R c → Prog C R ε α)

namespace Prog

def bind : Prog C R ε α → (α → Prog C R ε β) → Prog C R ε β
  | .ret a, f => f a
  | .throw e, _ => .throw e
  | .call c k, f => .call c fun r => (k r).bind f

instance : Monad (Prog C R ε) where
  pure := .ret
  bind := bind

theorem bind_ret (p : Prog C R ε α) : p.bind .ret = p := by
  induction p with
  | ret | throw => rfl
  | call c k ih => simp only [bind, ih]

theorem bind_bind {γ : Type} (p : Prog C R ε α) (f : α → Prog C R ε β) (g : β → Prog C R ε γ) :
    (p.bind f).bind g = p.bind fun a => (f a).bind g := by
  induction p with
  | ret | throw => rfl
  | call c k ih => simp only [bind, ih]

instance : LawfulMonad (Prog C R ε) :=
  LawfulMonad.mk' _ bind_ret (fun _ _ => rfl) bind_bind

def lift : Except ε α → Prog C R ε α
  | .ok a => .ret a
  | .error e => .throw e

abbrev Handler (C : Type) (R : C → Type) (σ : Type) := (c : C) → σ → σ × R c

def run (h : Handler C R σ) : Prog C R ε α → σ → σ × Except ε α
  | .ret a, s => (s, .ok a)
  | .throw e, s => (s, .error e)
  | .call c k, s => run h (k (h c s).2) (h c s).1

variable {h : Handler C R σ}

@[simp] theorem run_pure (a : α) (s : σ) : run h (pure a : Prog C R ε α) s = (s, .ok a) := rfl

@[simp] theorem run_throw (e : ε) (s : σ) : run h (.throw e : Prog C R ε α) s = (s, .error e) := rfl

@[simp] theorem run_call (c : C) (k : R c → Prog C R ε α) (s : σ) :
    run h (.call c k) s = run h (k (h c s).2) (h c s).1 := rfl

@[simp] theorem run_lift (x : Except ε α) (s : σ) : run h (lift x) s = (s, x) := by
  cases x <;> rfl

theorem run_bind (p : Prog C R ε α) (f : α → Prog C R ε β) (s : σ) :
    run h (p >>= f) s =
      match run h p s with
      | (t, .ok a) => run h (f a) t
      | (t, .error e) => (t, .error e) := by
  induction p generalizing s with
  | ret | throw => rfl
  | call c k ih => exact ih _ _

theorem run_bind_ok {p : Prog C R ε α} {s t : σ} {a : α} (hp : run h p s = (t, .ok a))
    (f : α → Prog C R ε β) : run h (p >>= f) s = run h (f a) t := by
  rw [run_bind, hp]

theorem run_bind_error {p : Prog C R ε α} {s t : σ} {e : ε} (hp : run h p s = (t, .error e))
    (f : α → Prog C R ε β) : run h (p >>= f) s = (t, .error e) := by
  rw [run_bind, hp]

theorem run_bind_eq_ok {p : Prog C R ε α} {f : α → Prog C R ε β} {s u : σ} {y : β} :
    run h (p >>= f) s = (u, .ok y) ↔ ∃ t a, run h p s = (t, .ok a) ∧ run h (f a) t = (u, .ok y) := by
  rw [run_bind]
  generalize run h p s = r
  obtain ⟨t, x⟩ := r
  cases x with
  | ok a =>
    constructor
    · exact fun hrest => ⟨t, a, rfl, hrest⟩
    · intro ⟨_, _, heq, hrest⟩
      cases heq
      exact hrest
  | error e =>
    constructor
    · intro heq
      cases heq
    · intro ⟨_, _, heq, _⟩
      cases heq

/-- Whatever the replies are, the program makes only calls in `P`. -/
inductive Only (P : C → Prop) : Prog C R ε α → Prop
  | ret (a : α) : Only P (.ret a)
  | throw (e : ε) : Only P (.throw e)
  | call {c : C} {k : R c → Prog C R ε α} : P c → (∀ r, Only P (k r)) → Only P (.call c k)

variable {P : C → Prop}

theorem Only.mono {Q : C → Prop} {p : Prog C R ε α} (hp : Only P p) (hPQ : ∀ c, P c → Q c) : Only Q p := by
  induction hp with
  | ret a => exact .ret a
  | throw e => exact .throw e
  | call hc _ ih => exact .call (hPQ _ hc) ih

theorem Only.bind {p : Prog C R ε α} {f : α → Prog C R ε β} (hp : Only P p)
    (hf : ∀ a, Only P (f a)) : Only P (p >>= f) := by
  induction hp with
  | ret a => exact hf a
  | throw e => exact .throw e
  | call hc _ ih => exact .call hc ih

theorem Only.pure (a : α) : Only P (pure a : Prog C R ε α) := .ret a

theorem Only.lift (x : Except ε α) : Only P (lift x : Prog C R ε α) := by
  cases x with
  | ok a => exact .ret a
  | error e => exact .throw e

theorem Only.forM {xs : List β} {f : β → Prog C R ε PUnit} (hf : ∀ x ∈ xs, Only P (f x)) :
    Only P (xs.forM f) := by
  induction xs with
  | nil => exact .pure _
  | cons x xs ih =>
    exact (hf x List.mem_cons_self).bind fun _ => ih fun y hy => hf y (List.mem_cons_of_mem x hy)

theorem Only.mapM {xs : List β} {f : β → Prog C R ε α} (hf : ∀ x ∈ xs, Only P (f x)) :
    Only P (xs.mapM f) := by
  induction xs with
  | nil => exact .pure _
  | cons x xs ih =>
    rw [List.mapM_cons]
    exact (hf x List.mem_cons_self).bind fun _ =>
      (ih fun y hy => hf y (List.mem_cons_of_mem x hy)).bind fun _ => .pure _

theorem Only.keeps {I : σ → Prop} {p : Prog C R ε α} (hp : Only P p)
    (hI : ∀ c, P c → ∀ s, I s → I (h c s).1) {s : σ} (hs : I s) : I (run h p s).1 := by
  induction hp generalizing s with
  | ret | throw => exact hs
  | call hc _ ih => exact ih _ (hI _ hc s hs)

theorem run_forM {xs : List β} {f : β → Prog C R ε PUnit} {I : List β → σ → Prop} {s : σ}
    (hs : I [] s) (hf : ∀ done x rest t, xs = done ++ x :: rest → I done t →
      ∃ u, run h (f x) t = (u, .ok ⟨⟩) ∧ I (done ++ [x]) u) :
    ∃ t, run h (xs.forM f) s = (t, .ok ⟨⟩) ∧ I xs t := by
  suffices hgen : ∀ done rest t, xs = done ++ rest → I done t →
      ∃ u, run h (rest.forM f) t = (u, .ok ⟨⟩) ∧ I xs u from hgen [] xs s rfl hs
  intro done rest
  induction rest generalizing done with
  | nil =>
    intro t hxs ht
    rw [List.append_nil] at hxs
    exact ⟨t, rfl, hxs ▸ ht⟩
  | cons x rest ih =>
    intro t hxs ht
    obtain ⟨u, hu, hI⟩ := hf done x rest t hxs ht
    obtain ⟨w, hw, hI⟩ := ih (done ++ [x]) u (by simp [hxs]) hI
    refine ⟨w, ?_, hI⟩
    change run h (f x >>= fun _ => rest.forM f) t = _
    rw [run_bind_ok hu]
    exact hw

theorem run_forM_ok {xs : List β} {f : β → Prog C R ε PUnit}
    (hf : ∀ x ∈ xs, ∀ s, ∃ t, run h (f x) s = (t, .ok ⟨⟩)) (s : σ) : ∃ t, run h (xs.forM f) s = (t, .ok ⟨⟩) := by
  obtain ⟨t, ht, -⟩ : ∃ t, run h (xs.forM f) s = (t, .ok ⟨⟩) ∧ True := by
    refine run_forM (I := fun _ _ => True) trivial fun done x rest t hxs _ => ?_
    obtain ⟨u, hu⟩ := hf x (by simp [hxs]) t
    exact ⟨u, hu, trivial⟩
  exact ⟨t, ht⟩

theorem run_forM_error {xs : List β} {f : β → Prog C R ε PUnit} {x : β} (hx : x ∈ xs)
    (hf : ∀ s, ∃ t e, run h (f x) s = (t, .error e)) (s : σ) : ∃ t e, run h (xs.forM f) s = (t, .error e) := by
  induction xs generalizing s with
  | nil => cases hx
  | cons y ys ih =>
    change ∃ t e, run h (f y >>= fun _ => ys.forM f) s = (t, .error e)
    cases hy : run h (f y) s with
    | mk u r =>
      cases r with
      | error e => exact ⟨u, e, run_bind_error hy _⟩
      | ok a =>
        rw [run_bind_ok hy]
        rcases List.mem_cons.mp hx with rfl | hx
        · obtain ⟨t, e, herror⟩ := hf s
          cases hy.symm.trans herror
        · exact ih hx u

theorem run_mapM {xs : List β} {f : β → Prog C R ε α} {value : β → α} {s : σ}
    (hf : ∀ x ∈ xs, run h (f x) s = (s, .ok (value x))) :
    run h (xs.mapM f) s = (s, .ok (xs.map value)) := by
  induction xs with
  | nil => rfl
  | cons x xs ih =>
    rw [List.mapM_cons, run_bind_ok (hf x List.mem_cons_self),
      run_bind_ok (ih fun y hy => hf y (List.mem_cons_of_mem x hy))]
    rfl

def tally (h : Handler C R σ) (counts : C → Bool) : Prog C R ε α → σ → ℕ
  | .ret _, _ | .throw _, _ => 0
  | .call c k, s => (counts c).toNat + tally h counts (k (h c s).2) (h c s).1

variable {counts : C → Bool}

theorem tally_bind (p : Prog C R ε α) (f : α → Prog C R ε β) (s : σ) : tally h counts (p >>= f) s =
    tally h counts p s + match run h p s with
      | (t, .ok a) => tally h counts (f a) t
      | (_, .error _) => 0 := by
  induction p generalizing s with
  | ret a => exact (Nat.zero_add _).symm
  | throw e => rfl
  | call c k ih =>
    have hrest := ih (h c s).2 (h c s).1
    change (counts c).toNat + tally h counts (k (h c s).2 >>= f) (h c s).1 = _
    rw [hrest, ← Nat.add_assoc]
    rfl

theorem tally_bind_ok {p : Prog C R ε α} {s t : σ} {a : α} (hp : run h p s = (t, .ok a))
    (f : α → Prog C R ε β) :
    tally h counts (p >>= f) s = tally h counts p s + tally h counts (f a) t := by
  rw [tally_bind, hp]

theorem tally_bind_error {p : Prog C R ε α} {s t : σ} {e : ε} (hp : run h p s = (t, .error e))
    (f : α → Prog C R ε β) : tally h counts (p >>= f) s = tally h counts p s := by
  rw [tally_bind, hp, Nat.add_zero]

theorem tally_eq_zero {p : Prog C R ε α} (hp : Only (fun c => counts c = false) p) (s : σ) :
    tally h counts p s = 0 := by
  induction hp generalizing s with
  | ret | throw => rfl
  | call hc _ ih => rw [tally, hc, ih, Bool.toNat_false]

end Prog

end Calls
