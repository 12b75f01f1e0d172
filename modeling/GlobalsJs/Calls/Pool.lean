import GlobalsJs.Calls.Program

/-!
# Programs that take turns

A pool runs programs beside one another on one shared state, a call at a time and in any
order. Each program also has a state of its own. A program that changes nothing shared
runs as if it were alone when all of its calls see the same shared state.
-/

namespace Calls

variable {C : Type} {R : C → Type} {ε O σ τ : Type}

/-- A program under way: what is left of it, its own state, and the shared states that its
calls were made in. -/
structure Task (C : Type) (R : C → Type) (ε O σ τ : Type) where
  op : O
  rest : Prog C R ε Unit
  own : τ
  seen : List σ

structure Pool (C : Type) (R : C → Type) (ε O σ τ : Type) where
  shared : σ
  tasks : List (Task C R ε O σ τ)

open Prog

def Task.advance (h : Handler C R (σ × τ)) (t : Task C R ε O σ τ) (s : σ) : σ × Task C R ε O σ τ :=
  match t.rest with
  | .ret _ | .throw _ => (s, t)
  | .call c k =>
    let reply := h c (s, t.own)
    (reply.1.1, { t with rest := k reply.2, own := reply.1.2, seen := t.seen ++ [s] })

namespace Pool

def start (program : O → Prog C R ε Unit) (own : τ) (w : Pool C R ε O σ τ) (op : O) : Pool C R ε O σ τ :=
  { w with tasks := w.tasks ++ [⟨op, program op, own, []⟩] }

def step (h : Handler C R (σ × τ)) (w : Pool C R ε O σ τ) (i : ℕ) : Pool C R ε O σ τ :=
  match w.tasks[i]? with
  | none => w
  | some t => ⟨(t.advance h w.shared).1, w.tasks.set i (t.advance h w.shared).2⟩

variable {I : σ → Prop} {T : Task C R ε O σ τ → Prop}

theorem step_keeps {h : Handler C R (σ × τ)}
    (hadvance : ∀ t s, I s → T t → I (t.advance h s).1 ∧ T (t.advance h s).2) {w : Pool C R ε O σ τ}
    (hshared : I w.shared) (htasks : ∀ t ∈ w.tasks, T t) (i : ℕ) :
    I (w.step h i).shared ∧ ∀ t ∈ (w.step h i).tasks, T t := by
  unfold step
  cases hi : w.tasks[i]? with
  | none => exact ⟨hshared, htasks⟩
  | some t =>
    obtain ⟨hs, ht⟩ := hadvance t w.shared hshared (htasks t (List.mem_of_getElem? hi))
    refine ⟨hs, fun u hu => ?_⟩
    rcases List.mem_or_eq_of_mem_set hu with hu | rfl
    · exact htasks u hu
    · exact ht

theorem start_keeps {program : O → Prog C R ε Unit} {own : τ} {w : Pool C R ε O σ τ} {op : O}
    (hop : T ⟨op, program op, own, []⟩) (htasks : ∀ t ∈ w.tasks, T t) :
    ∀ t ∈ (w.start program own op).tasks, T t := by
  intro t ht
  rcases List.mem_append.mp ht with ht | ht
  · exact htasks t ht
  · rw [List.mem_singleton.mp ht]
    exact hop

end Pool

namespace Task
variable {P : C → Prop} {h : Handler C R (σ × τ)} {t : Task C R ε O σ τ}

theorem advance_op (h : Handler C R (σ × τ)) (t : Task C R ε O σ τ) (s : σ) : (t.advance h s).2.op = t.op := by
  unfold advance
  cases t.rest <;> rfl

theorem advance_only (ht : Only P t.rest) (s : σ) : Only P (t.advance h s).2.rest := by
  unfold advance
  cases hrest : t.rest with
  | ret | throw =>
    rw [hrest] at ht
    simpa only [hrest] using ht
  | call c k =>
    rw [hrest] at ht
    cases ht with
    | call _ hk => exact hk _

theorem advance_shared {I : σ → Prop} (ht : Only P t.rest)
    (hI : ∀ c, P c → ∀ s own, I s → I (h c (s, own)).1.1) {s : σ} (hs : I s) : I (t.advance h s).1 := by
  unfold advance
  cases hrest : t.rest with
  | ret | throw => exact hs
  | call c k =>
    rw [hrest] at ht
    cases ht with
    | call hc _ => exact hI c hc s t.own hs

theorem advance_seen {I : σ → Prop} (ht : ∀ s ∈ t.seen, I s) {s : σ} (hs : I s) :
    ∀ u ∈ (t.advance h s).2.seen, I u := by
  unfold advance
  cases t.rest with
  | ret | throw => exact ht
  | call c k =>
    intro u hu
    rcases List.mem_append.mp hu with hu | hu
    · exact ht u hu
    · rw [List.mem_singleton.mp hu]
      exact hs

/-- What the program has done, followed by what it would do alone from here, is what it does
alone on the shared state that it has seen. -/
def AsIfAlone (h : Handler C R (σ × τ)) (program : O → Prog C R ε Unit) (own : τ)
    (t : Task C R ε O σ τ) : Prop :=
  ∀ u, (∀ s ∈ t.seen, s = u) → run h (program t.op) (u, own) = run h t.rest (u, t.own)

theorem asIfAlone_start (program : O → Prog C R ε Unit) (own : τ) (op : O) :
    AsIfAlone h program own (⟨op, program op, own, []⟩ : Task C R ε O σ τ) := fun _ _ => rfl

theorem advance_asIfAlone {program : O → Prog C R ε Unit} {own : τ} (ht : Only P t.rest)
    (hreads : ∀ c, P c → ∀ s own, (h c (s, own)).1.1 = s) (halone : t.AsIfAlone h program own) (s : σ) :
    (t.advance h s).2.AsIfAlone h program own := by
  unfold advance
  cases hrest : t.rest with
  | ret | throw => exact halone
  | call c k =>
    rw [hrest] at ht
    intro u hu
    have hsu : s = u := hu s (List.mem_append_right _ (List.mem_singleton_self s))
    have hstate : (h c (s, t.own)).1 = (u, (h c (s, t.own)).1.2) := by
      cases ht with
      | call hc _ => exact Prod.ext ((hreads c hc s t.own).trans hsu) rfl
    have hbefore := halone u fun v hv => hu v (List.mem_append_left _ hv)
    rw [hrest, run_call] at hbefore
    refine hbefore.trans ?_
    rw [← hsu] at hstate ⊢
    rw [← hstate]

end Task

end Calls
