import GlobalsJs.Calls.Pool
import Mathlib.Data.List.Perm.Basic
import Mathlib.Data.Option.Basic

/-!
# Programs on separate parts of a state

A state has parts, and a common part `none`. A program begins with one call, which may use
the common part and picks a part of its own; then it keeps to the part that it has picked.
As long as no program begins on a part that another one is still working on, programs that
take turns do what they do one after another, in the order in which they begin.
-/

namespace Calls

variable {C : Type} {R : C → Type} {ε α β O σ κ : Type}

namespace Prog

/-- Whatever the others do before each of its calls, the program ends with a value, in a state
that has the property. -/
def Settles (h : Handler C R σ) (rely : σ → σ → Prop) (post : α → σ → Prop) :
    Prog C R ε α → σ → Prop
  | .ret a, s => post a s
  | .throw _, _ => False
  | .call c k, s => ∀ t, rely s t → Settles h rely post (k (h c t).2) (h c t).1

variable {h : Handler C R σ} {rely : σ → σ → Prop}

theorem Settles.mono {post post' : α → σ → Prop} {p : Prog C R ε α} {s : σ}
    (hpost : ∀ a t, post a t → post' a t) (hp : Settles h rely post p s) : Settles h rely post' p s := by
  induction p generalizing s with
  | ret a => exact hpost a s hp
  | throw => exact hp
  | call c k ih => exact fun t ht => ih _ (hp t ht)

theorem Settles.later {post : α → σ → Prop} {p : Prog C R ε α} {s t : σ}
    (htrans : ∀ {s t u}, rely s t → rely t u → rely s u)
    (hstable : ∀ a, rely s t → post a s → post a t)
    (hp : Settles h rely post p s) (hst : rely s t) : Settles h rely post p t := by
  cases p with
  | ret a => exact hstable a hst hp
  | throw => exact hp
  | call c k => exact fun u hu => hp u (htrans hst hu)

theorem Settles.bind {post : α → σ → Prop} {post' : β → σ → Prop} {p : Prog C R ε α}
    {f : α → Prog C R ε β} {s : σ} (hp : Settles h rely post p s)
    (hf : ∀ a t, post a t → Settles h rely post' (f a) t) : Settles h rely post' (p >>= f) s := by
  induction p generalizing s with
  | ret a => exact hf a s hp
  | throw => exact hp.elim
  | call c k ih => exact fun t ht => ih _ (hp t ht)

theorem Settles.forM {xs : List β} {f : β → Prog C R ε PUnit} {I : List β → σ → Prop} {s : σ}
    (hs : I [] s) (hf : ∀ done x rest t, xs = done ++ x :: rest → I done t →
      Settles h rely (fun _ => I (done ++ [x])) (f x) t) :
    Settles h rely (fun _ => I xs) (xs.forM f) s := by
  suffices hgen : ∀ done rest t, xs = done ++ rest → I done t →
      Settles h rely (fun _ => I xs) (rest.forM f) t from hgen [] xs s rfl hs
  intro done rest
  induction rest generalizing done with
  | nil =>
    intro t hxs ht
    rw [List.append_nil] at hxs
    exact hxs ▸ ht
  | cons x rest ih =>
    intro t hxs ht
    exact (hf done x rest t hxs ht).bind fun _ u hu => ih (done ++ [x]) u (by simp [hxs]) hu

theorem Settles.run {post : α → σ → Prop} {p : Prog C R ε α} {s : σ} (hrefl : ∀ s, rely s s)
    (hp : Settles h rely post p s) : ∃ a, (run h p s).2 = .ok a ∧ post a (run h p s).1 := by
  induction p generalizing s with
  | ret a => exact ⟨a, rfl, hp⟩
  | throw => exact hp.elim
  | call c k ih => exact ih _ (hp s (hrefl s))

end Prog

open Prog

section
variable (h : Handler C R σ) (claim : C → σ → Option κ) (agree : Option κ → σ → σ → Prop)

def Within (k : κ) (c : C) : Prop := ∀ s x, x ≠ some k → agree x (h c s).1 s

structure Begins (k : κ) (c : C) (f : R c → Prog C R ε Unit) (post : σ → Prop) (s t : σ) : Prop where
  claims : claim c t = some k
  common : agree none (h c s).1 (h c t).1
  elsewhere : ∀ x, x ≠ none → x ≠ some k → agree x (h c t).1 t
  keeps : Only (Within h agree k) (f (h c t).2)
  settles : Settles h (agree (some k)) (fun _ => post) (f (h c t).2) (h c t).1

/-- What the program makes of the part that it picks depends on that part and the common one. -/
def Keeping (p : Prog C R ε Unit) : Prop :=
  ∃ c f, p = .call c f ∧ ∀ s, ∃ (k : κ) (post : σ → Prop),
    (∀ u v, post u → post v → agree (some k) u v) ∧
    ∀ t, agree none s t → agree (some k) s t → Begins h claim agree k c f post s t

def owning : Handler C R (σ × Option κ) := fun c s =>
  (((h c s.1).1, s.2.or (claim c s.1)), (h c s.1).2)

end

def Prog.ended : Prog C R ε α → Bool
  | .ret _ => true
  | _ => false

abbrev Task.Unfinished {τ : Type} (t : Task C R ε O σ τ) : Prop := t.rest.ended = false

def Task.beginning : Task C R ε O σ (Option κ) → Option O
  | ⟨op, .call _ _, none, _⟩ => some op
  | _ => none

def Task.picking (claim : C → σ → Option κ) (s : σ) : Task C R ε O σ (Option κ) → Option κ
  | ⟨_, .call c _, none, _⟩ => claim c s
  | _ => none

inductive Choice (O : Type)
  | start (op : O)
  | step (i : ℕ)

namespace Pool

def turn (h : Handler C R σ) (claim : C → σ → Option κ) (program : O → Prog C R ε Unit)
    (w : Pool C R ε O σ (Option κ)) : Choice O → Pool C R ε O σ (Option κ)
  | .start op => w.start program none op
  | .step i => w.step (owning h claim) i

def beginning (w : Pool C R ε O σ (Option κ)) : Choice O → Option O
  | .start _ => none
  | .step i => (w.tasks[i]?).bind Task.beginning

def begun (w : Pool C R ε O σ (Option κ)) : List O := (w.tasks.filter fun t => t.own.isSome).map Task.op

def Busy (w : Pool C R ε O σ (Option κ)) (k : κ) : Prop :=
  ∃ t ∈ w.tasks, t.own = some k ∧ t.Unfinished

instance [DecidableEq κ] (w : Pool C R ε O σ (Option κ)) (k : κ) : Decidable (w.Busy k) :=
  inferInstanceAs (Decidable (∃ t ∈ w.tasks, t.own = some k ∧ t.Unfinished))

/-- Nobody is working on the part that a program picks. -/
def Apart (claim : C → σ → Option κ) (w : Pool C R ε O σ (Option κ)) : Choice O → Prop
  | .start _ => True
  | .step i => ∀ t ∈ w.tasks[i]?, ∀ k ∈ t.picking claim w.shared, ¬ w.Busy k

instance [DecidableEq κ] (claim : C → σ → Option κ) (w : Pool C R ε O σ (Option κ)) :
    ∀ t, Decidable (w.Apart claim t)
  | .start _ => .isTrue trivial
  | .step i => inferInstanceAs (Decidable (∀ t ∈ w.tasks[i]?, ∀ k ∈ t.picking claim w.shared, ¬ w.Busy k))

section
variable (h : Handler C R σ) (claim : C → σ → Option κ) (program : O → Prog C R ε Unit)

def turns (w : Pool C R ε O σ (Option κ)) (ts : List (Choice O)) : Pool C R ε O σ (Option κ) :=
  ts.foldl (turn h claim program) w

def order : Pool C R ε O σ (Option κ) → List (Choice O) → List O
  | _, [] => []
  | w, t :: ts => (w.beginning t).toList ++ order (turn h claim program w t) ts

def Along (P : Pool C R ε O σ (Option κ) → Choice O → Prop) :
    Pool C R ε O σ (Option κ) → List (Choice O) → Prop
  | _, [] => True
  | w, t :: ts => P w t ∧ Along P (turn h claim program w t) ts

instance Along.decidable {P : Pool C R ε O σ (Option κ) → Choice O → Prop} [∀ w t, Decidable (P w t)] :
    ∀ w ts, Decidable (Along h claim program P w ts)
  | _, [] => .isTrue trivial
  | w, t :: ts => @instDecidableAnd _ _ _ (Along.decidable (turn h claim program w t) ts)

def serially (ops : List O) (s : σ) : σ := ops.foldl (fun s op => (run h (program op) s).1) s

end

/-- The pool and the state after the programs that have begun, when these ran one after another. -/
structure Serial (h : Handler C R σ) (claim : C → σ → Option κ) (agree : Option κ → σ → σ → Prop)
    (program : O → Prog C R ε Unit) (w : Pool C R ε O σ (Option κ)) (s : σ) : Prop where
  common : agree none w.shared s
  idle : ∀ k, ¬ w.Busy k → agree (some k) w.shared s
  fresh : ∀ t ∈ w.tasks, t.own = none → t.rest = program t.op ∧ Keeping h claim agree t.rest
  keeps : ∀ t ∈ w.tasks, ∀ k, t.own = some k → Only (Within h agree k) t.rest
  settles : ∀ t ∈ w.tasks, ∀ k, t.own = some k → t.Unfinished →
    Settles h (agree (some k)) (fun _ u => agree (some k) u s) t.rest w.shared
  alone : ∀ (i j : ℕ) (t u : Task C R ε O σ (Option κ)) (k : κ), w.tasks[i]? = some t → w.tasks[j]? = some u →
    t.own = some k → u.own = some k → t.Unfinished → u.Unfinished → i = j

section
variable {h : Handler C R σ} {claim : C → σ → Option κ} {agree : Option κ → σ → σ → Prop}
  {program : O → Prog C R ε Unit} {w : Pool C R ε O σ (Option κ)} {s : σ}

theorem step_none {τ : Type} {H : Handler C R (σ × τ)} {v : Pool C R ε O σ τ} {i : ℕ} (hi : v.tasks[i]? = none) :
    v.step H i = v := by
  rw [step, hi]

theorem step_some {τ : Type} {H : Handler C R (σ × τ)} {v : Pool C R ε O σ τ} {i : ℕ} {t : Task C R ε O σ τ}
    (hi : v.tasks[i]? = some t) :
    v.step H i = ⟨(t.advance H v.shared).1, v.tasks.set i (t.advance H v.shared).2⟩ := by
  rw [step, hi]

theorem Serial.idle_pool (hagree : ∀ x, Equivalence (agree x)) (s : σ) :
    Serial h claim agree program (⟨s, []⟩ : Pool C R ε O σ (Option κ)) s where
  common := (hagree none).refl s
  idle k _ := (hagree (some k)).refl s
  fresh _ ht := absurd ht List.not_mem_nil
  keeps _ ht := absurd ht List.not_mem_nil
  settles _ ht := absurd ht List.not_mem_nil
  alone i j t u k ht := by cases ht

theorem Serial.start (hw : Serial h claim agree program w s) {op : O}
    (hop : Keeping h claim agree (program op)) :
    Serial h claim agree program (w.start program none op) s := by
  have hmem : ∀ t ∈ (w.start program none op).tasks, t ∈ w.tasks ∨ t = ⟨op, program op, none, []⟩ :=
    fun t ht => (List.mem_append.mp ht).imp_right List.mem_singleton.mp
  have hold : ∀ t ∈ (w.start program none op).tasks, ∀ k, t.own = some k → t ∈ w.tasks := by
    intro t ht k hk
    rcases hmem t ht with ht | rfl
    · exact ht
    · cases hk
  refine ⟨hw.common, fun k hk => hw.idle k ?_, fun t ht hown => ?_,
    fun t ht k hk => hw.keeps t (hold t ht k hk) k hk,
    fun t ht k hk => hw.settles t (hold t ht k hk) k hk, fun i j t u k ht hu htk huk => ?_⟩
  · rintro ⟨t, ht, htk⟩
    exact hk ⟨t, List.mem_append_left _ ht, htk⟩
  · rcases hmem t ht with ht | rfl
    · exact hw.fresh t ht hown
    · exact ⟨rfl, hop⟩
  · have hat : ∀ {i : ℕ} {t : Task C R ε O σ (Option κ)}, (w.start program none op).tasks[i]? = some t →
        t.own = some k → w.tasks[i]? = some t := by
      intro i t ht hk
      have ht' : (w.tasks ++ [⟨op, program op, none, []⟩])[i]? = some t := ht
      rw [List.getElem?_append] at ht'
      split_ifs at ht' with hi
      · exact ht'
      · obtain rfl := List.mem_singleton.mp (List.mem_of_getElem? ht')
        cases hk
    exact hw.alone i j t u k (hat ht htk) (hat hu huk) htk huk

theorem Serial.moved (hagree : ∀ x, Equivalence (agree x)) (hw : Serial h claim agree program w s)
    {i : ℕ} {t t' : Task C R ε O σ (Option κ)} {k : κ} {u s' : σ} (ht : w.tasks[i]? = some t)
    (hown : t.own = none ∨ t.own = some k) (hown' : t'.own = some k)
    (halone : ∀ j v, j ≠ i → w.tasks[j]? = some v → v.own = some k → ¬ v.Unfinished)
    (hcommon : agree none u s') (hu : ∀ x, x ≠ none → x ≠ some k → agree x u w.shared)
    (hs : ∀ x, x ≠ none → x ≠ some k → agree x s s') (hkeeps : Only (Within h agree k) t'.rest)
    (hsettles : Settles h (agree (some k)) (fun _ v => agree (some k) v s') t'.rest u) :
    Serial h claim agree program ⟨u, w.tasks.set i t'⟩ s' := by
  have hi : i < w.tasks.length := (List.getElem?_eq_some_iff.mp ht).1
  have hself : (w.tasks.set i t')[i]? = some t' := List.getElem?_set_self hi
  have hother : ∀ {j : ℕ}, j ≠ i → (w.tasks.set i t')[j]? = w.tasks[j]? :=
    fun hj => List.getElem?_set_ne (Ne.symm hj)
  -- a task of the new pool is the one that has moved or an old one
  have hcases : ∀ v ∈ w.tasks.set i t', v = t' ∨ ∃ j, j ≠ i ∧ w.tasks[j]? = some v := by
    intro v hv
    obtain ⟨j, hj⟩ := List.mem_iff_getElem?.mp hv
    by_cases hji : j = i
    · subst hji
      exact .inl (Option.some.inj (hj.symm.trans hself))
    · exact .inr ⟨j, hji, (hother hji).symm.trans hj⟩
  have hne : ∀ {j v l}, j ≠ i → w.tasks[j]? = some v → v.own = some l → v.Unfinished → l ≠ k := by
    intro j v l hj hv hl hun hlk
    exact halone j v hj hv (hlk ▸ hl) hun
  refine ⟨hcommon, fun l hl => ?_, fun v hv hnone => ?_, fun v hv l hvl => ?_, fun v hv l hvl hun => ?_,
    fun j j' v v' l hv hv' hvl hvl' hun hun' => ?_⟩
  · by_cases hlk : l = k
    · subst hlk
      -- the program has ended, for nobody works on its part
      have hended : ¬ t'.Unfinished := fun hun => hl ⟨t', List.mem_of_getElem? hself, hown', hun⟩
      cases hrest : t'.rest with
      | ret a =>
        rw [hrest] at hsettles
        exact hsettles
      | throw | call => exact absurd (congrArg Prog.ended hrest) hended
    · have hx : (some l : Option κ) ≠ some k := fun h => hlk (Option.some.inj h)
      have hidle : ¬ w.Busy l := by
        rintro ⟨v, hv, hvl, hun⟩
        obtain ⟨j, hj⟩ := List.mem_iff_getElem?.mp hv
        have hji : j ≠ i := by
          rintro rfl
          obtain rfl := Option.some.inj (ht.symm.trans hj)
          rcases hown with hnone | hk
          · rw [hnone] at hvl
            cases hvl
          · exact hx (hvl.symm.trans hk)
        exact hl ⟨v, List.mem_of_getElem? ((hother hji).trans hj), hvl, hun⟩
      have huw := hu _ (Option.some_ne_none l) hx
      exact (hagree _).trans huw ((hagree _).trans (hw.idle l hidle) (hs _ (Option.some_ne_none l) hx))
  · rcases hcases v hv with rfl | ⟨j, _, hj⟩
    · rw [hnone] at hown'
      cases hown'
    · exact hw.fresh v (List.mem_of_getElem? hj) hnone
  · rcases hcases v hv with rfl | ⟨j, _, hj⟩
    · obtain rfl := Option.some.inj (hvl.symm.trans hown')
      exact hkeeps
    · exact hw.keeps v (List.mem_of_getElem? hj) l hvl
  · rcases hcases v hv with rfl | ⟨j, hji, hj⟩
    · obtain rfl := Option.some.inj (hvl.symm.trans hown')
      exact hsettles
    · have hlk := hne hji hj hvl hun
      have hx : (some l : Option κ) ≠ some k := fun h => hlk (Option.some.inj h)
      have hold := hw.settles v (List.mem_of_getElem? hj) l hvl hun
      have hnew : Settles h (agree (some l)) (fun _ r => agree (some l) r s') v.rest w.shared :=
        hold.mono fun _ r hr => (hagree _).trans hr (hs _ (Option.some_ne_none l) hx)
      have hback : agree (some l) w.shared u := (hagree _).symm (hu _ (Option.some_ne_none l) hx)
      exact hnew.later (hagree _).trans (fun _ hr hws => (hagree _).trans ((hagree _).symm hr) hws) hback
  · by_cases hj : j = i <;> by_cases hj' : j' = i
    · rw [hj, hj']
    · subst hj
      obtain rfl := Option.some.inj (hself.symm.trans hv)
      exact absurd (Option.some.inj (hvl.symm.trans hown')) (hne hj' ((hother hj').symm.trans hv') hvl' hun')
    · subst hj'
      obtain rfl := Option.some.inj (hself.symm.trans hv')
      exact absurd (Option.some.inj (hvl'.symm.trans hown')) (hne hj ((hother hj).symm.trans hv) hvl hun)
    · exact hw.alone j j' v v' l ((hother hj).symm.trans hv) ((hother hj').symm.trans hv') hvl hvl' hun hun'

theorem agree_run (hagree : ∀ x, Equivalence (agree x)) {k : κ} {p : Prog C R ε Unit}
    (hp : Only (Within h agree k) p) {x : Option κ} (hx : x ≠ some k) (s : σ) : agree x (run h p s).1 s :=
  hp.keeps (I := fun u => agree x u s) (fun _ hc u hu => (hagree x).trans (hc u x hx) hu) ((hagree x).refl s)

theorem Serial.begin (hagree : ∀ x, Equivalence (agree x)) (hw : Serial h claim agree program w s)
    {i : ℕ} {op : O} {c : C} {f : R c → Prog C R ε Unit} {seen : List σ}
    (ht : w.tasks[i]? = some ⟨op, .call c f, none, seen⟩) (hapart : w.Apart claim (.step i)) :
    Serial h claim agree program
      ⟨(h c w.shared).1, w.tasks.set i ⟨op, f (h c w.shared).2, claim c w.shared, seen ++ [w.shared]⟩⟩
      (run h (program op) s).1 := by
  obtain ⟨hprogram, c', f', hrest, hkeeping⟩ := hw.fresh _ (List.mem_of_getElem? ht) rfl
  obtain ⟨rfl, hf⟩ := Prog.call.inj hrest
  obtain rfl := eq_of_heq hf
  obtain ⟨k, post, hunique, hbegins⟩ := hkeeping w.shared
  have hhere := hbegins w.shared ((hagree none).refl _) ((hagree _).refl _)
  have hidle : ¬ w.Busy k := hapart _ ht k hhere.claims
  have hthere := hbegins s hw.common (hw.idle k hidle)
  have hrun : run h (program op) s = run h (f (h c s).2) (h c s).1 := by
    rw [← hprogram]
    rfl
  obtain ⟨a, -, hpost⟩ := hthere.settles.run (hagree _).refl
  rw [hrun]
  have helse : ∀ x, x ≠ some k → agree x (run h (f (h c s).2) (h c s).1).1 (h c s).1 :=
    fun x hx => agree_run hagree hthere.keeps hx _
  refine hw.moved hagree ht (.inl rfl) hhere.claims (fun j v _ hv hvk hun => ?_) ?_ hhere.elsewhere
    (fun x hx hxk => ?_) hhere.keeps (hhere.settles.mono fun _ v hv => hunique v _ hv hpost)
  · exact hidle ⟨v, List.mem_of_getElem? hv, hvk, hun⟩
  · exact (hagree none).trans hthere.common ((hagree none).symm (helse none (Option.some_ne_none k).symm))
  · exact (hagree x).symm ((hagree x).trans (helse x hxk) (hthere.elsewhere x hx hxk))

theorem Serial.proceed (hagree : ∀ x, Equivalence (agree x)) (hw : Serial h claim agree program w s)
    {i : ℕ} {op : O} {c : C} {f : R c → Prog C R ε Unit} {k : κ} {seen : List σ}
    (ht : w.tasks[i]? = some ⟨op, .call c f, some k, seen⟩) :
    Serial h claim agree program
      ⟨(h c w.shared).1, w.tasks.set i ⟨op, f (h c w.shared).2, some k, seen ++ [w.shared]⟩⟩ s := by
  have hmem := List.mem_of_getElem? ht
  have hun : Task.Unfinished (⟨op, .call c f, some k, seen⟩ : Task C R ε O σ (Option κ)) := rfl
  have hsettles := hw.settles _ hmem k rfl hun
  cases hw.keeps _ hmem k rfl with
  | call hc hf =>
    refine hw.moved hagree ht (.inr rfl) rfl (fun j v hj hv hvk hv' => ?_) ?_ (fun x _ hx => hc _ x hx)
      (fun x _ _ => (hagree x).refl s) (hf _) (hsettles _ ((hagree _).refl _))
    · exact hj (hw.alone j i v _ k hv ht hvk rfl hv' hun)
    · exact (hagree none).trans (hc _ none (Option.some_ne_none k).symm) hw.common

theorem Serial.turn (hagree : ∀ x, Equivalence (agree x)) (hw : Serial h claim agree program w s)
    {t : Choice O} (hstart : ∀ op, t = .start op → Keeping h claim agree (program op))
    (hapart : w.Apart claim t) :
    Serial h claim agree program (w.turn h claim program t) (serially h program (w.beginning t).toList s) := by
  cases t with
  | start op => exact hw.start (hstart op rfl)
  | step i =>
    change Serial h claim agree program (w.step (owning h claim) i)
      (serially h program ((w.tasks[i]?).bind Task.beginning).toList s)
    cases hi : w.tasks[i]? with
    | none =>
      rw [step_none hi]
      exact hw
    | some t =>
      rw [step_some hi]
      obtain ⟨op, rest, own, seen⟩ := t
      have hstays : w.tasks.set i ⟨op, rest, own, seen⟩ = w.tasks := by
        obtain ⟨hlt, hget⟩ := List.getElem?_eq_some_iff.mp hi
        rw [← hget, List.set_getElem_self]
      cases rest with
      | ret a =>
        change Serial h claim agree program ⟨w.shared, w.tasks.set i ⟨op, .ret a, own, seen⟩⟩ s
        rw [hstays]
        exact hw
      | throw e =>
        change Serial h claim agree program ⟨w.shared, w.tasks.set i ⟨op, .throw e, own, seen⟩⟩ s
        rw [hstays]
        exact hw
      | call c f =>
        cases own with
        | none => exact hw.begin hagree hi hapart
        | some k => exact hw.proceed hagree hi

theorem mem_beginning {t : Choice O} {op : O} (hop : op ∈ w.beginning t) : ∃ u ∈ w.tasks, u.op = op := by
  cases t with
  | start op => cases hop
  | step i =>
    obtain ⟨⟨op', rest, own, seen⟩, hi, hbeginning⟩ := Option.bind_eq_some_iff.mp hop
    refine ⟨_, List.mem_of_getElem? hi, ?_⟩
    cases rest with
    | ret | throw => cases hbeginning
    | call c f =>
      cases own with
      | some k => cases hbeginning
      | none => exact Option.some.inj hbeginning

theorem Serial.picked (hagree : ∀ x, Equivalence (agree x)) (hw : Serial h claim agree program w s)
    {t : Choice O} {op : O} (hop : op ∈ w.beginning t) (hapart : w.Apart claim t) :
    ∃ c f k, program op = .call c f ∧ claim c w.shared = some k ∧ agree (some k) w.shared s := by
  cases t with
  | start op => cases hop
  | step i =>
    obtain ⟨task, hi, hbeginning⟩ := Option.bind_eq_some_iff.mp hop
    obtain ⟨op', rest, own, seen⟩ := task
    cases rest with
    | ret | throw => cases hbeginning
    | call c f =>
      cases own with
      | some k => cases hbeginning
      | none =>
        obtain rfl := Option.some.inj hbeginning
        obtain ⟨hprogram, c', f', hrest, hkeeping⟩ := hw.fresh _ (List.mem_of_getElem? hi) rfl
        obtain ⟨rfl, -⟩ := Prog.call.inj hrest
        obtain ⟨k, post, -, hbegins⟩ := hkeeping w.shared
        have hclaims := (hbegins w.shared ((hagree none).refl _) ((hagree _).refl _)).claims
        exact ⟨c, f, k, hprogram.symm, hclaims, hw.idle k (hapart _ hi k hclaims)⟩

theorem Serial.calls (hw : Serial h claim agree program w s) {t : Task C R ε O σ (Option κ)}
    (ht : t ∈ w.tasks) (hun : t.Unfinished) : ∃ c f, t.rest = .call c f := by
  cases hrest : t.rest with
  | ret a =>
    rw [Task.Unfinished, hrest] at hun
    cases hun
  | call c f => exact ⟨c, f, rfl⟩
  | throw e =>
    cases hown : t.own with
    | none =>
      obtain ⟨-, c, f, hcall, -⟩ := hw.fresh t ht hown
      rw [hrest] at hcall
      cases hcall
    | some k =>
      have hsettles := hw.settles t ht k hown hun
      rw [hrest] at hsettles
      exact hsettles.elim

theorem not_busy_of_ended (hended : ∀ t ∈ w.tasks, ¬ t.Unfinished) (k : κ) : ¬ w.Busy k := by
  rintro ⟨t, ht, -, hun⟩
  exact hended t ht hun

theorem Serial.begun_of_ended (hw : Serial h claim agree program w s) (hended : ∀ t ∈ w.tasks, ¬ t.Unfinished) :
    w.begun = w.tasks.map Task.op := by
  have hall : ∀ t ∈ w.tasks, t.own.isSome := by
    intro t ht
    rw [Option.isSome_iff_ne_none]
    intro hnone
    obtain ⟨-, c, f, hcall, -⟩ := hw.fresh t ht hnone
    refine hended t ht ?_
    rw [Task.Unfinished, hcall]
    rfl
  rw [begun, List.filter_eq_self.mpr hall]

theorem Serial.begun_advance (hagree : ∀ x, Equivalence (agree x)) (hw : Serial h claim agree program w s)
    {t : Task C R ε O σ (Option κ)} (ht : t ∈ w.tasks) :
    ([(t.advance (owning h claim) w.shared).2].filter fun t => t.own.isSome).map Task.op =
      ([t].filter fun t => t.own.isSome).map Task.op ++ t.beginning.toList := by
  obtain ⟨op, rest, own, seen⟩ := t
  cases rest with
  | ret | throw => exact (List.append_nil _).symm
  | call c f =>
    cases own with
    | some k => rfl
    | none =>
      obtain ⟨-, c', f', hrest, hkeeping⟩ := hw.fresh _ ht rfl
      obtain ⟨rfl, -⟩ := Prog.call.inj hrest
      obtain ⟨k, post, -, hbegins⟩ := hkeeping w.shared
      have hclaims := (hbegins w.shared ((hagree none).refl _) ((hagree _).refl _)).claims
      have hown : ((⟨op, .call c f, none, seen⟩ : Task C R ε O σ (Option κ)).advance (owning h claim)
          w.shared).2 = ⟨op, f (h c w.shared).2, some k, seen ++ [w.shared]⟩ := by
        rw [← hclaims]
        rfl
      rw [hown]
      rfl

theorem Serial.begun_turn (hagree : ∀ x, Equivalence (agree x)) (hw : Serial h claim agree program w s)
    (t : Choice O) : (w.turn h claim program t).begun.Perm (w.begun ++ (w.beginning t).toList) := by
  cases t with
  | start op =>
    have hstart : (w.turn h claim program (.start op)).begun = w.begun := by
      simp [begun, Pool.turn, Pool.start]
    rw [hstart]
    exact (List.append_nil _).symm ▸ .refl _
  | step i =>
    change (w.step (owning h claim) i).begun.Perm (w.begun ++ ((w.tasks[i]?).bind Task.beginning).toList)
    cases hi : w.tasks[i]? with
    | none =>
      rw [step_none hi]
      exact (List.append_nil _).symm ▸ .refl _
    | some t =>
      rw [step_some hi]
      obtain ⟨hlt, rfl⟩ := List.getElem?_eq_some_iff.mp hi
      have hbegun : ∀ {l m : List (Task C R ε O σ (Option κ))}, l.Perm m →
          ((l.filter fun t => t.own.isSome).map Task.op).Perm ((m.filter fun t => t.own.isSome).map Task.op) :=
        fun hlm => (hlm.filter _).map _
      have hnew := hbegun (List.set_perm_cons_eraseIdx hlt (w.tasks[i].advance (owning h claim) w.shared).2)
      have hold := hbegun (List.getElem_cons_eraseIdx_perm hlt)
      rw [← List.singleton_append, List.filter_append, List.map_append] at hnew hold
      rw [hw.begun_advance hagree (List.getElem_mem hlt), List.append_assoc] at hnew
      refine hnew.trans (((List.perm_append_comm).append_left _).trans ?_)
      rw [← List.append_assoc]
      exact hold.append_right _

theorem Serial.begun_turns (hagree : ∀ x, Equivalence (agree x)) (hw : Serial h claim agree program w s)
    {ts : List (Choice O)} (hstart : ∀ op, .start op ∈ ts → Keeping h claim agree (program op))
    (hapart : Along h claim program (Apart claim) w ts) :
    (w.turns h claim program ts).begun.Perm (w.begun ++ order h claim program w ts) := by
  induction ts generalizing w s with
  | nil => exact (List.append_nil _).symm ▸ .refl _
  | cons t ts ih =>
    have hnext := hw.turn hagree (fun op ht => hstart op (ht ▸ List.mem_cons_self)) hapart.1
    have hrest := ih hnext (fun op hop => hstart op (List.mem_cons_of_mem t hop)) hapart.2
    rw [order, ← List.append_assoc]
    exact hrest.trans ((hw.begun_turn hagree t).append_right _)

/-- In every run in which no program begins on a part that another one is working on, the state
is at every part that nobody works on, and at the common one, what it is after the programs one
after another, in the order of their first calls. -/
theorem Serial.run (hagree : ∀ x, Equivalence (agree x)) (hw : Serial h claim agree program w s)
    {ts : List (Choice O)} (hstart : ∀ op, .start op ∈ ts → Keeping h claim agree (program op))
    (hapart : Along h claim program (Apart claim) w ts) :
    Serial h claim agree program (w.turns h claim program ts)
      (serially h program (order h claim program w ts) s) := by
  induction ts generalizing w s with
  | nil => exact hw
  | cons t ts ih =>
    have hnext := hw.turn hagree (fun op ht => hstart op (ht ▸ List.mem_cons_self)) hapart.1
    rw [order, serially, List.foldl_append]
    exact ih hnext (fun op hop => hstart op (List.mem_cons_of_mem t hop)) hapart.2

end

end Pool

end Calls
