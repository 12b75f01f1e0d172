import GlobalsJs.Calls.Program

/-!
# Programs that run beside others

Between two calls of a program others may change the state, as far as a relation allows.
`Ensures` is what then holds when the program has ended: it passes from a state to any
later one, and through the parts of a program.
-/

namespace Calls.Prog

variable {C : Type} {R : C → Type} {ε α β σ : Type} {h : Handler C R σ} {rely : σ → σ → Prop}

def Ensures (h : Handler C R σ) (rely : σ → σ → Prop) (post : α → σ → Prop) :
    Prog C R ε α → σ → Prop
  | .ret a, s => post a s
  | .throw _, _ => True
  | .call c k, s => ∀ t, rely s t → Ensures h rely post (k (h c t).2) (h c t).1

theorem Ensures.mono {post post' : α → σ → Prop} {p : Prog C R ε α} {s : σ}
    (hpost : ∀ a t, post a t → post' a t) (hp : Ensures h rely post p s) : Ensures h rely post' p s := by
  induction p generalizing s with
  | ret a => exact hpost a s hp
  | throw => trivial
  | call c k ih => exact fun t ht => ih _ (hp t ht)

theorem Ensures.trivial (p : Prog C R ε α) (s : σ) : Ensures h rely (fun _ _ => True) p s := by
  induction p generalizing s with
  | ret | throw => exact True.intro
  | call c k ih => exact fun t _ => ih _ _

theorem Ensures.later {post : α → σ → Prop} {p : Prog C R ε α} {s t : σ}
    (htrans : ∀ {s t u}, rely s t → rely t u → rely s u)
    (hstable : ∀ a s t, rely s t → post a s → post a t)
    (hp : Ensures h rely post p s) (hst : rely s t) : Ensures h rely post p t := by
  cases p with
  | ret a => exact hstable a s t hst hp
  | throw => trivial
  | call c k => exact fun u hu => hp u (htrans hst hu)

theorem Ensures.bind {post : α → σ → Prop} {post' : β → σ → Prop} {p : Prog C R ε α}
    {f : α → Prog C R ε β} {s : σ} (hp : Ensures h rely post p s)
    (hf : ∀ a t, post a t → Ensures h rely post' (f a) t) : Ensures h rely post' (p >>= f) s := by
  induction p generalizing s with
  | ret a => exact hf a s hp
  | throw => trivial
  | call c k ih => exact fun t ht => ih _ (hp t ht)

theorem Ensures.forM {xs : List β} {f : β → Prog C R ε PUnit} {I : List β → σ → Prop} {s : σ}
    (hs : I [] s) (hf : ∀ done x rest t, xs = done ++ x :: rest → I done t →
      Ensures h rely (fun _ => I (done ++ [x])) (f x) t) :
    Ensures h rely (fun _ => I xs) (xs.forM f) s := by
  suffices hgen : ∀ done rest t, xs = done ++ rest → I done t →
      Ensures h rely (fun _ => I xs) (rest.forM f) t from hgen [] xs s rfl hs
  intro done rest
  induction rest generalizing done with
  | nil =>
    intro t hxs ht
    rw [List.append_nil] at hxs
    exact hxs ▸ ht
  | cons x rest ih =>
    intro t hxs ht
    exact (hf done x rest t hxs ht).bind fun _ u hu => ih (done ++ [x]) u (by simp [hxs]) hu

end Calls.Prog
