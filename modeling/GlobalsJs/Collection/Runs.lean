import GlobalsJs.Collection.Scan

/-!
# Runs of calls on one collection

`Changed` says what one synchronous call does to the database. A run is a list of
calls; `Along` says that each call of a run meets a condition in the state it is made
in, and `after_along` carries an invariant over the run.
-/

namespace GlobalsJs
open Ecma Cache Query Calls.Prog

namespace Collection

inductive Op
  | save (ps : Props)
  | remove (ps : Props)
  | removeAll

def call (self : Collection) : Op → Prog Ended
  | .save ps => self.save (some (.obj ps))
  | .remove ps => self.remove (some (.obj ps))
  | .removeAll => self.remove none

variable {σ κ : Type} [LinearOrder κ] {b : Binding σ} {view : σ → Globals κ} {sub : Json → κ}

/-- The object has an identifier that may be a subscript. -/
def HasId (ps : Props) (id : Json) : Prop := get ps idKey = some id ∧ Scalar id

/-- Objects that are saved are not empty, and identifiers may be subscripts. -/
def Op.Proper : Op → Prop
  | .save ps => ps ≠ [] ∧ ∀ id, get ps idKey = some id → Scalar id
  | .remove ps => ∃ id, HasId ps id
  | .removeAll => True

def inserted (self : Collection) (sub : Json → κ) (g : Globals κ) (ps : Props) : Globals κ :=
  (g.increment self.name).update self.name (sub (.ofInt (self.newId g)))
    (stored ps (self.newId g))

inductive Changed (self : Collection) (sub : Json → κ) (g h : Globals κ) : Op → Prop
  | insert {ps : Props} : get ps idKey = none →
    self.Indexing sub .SAVE (stored ps (self.newId g)) (.ofInt (self.newId g))
      (self.inserted sub g ps) h → Changed self sub g h (.save ps)
  | save {ps : Props} {id : Json} : HasId ps id →
    self.Indexing sub .SAVE ps id (g.update self.name (sub id) ps) h → Changed self sub g h (.save ps)
  | remove {ps : Props} {id : Json} : HasId ps id →
    self.Indexing sub .REMOVE ps id (g.kill self.name [sub id]) h → Changed self sub g h (.remove ps)
  | removeAll : h = g.kill self.name [] → Changed self sub g h .removeAll

def after (b : Binding σ) (self : Collection) (ops : List Op) (s : σ) : σ :=
  ops.foldl (fun s op => (run b (self.call op) s).1) s

def Along (b : Binding σ) (view : σ → Globals κ) (self : Collection) (P : Globals κ → Op → Prop) :
    List Op → σ → Prop
  | [], _ => True
  | op :: ops, s => P (view s) op ∧ Along b view self P ops (run b (self.call op) s).1

inductive Runs {A : Type} (S : A → Op → A → Prop) : A → List Op → A → Prop
  | nil {a : A} : Runs S a [] a
  | cons {a a₁ a₂ : A} {op : Op} {ops : List Op} : S a op a₁ → Runs S a₁ ops a₂ → Runs S a (op :: ops) a₂

omit [LinearOrder κ] in
theorem Along.mono {self : Collection} {P Q : Globals κ → Op → Prop} {ops : List Op} {s : σ}
    (h : ∀ g, ∀ op ∈ ops, P g op → Q g op) (hops : Along b view self P ops s) :
    Along b view self Q ops s := by
  induction ops generalizing s with
  | nil => trivial
  | cons op ops ih =>
    exact ⟨h _ op List.mem_cons_self hops.1,
      ih (fun g o ho => h g o (List.mem_cons_of_mem op ho)) hops.2⟩

section
variable (law : Lawful b view sub)
include law

theorem run_call (self : Collection) {op : Op} (hop : op.Proper) (s : σ) :
    ∃ r, (run b (self.call op) s).2 = .ok r ∧
      self.Changed sub (view s) (view (run b (self.call op) s).1) op := by
  cases op with
  | save ps =>
    obtain ⟨hps, hscalar⟩ := hop
    cases hget : get ps idKey with
    | none =>
      obtain ⟨t, ht, hindex⟩ := run_add law self ps s
      have hcall : self.call (.save ps) = self.add (some (.obj ps)) := save_new self hps hget
      rw [hcall, ht]
      exact ⟨_, rfl, .insert hget hindex⟩
    | some id =>
      obtain ⟨t, status, ht, _, hindex⟩ := run_save_stored law self (hscalar id hget) hget s
      have hrun : run b (self.call (.save ps)) s = _ := ht
      rw [hrun]
      exact ⟨_, rfl, .save ⟨hget, hscalar id hget⟩ hindex⟩
  | remove ps =>
    obtain ⟨id, hget, hid⟩ := hop
    obtain ⟨t, result, ht, _, hindex⟩ := run_remove law self hid hget s
    have hrun : run b (self.call (.remove ps)) s = _ := ht
    rw [hrun]
    exact ⟨_, rfl, .remove ⟨hget, hid⟩ hindex⟩
  | removeAll =>
    obtain ⟨t, ht, hview⟩ := run_remove_all law self s
    have hrun : run b (self.call .removeAll) s = _ := ht
    rw [hrun]
    exact ⟨_, rfl, .removeAll hview⟩

/-- The run rule: what every call keeps holds in every state that is reached. -/
theorem after_along (self : Collection) {P : Globals κ → Op → Prop} {I : Globals κ → Prop}
    (hproper : ∀ g op, P g op → op.Proper)
    (hstep : ∀ g h op, I g → P g op → self.Changed sub g h op → I h)
    {ops : List Op} {s : σ} (hops : Along b view self P ops s) (hs : I (view s)) :
    I (view (after b self ops s)) := by
  induction ops generalizing s with
  | nil => exact hs
  | cons op ops ih =>
    obtain ⟨r, _, hchanged⟩ := run_call law self (hproper _ _ hops.1) s
    exact ih hops.2 (hstep _ _ op hs hops.1 hchanged)

theorem after_simulates {A : Type} {S : A → Op → A → Prop} (self : Collection)
    {P : Globals κ → Op → Prop} {R : Globals κ → A → Prop} (hproper : ∀ g op, P g op → op.Proper)
    (hstep : ∀ g h op a, R g a → P g op → self.Changed sub g h op → ∃ a', S a op a' ∧ R h a')
    {ops : List Op} {s : σ} {a : A} (hops : Along b view self P ops s) (hs : R (view s) a) :
    ∃ a', Runs S a ops a' ∧ R (view (after b self ops s)) a' := by
  induction ops generalizing s a with
  | nil => exact ⟨a, .nil, hs⟩
  | cons op ops ih =>
    obtain ⟨r, _, hchanged⟩ := run_call law self (hproper _ _ hops.1) s
    obtain ⟨a₁, hS, hR⟩ := hstep _ _ op a hs hops.1 hchanged
    obtain ⟨a₂, hruns, hR⟩ := ih hops.2 hR
    exact ⟨a₂, .cons hS hruns, hR⟩

theorem along_iff (self : Collection) {A K : Globals κ → Op → Prop} {I : Globals κ → Prop} {Q : σ → Prop}
    (hproper : ∀ g op, A g op → op.Proper) (hQ : ∀ s, I (view s) → Q s)
    (hkeeps : ∀ g h op, I g → A g op → self.Changed sub g h op → K g op → I h)
    (hbreaks : ∀ s t op, I (view s) → A (view s) op → self.Changed sub (view s) (view t) op →
      ¬ K (view s) op → ¬ Q t)
    {ops : List Op} {s : σ} (hs : I (view s)) (hops : Along b view self A ops s) :
    (∀ done, done <+: ops → Q (after b self done s)) ↔ Along b view self K ops s := by
  induction ops generalizing s with
  | nil =>
    refine iff_of_true (fun done hdone => ?_) trivial
    rw [List.prefix_nil.mp hdone]
    exact hQ s hs
  | cons op ops ih =>
    obtain ⟨r, _, hchanged⟩ := run_call law self (hproper _ _ hops.1) s
    have hrest := fun hnext => @ih (run b (self.call op) s).1 hnext hops.2
    constructor
    · intro hall
      have hop : K (view s) op := by
        by_contra hnot
        exact hbreaks s _ op hs hops.1 hchanged hnot (hall [op] (by simp))
      refine ⟨hop, (hrest (hkeeps _ _ op hs hops.1 hchanged hop)).mp fun done hdone => ?_⟩
      exact hall (op :: done) (List.cons_prefix_cons.mpr ⟨rfl, hdone⟩)
    · rintro ⟨hop, htail⟩ done hdone
      cases done with
      | nil => exact hQ s hs
      | cons o done =>
        obtain ⟨rfl, hprefix⟩ := List.cons_prefix_cons.mp hdone
        exact (hrest (hkeeps _ _ _ hs hops.1 hchanged hop)).mpr htail done hprefix

omit [LinearOrder κ] law in
theorem along_of_forall {self : Collection} {P : Op → Prop} {ops : List Op} (s : σ)
    (h : ∀ op ∈ ops, P op) : Along b view self (fun _ op => P op) ops s := by
  induction ops generalizing s with
  | nil => trivial
  | cons op ops ih => exact ⟨h op List.mem_cons_self, ih _ fun o ho => h o (List.mem_cons_of_mem op ho)⟩

end

end Collection

end GlobalsJs
