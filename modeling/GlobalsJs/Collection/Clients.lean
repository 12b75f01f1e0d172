import GlobalsJs.Collection.Contents

/-!
# Several clients on one collection

Clients take turns at single calls of the binding. A new identifier is taken from the
counter in one call and written in another. `Pending` are the identifiers that were
taken and not yet written: an add is safe as long as nobody else writes to them and
the counter does not go back.
-/

namespace GlobalsJs
open Ecma Cache Query Calls Calls.Prog

namespace Collection

/-- What a client runs. -/
def program (self : Collection) : Style → Method → Prog Unit
  | .sync, .add ps => do let _ ← self.add (some (.obj ps))
  | .sync, .save ps => do let _ ← self.save (some (.obj ps))
  | .sync, .remove ps => do let _ ← self.remove (some (.obj ps))
  | .sync, .removeAll => do let _ ← self.remove none
  | .async, .add ps => do let _ ← self.add_async (some (.obj ps))
  | .async, .save ps => do let _ ← self.save_async (some (.obj ps))
  | .async, .remove ps => self.remove_async (some (.obj ps))
  | .async, .removeAll => self.remove_async none

/-- The call does not touch the collection's own global. -/
def Calm (self : Collection) : Call → Prop
  | .set ref _ | .kill ref => self.name ≠ ref.global
  | .callback _ _ => True
  | _ => False

def Writes (self : Collection) (n : ℕ) (p : Prog Unit) : Prop :=
  ∃ ps k, p = .call (.update ⟨self.name, [some (.ofInt n)]⟩ (.obj ps)) k ∧ ∀ r, Only self.Calm (k r)

def Begins (self : Collection) (p : Prog Unit) : Prop :=
  ∃ k, p = .call (.increment ⟨self.name, []⟩) k ∧ ∀ r, isOk r.result = .ok true → ∀ n : ℕ,
    member (some r.result) (js "data") = .ok (some (.ofInt n)) → self.Writes n (k r)

inductive Phase (c : Collection) (m : Method) : Prog Unit → Prop
  | calm {p : Prog Unit} : Only c.Calm p → Phase c m p
  | report {call : Call} {k : Reply call → Prog Unit} : m.Adds → c.Calm call →
    (∀ r, c.Begins (k r)) → Phase c m (.call call k)
  | begin {p : Prog Unit} : m.Adds → c.Begins p → Phase c m p
  | write {n : ℕ} {p : Prog Unit} : c.Writes n p → Phase c m p
  | remove {n : ℕ} {k : Reply (.kill ⟨c.name, [some (.ofInt n)]⟩) → Prog Unit} :
    (∀ r, Only c.Calm (k r)) → Phase c m (.call (.kill ⟨c.name, [some (.ofInt n)]⟩) k)
  | wipe {k : Reply (.killGlobal c.name) → Prog Unit} :
    (∀ r, Only c.Calm (k r)) → Phase c m (.call (.killGlobal c.name) k)

theorem calm_update_index (self : Collection) (operation : IndexOperation) (object : Option Json) :
    Only self.Calm (self.update_index operation object) := by
  refine only_update_index self (fun subs => ?_) (fun _ _ => self.system_global_ne) object
  cases operation <;> exact self.index_global_ne

theorem calm_callBack (self : Collection) (error result : Option Json) :
    Only self.Calm (callBack error result) :=
  only_callBack (fun _ _ => trivial) error result

def id_of (result : Json) : Prog (Option Json) := do
  if ← isOk result then member (some result) (js "data")
  else .throw (.error (.referenceError (js "error")))

theorem id_of_ok {result : Json} {n : ℕ} (hok : isOk result = .ok true)
    (hdata : member (some result) (js "data") = .ok (some (.ofInt n))) :
    id_of result = .ret (some (.ofInt n)) := by
  rw [id_of, hok, hdata]
  rfl

theorem writes_of_update (self : Collection) {x : Option Json} {n : ℕ} (hx : x = some (.ofInt n))
    (ps : Props) {k : Reply (.update ⟨self.name, [x]⟩ (.obj ps)) → Prog Unit}
    (hk : ∀ r, Only self.Calm (k r)) : self.Writes n (.call (.update ⟨self.name, [x]⟩ (.obj ps)) k) := by
  subst hx
  exact ⟨ps, k, rfl, hk⟩

theorem begins_add (self : Collection) (ps : Props) :
    self.Begins (do let _ ← self.add (some (.obj ps))) := by
  refine ⟨_, rfl, fun r hok n hdata => ?_⟩
  change self.Writes n (Calls.Prog.bind (Calls.Prog.bind (id_of r.result) _) _)
  rw [id_of_ok hok hdata]
  refine writes_of_update self (get_stored ps n) (stored ps n) fun r' => ?_
  refine Only.bind ?_ fun _ => .pure _
  change Only self.Calm (if isZeroStatus r'.result then _ else _)
  split_ifs
  · exact (calm_update_index self .SAVE _).bind fun _ => .pure _
  · exact .pure _

theorem begins_add_async (self : Collection) (ps : Props) :
    self.Begins (do let _ ← self.add_async (some (.obj ps))) := by
  refine ⟨_, rfl, fun r hok n hdata => ?_⟩
  change self.Writes n (Calls.Prog.bind (Calls.Prog.bind (id_of r.result) _) _)
  rw [id_of_ok hok hdata]
  refine writes_of_update self (get_stored ps n) (stored ps n) fun r' => ?_
  refine Only.bind ?_ fun _ => .pure _
  exact (calm_update_index self .SAVE _).bind fun _ =>
    (calm_callBack self _ _).bind fun _ => .pure _

def Method.Numbered : Method → Prop
  | .save ps | .remove ps => ∀ id, get ps idKey = some id → ∃ n : ℕ, id = .ofInt n
  | .add _ | .removeAll => True

theorem program_adds (self : Collection) (style : Style) {m : Method} (hm : m.Adds) :
    Only self.Calm (self.program style m) ∨ self.Begins (self.program style m) ∨
      ∃ call k, self.program style m = .call call k ∧ self.Calm call ∧ ∀ r, self.Begins (k r) := by
  cases m with
  | add ps =>
    cases style with
    | sync => exact .inr (.inl (begins_add self ps))
    | async => exact .inr (.inl (begins_add_async self ps))
  | save ps =>
    rcases eq_or_ne ps [] with rfl | hps
    · cases style with
      | sync => exact .inl (.pure _)
      | async => exact .inr (.inr ⟨_, _, rfl, trivial, fun _ => begins_add_async self []⟩)
    cases style with
    | sync =>
      rw [program, save_new self hps hm]
      exact .inr (.inl (begins_add self ps))
    | async =>
      rw [program, save_async_new self hps hm]
      exact .inr (.inl (begins_add_async self ps))
  | remove ps => exact hm.elim
  | removeAll => exact hm.elim

theorem phase_program (self : Collection) (style : Style) {m : Method} (hm : m.Numbered) :
    self.Phase m (self.program style m) := by
  by_cases hadds : m.Adds
  · rcases program_adds self style hadds with hcalm | hbegins | ⟨call, k, hrun, hcall, hk⟩
    · exact .calm hcalm
    · exact .begin hadds hbegins
    · rw [hrun]
      exact .report hadds hcall hk
  cases m with
  | add ps => exact (hadds trivial).elim
  | save ps =>
    obtain ⟨id, hget⟩ := Option.ne_none_iff_exists'.mp hadds
    obtain ⟨n, rfl⟩ := hm id hget
    cases style with
    | sync =>
      rw [program, save_stored self hget]
      refine .write ⟨ps, _, rfl, fun r => ?_⟩
      refine Only.bind ?_ fun _ => .pure _
      change Only self.Calm (if isZeroStatus r.result then _ else _)
      split_ifs
      · exact (calm_update_index self .SAVE _).bind fun _ => .pure _
      · exact .pure _
    | async =>
      rw [program, save_async_stored self hget]
      refine .write ⟨ps, _, rfl, fun r => ?_⟩
      exact ((calm_update_index self .SAVE _).bind fun _ =>
        (calm_callBack self _ _).bind fun _ => .pure _).bind fun _ => .pure _
  | remove ps =>
    cases hget : get ps idKey with
    | none =>
      have hthrow : ∀ {α : Type} (k : GloRef → Prog α), Only self.Calm
          ((liftM (self.fetch_glo_ref_from_object (some (.obj ps))) : Prog GloRef) >>= k) := by
        intro α k
        rw [fetch_none self hget]
        exact .throw _
      cases style with
      | sync => exact .calm ((hthrow _).bind fun _ => .pure _)
      | async => exact .calm (hthrow _)
    | some id =>
      obtain ⟨n, rfl⟩ := hm id hget
      cases style with
      | sync =>
        rw [program, remove_stored self hget]
        refine .remove fun r => Only.bind ?_ fun _ => .pure _
        refine (Only.lift _).bind fun ok => ?_
        cases ok with
        | false => exact .pure _
        | true => exact (calm_update_index self .REMOVE _).bind fun _ => .pure _
      | async =>
        rw [program, remove_async_stored self hget]
        exact .remove fun r => .call self.system_global_ne fun _ => .call self.index_global_ne fun _ =>
          calm_callBack self _ _
  | removeAll =>
    cases style with
    | sync => exact .wipe fun r => .pure _
    | async => exact .wipe fun r => (calm_callBack self _ _).bind fun _ => .pure _

structure World (σ ι : Type) where
  store : σ
  running : ι → Option (Method × Prog Unit)
  given : List ℕ

inductive Event (κ ι : Type)
  | start (i : ι) (style : Style) (m : Method)
  | find (k : κ) (n : ℕ)
  | call (i : ι)
  | finish (i : ι)

def Method.id : Method → Option Json
  | .save ps | .remove ps => get ps idKey
  | .add _ | .removeAll => none

def World.knows {σ ι : Type} (w : World σ ι) (m : Method) : Bool :=
  m.id.all fun id => w.given.any fun n => id = .ofInt n

section
variable {σ κ ι : Type} [LinearOrder κ] [DecidableEq ι] {b : Binding σ} {view : σ → Globals κ}
  {sub : Json → κ}

def taken (self : Collection) (g : Globals κ) : Call → List ℕ
  | .increment _ => [self.newId g]
  | _ => []

def exec (b : Binding σ) (view : σ → Globals κ) (self : Collection) (w : World σ ι) :
    Event κ ι → Option (World σ ι)
  | .start i style m =>
    if (w.running i).isNone && w.knows m then
      some { w with running := Function.update w.running i (some (m, self.program style m)) }
    else none
  | .find k n =>
    if ((view w.store).object self.name k).any fun o => get o idKey = some (.ofInt n) then
      some { w with given := n :: w.given }
    else none
  | .call i =>
    match w.running i with
    | some (m, .call c k) => some {
        store := (b c w.store).1
        running := Function.update w.running i (some (m, k (b c w.store).2))
        given := self.taken (view w.store) c ++ w.given }
    | _ => none
  | .finish i =>
    match w.running i with
    | some (_, .call _ _) | none => none
    | some _ => some { w with running := Function.update w.running i none }

def Pending (self : Collection) (w : World σ ι) (i : ι) (n : ℕ) : Prop :=
  ∃ m object k, w.running i =
    some (m, .call (.update ⟨self.name, [some (.ofInt n)]⟩ object) k) ∧ m.Adds

def Meets (self : Collection) (view : σ → Globals κ) (w : World σ ι) : Event κ ι → Prop
  | .call i =>
    match w.running i with
    | some (m, .call (.update ref _) _) => m.Adds ∨ ∃ n : ℕ, ref = ⟨self.name, [some (.ofInt n)]⟩ ∧
      n ≤ ((view w.store).root self.name).getD 0 ∧ ∀ j, ¬ Pending self w j n
    | some (_, .call (.killGlobal _) _) => ∀ j n, ¬ Pending self w j n
    | _ => True
  | .start _ _ _ | .find _ _ | .finish _ => True

structure Orderly (c : Collection) (view : σ → Globals κ) (sub : Json → κ) (w : World σ ι) : Prop where
  phases : ∀ i m p, w.running i = some (m, p) → c.Phase m p
  stored : ∀ k, ((view w.store).object c.name k).isSome →
    ∃ n ≤ ((view w.store).root c.name).getD 0, k = subId sub n
  pending : ∀ i n, Pending c w i n →
    n ≤ ((view w.store).root c.name).getD 0 ∧ (view w.store).object c.name (subId sub n) = none
  apart : ∀ i j n, Pending c w i n → Pending c w j n → i = j

omit [DecidableEq ι] [LinearOrder κ] in
theorem Orderly.turn {self : Collection} {w w' : World σ ι} {i : ι} (hw : self.Orderly view sub w)
    (hother : ∀ j, j ≠ i → w'.running j = w.running j)
    (hphase : ∀ m p, w'.running i = some (m, p) → self.Phase m p)
    (hstored : ∀ k, ((view w'.store).object self.name k).isSome →
      ∃ n ≤ ((view w'.store).root self.name).getD 0, k = subId sub n)
    (hpending : ∀ j n, j ≠ i → Pending self w j n →
      n ≤ ((view w'.store).root self.name).getD 0 ∧ (view w'.store).object self.name (subId sub n) = none)
    (hown : ∀ n, Pending self w' i n → (n ≤ ((view w'.store).root self.name).getD 0 ∧
      (view w'.store).object self.name (subId sub n) = none) ∧ ∀ j, ¬ Pending self w j n) :
    self.Orderly view sub w' := by
  have hback : ∀ j n, j ≠ i → Pending self w' j n → Pending self w j n := by
    rintro j n hji ⟨m, object, k, hrun, hm⟩
    exact ⟨m, object, k, by rw [← hother j hji]; exact hrun, hm⟩
  refine ⟨fun j m p hrun => ?_, hstored, fun j n hj => ?_, fun j l n hj hl => ?_⟩
  · by_cases hji : j = i
    · subst hji
      exact hphase m p hrun
    · exact hw.phases j m p (by rw [← hother j hji]; exact hrun)
  · by_cases hji : j = i
    · subst hji
      exact (hown n hj).1
    · exact hpending j n hji (hback j n hji hj)
  · by_cases hji : j = i <;> by_cases hli : l = i
    · rw [hji, hli]
    · subst hji
      exact absurd (hback l n hli hl) ((hown n hj).2 l)
    · subst hli
      exact absurd (hback j n hji hj) ((hown n hl).2 j)
    · exact hw.apart j l n (hback j n hji hj) (hback l n hli hl)

omit [DecidableEq ι] [LinearOrder κ] in
theorem Orderly.keep {self : Collection} {w w' : World σ ι} {i : ι} (hw : self.Orderly view sub w)
    (hsame : (view w'.store).SameAt (view w.store) self.name)
    (hother : ∀ j, j ≠ i → w'.running j = w.running j)
    (hphase : ∀ m p, w'.running i = some (m, p) → self.Phase m p)
    (hpending : ∀ n, ¬ Pending self w' i n) : self.Orderly view sub w' := by
  obtain ⟨hroot, hobject, -⟩ := hsame
  refine hw.turn hother hphase ?_ ?_ fun n hn => absurd hn (hpending n)
  · rw [hobject, hroot]
    exact hw.stored
  · intro j n _ hj
    rw [hobject, hroot]
    exact hw.pending j n hj

omit [DecidableEq ι] [LinearOrder κ] in
theorem not_pending_of_calm {self : Collection} {w : World σ ι} {i : ι} {m : Method} {p : Prog Unit}
    (hrun : w.running i = some (m, p)) (hp : Only self.Calm p) (n : ℕ) : ¬ Pending self w i n := by
  rintro ⟨m', object, k, hrun', -⟩
  obtain ⟨rfl, rfl⟩ := Prod.mk.inj (Option.some.inj (hrun.symm.trans hrun'))
  cases hp with
  | call hcall _ => exact hcall

omit [DecidableEq ι] [LinearOrder κ] in
theorem not_pending_of_begins {self : Collection} {w : World σ ι} {i : ι} {m : Method} {p : Prog Unit}
    (hrun : w.running i = some (m, p)) (hp : self.Begins p) (n : ℕ) : ¬ Pending self w i n := by
  rintro ⟨m', object, k, hrun', -⟩
  obtain ⟨rfl, rfl⟩ := Prod.mk.inj (Option.some.inj (hrun.symm.trans hrun'))
  obtain ⟨k', hk', -⟩ := hp
  cases hk'

variable (law : Lawful b view sub)
include law

omit law [DecidableEq ι] [LinearOrder κ] in
theorem ref_inj {name : JsString} {m n : ℕ}
    (h : (⟨name, [some (.ofInt m)]⟩ : GloRef) = ⟨name, [some (.ofInt n)]⟩) : m = n := by
  simp only [GloRef.mk.injEq, List.cons.injEq, Option.some.injEq, true_and, and_true] at h
  exact Json.ofInt_nat_inj.mp h

omit [DecidableEq ι] in
theorem calm_same {self : Collection} {c : Call} (hc : self.Calm c) (s : σ) :
    (view (b c s).1).SameAt (view s) self.name := by
  cases c with
  | set ref data => exact law.set_elsewhere s ref data self.name hc
  | kill ref => exact law.kill_elsewhere s ref self.name hc
  | callback error result =>
    rw [law.callback]
    exact .refl _ _
  | killGlobal | increment | update | order | orderNothing | retrieve | get | close => exact hc.elim

omit law [DecidableEq ι] [LinearOrder κ] in
theorem phase_of_self {self : Collection} {w : World σ ι} {i : ι} {m : Method} {p : Prog Unit}
    (hself : w.running i = some (m, p)) (hp : self.Phase m p) :
    ∀ m' q, w.running i = some (m', q) → self.Phase m' q := by
  intro m' q hq
  obtain ⟨rfl, rfl⟩ := Prod.mk.inj (Option.some.inj (hself.symm.trans hq))
  exact hp

omit [DecidableEq ι] in
theorem Orderly.begin {self : Collection} {w w' : World σ ι} {i : ι} {m : Method} {p : Prog Unit}
    (hw : self.Orderly view sub w) (hview : view w'.store = (view w.store).increment self.name)
    (hother : ∀ j, j ≠ i → w'.running j = w.running j) (hself : w'.running i = some (m, p))
    (hnext : self.Writes (self.newId (view w.store)) p) : self.Orderly view sub w' := by
  have hroot : (view w'.store).root self.name = some (self.newId (view w.store)) := by
    rw [hview]
    simp [Globals.increment, newId]
  have hobject : (view w'.store).object = (view w.store).object := by
    rw [hview]
    rfl
  have hle : ((view w.store).root self.name).getD 0 < self.newId (view w.store) := by
    rw [newId]
    omega
  refine hw.turn hother (phase_of_self hself (.write hnext)) ?_ ?_ ?_
  · intro l hl
    rw [hobject] at hl
    obtain ⟨n, hn, rfl⟩ := hw.stored l hl
    rw [hroot]
    exact ⟨n, hn.trans hle.le, rfl⟩
  · intro j n _ hj
    obtain ⟨hn, hfree⟩ := hw.pending j n hj
    rw [hroot, hobject]
    exact ⟨hn.trans hle.le, hfree⟩
  · rintro n ⟨m', object, k'', hrun', -⟩
    obtain ⟨ps, k₁, hk₁, -⟩ := hnext
    rw [hself, hk₁] at hrun'
    have hcall := (Calls.Prog.call.inj (Prod.mk.inj (Option.some.inj hrun')).2).1
    obtain rfl := ref_inj (Call.update.inj hcall).1
    rw [hroot, hobject]
    refine ⟨⟨le_refl _, ?_⟩, fun j hj => absurd (hw.pending j _ hj).1 (by omega)⟩
    rw [← Option.not_isSome_iff_eq_none]
    intro hsome
    obtain ⟨l, hl, heq⟩ := hw.stored _ hsome
    have hnl := (subId_strictMono law).injective heq
    omega

omit [DecidableEq ι] in
theorem Orderly.write {self : Collection} {w w' : World σ ι} {i : ι} {m : Method} {p : Prog Unit} {n : ℕ}
    {ps : Props} (hw : self.Orderly view sub w)
    (hview : view w'.store = (view w.store).update self.name (subId sub n) ps)
    (hother : ∀ j, j ≠ i → w'.running j = w.running j) (hself : w'.running i = some (m, p))
    (hcalm : Only self.Calm p) (hn : n ≤ ((view w.store).root self.name).getD 0)
    (hmine : ∀ j, j ≠ i → ¬ Pending self w j n) : self.Orderly view sub w' := by
  have hroot : (view w'.store).root = (view w.store).root := by
    rw [hview]
    rfl
  have hobject : ∀ l, (view w'.store).object self.name l =
      if l = subId sub n then some ps else (view w.store).object self.name l := by
    intro l
    rw [hview]
    simp [Globals.update]
  refine hw.turn hother (phase_of_self hself (.calm hcalm)) ?_ ?_ fun l hl =>
    absurd hl (not_pending_of_calm hself hcalm l)
  · intro l hl
    rw [hroot]
    rw [hobject] at hl
    split_ifs at hl with hln
    · exact ⟨n, hn, hln⟩
    · exact hw.stored l hl
  · intro j l hji hj
    obtain ⟨hl, hfree⟩ := hw.pending j l hj
    rw [hroot, hobject]
    refine ⟨hl, ?_⟩
    rw [if_neg, hfree]
    intro heq
    have hln := (subId_strictMono law).injective heq
    subst hln
    exact hmine j hji hj

omit law [DecidableEq ι] in
theorem Orderly.remove {self : Collection} {w w' : World σ ι} {i : ι} {m : Method} {p : Prog Unit} {n : ℕ}
    (hw : self.Orderly view sub w)
    (hview : view w'.store = (view w.store).kill self.name [subId sub n])
    (hother : ∀ j, j ≠ i → w'.running j = w.running j) (hself : w'.running i = some (m, p))
    (hcalm : Only self.Calm p) : self.Orderly view sub w' := by
  have hroot : (view w'.store).root self.name = (view w.store).root self.name := by
    rw [hview]
    simp [Globals.kill]
  have hobject : ∀ l, (view w'.store).object self.name l =
      if l = subId sub n then none else (view w.store).object self.name l := by
    intro l
    rw [hview]
    simp [Globals.kill, eq_comm]
  refine hw.turn hother (phase_of_self hself (.calm hcalm)) ?_ ?_ fun l hl =>
    absurd hl (not_pending_of_calm hself hcalm l)
  · intro l hl
    rw [hroot]
    rw [hobject] at hl
    split_ifs at hl with hln
    · cases hl
    · exact hw.stored l hl
  · intro j l _ hj
    obtain ⟨hl, hfree⟩ := hw.pending j l hj
    rw [hroot, hobject, hfree, ite_self]
    exact ⟨hl, rfl⟩

omit law [DecidableEq ι] in
theorem Orderly.wipe {self : Collection} {w w' : World σ ι} {i : ι} {m : Method} {p : Prog Unit}
    (hw : self.Orderly view sub w) (hview : view w'.store = (view w.store).kill self.name [])
    (hother : ∀ j, j ≠ i → w'.running j = w.running j) (hself : w'.running i = some (m, p))
    (hcalm : Only self.Calm p) (hnone : ∀ j n, ¬ Pending self w j n) : self.Orderly view sub w' := by
  refine hw.turn hother (phase_of_self hself (.calm hcalm)) ?_ (fun j n _ hj => absurd hj (hnone j n))
    fun l hl => absurd hl (not_pending_of_calm hself hcalm l)
  intro l hl
  rw [hview] at hl
  simp [Globals.kill] at hl

theorem orderly_call (self : Collection) {w : World σ ι} {i : ι} {m : Method} {c : Call}
    {k : Reply c → Prog Unit} (hw : self.Orderly view sub w)
    (hrun : w.running i = some (m, .call c k)) (hmeets : self.Meets view w (.call i : Event κ ι))
    {given : List ℕ} : self.Orderly view sub ⟨(b c w.store).1,
      Function.update w.running i (some (m, k (b c w.store).2)), given⟩ := by
  have hself : Function.update w.running i (some (m, k (b c w.store).2)) i =
      some (m, k (b c w.store).2) := Function.update_self ..
  have hother : ∀ j, j ≠ i → Function.update w.running i (some (m, k (b c w.store).2)) j = w.running j :=
    fun j hj => Function.update_of_ne hj ..
  cases hw.phases i m _ hrun with
  | calm hcalm =>
    cases hcalm with
    | call hc hk =>
      exact hw.keep (calm_same law hc w.store) hother (phase_of_self hself (.calm (hk _)))
        (not_pending_of_calm hself (hk _))
  | report hadds hc hk =>
    exact hw.keep (calm_same law hc w.store) hother (phase_of_self hself (.begin hadds (hk _)))
      (not_pending_of_begins hself (hk _))
  | begin hadds hbegins =>
    obtain ⟨k', hk', hwrites⟩ := hbegins
    cases hk'
    exact hw.begin law (law.increment w.store self.name) hother hself
      (hwrites _ (law.increment_ok _ _) _ (law.increment_data _ _))
  | @write n p hwrites =>
    obtain ⟨ps, k', hk', hcalm⟩ := hwrites
    cases hk'
    -- the identifier is below the counter, and no other client is about to write to it
    have hmine : n ≤ ((view w.store).root self.name).getD 0 ∧ ∀ j, j ≠ i → ¬ Pending self w j n := by
      have hor : m.Adds ∨ ∃ l : ℕ, (⟨self.name, [some (.ofInt n)]⟩ : GloRef) = ⟨self.name, [some (.ofInt l)]⟩ ∧
          l ≤ ((view w.store).root self.name).getD 0 ∧ ∀ j, ¬ Pending self w j l := by
        simpa only [Meets, hrun] using hmeets
      rcases hor with hadds | ⟨l, href, hl, hnone⟩
      · have hpend : Pending self w i n := ⟨m, _, _, hrun, hadds⟩
        exact ⟨(hw.pending i n hpend).1, fun j hj hpend' => hj (hw.apart j i n hpend' hpend)⟩
      · obtain rfl := ref_inj href
        exact ⟨hl, fun j _ => hnone j⟩
    exact hw.write law (law.update w.store self.name (.ofInt n) ps trivial) hother hself (hcalm _)
      hmine.1 hmine.2
  | @remove n k' hk =>
    have hview := law.kill w.store self.name [.ofInt n] (by simp [scalar_ofInt])
    exact hw.remove hview hother hself (hk _)
  | wipe hk =>
    have hnone : ∀ j n, ¬ Pending self w j n := by simpa only [Meets, hrun] using hmeets
    exact hw.wipe (law.killGlobal w.store self.name) hother hself (hk _) hnone

omit law [DecidableEq ι] [LinearOrder κ] in
theorem numbered_of_knows {w : World σ ι} {m : Method} (h : w.knows m = true) : m.Numbered := by
  have hknown : ∀ id, m.id = some id → ∃ n : ℕ, id = .ofInt n := by
    intro id hid
    simp only [World.knows, hid, Option.all_some, List.any_eq_true, decide_eq_true_eq] at h
    obtain ⟨n, -, hn⟩ := h
    exact ⟨n, hn⟩
  cases m with
  | save ps | remove ps => exact hknown
  | add ps | removeAll => trivial

theorem orderly_exec (self : Collection) {w w' : World σ ι} {e : Event κ ι}
    (hw : self.Orderly view sub w) (hmeets : self.Meets view w e)
    (hexec : exec b view self w e = some w') : self.Orderly view sub w' := by
  cases e with
  | start i style m =>
    simp only [exec, Option.ite_none_right_eq_some, Option.some.injEq, Bool.and_eq_true] at hexec
    obtain ⟨⟨-, hknows⟩, rfl⟩ := hexec
    have hrun : Function.update w.running i (some (m, self.program style m)) i =
        some (m, self.program style m) := Function.update_self ..
    refine hw.keep (.refl _ _) (fun j hj => Function.update_of_ne hj ..) (i := i) ?_ ?_
    · rintro m' p hp
      obtain ⟨rfl, rfl⟩ := Prod.mk.inj (Option.some.inj (hrun.symm.trans hp))
      exact phase_program self style (numbered_of_knows hknows)
    · rintro n ⟨m', object, k, hp, hadds⟩
      obtain ⟨rfl, hprog⟩ := Prod.mk.inj (Option.some.inj (hrun.symm.trans hp))
      rcases program_adds self style hadds with hcalm | ⟨k', hk', -⟩ | ⟨call, k', hk', hcall, -⟩
      · rw [hprog] at hcalm
        cases hcalm with
        | call hc _ => exact hc
      · rw [hprog] at hk'
        cases hk'
      · rw [hprog] at hk'
        cases hk'
        exact hcall
  | find k n =>
    simp only [exec, Option.ite_none_right_eq_some, Option.some.injEq] at hexec
    obtain ⟨-, rfl⟩ := hexec
    exact ⟨hw.phases, hw.stored, hw.pending, hw.apart⟩
  | call i =>
    simp only [exec] at hexec
    split at hexec
    · rename_i m c k hrun
      rw [← Option.some.inj hexec]
      exact orderly_call law self hw hrun hmeets
    · cases hexec
  | finish i =>
    simp only [exec] at hexec
    split at hexec
    · cases hexec
    · cases hexec
    · rw [← Option.some.inj hexec]
      refine hw.keep (.refl _ _) (fun j hj => Function.update_of_ne hj ..) (i := i) ?_ ?_
      · intro m p hp
        have hnone : Function.update w.running i none i = none := Function.update_self ..
        cases hnone.symm.trans hp
      · rintro n ⟨m, object, k, hp, -⟩
        have hnone : Function.update w.running i none i = none := Function.update_self ..
        cases hnone.symm.trans hp

/-- All events of a run meet the condition. -/
def AllMeet (b : Binding σ) (view : σ → Globals κ) (self : Collection) :
    List (Event κ ι) → World σ ι → Prop
  | [], _ => True
  | e :: es, w => self.Meets view w e ∧ ∀ w', exec b view self w e = some w' → AllMeet b view self es w'

theorem orderly_run (self : Collection) {es : List (Event κ ι)} {w w' : World σ ι}
    (hw : self.Orderly view sub w) (hmeets : AllMeet b view self es w)
    (hrun : es.foldlM (exec b view self) w = some w') : self.Orderly view sub w' := by
  induction es generalizing w with
  | nil =>
    rw [List.foldlM_nil] at hrun
    rw [← Option.some.inj hrun]
    exact hw
  | cons e es ih =>
    rw [List.foldlM_cons] at hrun
    cases hexec : exec b view self w e with
    | none =>
      rw [hexec] at hrun
      cases hrun
    | some w₁ =>
      rw [hexec] at hrun
      exact ih (orderly_exec law self hw hmeets.1 hexec) (hmeets.2 w₁ hexec) hrun

omit law [LinearOrder κ] [DecidableEq ι] in
theorem orderly_start (self : Collection) {s : σ} (hempty : self.Empty (view s)) :
    self.Orderly view sub (⟨s, fun _ => none, []⟩ : World σ ι) where
  phases i m p hrun := by cases hrun
  stored k hk := by
    rw [hempty.2.1] at hk
    cases hk
  pending i n := by
    rintro ⟨m, object, k, hrun, -⟩
    cases hrun
  apart i j n := by
    rintro ⟨m, object, k, hrun, -⟩
    cases hrun

/-- In every state that is reached, the identifier that an add is about to write to holds no object. -/
theorem add_never_overwrites (self : Collection) {s : σ} (hempty : self.Empty (view s))
    {es : List (Event κ ι)} {w : World σ ι} (hmeets : AllMeet b view self es ⟨s, fun _ => none, []⟩)
    (hrun : es.foldlM (exec b view self) ⟨s, fun _ => none, []⟩ = some w) {i : ι} {m : Method}
    {id : Json} {object : Json} {k : Reply (.update ⟨self.name, [some id]⟩ object) → Prog Unit}
    (hwrite : w.running i = some (m, .call (.update ⟨self.name, [some id]⟩ object) k)) (hadds : m.Adds) :
    (view w.store).object self.name (sub id) = none := by
  have hstart : self.Orderly view sub (⟨s, fun _ => none, []⟩ : World σ ι) := orderly_start self hempty
  have hw := orderly_run law self hstart hmeets hrun
  have hpending : ∀ n : ℕ, id = .ofInt n → (view w.store).object self.name (sub id) = none := by
    rintro n rfl
    exact (hw.pending i n ⟨m, object, k, hwrite, hadds⟩).2
  cases hw.phases i m _ hwrite with
  | calm hcalm =>
    cases hcalm with
    | call hc _ => exact hc.elim
  | report _ hc _ => exact hc.elim
  | begin _ hbegins =>
    obtain ⟨k', hk', -⟩ := hbegins
    cases hk'
  | @write n p hwrites =>
    obtain ⟨ps, k', hk', -⟩ := hwrites
    have hcall := (Calls.Prog.call.inj hk').1
    have href := (Call.update.inj hcall).1
    simp only [GloRef.mk.injEq, List.cons.injEq, Option.some.injEq, true_and, and_true] at href
    exact hpending n href

end

def unindexed : Collection := ⟨js "people", []⟩

def worldStart : World Disk (Fin 2) := ⟨Disk.empty, fun _ => none, []⟩

theorem add_never_overwrites_two :
    let es : List (Event Subscript (Fin 2)) := [.start 0 .sync (.add (ann 30)),
      .start 1 .async (.add (ann 40)), .call 0, .call 1, .call 0]
    ∃ w m object k, es.foldlM (exec Disk.binding Disk.view unindexed) worldStart = some w ∧
      w.running 1 = some (m, .call (.update ⟨unindexed.name, [some (.ofInt 2)]⟩ object) k) ∧ m.Adds ∧
      (Disk.view w.store).object unindexed.name (.of (.ofInt 2)) = none := by
  intro es
  have hmeets : AllMeet Disk.binding Disk.view unindexed es worldStart := by
    refine ⟨trivial, fun w₁ h₁ => ?_⟩
    obtain rfl := Option.some.inj h₁
    refine ⟨trivial, fun w₂ h₂ => ?_⟩
    obtain rfl := Option.some.inj h₂
    refine ⟨trivial, fun w₃ h₃ => ?_⟩
    obtain rfl := Option.some.inj h₃
    refine ⟨trivial, fun w₄ h₄ => ?_⟩
    obtain rfl := Option.some.inj h₄
    exact ⟨.inl trivial, fun _ _ => trivial⟩
  refine ⟨_, _, _, _, rfl, rfl, trivial, ?_⟩
  exact add_never_overwrites (i := 1) Disk.lawful unindexed people_empty hmeets rfl rfl trivial

/-- The collection is emptied and an old object saved back: the next add gets its identifier. -/
theorem add_overwrites_after_wipe :
    let es : List (Event Subscript (Fin 2)) := [.start 0 .sync (.add (ann 30)), .call 0, .call 0, .finish 0,
      .start 0 .sync .removeAll, .call 0, .finish 0,
      .start 0 .sync (.save (stored (ann 30) 1)), .call 0, .finish 0, .start 1 .sync (.add (ann 40)), .call 1]
    ∃ w m object k, es.foldlM (exec Disk.binding Disk.view unindexed) worldStart = some w ∧
      w.running 1 = some (m, .call (.update ⟨unindexed.name, [some (.ofInt 1)]⟩ object) k) ∧ m.Adds ∧
      (Disk.view w.store).object unindexed.name (.of (.ofInt 1)) = some (stored (ann 30) 1) :=
  ⟨_, _, _, _, rfl, rfl, trivial, rfl⟩

end Collection

end GlobalsJs
