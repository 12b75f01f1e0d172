import GlobalsJs.Collection.Indexes
import GlobalsJs.Collection.Serial

/-!
# Indexes that several clients keep

The operations that take turns end up where the same operations end up one by one. So the
indexes stay exact when every operation, at its first call, is about an object that still has
the indexed values of the stored one.
-/

namespace GlobalsJs
open Ecma Cache Query Calls Calls.Prog

namespace Collection

/-- The operation as a call that returns a value. Adding is saving a new object. -/
def Method.op : Method → Op
  | .add ps | .save ps => .save ps
  | .remove ps => .remove ps
  | .removeAll => .removeAll

def Method.IsNew : Method → Prop
  | .add ps => get ps idKey = none
  | .save _ | .remove _ | .removeAll => True

section
variable {σ κ : Type} [LinearOrder κ] {b : Binding σ} {view : σ → Globals κ} {sub : Json → κ}

/-- The method is about a new object, or about a stored one whose entries it keeps. -/
structure Careful (c : Collection) (sub : Json → κ) (g : Globals κ) (m : Method) : Prop where
  indexable : c.Indexable sub g m.op
  keeps : c.KeepsEntries sub g m.op
  new : m.IsNew

instance : DecidablePred Scalar
  | .num _ | .bool _ => .isTrue trivial
  | .str s => inferInstanceAs (Decidable (s ≠ []))
  | .null | .arr _ | .obj _ => .isFalse id

instance (self : Collection) (ps : Props) : Decidable (self.ScalarFields ps) :=
  inferInstanceAs (Decidable (∀ f ∈ self.fields, ∀ v ∈ get ps f, Scalar v))

instance (self : Collection) (g : Globals κ) : ∀ op, Decidable (self.Indexable sub g op)
  | .save ps => inferInstanceAs (Decidable (ps ≠ [] ∧ self.ScalarFields ps ∧
      ∀ id ∈ get ps idKey, Scalar id ∧ (g.object self.name (sub id)).isSome))
  | .remove ps => inferInstanceAs (Decidable (self.ScalarFields ps ∧ ∃ id ∈ get ps idKey, Scalar id))
  | .removeAll => .isFalse id

instance (self : Collection) (g : Globals κ) : ∀ op, Decidable (self.KeepsEntries sub g op)
  | .save ps | .remove ps => inferInstanceAs (Decidable (∀ id ∈ get ps idKey,
      ∀ o ∈ g.object self.name (sub id), ∀ f ∈ self.fields, ∀ v ∈ get o f, ∃ w ∈ get ps f, sub w = sub v))
  | .removeAll => .isTrue trivial

instance : ∀ m : Method, Decidable m.IsNew
  | .add ps => inferInstanceAs (Decidable (get ps idKey = none))
  | .save _ | .remove _ | .removeAll => .isTrue trivial

instance (self : Collection) (g : Globals κ) (m : Method) : Decidable (self.Careful sub g m) :=
  decidable_of_iff (self.Indexable sub g m.op ∧ self.KeepsEntries sub g m.op ∧ m.IsNew)
    ⟨fun h => ⟨h.1, h.2.1, h.2.2⟩, fun h => ⟨h.indexable, h.keeps, h.new⟩⟩

omit [LinearOrder κ] in
theorem Careful.congr {self : Collection} {g h : Globals κ} {m : Method} (hm : self.Careful sub g m)
    (hobject : ∀ id, m.id = some id → g.object self.name (sub id) = h.object self.name (sub id)) :
    self.Careful sub h m := by
  refine ⟨?_, ?_, hm.new⟩
  · have hindexable := hm.indexable
    cases m with
    | add ps =>
      refine ⟨hindexable.1, hindexable.2.1, fun id hid => ?_⟩
      rw [hm.new] at hid
      cases hid
    | save ps =>
      refine ⟨hindexable.1, hindexable.2.1, fun id hid => ?_⟩
      rw [← hobject id hid]
      exact hindexable.2.2 id hid
    | remove ps => exact hindexable
    | removeAll => exact hindexable
  · have hkeeps := hm.keeps
    cases m with
    | add ps =>
      intro id hid
      rw [hm.new] at hid
      cases hid
    | save ps | remove ps =>
      intro id hid o ho
      rw [← hobject id hid] at ho
      exact hkeeps id hid o ho
    | removeAll => trivial

section
variable (law : Lawful b view sub) (self : Collection)
include law

theorem run_add_async (ps : Props) (s : σ) :
    let n := self.newId (view s)
    ∃ t, run b (self.add_async (some (.obj ps))) s = (t, .ok (some (.obj (stored ps n)))) ∧
      self.Indexing sub .SAVE (stored ps n) (.ofInt n) (self.inserted sub (view s) ps) (view t) := by
  intro n
  obtain ⟨t, ht, hview⟩ := run_next_id law self s
  obtain ⟨u, hu, hindex⟩ := run_update_index law self .SAVE (scalar_ofInt n) (get_stored ps n)
    (b (.update ⟨self.name, [some (.ofInt n)]⟩ (.obj (stored ps n))) t).1
  have hupdate := law.update t self.name (.ofInt n) (stored ps n) trivial
  rw [hupdate, hview] at hindex
  refine ⟨u, ?_, hindex⟩
  rw [run_add_async_of_id self ps ht, run_bind_ok (run_async _ t), run_bind_ok hu]
  exact run_bind_ok (run_callback law .async _ _ u) _

theorem run_save_async_stored {ps : Props} {id : Json} (hid : HasId ps id) (s : σ) :
    ∃ t, run b (self.save_async (some (.obj ps))) s = (t, .ok (some (.obj ps))) ∧
      self.Indexing sub .SAVE ps id ((view s).update self.name (sub id) ps) (view t) := by
  obtain ⟨t, ht, hindex⟩ := run_update_index law self .SAVE hid.2 hid.1
    (b (.update ⟨self.name, [some id]⟩ (.obj ps)) s).1
  rw [law.update s self.name id ps hid.2] at hindex
  refine ⟨t, ?_, hindex⟩
  rw [save_async_stored self hid.1, run_bind_ok (run_async _ s), run_bind_ok ht]
  exact run_bind_ok (run_callback law .async _ _ t) _

theorem changed_add (style : Style) {ps : Props} (hnew : get ps idKey = none) (s : σ) :
    self.Changed sub (view s) (view (run b (self.program style (.add ps)) s).1) (.save ps) := by
  cases style with
  | sync =>
    obtain ⟨t, ht, hindex⟩ := run_add law self ps s
    rw [program, run_bind_ok ht]
    exact .insert hnew hindex
  | async =>
    obtain ⟨t, ht, hindex⟩ := run_add_async law self ps s
    rw [program, run_bind_ok ht]
    exact .insert hnew hindex

theorem changed_program (style : Style) {m : Method} (hedits : self.Edits style m) (hnew : m.IsNew) (s : σ) :
    self.Changed sub (view s) (view (run b (self.program style m) s).1) m.op := by
  cases m with
  | add ps => exact changed_add law self style hnew s
  | save ps =>
    obtain ⟨-, hps, hids⟩ := hedits
    cases hget : get ps idKey with
    | none =>
      rw [self.program_save_new style hps hget]
      exact changed_add law self style hget s
    | some id =>
      have hid : HasId ps id := ⟨hget, hids id hget⟩
      cases style with
      | sync =>
        obtain ⟨t, status, ht, -, hindex⟩ := run_save_stored law self hid.2 hid.1 s
        rw [program, run_bind_ok ht]
        exact .save hid hindex
      | async =>
        obtain ⟨t, ht, hindex⟩ := run_save_async_stored law self hid s
        rw [program, run_bind_ok ht]
        exact .save hid hindex
  | remove ps =>
    cases style with
    | async => exact hedits.elim
    | sync =>
      obtain ⟨-, id, hid⟩ := hedits
      obtain ⟨t, result, ht, -, hindex⟩ := run_remove law self hid.2 hid.1 s
      rw [program, run_bind_ok ht]
      exact .remove hid hindex
  | removeAll => cases style <;> exact hedits.elim

omit [LinearOrder κ] law in
theorem claimed_id {style : Style} {m : Method} (hedits : self.Edits style m) {id : Json} (hid : m.id = some id)
    {c : Call} {f : Reply c → Prog Unit} (hprogram : self.program style m = .call c f) (s : σ) :
    self.claimed view sub c s = some (sub id) := by
  cases m with
  | add ps | removeAll => cases hid
  | save ps =>
    have hget : get ps idKey = some id := hid
    have hsave : ∃ k, self.program style (.save ps) = .call (.update ⟨self.name, [some id]⟩ (.obj ps)) k := by
      cases style with
      | sync =>
        rw [program, save_stored self hget]
        exact ⟨_, rfl⟩
      | async =>
        rw [program, save_async_stored self hget]
        exact ⟨_, rfl⟩
    obtain ⟨k, hk⟩ := hsave
    obtain ⟨rfl, -⟩ := Prog.call.inj (hprogram.symm.trans hk)
    rfl
  | remove ps =>
    have hget : get ps idKey = some id := hid
    cases style with
    | async => exact hedits.elim
    | sync =>
      have hremove : ∃ k, self.program .sync (.remove ps) = .call (.kill ⟨self.name, [some id]⟩) k := by
        rw [program, remove_stored self hget]
        exact ⟨_, rfl⟩
      obtain ⟨k, hk⟩ := hremove
      obtain ⟨rfl, -⟩ := Prog.call.inj (hprogram.symm.trans hk)
      rfl

end

/-- Every operation is careful when it makes its first call. -/
def AllCareful (self : Collection) (b : Binding σ) (view : σ → Globals κ) (sub : Json → κ)
    (w : Pool Call Reply Stop Edit σ (Option κ)) (ts : List (Choice Edit)) : Prop :=
  Pool.Along b (self.claimed view sub) Edit.program
    (fun w t => ∀ e ∈ w.beginning t, self.Careful sub (view w.shared) e.method) w ts

instance (self : Collection) (w : Pool Call Reply Stop Edit σ (Option κ)) (ts : List (Choice Edit)) :
    Decidable (self.AllCareful b view sub w ts) :=
  inferInstanceAs (Decidable (Pool.Along b (self.claimed view sub) Edit.program
    (fun w t => ∀ e ∈ w.beginning t, self.Careful sub (view w.shared) e.method) w ts))

section
variable (law : Lawful b view sub) (self : Collection) (hsingle : self.SingleField)
include law hsingle

theorem indexed_run {w : Pool Call Reply Stop Edit σ (Option κ)} {s : σ}
    (hw : Pool.Serial b (self.claimed view sub) (self.SamePart view) Edit.program w s)
    (hs : self.Indexed sub (view s)) {ts : List (Choice Edit)}
    (hedits : ∀ e, .start e ∈ ts → e.client = self ∧ e.On self)
    (htasks : ∀ t ∈ w.tasks, t.op.client = self ∧ t.op.On self)
    (hapart : Pool.Along b (self.claimed view sub) Edit.program (Pool.Apart (self.claimed view sub)) w ts)
    (hcareful : self.AllCareful b view sub w ts) :
    self.Indexed sub (view (oneByOne b (Pool.order b (self.claimed view sub) Edit.program w ts) s)) := by
  have hequiv := self.samePart_equivalence view
  induction ts generalizing w s with
  | nil => exact hs
  | cons t ts ih =>
    have hkeeping : ∀ e, t = .start e → Keeping b (self.claimed view sub) (self.SamePart view) e.program :=
      fun e ht => keeping_edit law self (hedits e (ht ▸ List.mem_cons_self)).2
    have hnext := hw.turn hequiv hkeeping hapart.1
    -- the operation that begins finds its object as it is after the operations one by one
    have hindexed : self.Indexed sub (view (Pool.serially b Edit.program (w.beginning t).toList s)) := by
      cases hbeginning : w.beginning t with
      | none => exact hs
      | some e =>
        obtain ⟨u, hu, rfl⟩ := Pool.mem_beginning hbeginning
        obtain ⟨hclient, hon⟩ := htasks u hu
        have hmethod : self.Edits u.op.style u.op.method := hclient ▸ hon.edits
        have hprogram : u.op.program = self.program u.op.style u.op.method := by rw [Edit.program, hclient]
        obtain ⟨c, f, k, hcall, hclaims, hpart⟩ := hw.picked hequiv hbeginning hapart.1
        have hcareful' := hcareful.1 u.op hbeginning
        have hsame : self.Careful sub (view s) u.op.method := by
          refine hcareful'.congr fun id hid => ?_
          rw [claimed_id self hmethod hid (hprogram.symm.trans hcall)] at hclaims
          exact hpart.object self.name (sub id) ((if_pos rfl).trans hclaims)
        have hchanged := changed_program law self u.op.style hmethod hsame.new s
        rw [← hprogram] at hchanged
        exact (indexed_step law self hsingle hs hsame.indexable hchanged).1 hsame.keeps
    have hedited : ∀ u ∈ (w.turn b (self.claimed view sub) Edit.program t).tasks,
        u.op.client = self ∧ u.op.On self := by
      cases t with
      | start e =>
        exact Pool.start_keeps
          (T := fun u : Task Call Reply Stop Edit σ (Option κ) => u.op.client = self ∧ u.op.On self)
          (hedits e List.mem_cons_self) htasks
      | step i =>
        refine (Pool.step_keeps (I := fun _ => True)
          (T := fun u : Task Call Reply Stop Edit σ (Option κ) => u.op.client = self ∧ u.op.On self)
          (fun u s _ hu => ⟨trivial, ?_⟩) trivial htasks i).2
        rw [Task.advance_op]
        exact hu
    rw [Pool.order, oneByOne, Pool.serially, List.foldl_append]
    exact ih hnext hindexed (fun e he => hedits e (List.mem_cons_of_mem t he)) hedited hapart.2 hcareful.2

/-- In every interleaving in which no two operations overlap on one object and each of them keeps the
entries of the object that it finds stored, the entries of every object that nobody is working on are
exact, and so are the indexes once all operations have ended. -/
theorem operations_keep_indexes {s : σ} (hempty : self.Empty (view s))
    (hindex : ∀ p, ¬ (view s).node self.index_global p) {ts : List (Choice Edit)}
    (hedits : ∀ e, .start e ∈ ts → e.client = self ∧ e.On self) (hapart : self.NoOverlap b view sub s ts)
    (hcareful : self.AllCareful b view sub ⟨s, []⟩ ts) :
    let w := self.together b view sub s ts
    (∀ k, ¬ w.Busy k → ∀ f ∈ self.fields, ∀ value,
      (view w.shared).node self.index_global [sub (.str f), value, k] ↔ self.HasValue sub (view w.shared) f value k) ∧
      ((∀ t ∈ w.tasks, ¬ t.Unfinished) → self.IndexExact sub (view w.shared)) := by
  intro w
  have hequiv := self.samePart_equivalence view
  have hstart : Pool.Serial b (self.claimed view sub) (self.SamePart view) Edit.program ⟨s, []⟩ s :=
    .idle_pool hequiv s
  have hkeeping : ∀ e, .start e ∈ ts → Keeping b (self.claimed view sub) (self.SamePart view) e.program :=
    fun e he => keeping_edit law self (hedits e he).2
  have hserial : Pool.Serial b (self.claimed view sub) (self.SamePart view) Edit.program w
      (oneByOne b (self.firstCalls b view sub s ts) s) := hstart.run hequiv hkeeping hapart
  have hindexed := indexed_run law self hsingle hstart (indexed_empty hempty hindex) hedits
    (fun t ht => absurd ht List.not_mem_nil) hapart hcareful
  have hexact : ∀ k, ¬ w.Busy k → ∀ f ∈ self.fields, ∀ value,
      (view w.shared).node self.index_global [sub (.str f), value, k] ↔
        self.HasValue sub (view w.shared) f value k := by
    intro k hk f hf value
    have hpart := hserial.idle k hk
    have hnode : self.nodePart self.index_global [sub (.str f), value, k] = some k := if_pos rfl
    rw [hpart.node _ _ hnode, HasValue, hpart.object self.name k (if_pos rfl)]
    exact hindexed.exact f hf value k
  refine ⟨hexact, fun hended => ?_⟩
  have hidle := Pool.not_busy_of_ended hended
  refine (indexExact_iff fun k o ho => ?_).mpr fun f hf value k => hexact k (hidle k) f hf value
  rw [(hserial.idle k (hidle k)).object self.name k (if_pos rfl)] at ho
  exact hindexed.own k o ho

end

theorem operations_keep_indexes_side_by_side :
    let w := people.together Disk.binding Disk.view Subscript.of Disk.empty sideBySide
    (∀ k, ¬ w.Busy k → ∀ f ∈ people.fields, ∀ value,
      (Disk.view w.shared).node people.index_global [.of (.str f), value, k] ↔
        people.HasValue Subscript.of (Disk.view w.shared) f value k) ∧
      ((∀ t ∈ w.tasks, ¬ t.Unfinished) → people.IndexExact Subscript.of (Disk.view w.shared)) :=
  operations_keep_indexes Disk.lawful people people_single people_empty
    (fun p hp => by simp [Disk.view, Disk.empty] at hp) sideBySide_edits (by decide +kernel) (by decide +kernel)

end

end Collection

end GlobalsJs
