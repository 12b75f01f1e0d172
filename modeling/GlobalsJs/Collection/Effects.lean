import GlobalsJs.Collection.Calls

/-!
# What the calls of a collection do

One lemma for each method that changes the database, over a lawful binding. The
entries of an object are set or killed one index after the other; only their set
matters.
-/

namespace GlobalsJs
open Ecma Cache Query Calls.Prog

namespace Cache.Globals
variable {κ : Type}

def addNodes (g : Globals κ) (name : JsString) (paths : List (List κ)) : Globals κ :=
  { g with node := fun n p => g.node n p ∨ (n = name ∧ p ∈ paths) }

def killNodes (g : Globals κ) (name : JsString) (paths : List (List κ)) : Globals κ :=
  { g with node := fun n p => g.node n p ∧ ¬ (n = name ∧ ∃ path ∈ paths, path <+: p) }

end Cache.Globals

namespace Collection

/-- Every index is on one field, whose name may be a subscript. -/
def SingleField (self : Collection) : Prop :=
  ∀ index ∈ self.indexes, ∃ f order, index = [(f, order)] ∧ f ≠ []

/-- Every index has a first field, whose name may be a subscript. -/
def Keyed (self : Collection) : Prop :=
  ∀ index ∈ self.indexes, ∃ f, index_key index = some f ∧ f ≠ []

theorem SingleField.keyed {self : Collection} (h : self.SingleField) : self.Keyed := by
  intro index hindex
  obtain ⟨f, order, rfl, hf⟩ := h index hindex
  exact ⟨f, rfl, hf⟩

def fields (self : Collection) : List JsString := self.indexes.filterMap index_key

/-- The indexed values of an object may be subscripts. -/
def ScalarFields (self : Collection) (ps : Props) : Prop :=
  ∀ f ∈ self.fields, ∀ v, get ps f = some v → Scalar v

theorem index_global_ne (self : Collection) : self.name ≠ self.index_global := by
  intro h
  have hlen := congrArg List.length h
  rw [index_global, List.length_append] at hlen
  have hid : COLLECTION_INDEX_IDENTIFIER.length = 4 := rfl
  omega

theorem system_global_ne (self : Collection) : self.name ≠ self.system_global := by
  intro h
  have hlen := congrArg List.length h
  rw [system_global, List.length_append] at hlen
  have hid : COLLECTION_SYSTEM_IDENTIFIER.length = 4 := rfl
  omega

/-- The object that `add` stores. -/
def stored (ps : Props) (n : ℕ) : Props := put ps idKey (.ofInt n)

theorem get_stored (ps : Props) (n : ℕ) : get (stored ps n) idKey = some (.ofInt n) := by
  simp [stored]

theorem liftM_member (ps : Props) (k : JsString) :
    (liftM (member (some (.obj ps)) k) : Prog (Option Json)) = pure (get ps k) := rfl

theorem isEmptyObject_obj {ps : Props} (hps : ps ≠ []) : isEmptyObject (some (.obj ps)) = false := by
  cases ps with
  | nil => exact absurd rfl hps
  | cons p ps => rfl

theorem ne_nil_of_get {ps : Props} {k : JsString} {v : Json} (hget : get ps k = some v) : ps ≠ [] := by
  intro hnil
  rw [hnil, get_nil] at hget
  cases hget

theorem save_new (self : Collection) {ps : Props} (hps : ps ≠ []) (hnew : get ps idKey = none) :
    self.save (some (.obj ps)) = self.add (some (.obj ps)) := by
  have hfull := isEmptyObject_obj hps
  simp only [save, pop, hfull, Bool.false_eq_true, if_false, liftM_member, pure_bind, hnew]

theorem save_stored (self : Collection) {ps : Props} {id : Json} (hget : get ps idKey = some id) :
    self.save (some (.obj ps)) = (do
      let status ← (Call.update ⟨self.name, [some id]⟩ (.obj ps)).sync
      if isZeroStatus status then self.update_index .SAVE (some (.obj ps))
      return ⟨some status, some (.obj ps)⟩) := by
  have hfull := isEmptyObject_obj (ne_nil_of_get hget)
  simp only [save, pop, hfull, Bool.false_eq_true, if_false, liftM_member, pure_bind, hget,
    Option.getD_some]

theorem save_async_new (self : Collection) {ps : Props} (hps : ps ≠ []) (hnew : get ps idKey = none) :
    self.save_async (some (.obj ps)) = self.add_async (some (.obj ps)) := by
  have hfull := isEmptyObject_obj hps
  simp only [save_async, pop, hfull, Bool.false_eq_true, if_false, liftM_member, pure_bind, hnew]

theorem save_async_stored (self : Collection) {ps : Props} {id : Json} (hget : get ps idKey = some id) :
    self.save_async (some (.obj ps)) = (do
      let r ← (Call.update ⟨self.name, [some id]⟩ (.obj ps)).async
      self.update_index .SAVE (some (.obj ps))
      callBack r.error none
      return some (.obj ps)) := by
  have hfull := isEmptyObject_obj (ne_nil_of_get hget)
  simp only [save_async, pop, hfull, Bool.false_eq_true, if_false, liftM_member, pure_bind, hget,
    Option.getD_some]

theorem fetch_stored (self : Collection) {ps : Props} {id : Json} (hget : get ps idKey = some id) :
    self.fetch_glo_ref_from_object (some (.obj ps)) = .ok ⟨self.name, [some id]⟩ := by
  have hread : member (some (.obj ps)) idKey = .ok (some id) := congrArg Except.ok hget
  rw [fetch_glo_ref_from_object, hread]
  rfl

theorem remove_stored (self : Collection) {ps : Props} {id : Json} (hget : get ps idKey = some id) :
    self.remove (some (.obj ps)) = (do
      let result ← (Call.kill ⟨self.name, [some id]⟩).sync
      if ← isOk result then self.update_index .REMOVE (some (.obj ps))
      return ⟨some result, some (.obj ps)⟩) := by
  change (liftM (self.fetch_glo_ref_from_object (some (.obj ps))) : Prog GloRef) >>= _ = _
  rw [fetch_stored self hget]
  rfl

theorem remove_async_stored (self : Collection) {ps : Props} {id : Json}
    (hget : get ps idKey = some id) : self.remove_async (some (.obj ps)) = (do
      let _ ← (Call.kill ⟨self.name, [some id]⟩).async
      let _ ← (Call.kill (self.system_glo_ref [])).async
      let r ← (Call.kill (self.index_glo_ref [])).async
      callBack r.error (some r.result)) := by
  change (liftM (self.fetch_glo_ref_from_object (some (.obj ps))) : Prog GloRef) >>= _ = _
  rw [fetch_stored self hget]
  rfl

section
variable {σ κ : Type} [LinearOrder κ] {b : Binding σ} {view : σ → Globals κ} {sub : Json → κ}

def IndexOperation.apply (operation : IndexOperation) (g : Globals κ) (name : JsString)
    (paths : List (List κ)) : Globals κ :=
  match operation with
  | .SAVE => g.addNodes name paths
  | .REMOVE => g.killNodes name paths

omit [LinearOrder κ] in
theorem IndexOperation.apply_apply (operation : IndexOperation) (g : Globals κ) (name : JsString)
    (paths more : List (List κ)) :
    operation.apply (operation.apply g name paths) name more = operation.apply g name (paths ++ more) := by
  cases operation with
  | SAVE => simp [IndexOperation.apply, Globals.addNodes, or_assoc, and_or_left]
  | REMOVE =>
    simp only [IndexOperation.apply, Globals.killNodes, Globals.mk.injEq, true_and, List.mem_append]
    funext n p
    rw [eq_iff_iff]
    constructor
    · rintro ⟨⟨hp, hdone⟩, hlast⟩
      refine ⟨hp, ?_⟩
      rintro ⟨hn, path, hpath | hpath, hpre⟩
      · exact hdone ⟨hn, path, hpath, hpre⟩
      · exact hlast ⟨hn, path, hpath, hpre⟩
    · rintro ⟨hp, hboth⟩
      exact ⟨⟨hp, fun ⟨hn, path, hpath, hpre⟩ => hboth ⟨hn, path, Or.inl hpath, hpre⟩⟩,
        fun ⟨hn, path, hpath, hpre⟩ => hboth ⟨hn, path, Or.inr hpath, hpre⟩⟩

def entryPaths (sub : Json → κ) (indexes : List Props) (ps : Props) (id : Json) : List (List κ) :=
  (indexes.filterMap index_key).filterMap fun f =>
    (get ps f).map fun v => [sub (.str f), sub v, sub id]

abbrev paths (self : Collection) (sub : Json → κ) (ps : Props) (id : Json) : List (List κ) :=
  entryPaths sub self.indexes ps id

omit [LinearOrder κ] in
theorem mem_paths {self : Collection} {sub : Json → κ} {ps : Props} {id : Json} {p : List κ} :
    p ∈ self.paths sub ps id ↔
      ∃ f ∈ self.fields, ∃ v, get ps f = some v ∧ p = [sub (.str f), sub v, sub id] := by
  simp only [paths, entryPaths, fields, List.mem_filterMap, Option.map_eq_some_iff]
  tauto

theorem run_sync (c : Call) (s : σ) : run b c.sync s = ((b c s).1, .ok (b c s).2.result) := rfl

theorem run_async (c : Call) (s : σ) : run b c.async s = ((b c s).1, .ok (b c s).2) := rfl

theorem run_update_index_keeps {τ : Type} {B : Binding τ} {I : τ → Prop} (self : Collection)
    (operation : IndexOperation) (ps : Props)
    (hset : ∀ subs data t, I t → I (B (.set ⟨self.index_global, subs⟩ data) t).1)
    (hkill : ∀ subs t, I t → I (B (.kill ⟨self.index_global, subs⟩) t).1) {t : τ} (ht : I t) :
    ∃ u, run B (self.update_index operation (some (.obj ps))) t = (u, .ok ⟨⟩) ∧ I u := by
  refine run_forM (I := fun _ => I) ht fun done index rest t _ ht => ?_
  rw [update_entry, liftM_member, pure_bind]
  cases get ps ((index_key index).getD (js "undefined")) with
  | none => exact ⟨t, rfl, ht⟩
  | some v =>
    cases operation with
    | SAVE => exact ⟨_, rfl, hset _ _ t ht⟩
    | REMOVE => exact ⟨_, rfl, hkill _ t ht⟩

theorem run_liftM {α : Type} (x : Except JsError α) (s : σ) :
    run b (liftM x : Prog α) s = (s, x.mapError Stop.error) :=
  run_lift _ s

theorem run_liftM_eq_ok {α : Type} {x : Except JsError α} {s t : σ} {a : α} :
    run b (liftM x : Prog α) s = (t, .ok a) ↔ t = s ∧ x = .ok a := by
  rw [run_liftM]
  cases x with
  | ok => simp [Except.mapError, eq_comm]
  | error => simp [Except.mapError]

theorem run_add_of_id {τ : Type} {B : Binding τ} (self : Collection) (ps : Props) {t u : τ} {n : ℕ}
    (hid : run B self.next_id t = (u, .ok (some (.ofInt n)))) :
    run B (self.add (some (.obj ps))) t = run B (do
      let status ← (Call.update ⟨self.name, [some (.ofInt n)]⟩ (.obj (stored ps n))).sync
      if isZeroStatus status then
        self.update_index .SAVE (some (.obj (stored ps n)))
        return ⟨none, some (.obj (stored ps n))⟩
      else return ⟨some status, some (.obj (stored ps n))⟩) u := by
  have hread : run B (liftM (member (some (.obj (stored ps n))) idKey) : Prog (Option Json)) u =
      (u, .ok (some (.ofInt n))) := (run_liftM _ u).trans (by rw [← get_stored ps n]; rfl)
  rw [add, run_bind_ok hid, run_bind_ok (a := Json.obj (stored ps n)) (run_liftM _ u),
    run_bind_ok hread]
  rfl

theorem run_add_async_of_id {τ : Type} {B : Binding τ} (self : Collection) (ps : Props) {t u : τ} {n : ℕ}
    (hid : run B self.next_id t = (u, .ok (some (.ofInt n)))) :
    run B (self.add_async (some (.obj ps))) t = run B (do
      let r ← (Call.update ⟨self.name, [some (.ofInt n)]⟩ (.obj (stored ps n))).async
      self.update_index .SAVE (some (.obj (stored ps n)))
      callBack r.error (some (.obj (stored ps n)))
      return some (.obj (stored ps n))) u := by
  have hread : run B (liftM (member (some (.obj (stored ps n))) idKey) : Prog (Option Json)) u =
      (u, .ok (some (.ofInt n))) := (run_liftM _ u).trans (by rw [← get_stored ps n]; rfl)
  rw [add_async, run_bind_ok hid, run_bind_ok (a := Json.obj (stored ps n)) (run_liftM _ u),
    run_bind_ok hread]
  rfl

variable (law : Lawful b view sub)
include law

theorem run_update_entry_key (self : Collection) (operation : IndexOperation) {ps index : Props}
    {f : JsString} {id : Json} (hkey : index_key index = some f) (hf : f ≠ [])
    (hv : ∀ v, get ps f = some v → Scalar v) (hid : Scalar id) (hget : get ps idKey = some id) (s : σ) :
    ∃ t, run b (self.update_entry operation (some (.obj ps)) index) s = (t, .ok ⟨⟩) ∧
      view t = operation.apply (view s) self.index_global (entryPaths sub [index] ps id) := by
  unfold update_entry
  simp only [liftM_member, hkey, Option.getD_some, hget, entryPaths, List.filterMap_cons,
    List.filterMap_nil, pure_bind]
  cases hval : get ps f with
  | none =>
    refine ⟨s, rfl, ?_⟩
    cases operation <;> simp [IndexOperation.apply, Globals.addNodes, Globals.killNodes]
  | some v =>
    have hscalar : ∀ x ∈ [Json.str f, v, id], Scalar x := by
      simpa using ⟨hf, hv v hval, hid⟩
    have href : self.index_glo_ref [(index_key index).map .str, some v, some id] =
        ⟨self.index_global, [Json.str f, v, id].map some⟩ := by
      rw [hkey]
      rfl
    cases operation with
    | SAVE =>
      refine ⟨_, rfl, ?_⟩
      rw [href]
      refine (law.set s self.index_global _ _ hscalar).trans ?_
      simp [IndexOperation.apply, Globals.setNode, Globals.addNodes]
    | REMOVE =>
      refine ⟨_, rfl, ?_⟩
      rw [href]
      refine (law.kill s self.index_global _ hscalar).trans ?_
      simp [IndexOperation.apply, Globals.kill, Globals.killNodes]

/-- The second database is the first one after the entries of an object were set or
killed. Which entries these are is known when their subscripts are proper. -/
structure Indexing (c : Collection) (sub : Json → κ) (operation : IndexOperation) (ps : Props)
    (id : Json) (g h : Globals κ) : Prop where
  elsewhere : ∀ name, name ≠ c.index_global → h.SameAt g name
  entries : c.SingleField → c.ScalarFields ps →
    h = operation.apply g c.index_global (c.paths sub ps id)

theorem run_update_index_keyed (self : Collection) (operation : IndexOperation) {ps : Props} {id : Json}
    (hkeyed : self.Keyed) (hscalar : self.ScalarFields ps) (hid : Scalar id)
    (hget : get ps idKey = some id) (s : σ) :
    ∃ t, run b (self.update_index operation (some (.obj ps))) s = (t, .ok ⟨⟩) ∧
      view t = operation.apply (view s) self.index_global (self.paths sub ps id) := by
  refine run_forM (I := fun done u =>
    view u = operation.apply (view s) self.index_global (entryPaths sub done ps id)) ?_ ?_
  · cases operation <;>
      simp [IndexOperation.apply, entryPaths, Globals.addNodes, Globals.killNodes]
  intro done index rest u hindexes hu
  have hmem : index ∈ self.indexes := by simp [hindexes]
  obtain ⟨f, hkey, hf⟩ := hkeyed index hmem
  have hfield : f ∈ self.fields := List.mem_filterMap.mpr ⟨_, hmem, hkey⟩
  obtain ⟨w, hw, hview⟩ := run_update_entry_key law self operation hkey hf
    (fun v hv => hscalar f hfield v hv) hid hget u
  refine ⟨w, hw, ?_⟩
  rw [hview, hu, IndexOperation.apply_apply]
  simp [entryPaths]

theorem run_update_index (self : Collection) (operation : IndexOperation) {ps : Props} {id : Json}
    (hid : Scalar id) (hget : get ps idKey = some id) (s : σ) :
    ∃ t, run b (self.update_index operation (some (.obj ps))) s = (t, .ok ⟨⟩) ∧
      self.Indexing sub operation ps id (view s) (view t) := by
  obtain ⟨t, ht, helse⟩ := run_update_index_keeps (B := b) (I := fun t =>
      ∀ name, name ≠ self.index_global → (view t).SameAt (view s) name) self operation ps
    (fun subs data t ht name hname => (law.set_elsewhere t _ data name hname).trans (ht name hname))
    (fun subs t ht name hname => (law.kill_elsewhere t _ name hname).trans (ht name hname))
    (fun name _ => .refl (view s) name)
  refine ⟨t, ht, helse, fun hsingle hscalar => ?_⟩
  obtain ⟨u, hu, hview⟩ := run_update_index_keyed law self operation hsingle.keyed hscalar hid hget s
  obtain rfl : t = u := (Prod.mk.inj (ht.symm.trans hu)).1
  exact hview

def newId (self : Collection) (g : Globals κ) : ℕ := (g.root self.name).getD 0 + 1

theorem run_next_id (self : Collection) (s : σ) :
    ∃ t, run b self.next_id s = (t, .ok (some (.ofInt (self.newId (view s))))) ∧
      view t = (view s).increment self.name := by
  refine ⟨(b (.increment ⟨self.name, []⟩) s).1, ?_, law.increment s self.name⟩
  rw [next_id, run_bind_ok (run_sync _ s), run_bind_ok (a := true)
    (by rw [run_liftM, law.increment_ok]; rfl), if_pos rfl]
  exact (run_liftM _ _).trans (by rw [law.increment_data]; rfl)

theorem run_add (self : Collection) (ps : Props) (s : σ) :
    let n := self.newId (view s)
    ∃ t, run b (self.add (some (.obj ps))) s = (t, .ok ⟨none, some (.obj (stored ps n))⟩) ∧
      self.Indexing sub .SAVE (stored ps n) (.ofInt n)
        (((view s).increment self.name).update self.name (sub (.ofInt n)) (stored ps n)) (view t) := by
  intro n
  obtain ⟨t, ht, hview⟩ := run_next_id law self s
  obtain ⟨u, hu, hindex⟩ := run_update_index law self .SAVE (scalar_ofInt n) (get_stored ps n)
    (b (.update ⟨self.name, [some (.ofInt n)]⟩ (.obj (stored ps n))) t).1
  have hupdate := law.update t self.name (.ofInt n) (stored ps n) trivial
  refine ⟨u, ?_, by rw [← hview, ← hupdate]; exact hindex⟩
  rw [run_add_of_id self ps ht, run_bind_ok (run_sync _ t), if_pos (law.update_ok t _ _)]
  exact run_bind_ok hu _

theorem run_save_stored (self : Collection) {ps : Props} {id : Json} (hid : Scalar id)
    (hget : get ps idKey = some id) (s : σ) :
    ∃ t status, run b (self.save (some (.obj ps))) s = (t, .ok ⟨some status, some (.obj ps)⟩) ∧
      isZeroStatus status = true ∧ self.Indexing sub .SAVE ps id
        ((view s).update self.name (sub id) ps) (view t) := by
  have hok := law.update_ok s ⟨self.name, [some id]⟩ (.obj ps)
  obtain ⟨t, ht, hindex⟩ := run_update_index law self .SAVE hid hget
    (b (.update ⟨self.name, [some id]⟩ (.obj ps)) s).1
  rw [law.update s self.name id ps hid] at hindex
  refine ⟨t, _, ?_, hok, hindex⟩
  rw [save_stored self hget, run_bind_ok (run_sync _ s), if_pos hok]
  exact run_bind_ok ht _

theorem run_remove (self : Collection) {ps : Props} {id : Json} (hid : Scalar id)
    (hget : get ps idKey = some id) (s : σ) :
    ∃ t result, run b (self.remove (some (.obj ps))) s = (t, .ok ⟨some result, some (.obj ps)⟩) ∧
      isOk result = .ok true ∧ self.Indexing sub .REMOVE ps id
        ((view s).kill self.name [sub id]) (view t) := by
  have hok := law.kill_ok s ⟨self.name, [some id]⟩
  have hkill := law.kill s self.name [id] (by simpa using hid)
  obtain ⟨t, ht, hindex⟩ := run_update_index law self .REMOVE hid hget
    (b (.kill ⟨self.name, [some id]⟩) s).1
  rw [List.map_singleton, List.map_singleton] at hkill
  rw [hkill] at hindex
  refine ⟨t, _, ?_, hok, hindex⟩
  rw [remove_stored self hget, run_bind_ok (run_sync _ s),
    run_bind_ok (a := true) (by rw [run_liftM, hok]; rfl), if_pos rfl]
  exact run_bind_ok ht _

theorem run_remove_async (self : Collection) {ps : Props} {id : Json} (hid : Scalar id)
    (hget : get ps idKey = some id) (s : σ) :
    ∃ t, run b (self.remove_async (some (.obj ps))) s = (t, .ok ⟨⟩) ∧
      view t = (((view s).kill self.name [sub id]).kill self.system_global []).kill
        self.index_global [] := by
  have hdata : view (b (.kill ⟨self.name, [some id]⟩) s).1 = (view s).kill self.name [sub id] :=
    law.kill s self.name [id] (by simpa using hid)
  have hsystem : ∀ t, view (b (.kill (self.system_glo_ref [])) t).1 =
      (view t).kill self.system_global [] := fun t => law.kill t self.system_global [] (by simp)
  have hindex : ∀ t, view (b (.kill (self.index_glo_ref [])) t).1 =
      (view t).kill self.index_global [] := fun t => law.kill t self.index_global [] (by simp)
  rw [remove_async_stored self hget, run_bind_ok (run_async _ s), run_bind_ok (run_async _ _),
    run_bind_ok (run_async _ _), callBack, run_bind_ok (run_sync _ _)]
  refine ⟨_, rfl, ?_⟩
  rw [law.callback, hindex, hsystem, hdata]

theorem run_remove_all (self : Collection) (s : σ) :
    ∃ t, run b (self.remove none) s = (t, .ok ⟨none, none⟩) ∧ view t = (view s).kill self.name [] :=
  ⟨_, rfl, law.killGlobal s self.name⟩

theorem run_count (self : Collection) (s : σ) :
    run b self.count s = (s, .ok (.ofInt (((view s).root self.name).getD 0))) := by
  have hstate : (b (.get ⟨self.name, []⟩) s).1 = s := (law.reads s _).2.2
  rw [count, run_bind_ok (run_sync _ s), hstate, law.get_root]
  cases (view s).root self.name with
  | none => rfl
  | some n =>
    by_cases hn : n = 0
    · subst hn; rfl
    · simp [truthy, Json.ofInt, isZero_ofInt_nat, hn]

end

end Collection

end GlobalsJs
