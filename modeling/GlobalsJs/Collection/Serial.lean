import GlobalsJs.Calls.Serial
import GlobalsJs.Collection.Clients
import GlobalsJs.Collection.Exactness

/-!
# Operations on different objects

The data of an identifier are its object and the entries of the indexes that end in it. Two
operations on different objects share the counter and the global of the indexes, and still
take turns, a call at a time, as if they ran one after the other.
-/

namespace GlobalsJs
open Ecma Cache Query Calls Calls.Prog

namespace Collection

section
variable {κ : Type} (self : Collection)

def objectPart (name : JsString) (k : κ) : Option κ := if name = self.name then some k else none

def nodePart (name : JsString) (p : List κ) : Option κ :=
  if name = self.index_global then p[2]? else if name = self.name then p.head? else none

/-- Two databases are the same at one identifier, or (`none`) at all that belongs to none. -/
structure AgreeAt (c : Collection) (x : Option κ) (g h : Globals κ) : Prop where
  root : x = none → g.root = h.root
  object : ∀ name k, c.objectPart name k = x → g.object name k = h.object name k
  node : ∀ name p, c.nodePart name p = x → (g.node name p ↔ h.node name p)

theorem agreeAt_equivalence (x : Option κ) : Equivalence (self.AgreeAt (κ := κ) x) where
  refl _ := ⟨fun _ => rfl, fun _ _ _ => rfl, fun _ _ _ => Iff.rfl⟩
  symm h := ⟨fun hx => (h.root hx).symm, fun n k hx => (h.object n k hx).symm, fun n p hx => (h.node n p hx).symm⟩
  trans h i := ⟨fun hx => (h.root hx).trans (i.root hx), fun n k hx => (h.object n k hx).trans (i.object n k hx),
    fun n p hx => (h.node n p hx).trans (i.node n p hx)⟩

variable {self} {x : Option κ} {g h : Globals κ}

theorem eq_of_agreeAt (hall : ∀ x, self.AgreeAt x g h) : g = h := by
  refine Globals.ext ((hall none).root rfl) ?_ ?_
  · funext name k
    exact (hall _).object name k rfl
  · funext name p
    exact propext ((hall _).node name p rfl)

theorem AgreeAt.increment (hgh : self.AgreeAt x g h) (name : JsString) :
    self.AgreeAt x (g.increment name) (h.increment name) where
  root hx := by
    rw [Globals.increment, Globals.increment, hgh.root hx]
  object := hgh.object
  node := hgh.node

theorem increment_elsewhere (hx : x ≠ none) (name : JsString) : self.AgreeAt x (g.increment name) g where
  root hnone := absurd hnone hx
  object _ _ _ := rfl
  node _ _ _ := Iff.rfl

section
variable [LinearOrder κ]

theorem AgreeAt.update (hgh : self.AgreeAt x g h) (name : JsString) (k : κ) (ps : Props) :
    self.AgreeAt x (g.update name k ps) (h.update name k ps) where
  root := hgh.root
  object n l hx := by
    rw [Globals.update, Globals.update]
    dsimp only
    rw [hgh.object n l hx]
  node := hgh.node

theorem AgreeAt.kill (hgh : self.AgreeAt x g h) (name : JsString) (path : List κ) :
    self.AgreeAt x (g.kill name path) (h.kill name path) where
  root hx := by
    rw [Globals.kill, Globals.kill]
    dsimp only
    rw [hgh.root hx]
  object n l hx := by
    rw [Globals.kill, Globals.kill]
    dsimp only
    rw [hgh.object n l hx]
  node n p hx := and_congr (hgh.node n p hx) Iff.rfl

theorem update_elsewhere {k : κ} (hx : x ≠ some k) (ps : Props) : self.AgreeAt x (g.update self.name k ps) g where
  root _ := rfl
  object n l hl := by
    refine if_neg ?_
    rintro ⟨rfl, rfl⟩
    exact hx (hl.symm.trans (if_pos rfl))
  node _ _ _ := Iff.rfl

theorem kill_elsewhere {k : κ} (hx : x ≠ some k) : self.AgreeAt x (g.kill self.name [k]) g where
  root _ := by simp [Globals.kill]
  object n l hl := by
    refine if_neg ?_
    rintro ⟨rfl, hpre⟩
    obtain rfl : k = l := by simpa using hpre
    exact hx (hl.symm.trans (if_pos rfl))
  node n p hp := by
    refine and_iff_left ?_
    rintro ⟨rfl, rest, rfl⟩
    refine hx (hp.symm.trans ?_)
    rw [nodePart, if_neg self.index_global_ne, if_pos rfl]
    rfl

end

theorem AgreeAt.apply (hgh : self.AgreeAt x g h) (operation : IndexOperation) (name : JsString)
    (paths : List (List κ)) : self.AgreeAt x (operation.apply g name paths) (operation.apply h name paths) := by
  cases operation with
  | SAVE => exact ⟨hgh.root, hgh.object, fun n p hx => or_congr (hgh.node n p hx) Iff.rfl⟩
  | REMOVE => exact ⟨hgh.root, hgh.object, fun n p hx => and_congr (hgh.node n p hx) Iff.rfl⟩

theorem apply_elsewhere {k : κ} (hx : x ≠ some k) (operation : IndexOperation) {paths : List (List κ)}
    (hpaths : ∀ path ∈ paths, path[2]? = some k) :
    self.AgreeAt x (operation.apply g self.index_global paths) g := by
  have hpart : ∀ p : List κ, self.nodePart self.index_global p = p[2]? := fun p => if_pos rfl
  cases operation with
  | SAVE =>
    refine ⟨fun _ => rfl, fun _ _ _ => rfl, fun n p hp => or_iff_left ?_⟩
    rintro ⟨rfl, hmem⟩
    exact hx (hp.symm.trans ((hpart p).trans (hpaths p hmem)))
  | REMOVE =>
    refine ⟨fun _ => rfl, fun _ _ _ => rfl, fun n p hp => and_iff_left ?_⟩
    rintro ⟨rfl, path, hmem, rest, rfl⟩
    have htwo := hpaths path hmem
    have hlt : 2 < path.length := (List.getElem?_eq_some_iff.mp htwo).1
    refine hx (hp.symm.trans ((hpart _).trans ?_))
    rw [List.getElem?_append_left hlt]
    exact htwo

end

section
variable {σ κ : Type} [LinearOrder κ] {b : Binding σ} {view : σ → Globals κ} {sub : Json → κ}

def SamePart (self : Collection) (view : σ → Globals κ) (x : Option κ) (s t : σ) : Prop :=
  self.AgreeAt x (view s) (view t)

omit [LinearOrder κ] in
theorem samePart_equivalence (self : Collection) (view : σ → Globals κ) (x : Option κ) :
    Equivalence (self.SamePart view x) :=
  (self.agreeAt_equivalence x).comap view

abbrev Confined (self : Collection) (b : Binding σ) (view : σ → Globals κ) (k : κ) (p : Prog Unit) : Prop :=
  Only (Within b (self.SamePart view) k) p

abbrev Reaches (self : Collection) (b : Binding σ) (view : σ → Globals κ) {α : Type} (k : κ) (g : Globals κ)
    (p : Prog α) (s : σ) : Prop :=
  Settles b (self.SamePart view (some k)) (fun _ u => self.AgreeAt (some k) (view u) g) p s

def claimed (self : Collection) (view : σ → Globals κ) (sub : Json → κ) : Call → σ → Option κ
  | .increment _, s => some (subId sub (self.newId (view s)))
  | .update ⟨_, [some id]⟩ _, _ | .kill ⟨_, [some id]⟩, _ => some (sub id)
  | _, _ => none

theorem update_entry_call (self : Collection) (operation : IndexOperation) (ps index : Props) :
    self.update_entry operation (some (.obj ps)) index = .ret ⟨⟩ ∨
      ∃ c, self.update_entry operation (some (.obj ps)) index = .call c fun _ => .ret ⟨⟩ := by
  rw [update_entry, liftM_member, pure_bind]
  cases get ps ((index_key index).getD (js "undefined")) with
  | none => exact .inl rfl
  | some v =>
    cases operation with
    | SAVE => exact .inr ⟨_, rfl⟩
    | REMOVE => exact .inr ⟨_, rfl⟩

omit [LinearOrder κ] in
theorem entryPaths_last {indexes : List Props} {ps : Props} {id : Json} {path : List κ}
    (hpath : path ∈ entryPaths sub indexes ps id) : path[2]? = some (sub id) := by
  have hmem : path ∈ (⟨[], indexes⟩ : Collection).paths sub ps id := hpath
  obtain ⟨f, -, v, -, rfl⟩ := mem_paths.mp hmem
  rfl

section
variable (law : Lawful b view sub) (self : Collection) (operation : IndexOperation) {ps : Props} {id : Json}
  (hkeyed : self.Keyed) (hscalar : self.ScalarFields ps) (hid : HasId ps id)
include law hkeyed hscalar hid

theorem view_entry {index : Props} (hindex : index ∈ self.indexes) (s : σ) :
    view (run b (self.update_entry operation (some (.obj ps)) index) s).1 =
      operation.apply (view s) self.index_global (entryPaths sub [index] ps id) := by
  obtain ⟨f, hkey, hf⟩ := hkeyed index hindex
  have hfield : f ∈ self.fields := List.mem_filterMap.mpr ⟨_, hindex, hkey⟩
  obtain ⟨t, ht, hview⟩ := run_update_entry_key law self operation hkey hf (hscalar f hfield) hid.2 hid.1 s
  rw [ht]
  exact hview

theorem confined_update_index :
    self.Confined b view (sub id) (self.update_index operation (some (.obj ps))) := by
  refine .forM fun index hindex => ?_
  have hview := view_entry law self operation hkeyed hscalar hid hindex
  rcases self.update_entry_call operation ps index with hentry | ⟨c, hentry⟩
  · rw [hentry]
    exact .ret _
  · rw [hentry] at hview ⊢
    refine .call (fun s x hx => ?_) fun _ => .ret _
    change self.AgreeAt x (view (run b (.call c fun _ => .ret ⟨⟩ : Prog Unit) s).1) (view s)
    rw [hview s]
    exact apply_elsewhere hx operation fun path => entryPaths_last

theorem reaches_update_index {s : σ} {g : Globals κ} (hs : self.AgreeAt (some (sub id)) (view s) g) :
    self.Reaches b view (sub id) (operation.apply g self.index_global (self.paths sub ps id))
      (self.update_index operation (some (.obj ps))) s := by
  refine Settles.forM (I := fun done u => self.AgreeAt (some (sub id)) (view u)
    (operation.apply g self.index_global (entryPaths sub done ps id))) ?_ fun done index rest t hindexes ht => ?_
  · have hnone : operation.apply g self.index_global (entryPaths sub [] ps id) = g := by
      cases operation <;> simp [IndexOperation.apply, entryPaths, Globals.addNodes, Globals.killNodes]
    rw [hnone]
    exact hs
  have hindex : index ∈ self.indexes := by simp [hindexes]
  have hview := view_entry law self operation hkeyed hscalar hid hindex
  -- the entry of this index joins those that were set or killed before
  have hjoin : ∀ u, self.SamePart view (some (sub id)) t u → self.AgreeAt (some (sub id))
      (operation.apply (view u) self.index_global (entryPaths sub [index] ps id))
      (operation.apply g self.index_global (entryPaths sub (done ++ [index]) ps id)) := by
    intro u hu
    have hut := (self.agreeAt_equivalence _).trans ((self.agreeAt_equivalence _).symm hu) ht
    have hstep := hut.apply operation self.index_global (entryPaths sub [index] ps id)
    rw [IndexOperation.apply_apply] at hstep
    simpa [entryPaths] using hstep
  rcases self.update_entry_call operation ps index with hentry | ⟨c, hentry⟩
  · have hstep := hjoin t ((self.samePart_equivalence view _).refl t)
    rw [← hview t, hentry] at hstep
    rw [hentry]
    exact hstep
  · rw [hentry] at hview ⊢
    intro u hu
    have hstep := hjoin u hu
    rw [← hview u] at hstep
    exact hstep

end

section
variable (law : Lawful b view sub) (self : Collection)
include law

theorem confined_callBack (k : κ) (error result : Option Json) :
    self.Confined b view k (callBack error result) := by
  refine only_callBack (fun error result s x _ => ?_) error result
  rw [law.callback]
  exact (self.samePart_equivalence view x).refl s

theorem reaches_callBack {k : κ} {g : Globals κ} {s : σ} (hs : self.AgreeAt (some k) (view s) g)
    (error result : Option Json) : self.Reaches b view k g (callBack error result) s := by
  intro t ht
  change self.AgreeAt (some k) (view (b (.callback error result) t).1) g
  rw [law.callback]
  exact (self.agreeAt_equivalence _).trans ((self.agreeAt_equivalence _).symm ht) hs

end

structure Ends (collection : Collection) (b : Binding σ) (view : σ → Globals κ) (sub : Json → κ)
    (operation : IndexOperation) (ps : Props) (id : Json) (c : Call) (k : Reply c → Prog Unit) : Prop where
  confined : ∀ r, collection.Confined b view (sub id) (k r)
  reaches : ∀ t g, collection.AgreeAt (some (sub id)) (view (b c t).1) g →
    collection.Reaches b view (sub id)
      (operation.apply g collection.index_global (collection.paths sub ps id)) (k (b c t).2) (b c t).1

omit [LinearOrder κ] in
theorem Ends.at {self : Collection} {operation : IndexOperation} {ps : Props} {id : Json} {x : Option Json}
    {object : Json} {k : Reply (.update ⟨self.name, [x]⟩ object) → Prog Unit} (hx : x = some id)
    (hends : self.Ends b view sub operation ps id (.update ⟨self.name, [x]⟩ object) k) :
    ∃ k', (Calls.Prog.call (.update ⟨self.name, [x]⟩ object) k : Prog Unit) =
        .call (.update ⟨self.name, [some id]⟩ object) k' ∧
      self.Ends b view sub operation ps id (.update ⟨self.name, [some id]⟩ object) k' := by
  subst hx
  exact ⟨k, rfl, hends⟩

section
variable (law : Lawful b view sub) (self : Collection) {ps : Props} (hkeyed : self.Keyed)
  (hscalar : self.ScalarFields ps)
include law hkeyed hscalar

theorem ends_save (style : Style) {id : Json} (hid : HasId ps id) :
    ∃ k, self.program style (.save ps) = .call (.update ⟨self.name, [some id]⟩ (.obj ps)) k ∧
      self.Ends b view sub .SAVE ps id (.update ⟨self.name, [some id]⟩ (.obj ps)) k := by
  have hconfined := confined_update_index law self .SAVE hkeyed hscalar hid
  cases style with
  | sync =>
    rw [program, save_stored self hid.1]
    refine ⟨_, rfl, fun r => ?_, fun t g hg => ?_⟩
    · refine Only.bind ?_ fun _ => .pure _
      change Only _ (if isZeroStatus r.result then _ else _)
      split_ifs
      · exact hconfined.bind fun _ => .pure _
      · exact .pure _
    · have hok := law.update_ok t ⟨self.name, [some id]⟩ (.obj ps)
      refine Settles.bind ?_ fun _ _ hu => hu
      change Settles b _ _ (if isZeroStatus (b (.update ⟨self.name, [some id]⟩ (.obj ps)) t).2.result
        then _ else _) _
      rw [if_pos hok]
      exact (reaches_update_index law self .SAVE hkeyed hscalar hid hg).bind fun _ _ hu => hu
  | async =>
    rw [program, save_async_stored self hid.1]
    refine ⟨_, rfl, fun r => ?_, fun t g hg => ?_⟩
    · exact (hconfined.bind fun _ => (confined_callBack law self _ _ _).bind fun _ => .pure _).bind fun _ => .pure _
    · refine Settles.bind ?_ fun _ _ hu => hu
      refine (reaches_update_index law self .SAVE hkeyed hscalar hid hg).bind fun _ _ hu => ?_
      exact (reaches_callBack law self hu _ _).bind fun _ _ hw => hw

theorem ends_remove {id : Json} (hid : HasId ps id) :
    ∃ k, self.program .sync (.remove ps) = .call (.kill ⟨self.name, [some id]⟩) k ∧
      self.Ends b view sub .REMOVE ps id (.kill ⟨self.name, [some id]⟩) k := by
  have hconfined := confined_update_index law self .REMOVE hkeyed hscalar hid
  rw [program, remove_stored self hid.1]
  refine ⟨_, rfl, fun r => ?_, fun t g hg => ?_⟩
  · refine Only.bind ?_ fun _ => .pure _
    refine (Only.lift _).bind fun ok => ?_
    cases ok with
    | false => exact .pure _
    | true => exact hconfined.bind fun _ => .pure _
  · have hok := law.kill_ok t ⟨self.name, [some id]⟩
    refine Settles.bind ?_ fun _ _ hu => hu
    change Settles b _ _ ((liftM (isOk (b (.kill ⟨self.name, [some id]⟩) t).2.result) : Prog Bool) >>= _) _
    rw [hok]
    exact (reaches_update_index law self .REMOVE hkeyed hscalar hid hg).bind fun _ _ hu => hu

theorem ends_add (style : Style) : ∃ f, self.program style (.add ps) = .call (.increment ⟨self.name, []⟩) f ∧
    ∀ t, ∃ k, f (b (.increment ⟨self.name, []⟩) t).2 =
        .call (.update ⟨self.name, [some (.ofInt (self.newId (view t)))]⟩ (.obj (stored ps (self.newId (view t))))) k ∧
      self.Ends b view sub .SAVE (stored ps (self.newId (view t))) (.ofInt (self.newId (view t)))
        (.update ⟨self.name, [some (.ofInt (self.newId (view t)))]⟩ (.obj (stored ps (self.newId (view t))))) k := by
  have hnumber : ∀ t, id_of (b (.increment ⟨self.name, []⟩) t).2.result = .ret (some (.ofInt (self.newId (view t)))) :=
    fun t => id_of_ok (law.increment_ok t _) (law.increment_data t self.name)
  have hid : ∀ n : ℕ, HasId (stored ps n) (.ofInt n) := fun n => ⟨get_stored ps n, scalar_ofInt n⟩
  have hstored := scalarFields_stored hscalar
  cases style with
  | sync =>
    refine ⟨_, rfl, fun t => ?_⟩
    change ∃ k, Calls.Prog.bind (Calls.Prog.bind (id_of (b (.increment ⟨self.name, []⟩) t).2.result) _) _ = _ ∧ _
    rw [hnumber t]
    generalize self.newId (view t) = n
    refine Ends.at (get_stored ps n) ⟨fun r => ?_, fun u g hg => ?_⟩
    · refine Only.bind ?_ fun _ => .pure _
      change Only _ (if isZeroStatus r.result then _ else _)
      split_ifs
      · exact (confined_update_index law self .SAVE hkeyed (hstored n) (hid n)).bind fun _ => .pure _
      · exact .pure _
    · have hzero := law.update_ok u ⟨self.name, [get (stored ps n) idKey]⟩ (.obj (stored ps n))
      refine Settles.bind ?_ fun _ _ hu => hu
      change Settles b _ _ (if isZeroStatus (b (.update ⟨self.name, [get (stored ps n) idKey]⟩
        (.obj (stored ps n))) u).2.result then _ else _) _
      rw [if_pos hzero]
      exact (reaches_update_index law self .SAVE hkeyed (hstored n) (hid n) hg).bind fun _ _ hu => hu
  | async =>
    refine ⟨_, rfl, fun t => ?_⟩
    change ∃ k, Calls.Prog.bind (Calls.Prog.bind (id_of (b (.increment ⟨self.name, []⟩) t).2.result) _) _ = _ ∧ _
    rw [hnumber t]
    generalize self.newId (view t) = n
    refine Ends.at (get_stored ps n) ⟨fun r => ?_, fun u g hg => ?_⟩
    · refine Only.bind ?_ fun _ => .pure _
      refine (confined_update_index law self .SAVE hkeyed (hstored n) (hid n)).bind fun _ => ?_
      exact (confined_callBack law self _ _ _).bind fun _ => .pure _
    · refine Settles.bind ?_ fun _ _ hu => hu
      refine (reaches_update_index law self .SAVE hkeyed (hstored n) (hid n) hg).bind fun _ _ hu => ?_
      exact (reaches_callBack law self hu _ _).bind fun _ _ hw => hw

end

def Edits (self : Collection) : Style → Method → Prop
  | _, .add ps => self.ScalarFields ps
  | _, .save ps => self.ScalarFields ps ∧ (Op.save ps).Proper
  | .sync, .remove ps => self.ScalarFields ps ∧ (Op.remove ps).Proper
  | .async, .remove _ | _, .removeAll => False

omit [LinearOrder κ] in
theorem Ends.keeping {self : Collection} {operation : IndexOperation} {ps : Props} {id : Json} {c : Call}
    {k : Reply c → Prog Unit} (hends : self.Ends b view sub operation ps id c k)
    (hclaims : ∀ s, self.claimed view sub c s = some (sub id))
    (hcall : ∀ s x, x ≠ some (sub id) → self.SamePart view x (b c s).1 s)
    (hdata : ∀ s t, self.SamePart view (some (sub id)) s t → self.SamePart view (some (sub id)) (b c s).1 (b c t).1) :
    Keeping b (self.claimed view sub) (self.SamePart view) (.call c k) := by
  have hequiv := self.samePart_equivalence view
  refine ⟨c, k, rfl, fun s => ⟨sub id, fun u => self.AgreeAt (some (sub id)) (view u)
    (operation.apply (view (b c s).1) self.index_global (self.paths sub ps id)),
    fun u v hu hv => (self.agreeAt_equivalence _).trans hu ((self.agreeAt_equivalence _).symm hv),
    fun t hnone hpart => ?_⟩⟩
  refine ⟨hclaims t, ?_, fun x _ hx => hcall t x hx, hends.confined _,
    hends.reaches t _ ((hequiv _).symm (hdata s t hpart))⟩
  have hsome := (Option.some_ne_none (sub id)).symm
  exact (hequiv none).trans (hcall s none hsome) ((hequiv none).trans hnone ((hequiv none).symm (hcall t none hsome)))

section
variable (law : Lawful b view sub) (self : Collection) (hkeyed : self.Keyed)
include law hkeyed

theorem keeping_add (style : Style) {ps : Props} (hscalar : self.ScalarFields ps) :
    Keeping b (self.claimed view sub) (self.SamePart view) (self.program style (.add ps)) := by
  obtain ⟨f, hprogram, hrest⟩ := ends_add law self hkeyed hscalar style
  have hequiv := self.agreeAt_equivalence (κ := κ)
  refine ⟨_, f, hprogram, fun s => ?_⟩
  set n := self.newId (view s) with hn
  -- the object is written where the counter stood at the first call
  refine ⟨subId sub n, fun u => self.AgreeAt (some (subId sub n)) (view u) (IndexOperation.SAVE.apply
    (((view s).increment self.name).update self.name (subId sub n) (stored ps n)) self.index_global
    (self.paths sub (stored ps n) (.ofInt n))), fun u v hu hv => (hequiv _).trans hu ((hequiv _).symm hv),
    fun t hnone hpart => ?_⟩
  have hsame : self.newId (view t) = n := by
    rw [hn, newId, newId, hnone.root rfl]
  have hnumbered := hrest t
  rw [hsame] at hnumbered
  obtain ⟨k, hf, hends⟩ := hnumbered
  have hincrement : ∀ u, view (b (.increment ⟨self.name, []⟩) u).1 = (view u).increment self.name :=
    fun u => law.increment u self.name
  have hupdate : ∀ u, view (b (.update ⟨self.name, [some (.ofInt n)]⟩ (.obj (stored ps n))) u).1 =
      (view u).update self.name (subId sub n) (stored ps n) :=
    fun u => law.update u self.name (.ofInt n) (stored ps n) (scalar_ofInt n)
  refine ⟨congrArg (fun m => some (subId sub m)) hsame, ?_, fun x hx _ => ?_, ?_, ?_⟩
  · rw [SamePart, hincrement, hincrement]
    exact AgreeAt.increment hnone self.name
  · rw [SamePart, hincrement]
    exact increment_elsewhere hx self.name
  · rw [hf]
    refine .call (fun u x hx => ?_) hends.confined
    rw [SamePart, hupdate]
    exact update_elsewhere hx _
  · rw [hf]
    intro u hu
    refine hends.reaches u _ ?_
    rw [hupdate]
    refine AgreeAt.update ?_ self.name (subId sub n) (stored ps n)
    rw [SamePart, hincrement] at hu
    exact (hequiv _).trans ((hequiv _).symm hu) (AgreeAt.increment ((hequiv _).symm hpart) self.name)

omit [LinearOrder κ] law hkeyed in
theorem program_save_new (style : Style) {ps : Props} (hps : ps ≠ []) (hnew : get ps idKey = none) :
    self.program style (.save ps) = self.program style (.add ps) := by
  cases style with
  | sync => simp only [program, save_new self hps hnew]
  | async => simp only [program, save_async_new self hps hnew]

theorem keeping_program (style : Style) {m : Method} (hop : self.Edits style m) :
    Keeping b (self.claimed view sub) (self.SamePart view) (self.program style m) := by
  cases m with
  | add ps => exact keeping_add law self hkeyed style hop
  | save ps =>
    obtain ⟨hscalar, hps, hids⟩ := hop
    cases hget : get ps idKey with
    | none =>
      rw [self.program_save_new style hps hget]
      exact keeping_add law self hkeyed style hscalar
    | some id =>
      obtain ⟨k, hprogram, hends⟩ := ends_save law self hkeyed hscalar style ⟨hget, hids id hget⟩
      have hview := fun s => law.update s self.name id ps (hids id hget)
      rw [hprogram]
      refine hends.keeping (fun _ => rfl) (fun s x hx => ?_) fun s t hst => ?_
      · rw [SamePart, hview]
        exact update_elsewhere hx ps
      · rw [SamePart, hview, hview]
        exact AgreeAt.update hst self.name (sub id) ps
  | remove ps =>
    cases style with
    | async => exact hop.elim
    | sync =>
      obtain ⟨hscalar, id, hid⟩ := hop
      obtain ⟨k, hprogram, hends⟩ := ends_remove law self hkeyed hscalar hid
      have hview : ∀ s, view (b (.kill ⟨self.name, [some id]⟩) s).1 = (view s).kill self.name [sub id] :=
        fun s => law.kill s self.name [id] (by simpa using hid.2)
      rw [hprogram]
      refine hends.keeping (fun _ => rfl) (fun s x hx => ?_) fun s t hst => ?_
      · rw [SamePart, hview]
        exact kill_elsewhere hx
      · rw [SamePart, hview, hview]
        exact AgreeAt.kill hst self.name [sub id]
  | removeAll => cases style <;> exact hop.elim

end

/-- An operation of a client, on the client's own object for the collection. -/
structure Edit where
  client : Collection
  style : Style
  method : Method

def Edit.program (e : Edit) : Prog Unit := e.client.program e.style e.method

/-- Clients may have different indexes for one collection. -/
structure Edit.On (e : Edit) (collection : Collection) : Prop where
  name : e.client.name = collection.name
  keyed : e.client.Keyed
  edits : e.client.Edits e.style e.method

omit [LinearOrder κ] in
theorem samePart_congr {self other : Collection} (hname : other.name = self.name) (view : σ → Globals κ) :
    other.SamePart view = self.SamePart view := by
  have hindex : other.index_global = self.index_global := by rw [index_global, index_global, hname]
  have hobject : ∀ n (k : κ), other.objectPart n k = self.objectPart n k := fun n k => by
    rw [objectPart, objectPart, hname]
  have hnode : ∀ n (p : List κ), other.nodePart n p = self.nodePart n p := fun n p => by
    rw [nodePart, nodePart, hname, hindex]
  funext x s t
  refine propext ⟨fun h => ⟨h.root, fun n k hx => h.object n k ?_, fun n p hx => h.node n p ?_⟩,
    fun h => ⟨h.root, fun n k hx => h.object n k ?_, fun n p hx => h.node n p ?_⟩⟩
  · rw [hobject, hx]
  · rw [hnode, hx]
  · rw [← hobject, hx]
  · rw [← hnode, hx]

omit [LinearOrder κ] in
theorem claimed_congr {self other : Collection} (hname : other.name = self.name) (view : σ → Globals κ)
    (sub : Json → κ) : other.claimed view sub = self.claimed view sub := by
  funext c s
  unfold claimed newId
  rw [hname]

theorem keeping_edit (law : Lawful b view sub) (self : Collection) {e : Edit} (he : e.On self) :
    Keeping b (self.claimed view sub) (self.SamePart view) e.program := by
  rw [← claimed_congr he.name, ← samePart_congr he.name]
  exact keeping_program law e.client he.keyed e.style he.edits

section
variable (self : Collection) (b : Binding σ) (view : σ → Globals κ) (sub : Json → κ)

def together (s : σ) (ts : List (Choice Edit)) : Pool Call Reply Stop Edit σ (Option κ) :=
  Pool.turns b (self.claimed view sub) Edit.program ⟨s, []⟩ ts

def firstCalls (s : σ) (ts : List (Choice Edit)) : List Edit :=
  Pool.order b (self.claimed view sub) Edit.program ⟨s, []⟩ ts

def oneByOne (b : Binding σ) (es : List Edit) (s : σ) : σ := Pool.serially b Edit.program es s

/-- No operation begins on an object that another one is still working on. -/
def NoOverlap (s : σ) (ts : List (Choice Edit)) : Prop :=
  Pool.Along b (self.claimed view sub) Edit.program (Pool.Apart (self.claimed view sub)) ⟨s, []⟩ ts

instance (s : σ) (ts : List (Choice Edit)) : Decidable (self.NoOverlap b view sub s ts) :=
  inferInstanceAs (Decidable (Pool.Along b (self.claimed view sub) Edit.program
    (Pool.Apart (self.claimed view sub)) ⟨s, []⟩ ts))

end

/-- Operations of any number of clients, in any interleaving of their calls: as long as no two of
them overlap on one object, no operation fails, the data of every object that nobody is working on
are those after the operations one by one, in the order of their first calls, and so is the whole
database once all operations have ended. -/
theorem operations_serializable (law : Lawful b view sub) (self : Collection) {s : σ} {ts : List (Choice Edit)}
    (hedits : ∀ e, .start e ∈ ts → e.On self) (hapart : self.NoOverlap b view sub s ts) :
    let w := self.together b view sub s ts
    let es := self.firstCalls b view sub s ts
    es.Perm w.begun ∧ (∀ t ∈ w.tasks, t.Unfinished → ∃ c k, t.rest = .call c k) ∧
      (∀ k, ¬ w.Busy k → self.AgreeAt (some k) (view w.shared) (view (oneByOne b es s))) ∧
      ((∀ t ∈ w.tasks, ¬ t.Unfinished) →
        es.Perm (w.tasks.map Task.op) ∧ view w.shared = view (oneByOne b es s)) := by
  intro w es
  have hequiv := self.samePart_equivalence view
  have hkeeping : ∀ e, .start e ∈ ts → Keeping b (self.claimed view sub) (self.SamePart view) e.program :=
    fun e he => keeping_edit law self (hedits e he)
  have hstart : Pool.Serial b (self.claimed view sub) (self.SamePart view) Edit.program ⟨s, []⟩ s :=
    .idle_pool hequiv s
  have hserial : Pool.Serial b (self.claimed view sub) (self.SamePart view) Edit.program w (oneByOne b es s) :=
    hstart.run hequiv hkeeping hapart
  have hperm : es.Perm w.begun := (hstart.begun_turns hequiv hkeeping hapart).symm
  refine ⟨hperm, fun t ht hun => hserial.calls ht hun, hserial.idle, fun hended => ⟨?_, ?_⟩⟩
  · rw [← hserial.begun_of_ended hended]
    exact hperm
  · have hagree : ∀ x, self.AgreeAt x (view w.shared) (view (oneByOne b es s)) := by
      intro x
      cases x with
      | none => exact hserial.common
      | some k => exact hserial.idle k (Pool.not_busy_of_ended hended k)
    exact eq_of_agreeAt hagree

def sideBySide : List (Choice Edit) :=
  [.start ⟨people, .async, .add (ann 30)⟩, .start ⟨people, .sync, .save (ann 40)⟩, .step 0, .step 1, .step 1,
    .step 0, .step 1, .step 0, .step 0, .start ⟨people, .sync, .remove (stored (ann 40) 2)⟩,
    .start ⟨people, .async, .save (stored (ann 30) 1)⟩, .step 2, .step 3, .step 2, .step 3, .step 3]

theorem sideBySide_edits : ∀ e, .start e ∈ sideBySide → e.client = people ∧ e.On people := by
  have hann : ∀ age, people.ScalarFields (ann age) := by
    intro age f hf v hv
    obtain rfl : f = js "age" := List.mem_singleton.mp hf
    rw [← Option.some.inj hv]
    exact scalar_ofInt age
  intro e he
  simp only [sideBySide, List.mem_cons, Choice.start.injEq, reduceCtorEq, List.not_mem_nil, or_false, false_or] at he
  rcases he with rfl | rfl | rfl | rfl
  · exact ⟨rfl, rfl, people_single.keyed, hann 30⟩
  · exact ⟨rfl, rfl, people_single.keyed, hann 40, by decide, fun id h => by cases h⟩
  · exact ⟨rfl, rfl, people_single.keyed, ann_scalar 40 2, .ofInt 2, rfl, trivial⟩
  · refine ⟨rfl, rfl, people_single.keyed, ann_scalar 30 1, by decide, fun id h => ?_⟩
    rw [← Option.some.inj h]
    exact scalar_ofInt 1

theorem operations_serializable_side_by_side :
    let w := people.together Disk.binding Disk.view Subscript.of Disk.empty sideBySide
    let es := people.firstCalls Disk.binding Disk.view Subscript.of Disk.empty sideBySide
    es.Perm w.begun ∧ (∀ t ∈ w.tasks, t.Unfinished → ∃ c k, t.rest = .call c k) ∧
      (∀ k, ¬ w.Busy k → people.AgreeAt (some k) (Disk.view w.shared)
        (Disk.view (oneByOne Disk.binding es Disk.empty))) ∧
      ((∀ t ∈ w.tasks, ¬ t.Unfinished) → es.Perm (w.tasks.map Task.op) ∧
        Disk.view w.shared = Disk.view (oneByOne Disk.binding es Disk.empty)) :=
  operations_serializable Disk.lawful people (fun e he => (sideBySide_edits e he).2) (by decide +kernel)

/-- A save goes on between the two calls of a removal of the same object: the object stays without
its entry, which neither order of the two does. -/
theorem overlapping_removal :
    let removal : Edit := ⟨people, .sync, .remove (stored (ann 30) 1)⟩
    let saving : Edit := ⟨people, .sync, .save (stored (ann 30) 1)⟩
    let s := after Disk.binding people [.save (ann 30)] Disk.empty
    let ts : List (Choice Edit) := [.start removal, .start saving, .step 0, .step 1, .step 1, .step 0]
    let held := fun s : Disk => (((Disk.view s).object people.name (.of (.ofInt 1))).isSome,
      decide ((Disk.view s).node people.index_global [.of (.str (js "age")), .of (.ofInt 30), .of (.ofInt 1)]))
    ¬ people.NoOverlap Disk.binding Disk.view Subscript.of s ts ∧
      held (people.together Disk.binding Disk.view Subscript.of s ts).shared = (true, false) ∧
      held (oneByOne Disk.binding [removal, saving] s) = (true, true) ∧
      held (oneByOne Disk.binding [saving, removal] s) = (false, false) := by
  decide +kernel

end

end Collection

end GlobalsJs
