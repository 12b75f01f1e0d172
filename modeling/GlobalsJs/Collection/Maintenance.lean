import GlobalsJs.Collection.Exactness
import GlobalsJs.Collection.Indexes

/-!
# The fields that saves maintain

A save sets an entry for the first field of every index in the list. What `ensureIndex`
was asked for, what is in the list and what is found on the store again agree when every
field was asked for on its own before it occurs beside others.
-/

namespace GlobalsJs
open Ecma Cache Query Calls.Prog

namespace Collection
variable {σ κ : Type} [LinearOrder κ] {b : Binding σ} {view : σ → Globals κ} {sub : Json → κ}

def savedAs (self : Collection) (g : Globals κ) (ps : Props) : Props :=
  if get ps idKey = none then stored ps (self.newId g) else ps

def savedId (self : Collection) (g : Globals κ) (ps : Props) : Json :=
  (get ps idKey).getD (.ofInt (self.newId g))

/-- Every save of an object with the field leaves the entry of its value behind. -/
def Maintains (b : Binding σ) (view : σ → Globals κ) (sub : Json → κ) (self : Collection)
    (f : JsString) : Prop :=
  ∀ style ps v s, get ps f = some v → (Op.save ps).Proper → self.ScalarFields ps →
    (view (run b (self.program style (.save ps)) s).1).node self.index_global
      [sub (.str f), sub v, sub (self.savedId (view s) ps)]

omit [LinearOrder κ] in
theorem savedAs_hasId (self : Collection) (g : Globals κ) {ps : Props} (hps : (Op.save ps).Proper) :
    HasId (self.savedAs g ps) (self.savedId g ps) := by
  cases hget : get ps idKey with
  | none =>
    rw [savedAs, if_pos hget, savedId, hget]
    exact ⟨get_stored ps _, scalar_ofInt _⟩
  | some id =>
    rw [savedAs, if_neg (by simp [hget]), savedId, hget]
    exact ⟨hget, hps.2 id hget⟩

omit [LinearOrder κ] in
theorem get_savedAs (self : Collection) (g : Globals κ) {ps : Props} {f : JsString} {v : Json}
    (hv : get ps f = some v) : get (self.savedAs g ps) f = some v := by
  unfold savedAs
  split_ifs with hnew
  · rw [stored, get_put, if_neg, hv]
    rintro rfl
    rw [hnew] at hv
    cases hv
  · exact hv

omit [LinearOrder κ] in
theorem scalarFields_savedAs (self : Collection) (g : Globals κ) {ps : Props} (h : self.ScalarFields ps) :
    self.ScalarFields (self.savedAs g ps) := by
  unfold savedAs
  split_ifs
  · exact scalarFields_stored h _
  · exact h

section
variable (law : Lawful b view sub)
include law

theorem run_save_program (self : Collection) (style : Style) {ps : Props} (hps : (Op.save ps).Proper)
    (s : σ) : ∃ u, (view u).SameAt (view s) self.index_global ∧ ∀ t,
      run b (self.update_index .SAVE (some (.obj (self.savedAs (view s) ps)))) u = (t, .ok ⟨⟩) →
      run b (self.program style (.save ps)) s = (t, .ok ⟨⟩) := by
  have hne := self.index_global_ne
  cases hget : get ps idKey with
  | none =>
    set n := self.newId (view s) with hn
    obtain ⟨u, hu, hview⟩ := run_next_id law self s
    have hupdate := law.update u self.name (.ofInt n) (stored ps n) trivial
    have hsaved : self.savedAs (view s) ps = stored ps n := if_pos hget
    refine ⟨(b (.update ⟨self.name, [some (.ofInt n)]⟩ (.obj (stored ps n))) u).1, ?_, fun t ht => ?_⟩
    · rw [hupdate, hview]
      exact ⟨by simp [Globals.update, Globals.increment, hne.symm],
        by simp [Globals.update, Globals.increment, hne.symm], rfl⟩
    rw [hsaved] at ht
    cases style with
    | sync =>
      rw [program, save_new self hps.1 hget, run_bind_ok (a := ⟨none, some (.obj (stored ps n))⟩) (t := t)]
      · rfl
      rw [run_add_of_id self ps hu, run_bind_ok (run_sync _ u), if_pos (law.update_ok u _ _)]
      exact run_bind_ok ht _
    | async =>
      rw [program, save_async_new self hps.1 hget, run_bind_ok (a := some (.obj (stored ps n))) (t := t)]
      · rfl
      rw [run_add_async_of_id self ps hu, run_bind_ok (run_async _ u), run_bind_ok ht]
      exact run_bind_ok (run_callback law .async _ _ t) _
  | some id =>
    have hid := hps.2 id hget
    have hsaved : self.savedAs (view s) ps = ps := if_neg (by simp [hget])
    refine ⟨(b (.update ⟨self.name, [some id]⟩ (.obj ps)) s).1, ?_, fun t ht => ?_⟩
    · rw [law.update s self.name id ps hid]
      exact ⟨rfl, by simp [Globals.update, hne.symm], rfl⟩
    rw [hsaved] at ht
    cases style with
    | sync =>
      rw [program, save_stored self hget]
      rw [run_bind_ok (a := ⟨some (b (.update ⟨self.name, [some id]⟩ (.obj ps)) s).2.result,
        some (.obj ps)⟩) (t := t)]
      · rfl
      rw [run_bind_ok (run_sync _ s), if_pos (law.update_ok s _ _)]
      exact run_bind_ok ht _
    | async =>
      rw [program, save_async_stored self hget, run_bind_ok (a := some (.obj ps)) (t := t)]
      · rfl
      rw [run_bind_ok (run_async _ s), run_bind_ok ht]
      exact run_bind_ok (run_callback law .async _ _ t) _

theorem index_after_save {self : Collection} (hkeyed : self.Keyed) (style : Style) {ps : Props}
    (hps : (Op.save ps).Proper) (hscalar : self.ScalarFields ps) (s : σ) :
    ∃ g : Globals κ, g.SameAt (view s) self.index_global ∧
      view (run b (self.program style (.save ps)) s).1 = g.addNodes self.index_global
        (self.paths sub (self.savedAs (view s) ps) (self.savedId (view s) ps)) := by
  obtain ⟨u, hsame, hrun⟩ := run_save_program law self style hps s
  obtain ⟨hget, hid⟩ := self.savedAs_hasId (view s) hps
  obtain ⟨t, ht, hview⟩ := run_update_index_keyed law self .SAVE hkeyed
    (self.scalarFields_savedAs (view s) hscalar) hid hget u
  exact ⟨view u, hsame, by rw [hrun t ht, hview]; rfl⟩

theorem node_after_save {self : Collection} (hkeyed : self.Keyed) (style : Style) {ps : Props}
    (hps : (Op.save ps).Proper) (hscalar : self.ScalarFields ps) (s : σ) (p : List κ) :
    (view (run b (self.program style (.save ps)) s).1).node self.index_global p ↔
      (view s).node self.index_global p ∨
        p ∈ self.paths sub (self.savedAs (view s) ps) (self.savedId (view s) ps) := by
  obtain ⟨g, hsame, hview⟩ := index_after_save law hkeyed style hps hscalar s
  rw [hview, ← hsame.2.2]
  simp [Globals.addNodes]

theorem maintains_iff {self : Collection} (hkeyed : self.Keyed) (s : σ) (f : JsString) :
    Maintains b view sub self f ↔ f ∈ self.fields := by
  constructor
  · intro hmaintains
    -- an object with this field only is saved where there are no entries
    let u := (b (.killGlobal self.index_global) s).1
    have hget : ∀ g v, get [(f, Json.ofInt 1)] g = some v → v = .ofInt 1 := by
      intro g v hv
      exact (Prod.mk.inj (List.mem_singleton.mp (mem_of_get hv))).2
    have hproper : (Op.save [(f, Json.ofInt 1)]).Proper :=
      ⟨by simp, fun id hid => hget _ id hid ▸ scalar_ofInt 1⟩
    have hscalar : self.ScalarFields [(f, Json.ofInt 1)] :=
      fun g _ v hv => hget g v hv ▸ scalar_ofInt 1
    have hnode := hmaintains .sync [(f, .ofInt 1)] (.ofInt 1) u (by rw [get_cons, if_pos rfl])
      hproper hscalar
    rw [node_after_save law hkeyed .sync hproper hscalar, law.killGlobal] at hnode
    rcases hnode with hbefore | hpath
    · simp [Globals.kill] at hbefore
    · obtain ⟨g, hg, w, -, hpath⟩ := mem_paths.mp hpath
      rwa [law.sub_str _ _ (List.cons.inj hpath).1]
  · intro hf style ps v s hv hps hscalar
    rw [node_after_save law hkeyed style hps hscalar]
    exact .inr (mem_paths.mpr ⟨f, hf, v, get_savedAs self (view s) hv, rfl⟩)

end

theorem keys_withAll (specs : List Props) (self : Collection) :
    (specs.foldl withIndex self).indexes.map keys =
      (specs.map keys).foldl Greedy.take (self.indexes.map keys) := by
  induction specs generalizing self with
  | nil => rfl
  | cons spec specs ih => rw [List.foldl_cons, ih, keys_withIndex, List.map_cons, List.foldl_cons]

def withAll (name : JsString) (specs : List Props) : Collection := specs.foldl withIndex ⟨name, []⟩

theorem withAll_name (name : JsString) (specs : List Props) : (withAll name specs).name = name := by
  suffices hgen : ∀ self : Collection, (specs.foldl withIndex self).name = self.name from hgen ⟨name, []⟩
  induction specs with
  | nil => exact fun _ => rfl
  | cons spec specs ih => exact fun self => (ih _).trans (withIndex_name self spec)

theorem keys_mem_withAll {name : JsString} {specs : List Props} {group : List JsString} :
    group ∈ (withAll name specs).indexes.map keys ↔ group ∈ Greedy.takeAll (specs.map keys) := by
  rw [withAll, keys_withAll]
  rfl

theorem withAll_keyed (name : JsString) {specs : List Props}
    (hspecs : ∀ spec ∈ specs, spec ≠ [] ∧ ∀ f ∈ keys spec, f ≠ []) : (withAll name specs).Keyed := by
  intro index hindex
  have htaken := keys_mem_withAll.mp (List.mem_map_of_mem (f := keys) hindex)
  obtain ⟨spec, hspec, hkeys⟩ := List.mem_map.mp (Greedy.mem_of_mem_takeAll htaken)
  obtain ⟨hne, hnames⟩ := hspecs spec hspec
  rw [index_key_eq_head, ← hkeys]
  cases spec with
  | nil => exact absurd rfl hne
  | cons p spec => exact ⟨p.1, rfl, hnames p.1 List.mem_cons_self⟩

theorem mem_fields_withAll {name : JsString} {specs : List Props} {f : JsString} :
    f ∈ (withAll name specs).fields ↔ ∃ t ∈ Greedy.takeAll (specs.map keys), t.head? = some f := by
  rw [fields_eq, List.mem_filterMap]
  simp only [keys_mem_withAll]

theorem mem_defined_withAll {name : JsString} {specs : List Props} {f : JsString} :
    f ∈ (withAll name specs).defined ↔ ∃ t ∈ Greedy.takeAll (specs.map keys), f ∈ t := by
  rw [defined_eq, List.mem_flatten]
  simp only [keys_mem_withAll]

theorem fields_agree_iff (name : JsString) {specs : List Props} (hspecs : ∀ spec ∈ specs, spec ≠ []) :
    ((∀ f, f ∈ (withAll name specs).fields ↔ ∃ spec ∈ specs, f ∈ keys spec) ∧
      ∀ f, f ∈ (withAll name specs).defined ↔ f ∈ (withAll name specs).fields) ↔
      Greedy.OneByOne (specs.map keys) := by
  have hne : ∀ g ∈ specs.map keys, g ≠ [] := by
    intro g hg
    obtain ⟨spec, hspec, rfl⟩ := List.mem_map.mp hg
    exact fun hnil => hspecs spec hspec (List.map_eq_nil_iff.mp hnil)
  have hasked : ∀ t ∈ Greedy.takeAll (specs.map keys), ∀ f ∈ t, ∃ spec ∈ specs, f ∈ keys spec := by
    intro t ht f hf
    obtain ⟨spec, hspec, rfl⟩ := List.mem_map.mp (Greedy.mem_of_mem_takeAll ht)
    exact ⟨spec, hspec, hf⟩
  rw [← Greedy.heads_cover_iff hne]
  simp only [mem_fields_withAll, mem_defined_withAll]
  constructor
  · intro ⟨hfields, _⟩ g hg f hf
    obtain ⟨spec, hspec, rfl⟩ := List.mem_map.mp hg
    exact (hfields f).mpr ⟨spec, hspec, hf⟩
  · intro hcover
    have hhead : ∀ f, (∃ spec ∈ specs, f ∈ keys spec) →
        ∃ t ∈ Greedy.takeAll (specs.map keys), t.head? = some f := by
      intro f ⟨spec, hspec, hf⟩
      exact hcover _ (List.mem_map_of_mem hspec) f hf
    refine ⟨fun f => ⟨fun ⟨t, ht, hf⟩ => ?_, hhead f⟩, fun f => ⟨fun ⟨t, ht, hf⟩ => ?_, ?_⟩⟩
    · exact hasked t ht f (List.mem_of_mem_head? hf)
    · exact hhead f (hasked t ht f hf)
    · intro ⟨t, ht, hf⟩
      exact ⟨t, ht, List.mem_of_mem_head? hf⟩

def Undefined (name : JsString) (g : Globals κ) : Prop :=
  (∀ k, g.object (name ++ COLLECTION_SYSTEM_IDENTIFIER) k = none) ∧
    ∀ p, ¬ g.node (name ++ COLLECTION_SYSTEM_IDENTIFIER) p

omit [LinearOrder κ] in
theorem recorded_of_undefined {name : JsString} {g : Globals κ} (hg : Undefined name g) :
    Recorded ⟨name, []⟩ sub g where
  objects := hg.1
  definitions k := by
    refine iff_of_false ?_ (by simp [defined])
    intro h
    rcases h with ⟨rest, hnode⟩ | ⟨hpath, -⟩
    · exact hg.2 _ hnode
    · cases hpath
  names := by simp [defined]

/-- The fields that were asked for are those that saves maintain, before and after a reload,
exactly when every field was asked for on its own, and beside others only together with one that
had been. -/
theorem ensureIndex_complete_iff (law : Lawful b view sub) (start : Starting b view sub) {name : JsString}
    {s : σ} (hnone : Undefined name (view s)) {calls : List (Style × Props)}
    (hcalls : ∀ call ∈ calls, call.2 ≠ [] ∧ ∀ f ∈ keys call.2, f ≠ []) :
    ∃ t c, run b (ensureAll ⟨name, []⟩ calls) s = (t, .ok c) ∧
      ∃ n d, (∀ fuel, n < fuel → run b (new name fuel) t = (t, .ok d)) ∧
        (({f | Maintains b view sub c f} = {f | ∃ call ∈ calls, f ∈ keys call.2} ∧
          {f | Maintains b view sub d f} = {f | Maintains b view sub c f}) ↔
            Greedy.OneByOne (calls.map fun call => keys call.2)) := by
  have hempty : Recorded ⟨name, []⟩ sub (view s) := recorded_of_undefined hnone
  obtain ⟨t, ht, hrecorded⟩ := run_ensureAll law (fun call hcall => (hcalls call hcall).2) hempty
  obtain ⟨n, d, hnew, -, hsingle, hloaded⟩ := run_new law start hrecorded
  have hspecs : ∀ spec ∈ calls.map Prod.snd, spec ≠ [] ∧ ∀ f ∈ keys spec, f ≠ [] := by
    intro spec hspec
    obtain ⟨call, hcall, rfl⟩ := List.mem_map.mp hspec
    exact hcalls call hcall
  have hkeyed := withAll_keyed name hspecs
  refine ⟨t, _, ht, n, d, fun fuel hfuel => ?_, ?_⟩
  · have hrun := hnew fuel hfuel
    rwa [← withAll, withAll_name] at hrun
  have hfields : ∀ f, Maintains b view sub (withAll name (calls.map Prod.snd)) f ↔
      f ∈ (withAll name (calls.map Prod.snd)).fields := maintains_iff law hkeyed t
  have hdefined : ∀ f, Maintains b view sub d f ↔ f ∈ (withAll name (calls.map Prod.snd)).defined :=
    fun f => (maintains_iff law hsingle.keyed t f).trans (hloaded f)
  have hagree := fields_agree_iff name fun spec hspec => (hspecs spec hspec).1
  rw [List.map_map] at hagree
  refine Iff.trans ?_ hagree
  rw [Set.ext_iff, Set.ext_iff]
  refine and_congr (forall_congr' fun f => iff_congr (hfields f) ?_)
    (forall_congr' fun f => iff_congr (hdefined f) (hfields f))
  simp only [Set.mem_ofPred_eq, List.mem_map, exists_exists_and_eq_and]

theorem empty_undefined (name : JsString) : Undefined name Disk.empty.view :=
  ⟨fun k => by simp [Disk.view, Disk.empty], fun p hp => by simp [Disk.view, Disk.empty] at hp⟩

theorem ensureIndex_complete_people :
    let calls : List (Style × Props) :=
      [(.sync, [(js "age", .ofInt 1)]), (.async, [(js "age", .ofInt 1), (js "city", .ofInt 1)])]
    ∃ t c, run Disk.binding (ensureAll ⟨js "people", []⟩ calls) Disk.empty = (t, .ok c) ∧
      ∃ n d, (∀ fuel, n < fuel → run Disk.binding (new (js "people") fuel) t = (t, .ok d)) ∧
        (({f | Maintains Disk.binding Disk.view Subscript.of c f} = {f | ∃ call ∈ calls, f ∈ keys call.2} ∧
          {f | Maintains Disk.binding Disk.view Subscript.of d f} =
            {f | Maintains Disk.binding Disk.view Subscript.of c f}) ↔
            Greedy.OneByOne (calls.map fun call => keys call.2)) := by
  refine ensureIndex_complete_iff Disk.lawful Disk.starting (empty_undefined _) fun call hcall => ?_
  simp only [List.mem_cons, List.not_mem_nil, or_false] at hcall
  rcases hcall with rfl | rfl
  · exact ⟨by decide, by decide⟩
  · exact ⟨by decide, by decide⟩

/-- An index on two fields is kept for the first one only, and found again for both. -/
theorem second_field_not_kept :
    ∃ t c, run Disk.binding (ensureAll ⟨js "people", []⟩
        [(.sync, [(js "age", .ofInt 1), (js "city", .ofInt 1)])]) Disk.empty = (t, .ok c) ∧
      ¬ Maintains Disk.binding Disk.view Subscript.of c (js "city") ∧
      ∃ n d, (∀ fuel, n < fuel → run Disk.binding (new (js "people") fuel) t = (t, .ok d)) ∧
        Maintains Disk.binding Disk.view Subscript.of d (js "city") := by
  let specs : List Props := [[(js "age", .ofInt 1), (js "city", .ofInt 1)]]
  have hspecs : ∀ spec ∈ specs, spec ≠ [] ∧ ∀ f ∈ keys spec, f ≠ [] := by
    intro spec hspec
    obtain rfl := List.mem_singleton.mp hspec
    exact ⟨by decide, by decide⟩
  have hcalls : ∀ call ∈ specs.map (fun spec => (Style.sync, spec)), ∀ f ∈ keys call.2, f ≠ [] := by
    simpa [specs] using (hspecs _ (List.mem_singleton_self _)).2
  obtain ⟨t, ht, hrecorded⟩ := run_ensureAll Disk.lawful hcalls
    (recorded_of_undefined (empty_undefined (js "people")))
  obtain ⟨n, d, hnew, -, hsingle, hloaded⟩ := run_new Disk.lawful Disk.starting hrecorded
  refine ⟨t, withAll (js "people") specs, ht, ?_, n, d, hnew, ?_⟩
  · rw [maintains_iff Disk.lawful (withAll_keyed _ hspecs) t]
    decide
  · rw [maintains_iff Disk.lawful hsingle.keyed t, hloaded]
    decide

end Collection

end GlobalsJs
