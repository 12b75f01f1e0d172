import GlobalsJs.Collection.Clients
import GlobalsJs.Lists.Greedy

/-!
# Definitions of indexes

`ensureIndex` takes an index into the list of the collection and records its fields in
the system global, where `load_indexes` finds them again. An index whose fields meet
those of an earlier one is not taken. Saves only look at the first field of an index,
while every field of it is recorded.
-/

namespace GlobalsJs
open Ecma Cache Query Calls.Prog

namespace Collection

def noop : Option Json → Option Json → Prog Unit := fun _ _ => pure ⟨⟩

def callback : Style → Option Json → Option Json → Prog Unit
  | .sync => noop
  | .async => callBack

/-- `self.indexes[i][index_field]=object[object_field]` -/
def copy_collation_order (object index : Props) : Props :=
  index.map fun p => (p.1, (get object p.1).getD p.2)

def index_exists (self : Collection) (object : Props) : Bool :=
  self.indexes.any fun index => (keys index).any fun f => f ∈ keys object

def ensureIndex (self : Collection) (style : Style) (object : Props) : Prog Collection := do
  if self.index_exists object then
    callback style none none
    return { self with indexes := self.indexes.map (copy_collation_order object) }
  (keys object).forM fun indexField => do
    let _ ← (Call.set (self.system_glo_ref [some (.str (js "index")), some (.str indexField)])
      (.str [])).sync
  callback style (some (.obj [])) (some (.obj []))
  return { self with indexes := self.indexes ++ [object] }

def load_indexes (self : Collection) (fuel : ℕ) : Prog Collection := do
  let results ← order_ids fuel (self.system_glo_ref [some (.str (js "index")), some (.str [])])
  return { self with indexes := self.indexes ++ results.map fun result => [(result.toText, .ofInt 1)] }

/-- `new Collection(name, db)` -/
def new (name : JsString) (fuel : ℕ) : Prog Collection := load_indexes ⟨name, []⟩ fuel

def ensureAll (self : Collection) : List (Style × Props) → Prog Collection
  | [] => pure self
  | (style, object) :: calls => do ensureAll (← self.ensureIndex style object) calls

def defined (self : Collection) : List JsString := self.indexes.flatMap keys

def withIndex (self : Collection) (object : Props) : Collection :=
  if self.index_exists object then
    { self with indexes := self.indexes.map (copy_collation_order object) }
  else { self with indexes := self.indexes ++ [object] }

theorem keys_copy_collation_order (object index : Props) :
    keys (copy_collation_order object index) = keys index := by
  simp [keys, copy_collation_order, Function.comp_def]

theorem index_key_eq_head (index : Props) : index_key index = (keys index).head? := by
  cases index <;> rfl

theorem index_exists_iff {self : Collection} {object : Props} :
    self.index_exists object = true ↔ Greedy.Meets (self.indexes.map keys) (keys object) := by
  simp [index_exists, Greedy.Meets]

theorem keys_withIndex (self : Collection) (object : Props) :
    (self.withIndex object).indexes.map keys = Greedy.take (self.indexes.map keys) (keys object) := by
  rw [withIndex, Greedy.take]
  by_cases hexists : self.index_exists object = true
  · rw [if_pos hexists, if_pos (index_exists_iff.mp hexists), List.map_map]
    simp only [Function.comp_def, keys_copy_collation_order]
  · rw [if_neg hexists, if_neg (mt index_exists_iff.mpr hexists), List.map_append, List.map_singleton]

theorem defined_eq (self : Collection) : self.defined = (self.indexes.map keys).flatten :=
  List.flatMap_def

theorem fields_eq (self : Collection) : self.fields = (self.indexes.map keys).filterMap List.head? := by
  rw [fields, List.filterMap_map]
  exact List.filterMap_congr fun index _ => index_key_eq_head index

theorem defined_withIndex (self : Collection) (object : Props) : (self.withIndex object).defined =
    if self.index_exists object then self.defined else self.defined ++ keys object := by
  simp only [defined_eq, keys_withIndex, Greedy.take, index_exists_iff]
  split_ifs <;> simp

theorem withIndex_name (self : Collection) (object : Props) : (self.withIndex object).name = self.name := by
  unfold withIndex
  split_ifs <;> rfl

section
variable {σ κ : Type} [LinearOrder κ] {b : Binding σ} {view : σ → Globals κ} {sub : Json → κ}

def definitionPath (sub : Json → κ) (f : JsString) : List κ := [sub (.str (js "index")), sub (.str f)]

/-- The system global has the definitions of the fields in the list, and no objects. -/
structure Recorded (c : Collection) (sub : Json → κ) (g : Globals κ) : Prop where
  objects : ∀ k, g.object c.system_global k = none
  definitions : ∀ k, g.Child c.system_global [sub (.str (js "index"))] k ↔
    ∃ f ∈ c.defined, k = sub (.str f)
  names : ∀ f ∈ c.defined, f ≠ []

omit [LinearOrder κ] in
theorem child_addNodes (g : Globals κ) (name : JsString) (fs : List JsString) (k : κ) :
    (g.addNodes name (fs.map (definitionPath sub))).Child name [sub (.str (js "index"))] k ↔
      g.Child name [sub (.str (js "index"))] k ∨ ∃ f ∈ fs, k = sub (.str f) := by
  simp only [Globals.Child, Globals.addNodes, definitionPath, List.cons_append, List.nil_append,
    List.mem_map, List.cons.injEq, true_and, reduceCtorEq, false_and, or_false]
  constructor
  · rintro ⟨rest, hnode | ⟨f, hf, hk, hrest⟩⟩
    · exact .inl ⟨rest, hnode⟩
    · exact .inr ⟨f, hf, hk.symm⟩
  · rintro (⟨rest, hnode⟩ | ⟨f, hf, rfl⟩)
    · exact ⟨rest, .inl hnode⟩
    · exact ⟨[], .inr ⟨f, hf, rfl, rfl⟩⟩

section
variable (law : Lawful b view sub)
include law

theorem run_callback (style : Style) (error result : Option Json) (s : σ) :
    run b (callback style error result) s = (s, .ok ⟨⟩) := by
  cases style with
  | sync => rfl
  | async =>
    have hstate := law.callback s error result
    rw [callback, callBack, run_bind_ok (run_sync _ s), hstate]
    rfl

theorem run_ensureIndex (self : Collection) (style : Style) {object : Props}
    (hobject : ∀ f ∈ keys object, f ≠ []) (s : σ) :
    ∃ t, run b (self.ensureIndex style object) s = (t, .ok (self.withIndex object)) ∧
      view t = if self.index_exists object then view s else
        (view s).addNodes self.system_global ((keys object).map (definitionPath sub)) := by
  unfold ensureIndex withIndex
  split_ifs with hexists
  · exact ⟨s, by rw [run_bind_ok (run_callback law style _ _ s)]; rfl, rfl⟩
  have hsets : ∃ t, run b ((keys object).forM fun indexField => do
      let _ ← (Call.set (self.system_glo_ref [some (.str (js "index")), some (.str indexField)])
        (.str [])).sync) s = (t, .ok ⟨⟩) ∧
      view t = (view s).addNodes self.system_global ((keys object).map (definitionPath sub)) := by
    refine run_forM (I := fun done u => view u =
      (view s).addNodes self.system_global (done.map (definitionPath sub))) ?_ ?_
    · simp [Globals.addNodes]
    intro done f rest u hkeys hu
    have hscalar : ∀ x ∈ [Json.str (js "index"), .str f], Scalar x := by
      have hf : f ≠ [] := hobject f (by simp [hkeys])
      have hindex : js "index" ≠ [] := by decide
      simpa [Scalar] using ⟨hindex, hf⟩
    refine ⟨_, rfl, (law.set u self.system_global _ _ hscalar).trans ?_⟩
    rw [hu]
    simp [Globals.setNode, Globals.addNodes, definitionPath, or_assoc, and_or_left]
  obtain ⟨t, ht, hview⟩ := hsets
  refine ⟨t, ?_, hview⟩
  rw [run_bind_ok ht, run_bind_ok (run_callback law style _ _ t)]
  rfl

theorem recorded_ensureIndex {self : Collection} (style : Style) {object : Props}
    (hobject : ∀ f ∈ keys object, f ≠ []) {s : σ} (hs : self.Recorded sub (view s)) :
    ∃ t, run b (self.ensureIndex style object) s = (t, .ok (self.withIndex object)) ∧
      (self.withIndex object).Recorded sub (view t) := by
  obtain ⟨t, ht, hview⟩ := run_ensureIndex law self style hobject s
  have hsystem : (self.withIndex object).system_global = self.system_global := by
    rw [system_global, system_global, withIndex_name]
  by_cases hexists : self.index_exists object = true
  · rw [if_pos hexists] at hview
    have hdefined := (defined_withIndex self object).trans (if_pos hexists)
    refine ⟨t, ht, ?_, fun k => ?_, ?_⟩
    · rw [hsystem, hview]
      exact hs.objects
    · rw [hsystem, hview, hdefined]
      exact hs.definitions k
    · rw [hdefined]
      exact hs.names
  · rw [if_neg hexists] at hview
    have hdefined := (defined_withIndex self object).trans (if_neg hexists)
    refine ⟨t, ht, ?_, fun k => ?_, ?_⟩
    · rw [hsystem, hview]
      exact hs.objects
    · rw [hsystem, hview, hdefined, child_addNodes, hs.definitions]
      simp only [List.mem_append, or_and_right, exists_or]
    · rw [hdefined]
      exact fun f hf => (List.mem_append.mp hf).elim (hs.names f) (hobject f)

theorem run_ensureAll {self : Collection} {calls : List (Style × Props)}
    (hcalls : ∀ call ∈ calls, ∀ f ∈ keys call.2, f ≠ []) {s : σ} (hs : self.Recorded sub (view s)) :
    ∃ t, run b (self.ensureAll calls) s = (t, .ok ((calls.map Prod.snd).foldl withIndex self)) ∧
      ((calls.map Prod.snd).foldl withIndex self).Recorded sub (view t) := by
  induction calls generalizing self s with
  | nil => exact ⟨s, rfl, hs⟩
  | cons call calls ih =>
    obtain ⟨t, ht, hrecorded⟩ :=
      recorded_ensureIndex law call.1 (hcalls call List.mem_cons_self) hs
    obtain ⟨u, hu, hlast⟩ := ih (fun c hc => hcalls c (List.mem_cons_of_mem call hc)) hrecorded
    refine ⟨u, ?_, hlast⟩
    rw [ensureAll, run_bind_ok ht]
    exact hu

theorem run_new (start : Starting b view sub) {c : Collection} {s : σ} (hs : c.Recorded sub (view s)) :
    ∃ n d, (∀ fuel, n < fuel → run b (new c.name fuel) s = (s, .ok d)) ∧ d.name = c.name ∧
      d.SingleField ∧ ∀ f, f ∈ d.fields ↔ f ∈ c.defined := by
  obtain ⟨ids, hwalk, hlists⟩ :=
    exists_walk_first law start s c.system_global [.str (js "index")] hs.objects
  have hmem : ∀ k, k ∈ ids.map sub ↔ ∃ f ∈ c.defined, k = sub (.str f) := by
    intro k
    rw [hlists.mem]
    exact hs.definitions k
  -- the text of a subscript is the field that it names
  have hfield : ∀ id ∈ ids, ∀ f, sub id = sub (.str f) → id.toText = f := by
    intro id hid f hf
    obtain ⟨ref, href⟩ := hwalk.exists_order hid
    have htext := start.order_text s ref
    rw [href] at htext
    exact law.sub_str _ _ (htext.trans hf)
  have htexts : ∀ f, f ∈ ids.map Json.toText ↔ f ∈ c.defined := by
    intro f
    rw [List.mem_map]
    constructor
    · rintro ⟨id, hid, rfl⟩
      obtain ⟨f, hf, hsub⟩ := (hmem _).mp (List.mem_map_of_mem hid)
      rwa [hfield id hid f hsub]
    · intro hf
      obtain ⟨id, hid, hsub⟩ := List.mem_map.mp ((hmem _).mpr ⟨f, hf, rfl⟩)
      exact ⟨id, hid, hfield id hid f hsub⟩
  refine ⟨ids.length, ⟨c.name, ids.map fun id => [(id.toText, .ofInt 1)]⟩, fun fuel hfuel => ?_, rfl,
    fun index hindex => ?_, fun f => ?_⟩
  · rw [new, load_indexes]
    exact run_bind_ok (hwalk.run_order_ids law hfuel) _
  · obtain ⟨id, hid, rfl⟩ := List.mem_map.mp hindex
    exact ⟨_, _, rfl, hs.names _ ((htexts _).mp (List.mem_map_of_mem hid))⟩
  · rw [← htexts, fields, List.filterMap_map]
    have hkey : (index_key ∘ fun id : Json => [(id.toText, .ofInt 1)]) = fun id => some id.toText := rfl
    rw [hkey, List.filterMap_eq_map']

end

end

end Collection

end GlobalsJs
