import GlobalsJs.Collection.Indexes
import Mathlib.Order.CompletePartialOrder

/-!
# Names of collections

A collection owns three globals, two of them named after it. Names that end like these
are left out when collections are made from the global directory, but not when a caller
names one: then what one collection does happens to the other.
-/

namespace GlobalsJs
open Ecma Cache Query Calls.Prog

def COLLECTION_SYSTEM_GLOBALS_ENDSWITH : List JsString :=
  [COLLECTION_INDEX_IDENTIFIER, COLLECTION_SYSTEM_IDENTIFIER]

/-- `name.indexOf(ident, name.length-ident.length)` finds a suffix only. -/
def Collection.non_system_global (name : JsString) : Bool :=
  COLLECTION_SYSTEM_GLOBALS_ENDSWITH.all fun ident => !ident.isSuffixOf name

/-- The names of the collections of a connection, which are also its properties. -/
structure Db where
  collection_names : List JsString

namespace Db

/-- The test reads the property that is called `collectionName`. -/
def createCollection (self : Db) (collectionName : JsString) : Db :=
  if js "collectionName" ∈ self.collection_names then self
  else ⟨self.collection_names ++ [collectionName]⟩

/-- The test reads the property that is called `name`. -/
def init_collections (options_collections global_directory : List JsString) : Db :=
  global_directory.foldl (fun self name =>
    if js "name" ∉ self.collection_names ∧ Collection.non_system_global name then
      ⟨self.collection_names ++ [name]⟩ else self) ⟨options_collections⟩

end Db

namespace Collection

def globals (name : JsString) : Set JsString :=
  {name, name ++ COLLECTION_INDEX_IDENTIFIER, name ++ COLLECTION_SYSTEM_IDENTIFIER}

/-- Neither name is the other with an ending of the auxiliary globals. -/
def NamesApart (c d : JsString) : Prop :=
  ∀ ident ∈ COLLECTION_SYSTEM_GLOBALS_ENDSWITH, c ≠ d ++ ident ∧ d ≠ c ++ ident

theorem disjoint_globals_iff {c d : JsString} (hne : c ≠ d) :
    Disjoint (globals c) (globals d) ↔ NamesApart c d := by
  have hends : ∀ s t : JsString,
      s ++ COLLECTION_INDEX_IDENTIFIER ≠ t ++ COLLECTION_SYSTEM_IDENTIFIER := by
    intro s t h
    have hlen : COLLECTION_INDEX_IDENTIFIER.length = COLLECTION_SYSTEM_IDENTIFIER.length := by decide
    have hident : COLLECTION_INDEX_IDENTIFIER ≠ COLLECTION_SYSTEM_IDENTIFIER := by decide
    exact hident (List.append_inj' h hlen).2
  have hends' : ∀ s t : JsString,
      s ++ COLLECTION_SYSTEM_IDENTIFIER ≠ t ++ COLLECTION_INDEX_IDENTIFIER := fun s t h => hends t s h.symm
  have hsame : ∀ ident, c ++ ident ≠ d ++ ident := fun ident h => hne (List.append_cancel_right h)
  simp only [globals, Set.disjoint_insert_left, Set.disjoint_singleton_left, Set.mem_insert_iff,
    Set.mem_singleton_iff, NamesApart, COLLECTION_SYSTEM_GLOBALS_ENDSWITH, List.forall_mem_cons,
    hsame, hends, hends', hne, List.not_mem_nil, false_imp_iff, implies_true, false_or, or_false,
    and_true, not_or]
  constructor
  · intro ⟨⟨hindex, hsystem⟩, hindex', hsystem'⟩
    exact ⟨⟨hindex, fun h => hindex' h.symm⟩, hsystem, fun h => hsystem' h.symm⟩
  · intro ⟨⟨hindex, hindex'⟩, hsystem, hsystem'⟩
    exact ⟨⟨hindex, hsystem⟩, fun h => hindex' h.symm, fun h => hsystem' h.symm⟩

theorem namesApart_of_non_system {c d : JsString} (hc : non_system_global c = true)
    (hd : non_system_global d = true) : NamesApart c d := by
  simp only [non_system_global, List.all_eq_true, Bool.not_eq_true', List.isSuffixOf_iff_suffix,
    Bool.eq_false_iff, ne_eq] at hc hd
  intro ident hident
  constructor
  · rintro rfl
    exact hc ident hident (List.suffix_append d ident)
  · rintro rfl
    exact hd ident hident (List.suffix_append c ident)

/-- Collections that are made from the global directory are separate. -/
theorem directory_names_apart {directory : List JsString} {c d : JsString}
    (hc : c ∈ (Db.init_collections [] directory).collection_names)
    (hd : d ∈ (Db.init_collections [] directory).collection_names) : NamesApart c d := by
  have hnames : ∀ name ∈ (Db.init_collections [] directory).collection_names,
      non_system_global name = true := by
    clear hc hd
    unfold Db.init_collections
    induction directory using List.reverseRecOn with
    | nil => simp
    | append_singleton directory last ih =>
      intro name hname
      rw [List.foldl_concat] at hname
      split_ifs at hname with hlast
      · rcases List.mem_append.mp hname with hname | hname
        · exact ih name hname
        · rw [List.mem_singleton.mp hname]
          exact hlast.2
      · exact ih name hname
  exact namesApart_of_non_system (hnames c hc) (hnames d hd)

def Owned (name : JsString) (c : Call) : Prop := ∀ g, c.global = some g → g ∈ globals name

def Uses (name : JsString) (c : Call) : Prop := c ≠ .close ∧ Owned name c

section
variable (self : Collection)

theorem uses_of_global {c : Call} {g : JsString} (hc : c.global = some g) (hg : g ∈ globals self.name) :
    Uses self.name c := by
  refine ⟨fun hclose => ?_, fun g' hg' => ?_⟩
  · rw [hclose] at hc
    cases hc
  · rwa [← Option.some.inj (hc.symm.trans hg')]

theorem uses_data {c : Call} (hc : c.global = some self.name) : Uses self.name c :=
  uses_of_global self hc (.inl rfl)

theorem uses_index {c : Call} (hc : c.global = some self.index_global) : Uses self.name c :=
  uses_of_global self hc (.inr (.inl rfl))

theorem uses_system {c : Call} (hc : c.global = some self.system_global) : Uses self.name c :=
  uses_of_global self hc (.inr (.inr rfl))

theorem uses_callBack (error result : Option Json) : Only (Uses self.name) (callBack error result) :=
  only_callBack (fun _ _ => ⟨by simp, fun g hg => by cases hg⟩) error result

theorem uses_callback (style : Style) (error result : Option Json) :
    Only (Uses self.name) (callback style error result) := by
  cases style with
  | sync => exact .pure _
  | async => exact uses_callBack self error result

theorem uses_update_index (operation : IndexOperation) (obj : Option Json) :
    Only (Uses self.name) (self.update_index operation obj) := by
  refine only_update_index self (fun subs => ?_) (fun _ _ => uses_system self rfl) obj
  cases operation <;> exact uses_index self rfl

theorem uses_add (object : Option Json) : Only (Uses self.name) (self.add object) :=
  only_add self (uses_data self rfl) (fun _ _ => uses_data self rfl) (fun _ _ => uses_index self rfl) object

theorem uses_add_async (object : Option Json) : Only (Uses self.name) (self.add_async object) := by
  refine (only_next_id self (uses_data self rfl)).bind fun id => (Only.lift _).bind fun stored => ?_
  refine (Only.lift _).bind fun key => .call (uses_data self rfl) fun r => ?_
  exact (uses_update_index self _ _).bind fun _ => (uses_callBack self _ _).bind fun _ => .pure _

theorem uses_save (object : Option Json) : Only (Uses self.name) (self.save object) := by
  unfold save
  dsimp only
  split_ifs
  · exact .pure _
  refine (Only.lift _).bind fun id => ?_
  cases id with
  | none => exact uses_add self _
  | some id =>
    refine .call (uses_data self rfl) fun r => ?_
    change Only (Uses self.name) (if isZeroStatus r.result then _ else _)
    split_ifs
    · exact (uses_update_index self _ _).bind fun _ => .pure _
    · exact .pure _

theorem uses_save_async (object : Option Json) : Only (Uses self.name) (self.save_async object) := by
  unfold save_async
  dsimp only
  split_ifs
  on_goal 1 => refine (uses_callBack self _ _).bind fun _ => ?_
  all_goals
    refine (Only.lift _).bind fun id => ?_
    cases id with
    | none => exact uses_add_async self _
    | some id =>
      refine .call (uses_data self rfl) fun r => ?_
      exact (uses_update_index self _ _).bind fun _ => (uses_callBack self _ _).bind fun _ => .pure _

theorem uses_remove (object : Option Json) : Only (Uses self.name) (self.remove object) := by
  unfold remove
  dsimp only
  split_ifs
  · exact (Only.call (uses_data self rfl) fun _ => .pure _).bind fun _ => .pure _
  refine only_fetch self _ fun id => .call (uses_data self rfl) fun r => ?_
  refine (Only.lift _).bind fun ok => ?_
  cases ok with
  | true => exact (uses_update_index self _ _).bind fun _ => .pure _
  | false => exact .pure _

theorem uses_remove_async (object : Option Json) :
    Only (Uses self.name) (self.remove_async object) := by
  unfold remove_async
  dsimp only
  split_ifs
  · exact only_async (uses_data self rfl) fun _ => uses_callBack self _ _
  refine only_fetch self _ fun id => only_async (uses_data self rfl) fun _ => ?_
  exact only_async (uses_system self rfl) fun _ => only_async (uses_index self rfl) fun _ =>
    uses_callBack self _ _

end

inductive Access
  | save (style : Style) (object : Option Json)
  | remove (style : Style) (object : Option Json)
  | ensureIndex (style : Style) (object : Props)

def access (self : Collection) : Access → Prog Collection
  | .save .sync object => do let _ ← self.save object; return self
  | .save .async object => do let _ ← self.save_async object; return self
  | .remove .sync object => do let _ ← self.remove object; return self
  | .remove .async object => do self.remove_async object; return self
  | .ensureIndex style object => self.ensureIndex style object

/-- A call that ends with an exception leaves the list of the indexes as it is. -/
def afterAccess {σ : Type} (b : Binding σ) : Collection → List Access → σ → σ
  | _, [], s => s
  | self, a :: accesses, s =>
    match run b (self.access a) s with
    | (t, .ok self) => afterAccess b self accesses t
    | (t, .error _) => afterAccess b self accesses t

theorem access_uses (self : Collection) (a : Access) : ∃ (α : Type) (p : Prog α) (c : Collection),
    self.access a = (do let _ ← p; return c) ∧ c.name = self.name ∧ Only (Uses self.name) p := by
  cases a with
  | save style object =>
    cases style with
    | sync => exact ⟨_, _, self, rfl, rfl, uses_save self object⟩
    | async => exact ⟨_, _, self, rfl, rfl, uses_save_async self object⟩
  | remove style object =>
    cases style with
    | sync => exact ⟨_, _, self, rfl, rfl, uses_remove self object⟩
    | async => exact ⟨_, _, self, rfl, rfl, uses_remove_async self object⟩
  | ensureIndex style object =>
    rw [access, ensureIndex]
    split_ifs
    · exact ⟨_, _, _, rfl, rfl, uses_callback self style _ _⟩
    · refine ⟨_, (do
        (keys object).forM fun indexField => do
          let _ ← (Call.set (self.system_glo_ref [some (.str (js "index")), some (.str indexField)])
            (.str [])).sync
        callback style (some (.obj [])) (some (.obj []))), { self with indexes := self.indexes ++ [object] },
        (bind_assoc _ _ _).symm, rfl, ?_⟩
      refine Only.bind (.forM fun f _ => ?_) fun _ => uses_callback self style _ _
      exact only_sync (uses_system self rfl) fun _ => .pure _

variable {σ κ : Type} {b : Binding σ} {view : σ → Globals κ}

theorem afterAccess_same (hlocal : Local b view) {name : JsString} (self : Collection)
    (hname : name ∉ globals self.name) (accesses : List Access) (s : σ) :
    (view (afterAccess b self accesses s)).SameAt (view s) name := by
  induction accesses generalizing self s with
  | nil => exact .refl _ name
  | cons a accesses ih =>
    obtain ⟨α, p, c, haccess, hc, honly⟩ := access_uses self a
    have hsame : (view (run b p s).1).SameAt (view s) name := by
      refine honly.keeps (I := fun t => (view t).SameAt (view s) name) (fun c hc t ht => ?_) (.refl _ name)
      exact (hlocal c t name fun hglobal => hname (hc.2 name hglobal)).trans ht
    unfold afterAccess
    rw [haccess, run_bind]
    cases hp : run b p s with
    | mk t result =>
      rw [hp] at hsame
      cases result with
      | ok x => exact (ih c (hc ▸ hname) t).trans hsame
      | error e => exact (ih self hname t).trans hsame

theorem afterAccess_singleton (self : Collection) (a : Access) (s : σ) :
    afterAccess b self [a] s = (run b (self.access a) s).1 := by
  rw [afterAccess]
  cases run b (self.access a) s with
  | mk t result => cases result <;> rfl

/-- Both databases have the same objects, index entries and index definitions of a collection. -/
def SameContents (g h : Globals κ) (name : JsString) : Prop :=
  g.object name = h.object name ∧ g.node name = h.node name ∧
    ∀ ident ∈ COLLECTION_SYSTEM_GLOBALS_ENDSWITH, g.node (name ++ ident) = h.node (name ++ ident)

theorem sameContents_of_same {g h : Globals κ} {name : JsString}
    (hsame : ∀ n ∈ globals name, g.SameAt h n) : SameContents g h name := by
  obtain ⟨-, hobject, hnode⟩ := hsame name (.inl rfl)
  refine ⟨hobject, hnode, fun ident hident => ?_⟩
  simp only [COLLECTION_SYSTEM_GLOBALS_ENDSWITH, List.mem_cons, List.not_mem_nil, or_false] at hident
  rcases hident with rfl | rfl
  · exact (hsame _ (.inr (.inl rfl))).2.2
  · exact (hsame _ (.inr (.inr rfl))).2.2

variable {sub : Json → κ} [LinearOrder κ]

def named : Props := [(idKey, .ofInt 1)]

theorem removal_clears (law : Lawful b view sub) (c : JsString) {ident : JsString}
    (hident : ident ∈ COLLECTION_SYSTEM_GLOBALS_ENDSWITH) (s : σ) (k : κ) :
    (view (afterAccess b ⟨c, []⟩ [.remove .async (some (.obj named))] s)).object (c ++ ident) k = none := by
  have hget : get named idKey = some (.ofInt 1) := rfl
  obtain ⟨t, ht, hview⟩ := run_remove_async law ⟨c, []⟩ (scalar_ofInt 1) hget s
  rw [afterAccess_singleton, access, run_bind_ok ht, run_pure, hview]
  simp only [COLLECTION_SYSTEM_GLOBALS_ENDSWITH, List.mem_cons, List.not_mem_nil, or_false] at hident
  rcases hident with rfl | rfl
  · simp [Globals.kill, index_global]
  · simp [Globals.kill, system_global]

theorem drop_clears (law : Lawful b view sub) (c : JsString) (s : σ) (p : List κ) :
    ¬ (view (afterAccess b ⟨c, []⟩ [.remove .sync none] s)).node c p := by
  obtain ⟨t, ht, hview⟩ := run_remove_all law ⟨c, []⟩ s
  rw [afterAccess_singleton, access, run_bind_ok ht, run_pure, hview]
  simp [Globals.kill]

/-- Two collections are separate, in all runs on the first one, exactly when neither is named
like an auxiliary global of the other; and only then are their globals disjoint. -/
theorem collections_separate_iff (law : Lawful b view sub) (hlocal : Local b view) (s : σ)
    {c d : JsString} (hne : c ≠ d) :
    ((∀ self : Collection, self.name = c → ∀ accesses t,
      SameContents (view (afterAccess b self accesses t)) (view t) d) ↔ NamesApart c d) ∧
      (Disjoint (globals c) (globals d) ↔ NamesApart c d) := by
  refine ⟨⟨fun hsame ident hident => ⟨?_, ?_⟩, fun hnames => ?_⟩, disjoint_globals_iff hne⟩
  · rintro rfl
    -- a node among the entries or definitions of `d`
    let t := (b (.set ⟨d ++ ident, [Json.str (js "x")].map some⟩ (.str [])) s).1
    have ht : (view t).node (d ++ ident) [sub (.str (js "x"))] := by
      have hscalar : js "x" ≠ [] := by decide
      rw [law.set s _ _ _ (by simpa [Scalar] using hscalar)]
      exact .inr ⟨rfl, rfl⟩
    have hgone := (hsame ⟨d ++ ident, []⟩ rfl [.remove .sync none] t).2.2 ident hident
    rw [← hgone] at ht
    exact drop_clears law _ t _ ht
  · rintro rfl
    -- an object of `d`
    let t := (b (.update ⟨c ++ ident, [some (.ofInt 1)]⟩ (.obj [])) s).1
    have ht : (view t).object (c ++ ident) (sub (.ofInt 1)) = some [] := by
      rw [law.update s _ _ _ (scalar_ofInt 1)]
      simp [Globals.update]
    have hgone := (hsame ⟨c, []⟩ rfl [.remove .async (some (.obj named))] t).1
    rw [← hgone, removal_clears law c hident] at ht
    cases ht
  · rintro self rfl accesses t
    refine sameContents_of_same fun n hn => afterAccess_same hlocal self ?_ accesses t
    exact fun hmem => Set.disjoint_left.mp ((disjoint_globals_iff hne).mpr hnames) hmem hn

theorem collections_separate_foo :
    ((∀ self : Collection, self.name = js "foo" → ∀ accesses t,
      SameContents (Disk.view (afterAccess Disk.binding self accesses t)) (Disk.view t) (js "bar")) ↔
        NamesApart (js "foo") (js "bar")) ∧
      (Disjoint (globals (js "foo")) (globals (js "bar")) ↔ NamesApart (js "foo") (js "bar")) :=
  collections_separate_iff Disk.lawful Disk.isLocal Disk.empty (by decide)

/-- Both names are accepted, and a removal in one collection takes all objects of the other. -/
theorem removal_clears_other :
    let db := ((Db.mk []).createCollection (js "foo")).createCollection (js "foo1gdb")
    let s := (run Disk.binding (access ⟨js "foo1gdb", []⟩ (.save .sync (some (.obj (ann 30))))) Disk.empty).1
    js "foo" ∈ db.collection_names ∧ js "foo1gdb" ∈ db.collection_names ∧
      ¬ Disjoint (globals (js "foo")) (globals (js "foo1gdb")) ∧
      s.view.object (js "foo1gdb") (.of (.ofInt 1)) = some (stored (ann 30) 1) ∧
      ∀ k, (afterAccess Disk.binding ⟨js "foo", []⟩ [.remove .async (some (.obj named))] s).view.object
        (js "foo1gdb") k = none := by
  refine ⟨by decide, by decide, fun hdisjoint => ?_, rfl, fun k => ?_⟩
  · exact Set.disjoint_left.mp hdisjoint (.inr (.inl rfl)) (.inl rfl)
  · exact removal_clears Disk.lawful (js "foo") List.mem_cons_self _ k

end Collection

end GlobalsJs
