import GlobalsJs.Collection.Names

/-!
# The Db object as the table of its collections

A collection is kept under its name, among the fields and methods of the object. The tests
for a collection that is already there read the properties `name` and `collectionName`. A
name that is taken by a member takes the member's place, and `__proto__` that of all methods.
-/

namespace GlobalsJs
open Ecma

inductive Held
  | undefined
  | member
  | collection (name : JsString)
deriving DecidableEq

def Held.isCollection : Held → Bool
  | .collection _ => true
  | _ => false

/-- What every object and every emitter of the runtime has. -/
structure Runtime where
  objectNames : List JsString
  emitterNames : List JsString
  name_notMem : js "name" ∉ objectNames ++ emitterNames
  collectionName_notMem : js "collectionName" ∉ objectNames ++ emitterNames

/-- Beside the table, the names under which a collection was ever put. -/
structure DbObject where
  held : JsString → Held
  collection_names : List JsString
  made : List JsString

namespace DbObject

def proto : JsString := js "__proto__"

def fields : List JsString :=
  [js "collection_names", js "server", js "const_options", js "databaseName", js "cacheConnection",
    js "isRemoteConnection", js "init_remote_connection", js "init_collections", js "recordQueryStats",
    js "cleanup", js "remote_client", js "process_options"]

def methods : List JsString :=
  [js "collections", js "global_directory", js "createCollection", js "close", js "connect",
    js "namespace", js "function"]

def collectionMembers : List JsString :=
  [js "name", js "db", js "indexes", js "filter_results", js "first_object", js "fetch_glo_ref_from_object",
    js "convert_object_list_to_array", js "load_indexes", js "update_index", js "start_query_stats",
    js "stop_query_stats", js "build_index_glo_ref_from_query", js "spin_find", js "spin_find_index",
    js "drop_collection", js "index_glo_ref", js "system_glo_ref", js "index_operation", js "count",
    js "findOne", js "find", js "add", js "save", js "remove", js "ensureSQL", js "ensureIndex",
    js "reIndex", js "dropIndex"]

variable (runtime : Runtime)

def members : List JsString :=
  fields ++ methods ++ proto :: (runtime.objectNames ++ runtime.emitterNames)

def new : DbObject where
  held name := if name ∈ members runtime then .member else .undefined
  collection_names := []
  made := []

def replaced (self : DbObject) (name : JsString) : Bool := (self.held name).isCollection

/-- `self[name] = collection`. Of the inherited members, `__proto__` leaves what the collection
has. -/
def assign (self : DbObject) (name : JsString) : DbObject :=
  { self with
    held := fun n =>
      if name = proto then
        if n = proto then .collection proto
        else if n ∈ fields ∨ n ∈ self.made then self.held n
        else if n ∈ collectionMembers ∨ n ∈ runtime.objectNames then .member
        else .undefined
      else if n = name then .collection name
      else self.held n
    made := self.made ++ [name] }

abbrev Step := DbObject → DbObject × Except JsError Unit

def andThen (p q : Step) : Step := fun self =>
  match p self with
  | (self, .ok _) => q self
  | (self, .error e) => (self, .error e)

def attempt {α : Type} (p : DbObject → DbObject × Except JsError α) : Step := fun self => ((p self).1, .ok ())

def forEach (f : JsString → Step) : List JsString → Step
  | [] => fun self => (self, .ok ())
  | name :: names => andThen (f name) (forEach f names)

/-- `self[name] = new Collection(name,self)`: the indexes are read over the connection, unless it
is taken to be remote. -/
def makeCollection (name : JsString) : Step := fun self =>
  if self.replaced (js "cacheConnection") ∧ ¬ self.replaced (js "isRemoteConnection") then
    (self, .error .typeError)
  else (self.assign runtime name, .ok ())

def pushName (name : JsString) : Step := fun self =>
  if self.replaced (js "collection_names") then (self, .error .typeError)
  else ({ self with collection_names := self.collection_names ++ [name] }, .ok ())

def useConnection : Step := fun self =>
  if self.replaced (js "isRemoteConnection") ∨ self.replaced (js "cacheConnection") then
    (self, .error .typeError)
  else (self, .ok ())

/-- A name of the directory, unless there is a property `name`. -/
def enterGlobal (name : JsString) : Step := fun self =>
  if self.held (js "name") = .undefined then
    if Collection.non_system_global name then andThen (makeCollection runtime name) (pushName name) self
    else (self, .ok ())
  else (self, .ok ())

def init_collections (collections : Option (List JsString)) (global_directory : List JsString) : Step :=
  andThen (forEach (fun name => andThen (makeCollection runtime name) (attempt (pushName name)))
    (collections.getD []))
  (andThen useConnection
  (andThen (forEach (enterGlobal runtime) global_directory) fun self =>
    -- the connection is asked whether the daemon is enabled
    if self.replaced (js "cacheConnection") then (self, .error .typeError) else (self, .ok ())))

/-- The method may be gone. It makes a collection unless there is a property `collectionName`,
and returns that property. -/
def createCollection (collectionName : JsString) (self : DbObject) : DbObject × Except JsError Held :=
  if self.held (js "createCollection") = .member then
    let made :=
      if self.held (js "collectionName") = .undefined then
        andThen (makeCollection runtime collectionName) (pushName collectionName) self
      else (self, .ok ())
    match made with
    | (self, .ok _) => (self, .ok (self.held (js "collectionName")))
    | (self, .error e) => (self, .error e)
  else (self, .error .typeError)

/-- The object after the set-up and the calls that follow, whether they throw or not. -/
def setUp (collections : Option (List JsString)) (global_directory created : List JsString) : DbObject :=
  (forEach (fun name => attempt (createCollection runtime name)) created
    (init_collections runtime collections global_directory (new runtime)).1).1

def Keeps (I : DbObject → Prop) (p : Step) : Prop := ∀ self, I self → I (p self).1

variable {I : DbObject → Prop}

theorem andThen_of {p q : Step} {self : DbObject} (hp : I (p self).1) (hq : Keeps I q) :
    I (andThen p q self).1 := by
  rw [andThen]
  cases hrun : p self with
  | mk after result =>
    rw [hrun] at hp
    cases result with
    | ok => exact hq after hp
    | error => exact hp

theorem Keeps.andThen {p q : Step} (hp : Keeps I p) (hq : Keeps I q) : Keeps I (andThen p q) :=
  fun self hself => andThen_of (hp self hself) hq

theorem Keeps.attempt {p : Step} (hp : Keeps I p) : Keeps I (attempt p) := hp

theorem Keeps.forEach {f : JsString → Step} (hf : ∀ name, Keeps I (f name)) (names : List JsString) :
    Keeps I (forEach f names) := by
  induction names with
  | nil => exact fun _ hself => hself
  | cons name names ih => exact (hf name).andThen ih

def Taken (self : DbObject) : Prop := ∃ m ∈ members runtime, m ∈ self.made ∧ self.replaced m

theorem taken_assign (name : JsString) {self : DbObject} (h : Taken runtime self) :
    Taken runtime (self.assign runtime name) := by
  obtain ⟨m, hm, hmade, hreplaced⟩ := h
  refine ⟨m, hm, List.mem_append_left _ hmade, ?_⟩
  have hown : m ∈ fields ∨ m ∈ self.made := .inr hmade
  rw [replaced, assign]
  simp only [hown, if_true]
  split_ifs
  · rfl
  · exact hreplaced
  · rfl
  · exact hreplaced

theorem keeps_makeCollection (name : JsString) : Keeps (Taken runtime) (makeCollection runtime name) := by
  intro self h
  rw [makeCollection]
  split_ifs
  · exact h
  · exact taken_assign runtime name h

theorem keeps_pushName (name : JsString) : Keeps (Taken runtime) (pushName name) := by
  intro self h
  rw [pushName]
  split_ifs
  · exact h
  · exact h

theorem keeps_useConnection : Keeps (Taken runtime) useConnection := by
  intro self h
  rw [useConnection]
  split_ifs
  · exact h
  · exact h

theorem keeps_enterGlobal (name : JsString) : Keeps (Taken runtime) (enterGlobal runtime name) := by
  intro self h
  rw [enterGlobal]
  split_ifs
  · exact (keeps_makeCollection runtime name).andThen (keeps_pushName runtime name) self h
  · exact h
  · exact h

theorem keeps_createCollection (name : JsString) :
    Keeps (Taken runtime) (attempt (createCollection runtime name)) := by
  intro self h
  have hadd : Taken runtime (andThen (makeCollection runtime name) (pushName name) self).1 :=
    (keeps_makeCollection runtime name).andThen (keeps_pushName runtime name) self h
  rw [attempt, createCollection]
  dsimp only
  split_ifs
  · cases hrun : andThen (makeCollection runtime name) (pushName name) self with
    | mk after result =>
      rw [hrun] at hadd
      cases result <;> exact hadd
  · exact h
  · exact h

def holding (names : List JsString) : DbObject where
  held n := if n ∈ names then .collection n else if n ∈ members runtime then .member else .undefined
  collection_names := names
  made := names

def Apart (names : List JsString) : Prop := ∀ n ∈ names, n ∉ members runtime

variable {runtime} {names : List JsString}

theorem holding_replaced (hnames : Apart runtime names) {m : JsString} (hm : m ∈ members runtime) :
    (holding runtime names).replaced m = false := by
  have hnot : m ∉ names := fun h => hnames m h hm
  simp [replaced, holding, hnot, hm, Held.isCollection]

theorem field_mem {m : JsString} (hm : m ∈ fields) : m ∈ members runtime :=
  List.mem_append_left _ (List.mem_append_left _ hm)

theorem proto_mem : proto ∈ members runtime := by simp [members]

theorem holding_makeCollection (hnames : Apart runtime names) (name : JsString) :
    makeCollection runtime name (holding runtime names) =
      ((holding runtime names).assign runtime name, .ok ()) := by
  rw [makeCollection, holding_replaced hnames (field_mem (by decide)), if_neg (by simp)]

theorem holding_assign {name : JsString} (hname : name ∉ members runtime) :
    (holding runtime names).assign runtime name =
      { holding runtime (names ++ [name]) with collection_names := names } := by
  have hproto : name ≠ proto := by
    rintro rfl
    exact hname proto_mem
  have hheld : ((holding runtime names).assign runtime name).held = (holding runtime (names ++ [name])).held := by
    funext n
    simp only [assign, holding, if_neg hproto, List.mem_append, List.mem_singleton]
    by_cases hn : n = name
    · simp [hn]
    · simp [hn]
  exact congrArg (fun held => (⟨held, names, names ++ [name]⟩ : DbObject)) hheld

theorem apart_add (hnames : Apart runtime names) {name : JsString} (hname : name ∉ members runtime) :
    Apart runtime (names ++ [name]) :=
  List.forall_mem_append.mpr ⟨hnames, List.forall_mem_singleton.mpr hname⟩

theorem holding_pushName (hnames : Apart runtime names) {name : JsString} (hname : name ∉ members runtime) :
    pushName name { holding runtime (names ++ [name]) with collection_names := names } =
      (holding runtime (names ++ [name]), .ok ()) := by
  have hreplaced := holding_replaced (apart_add hnames hname)
    (field_mem (show js "collection_names" ∈ fields by decide))
  rw [pushName, if_neg]
  · rfl
  · rw [Bool.not_eq_true]
    exact hreplaced

theorem holding_add (hnames : Apart runtime names) {name : JsString} (hname : name ∉ members runtime) :
    andThen (makeCollection runtime name) (pushName name) (holding runtime names) =
      (holding runtime (names ++ [name]), .ok ()) := by
  rw [andThen, holding_makeCollection hnames, holding_assign hname]
  exact holding_pushName hnames hname

theorem taken_add (hnames : Apart runtime names) {name : JsString} (hname : name ∈ members runtime) {q : Step}
    (hq : Keeps (Taken runtime) q) :
    Taken runtime (andThen (makeCollection runtime name) q (holding runtime names)).1 := by
  rw [andThen, holding_makeCollection hnames]
  refine hq _ ⟨name, hname, List.mem_append_right _ List.mem_cons_self, ?_⟩
  rw [replaced, assign]
  by_cases hproto : name = proto <;> simp [hproto, Held.isCollection]

def entered (enters : List JsString → JsString → Bool) : List JsString → List JsString → List JsString
  | _, [] => []
  | names, name :: more =>
    if enters names name then name :: entered enters (names ++ [name]) more else entered enters names more

theorem forEach_holding {f : JsString → Step} {enters : List JsString → JsString → Bool}
    (hf : ∀ name, Keeps (Taken runtime) (f name))
    (hskip : ∀ names name, Apart runtime names → enters names name = false →
      f name (holding runtime names) = (holding runtime names, .ok ()))
    (hadd : ∀ names name, Apart runtime names → enters names name = true → name ∉ members runtime →
      f name (holding runtime names) = (holding runtime (names ++ [name]), .ok ()))
    (htake : ∀ names name, Apart runtime names → enters names name = true → name ∈ members runtime →
      Taken runtime (f name (holding runtime names)).1)
    (more : List JsString) (hnames : Apart runtime names) :
    (Apart runtime (entered enters names more) →
      forEach f more (holding runtime names) = (holding runtime (names ++ entered enters names more), .ok ())) ∧
    (¬ Apart runtime (entered enters names more) → Taken runtime (forEach f more (holding runtime names)).1) := by
  induction more generalizing names with
  | nil =>
    refine ⟨fun _ => ?_, fun h => absurd (List.forall_mem_nil _) h⟩
    rw [entered, List.append_nil]
    rfl
  | cons name more ih =>
    rw [entered, forEach]
    cases henters : enters names name with
    | false =>
      rw [andThen, hskip names name hnames henters]
      exact ih hnames
    | true =>
      by_cases hname : name ∈ members runtime
      · refine ⟨fun h => absurd hname (h name List.mem_cons_self), fun _ => ?_⟩
        exact andThen_of (htake names name hnames henters hname) (Keeps.forEach hf more)
      · rw [andThen, hadd names name hnames henters hname]
        obtain ⟨hok, htaken⟩ := ih (apart_add hnames hname)
        rw [List.append_assoc, List.singleton_append] at hok
        have hcons : Apart runtime (name :: entered enters (names ++ [name]) more) ↔
            Apart runtime (entered enters (names ++ [name]) more) := by
          rw [Apart, List.forall_mem_cons, and_iff_right hname]
          rfl
        exact ⟨fun h => hok (hcons.mp h), fun h => htaken (hcons.not.mp h)⟩

def through (stop : JsString) : List JsString → List JsString
  | [] => []
  | name :: names => if name = stop then [name] else name :: through stop names

theorem entered_requested (names more : List JsString) : entered (fun _ _ => true) names more = more := by
  induction more generalizing names with
  | nil => rfl
  | cons name more ih => rw [entered, if_pos rfl, ih]

theorem entered_through (stop : JsString) (p : JsString → Bool) (names more : List JsString) :
    entered (fun names name => decide (stop ∉ names) && p name) names more =
      if stop ∈ names then [] else through stop (more.filter p) := by
  induction more generalizing names with
  | nil => simp [entered, through]
  | cons name more ih =>
    rw [entered, ih, ih]
    by_cases hstop : stop ∈ names
    · simp [hstop]
    · by_cases hp : p name = true
      · rw [List.filter_cons_of_pos hp, through]
        by_cases hname : name = stop
        · subst hname
          simp [hstop, hp]
        · simp [hstop, hp, hname, Ne.symm hname]
      · simp [hstop, hp]

theorem held_eq_undefined {name : JsString} (hname : name ∉ members runtime) :
    (holding runtime names).held name = .undefined ↔ name ∉ names := by
  rw [holding]
  dsimp only
  split_ifs with hn
  · exact iff_of_false (by simp) (not_not.mpr hn)
  · exact iff_of_true rfl hn

variable (runtime)

theorem notMem_members {name : JsString} (hfixed : name ∉ fields ++ methods ++ [proto])
    (hruntime : name ∉ runtime.objectNames ++ runtime.emitterNames) : name ∉ members runtime := by
  rw [members, List.append_cons, List.mem_append]
  exact not_or.mpr ⟨hfixed, hruntime⟩

theorem name_notMem : js "name" ∉ members runtime := notMem_members runtime (by decide) runtime.name_notMem

theorem collectionName_notMem : js "collectionName" ∉ members runtime :=
  notMem_members runtime (by decide) runtime.collectionName_notMem

variable {runtime}

theorem requested_holding (hnames : Apart runtime names) (requested : List JsString) :
    let f := fun name => andThen (makeCollection runtime name) (attempt (pushName name))
    (Apart runtime requested →
      forEach f requested (holding runtime names) = (holding runtime (names ++ requested), .ok ())) ∧
    (¬ Apart runtime requested → Taken runtime (forEach f requested (holding runtime names)).1) := by
  intro f
  have hloop := @forEach_holding runtime names f (fun _ _ => true)
    (fun name => (keeps_makeCollection runtime name).andThen (keeps_pushName runtime name).attempt)
    (fun _ _ _ h => by cases h) (fun names name hnames _ hname => by
      have hmake : makeCollection runtime name (holding runtime names) =
          ({ holding runtime (names ++ [name]) with collection_names := names }, .ok ()) := by
        rw [holding_makeCollection hnames, holding_assign hname]
      change andThen _ _ _ = _
      rw [andThen, hmake]
      exact congrArg (fun r => (Prod.fst r, Except.ok ())) (holding_pushName hnames hname))
    (fun names name hnames _ hname => taken_add hnames hname (keeps_pushName runtime name).attempt)
    requested hnames
  rwa [entered_requested] at hloop

theorem directory_holding (hnames : Apart runtime names) (directory : List JsString) :
    let new := if js "name" ∈ names then []
      else through (js "name") (directory.filter Collection.non_system_global)
    (Apart runtime new →
      forEach (enterGlobal runtime) directory (holding runtime names) =
        (holding runtime (names ++ new), .ok ())) ∧
    (¬ Apart runtime new → Taken runtime (forEach (enterGlobal runtime) directory (holding runtime names)).1) := by
  have hloop := @forEach_holding runtime names (enterGlobal runtime)
    (fun names name => decide (js "name" ∉ names) && Collection.non_system_global name)
    (keeps_enterGlobal runtime) ?_ ?_ ?_ directory hnames
  · rwa [entered_through] at hloop
  · intro names name _ henters
    rw [enterGlobal]
    simp only [held_eq_undefined (name_notMem runtime)]
    split_ifs with hname hsystem
    · rfl
    · simp [hname, hsystem] at henters
    · rfl
  · intro names name hnames henters hname
    rw [Bool.and_eq_true, decide_eq_true_eq] at henters
    rw [enterGlobal, if_pos ((held_eq_undefined (name_notMem runtime)).mpr henters.1), if_pos henters.2]
    exact holding_add hnames hname
  · intro names name hnames henters hname
    rw [Bool.and_eq_true, decide_eq_true_eq] at henters
    rw [enterGlobal, if_pos ((held_eq_undefined (name_notMem runtime)).mpr henters.1), if_pos henters.2]
    exact taken_add hnames hname (keeps_pushName runtime name)

theorem created_holding (hnames : Apart runtime names) (created : List JsString) :
    let new := if js "collectionName" ∈ names then [] else through (js "collectionName") created
    let f := fun name => attempt (createCollection runtime name)
    (Apart runtime new →
      forEach f created (holding runtime names) = (holding runtime (names ++ new), .ok ())) ∧
    (¬ Apart runtime new → Taken runtime (forEach f created (holding runtime names)).1) := by
  intro new f
  have hmethod : ∀ names, Apart runtime names → (holding runtime names).held (js "createCollection") = .member := by
    intro names hnames
    have hm : js "createCollection" ∈ members runtime :=
      List.mem_append_left _ (List.mem_append_right _ (by decide))
    have hnot : js "createCollection" ∉ names := fun h => hnames _ h hm
    rw [holding]
    dsimp only
    rw [if_neg hnot, if_pos hm]
  have hloop := @forEach_holding runtime names f (fun names _ => decide (js "collectionName" ∉ names) && true)
    (keeps_createCollection runtime) ?_ ?_ ?_ created hnames
  · rw [entered_through] at hloop
    rwa [List.filter_true] at hloop
  · intro names name hnames henters
    change attempt _ _ = _
    rw [Bool.and_true, decide_eq_false_iff_not] at henters
    rw [attempt, createCollection, if_pos (hmethod names hnames),
      if_neg ((held_eq_undefined (collectionName_notMem runtime)).not.mpr henters)]
  · intro names name hnames henters hname
    change attempt _ _ = _
    rw [Bool.and_true, decide_eq_true_eq] at henters
    rw [attempt, createCollection, if_pos (hmethod names hnames),
      if_pos ((held_eq_undefined (collectionName_notMem runtime)).mpr henters), holding_add hnames hname]
  · intro names name hnames henters hname
    change Taken runtime (attempt _ _).1
    rw [Bool.and_true, decide_eq_true_eq] at henters
    have htaken := taken_add hnames hname (keeps_pushName runtime name)
    rw [attempt, createCollection, if_pos (hmethod names hnames),
      if_pos ((held_eq_undefined (collectionName_notMem runtime)).mpr henters)]
    dsimp only
    cases hrun : andThen (makeCollection runtime name) (pushName name) (holding runtime names) with
    | mk after result =>
      rw [hrun] at htaken
      cases result <;> exact htaken

def processed (requested directory created : List JsString) : List JsString :=
  let globals := requested ++ if js "name" ∈ requested then []
    else through (js "name") (directory.filter Collection.non_system_global)
  globals ++ if js "collectionName" ∈ globals then [] else through (js "collectionName") created

theorem apart_append {more : List JsString} :
    Apart runtime (names ++ more) ↔ Apart runtime names ∧ Apart runtime more := List.forall_mem_append

theorem init_cases (collections : Option (List JsString)) (directory : List JsString) :
    let requested := collections.getD []
    let globals := requested ++ if js "name" ∈ requested then []
      else through (js "name") (directory.filter Collection.non_system_global)
    (Apart runtime globals →
      init_collections runtime collections directory (new runtime) = (holding runtime globals, .ok ())) ∧
    (¬ Apart runtime globals →
      Taken runtime (init_collections runtime collections directory (new runtime)).1) := by
  intro requested globals
  have hnew : new runtime = holding runtime [] := by simp [new, holding]
  have hconnection : ∀ names, Apart runtime names →
      (holding runtime names).replaced (js "cacheConnection") = false := fun _ hnames =>
    holding_replaced hnames (field_mem (by decide))
  have hremote : ∀ names, Apart runtime names →
      (holding runtime names).replaced (js "isRemoteConnection") = false := fun _ hnames =>
    holding_replaced hnames (field_mem (by decide))
  have hlast : Keeps (Taken runtime) fun self =>
      if self.replaced (js "cacheConnection") then (self, .error .typeError) else (self, .ok ()) := by
    intro self h
    dsimp only
    split_ifs
    · exact h
    · exact h
  have hafter := (Keeps.forEach (keeps_enterGlobal runtime) directory).andThen hlast
  obtain ⟨hrequested, hrequested'⟩ := requested_holding (List.forall_mem_nil _ : Apart runtime []) requested
  rw [init_collections, hnew]
  by_cases hr : Apart runtime requested
  · obtain ⟨hdirectory, hdirectory'⟩ := directory_holding hr directory
    rw [andThen, hrequested hr, List.nil_append]
    dsimp only
    rw [andThen, useConnection, hconnection _ hr, hremote _ hr, if_neg (by simp)]
    dsimp only
    rw [show Apart runtime globals ↔ _ from apart_append]
    refine ⟨fun h => ?_, fun h => andThen_of (hdirectory' fun hd => h ⟨hr, hd⟩) hlast⟩
    rw [andThen, hdirectory h.2]
    dsimp only
    rw [hconnection _ (apart_append.mpr h), if_neg (by simp)]
  · refine ⟨fun h => absurd (apart_append.mp h).1 hr, fun _ => ?_⟩
    exact andThen_of (hrequested' hr) ((keeps_useConnection runtime).andThen hafter)

theorem setUp_cases (collections : Option (List JsString)) (directory created : List JsString) :
    let names := processed (collections.getD []) directory created
    (Apart runtime names → setUp runtime collections directory created = holding runtime names) ∧
      (¬ Apart runtime names → Taken runtime (setUp runtime collections directory created)) := by
  intro names
  obtain ⟨hinit, hinit'⟩ := @init_cases runtime collections directory
  rw [setUp, show Apart runtime names ↔ _ from apart_append]
  constructor
  · intro ⟨hglobals, hcreated⟩
    rw [hinit hglobals, (created_holding hglobals created).1 hcreated]
    rfl
  · intro h
    by_cases hglobals : Apart runtime (collections.getD [] ++ if js "name" ∈ collections.getD [] then []
        else through (js "name") (directory.filter Collection.non_system_global))
    · rw [hinit hglobals]
      exact (created_holding hglobals created).2 fun hcreated => h ⟨hglobals, hcreated⟩
    · exact Keeps.forEach (keeps_createCollection runtime) created _ (hinit' hglobals)

theorem foldl_entered (enters : List JsString → JsString → Bool) (names more : List JsString) :
    more.foldl (fun (self : Db) name =>
      if enters self.collection_names name then ⟨self.collection_names ++ [name]⟩ else self) ⟨names⟩ =
        ⟨names ++ entered enters names more⟩ := by
  induction more generalizing names with
  | nil => rw [entered, List.append_nil]; rfl
  | cons name more ih =>
    rw [List.foldl_cons, entered]
    dsimp only
    split_ifs
    · rw [ih, List.append_assoc, List.singleton_append]
    · exact ih names

/-- As long as no member is replaced, what is entered is a matter of the names alone. -/
theorem setUp_names {collections : Option (List JsString)} {directory created : List JsString}
    (h : Apart runtime (processed (collections.getD []) directory created)) :
    (setUp runtime collections directory created).collection_names =
      (created.foldl Db.createCollection
        (Db.init_collections (collections.getD []) directory)).collection_names := by
  have hinit : Db.init_collections (collections.getD []) directory = ⟨collections.getD [] ++
      if js "name" ∈ collections.getD [] then []
      else through (js "name") (directory.filter Collection.non_system_global)⟩ := by
    rw [← entered_through, ← foldl_entered, Db.init_collections]
    simp
  have hcreate : Db.createCollection = fun (self : Db) name =>
      if (decide (js "collectionName" ∉ self.collection_names) && true) = true then
        ⟨self.collection_names ++ [name]⟩ else self := by
    funext self name
    rw [Db.createCollection]
    by_cases hname : js "collectionName" ∈ self.collection_names <;> simp [hname]
  rw [(setUp_cases collections directory created).1 h, hinit, hcreate,
    foldl_entered (fun names _ => decide (js "collectionName" ∉ names) && true), entered_through, List.filter_true]
  rfl

def Listed (directory : List JsString) (name : JsString) : Prop :=
  name ∈ directory ∧ ∀ ident ∈ COLLECTION_SYSTEM_GLOBALS_ENDSWITH, ¬ ident <:+ name

variable (runtime)

/-- The table holds the collections that it is to hold, each of them made once, and no member of
the object has been replaced. -/
structure Right (requested directory created : List JsString) (db : DbObject) : Prop where
  names_nodup : db.collection_names.Nodup
  mapped : ∀ n, n ∈ requested ∨ n ∈ created ∨ Listed directory n →
    db.held n = .collection n ∧ db.made.count n = 1
  others : ∀ n, db.replaced n → n ∈ requested ∨ n ∈ created ∨ Listed directory n
  kept : ∀ m ∈ members runtime, ¬ db.replaced m

/-- The names that are entered differ from each other and from the members, and are all there are. -/
structure Undisturbed (requested directory created : List JsString) : Prop where
  nodup : (processed requested directory created).Nodup
  apart : Apart runtime (processed requested directory created)
  listed : ∀ n, Listed directory n → n ∈ processed requested directory created
  later : ∀ n ∈ created, n ∈ processed requested directory created

variable {runtime}

theorem listed_iff {directory : List JsString} {name : JsString} :
    Listed directory name ↔ name ∈ directory.filter Collection.non_system_global := by
  simp only [Listed, Collection.non_system_global, List.mem_filter, List.all_eq_true, Bool.not_eq_true',
    Bool.eq_false_iff, ne_eq, List.isSuffixOf_iff_suffix]

theorem through_subset (stop : JsString) (names : List JsString) : through stop names ⊆ names := by
  induction names with
  | nil => exact List.Subset.refl _
  | cons name names ih =>
    rw [through]
    split_ifs
    · exact List.cons_subset_cons _ (List.nil_subset _)
    · exact List.cons_subset_cons _ ih

theorem mem_processed {requested directory created : List JsString} {n : JsString}
    (h : n ∈ processed requested directory created) : n ∈ requested ∨ n ∈ created ∨ Listed directory n := by
  have hdirectory : ∀ {names : List JsString}, n ∈ (if js "name" ∈ names then []
      else through (js "name") (directory.filter Collection.non_system_global)) → Listed directory n := by
    intro names hn
    split_ifs at hn
    · cases hn
    · exact listed_iff.mpr (through_subset _ _ hn)
  have hcreated : ∀ {names : List JsString}, n ∈ (if js "collectionName" ∈ names then []
      else through (js "collectionName") created) → n ∈ created := by
    intro names hn
    split_ifs at hn
    · cases hn
    · exact through_subset _ _ hn
  rw [processed, List.mem_append, List.mem_append] at h
  rcases h with (h | h) | h
  · exact .inl h
  · exact .inr (.inr (hdirectory h))
  · exact .inr (.inl (hcreated h))

theorem requested_subset (requested directory created : List JsString) :
    requested ⊆ processed requested directory created := fun _ hn =>
  List.mem_append_left _ (List.mem_append_left _ hn)

theorem holding_replaced_iff {n : JsString} : (holding runtime names).replaced n = true ↔ n ∈ names := by
  rw [replaced, holding]
  dsimp only
  split_ifs with hn hm
  · exact iff_of_true rfl hn
  · exact iff_of_false (by simp [Held.isCollection]) hn
  · exact iff_of_false (by simp [Held.isCollection]) hn

/-- The set-up is right when no two of the names that it comes to are the same, none is a member
of the object, and no name is passed over. -/
theorem setUp_right_iff (runtime : Runtime) (collections : Option (List JsString))
    (directory created : List JsString) :
    Right runtime (collections.getD []) directory created (setUp runtime collections directory created) ↔
      Undisturbed runtime (collections.getD []) directory created := by
  obtain ⟨hholding, htaken⟩ := @setUp_cases runtime collections directory created
  constructor
  · intro h
    have hapart : Apart runtime (processed (collections.getD []) directory created) := by
      by_contra hnot
      obtain ⟨m, hm, -, hreplaced⟩ := htaken hnot
      exact h.kept m hm hreplaced
    have hmade : ∀ n, n ∈ collections.getD [] ∨ n ∈ created ∨ Listed directory n →
        (processed (collections.getD []) directory created).count n = 1 := by
      intro n hn
      have hcount := (h.mapped n hn).2
      rwa [hholding hapart] at hcount
    have hmem : ∀ n, n ∈ collections.getD [] ∨ n ∈ created ∨ Listed directory n →
        n ∈ processed (collections.getD []) directory created := fun n hn =>
      List.count_pos_iff.mp (by rw [hmade n hn]; exact Nat.one_pos)
    refine ⟨?_, hapart, fun n hn => hmem n (.inr (.inr hn)), fun n hn => hmem n (.inr (.inl hn))⟩
    exact List.nodup_iff_count_eq_one.mpr fun n hn => hmade n (mem_processed hn)
  · intro h
    rw [hholding h.apart]
    have hmem : ∀ n, n ∈ collections.getD [] ∨ n ∈ created ∨ Listed directory n →
        n ∈ processed (collections.getD []) directory created := by
      intro n hn
      rcases hn with hn | hn | hn
      · exact requested_subset _ _ _ hn
      · exact h.later n hn
      · exact h.listed n hn
    refine ⟨h.nodup, fun n hn => ⟨?_, List.count_eq_one_of_mem h.nodup (hmem n hn)⟩, fun n hn => ?_,
      fun m hm hreplaced => ?_⟩
    · rw [holding]
      dsimp only
      rw [if_pos (hmem n hn)]
    · exact mem_processed (holding_replaced_iff.mp hn)
    · exact h.apart m (holding_replaced_iff.mp hreplaced) hm

/-- The methods of every object and of every emitter. -/
def node : Runtime where
  objectNames := [js "constructor", js "toString", js "toLocaleString", js "valueOf", js "hasOwnProperty",
    js "isPrototypeOf", js "propertyIsEnumerable"]
  emitterNames := [js "setMaxListeners", js "emit", js "addListener", js "on", js "once",
    js "removeListener", js "removeAllListeners", js "listeners"]
  name_notMem := by decide
  collectionName_notMem := by decide

theorem setUp_people_twice : ¬ ∀ (runtime : Runtime) (collections : Option (List JsString))
    (directory created : List JsString),
      Right runtime (collections.getD []) directory created (setUp runtime collections directory created) := by
  intro h
  have hnodup := (h node (some [js "people"]) [js "people"] []).names_nodup
  exact absurd hnodup (by decide)

end DbObject

end GlobalsJs
