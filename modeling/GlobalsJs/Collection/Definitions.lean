import GlobalsJs.Calls.Interference
import GlobalsJs.Collection.Names

/-!
# Index definitions and other clients

Every client has its own list of indexes, read from the store once. Clients take turns at
single calls. An add sets the entries of the fields in the list that its client has when
the entries are set: at once, or in the callback of the update.
-/

namespace GlobalsJs
open Ecma Cache Query Calls.Prog

namespace Collection

def add_numbered (self : Collection) (object : Option Json) : Prog (Json × GloRef) := do
  let stored ← withID object (← self.next_id)
  return (stored, ⟨self.name, [← member (some stored) idKey]⟩)

def add_written (self : Collection) (object : Option Json) (stored : Json) (error : Option Json) :
    Prog (Option Json) := do
  self.update_index .SAVE (indexed object stored)
  callBack error (some stored)
  return some stored

theorem add_async_eq (self : Collection) (object : Option Json) : self.add_async object = (do
    let (stored, node) ← self.add_numbered object
    let r ← (Call.update node stored).async
    self.add_written object stored r.error) := by
  simp only [add_async, add_numbered, add_written, bind_assoc, pure_bind]

section
variable {σ κ : Type} [LinearOrder κ] {b : Binding σ} {view : σ → Globals κ} {sub : Json → κ}

def Grows (view : σ → Globals κ) (name : JsString) (s t : σ) : Prop :=
  ∀ p, (view s).node name p → (view t).node name p

def Keeps (b : Binding σ) (view : σ → Globals κ) (name : JsString) (c : Call) : Prop :=
  ∀ s, Grows view name s (b c s).1

def Entered (view : σ → Globals κ) (sub : Json → κ) (name : JsString) (fs : List JsString) (o : Props)
    (s : σ) : Prop :=
  ∀ f ∈ fs, ∀ v id, get o f = some v → get o idKey = some id → f ≠ [] → Scalar v → Scalar id →
    (view s).node name [sub (.str f), sub v, sub id]

omit [LinearOrder κ] in
theorem Entered.grows {name : JsString} {fs : List JsString} {o : Props} {s t : σ}
    (hs : Entered view sub name fs o s) (hst : Grows view name s t) : Entered view sub name fs o t :=
  fun f hf v id hv hid hname hscalar hid' => hst _ (hs f hf v id hv hid hname hscalar hid')

omit [LinearOrder κ] in
theorem grows_refl (name : JsString) (s : σ) : Grows view name s s := fun _ hp => hp

omit [LinearOrder κ] in
theorem grows_trans {name : JsString} {s t u : σ} (hst : Grows view name s t)
    (htu : Grows view name t u) : Grows view name s u := fun p hp => htu p (hst p hp)

omit [LinearOrder κ] in
theorem keeps_of_ne (hlocal : Local b view) {name : JsString} {c : Call} (hc : c.global ≠ some name) :
    Keeps b view name c := by
  intro s p hp
  rw [(hlocal c s name hc).2.2]
  exact hp

section
variable (law : Lawful b view sub)
include law

theorem ensures_update_index (hset : SetKeeps b view) (self : Collection) (o : Props) (s : σ) :
    Ensures b (Grows view self.index_global) (fun _ => Entered view sub self.index_global self.fields o)
      (self.update_index .SAVE (some (.obj o))) s := by
  have hstable : ∀ done : List Props, ∀ s t, Grows view self.index_global s t →
      Entered view sub self.index_global (done.filterMap index_key) o s →
      Entered view sub self.index_global (done.filterMap index_key) o t :=
    fun done s t hst hs => hs.grows hst
  refine Ensures.forM (I := fun done => Entered view sub self.index_global (done.filterMap index_key) o)
    (by simp [Entered]) fun done index rest t _ ht => ?_
  -- the entry of this index joins those that are there
  have hjoin : ∀ u, Grows view self.index_global t u →
      (∀ f v id, index_key index = some f → get o f = some v → get o idKey = some id → f ≠ [] →
        Scalar v → Scalar id → (view u).node self.index_global [sub (.str f), sub v, sub id]) →
      Entered view sub self.index_global ((done ++ [index]).filterMap index_key) o u := by
    intro u htu hentry f hf
    rw [List.filterMap_append, List.mem_append] at hf
    rcases hf with hf | hf
    · exact hstable done t u htu ht f hf
    · intro v id
      refine hentry f v id ?_
      simpa using hf
  unfold update_entry
  rw [liftM_member, pure_bind]
  cases hval : get o ((index_key index).getD (js "undefined")) with
  | none =>
    refine hjoin t (grows_refl _ t) fun f v id hkey hv => ?_
    rw [hkey, Option.getD_some, hv] at hval
    cases hval
  | some v =>
    intro u htu
    refine hjoin _ (grows_trans htu (hset u _ _ _)) fun f w id hkey hw hid hname hscalar hid' => ?_
    rw [hkey, Option.getD_some, hw] at hval
    obtain rfl := Option.some.inj hval
    have hsubs : ∀ x ∈ [Json.str f, w, id], Scalar x := by simpa using ⟨hname, hscalar, hid'⟩
    have hnode := law.set u self.index_global [.str f, w, id] (.str []) hsubs
    have href : self.index_glo_ref [(index_key index).map .str, some w, get o idKey] =
        ⟨self.index_global, [Json.str f, w, id].map some⟩ := by
      rw [hkey, hid]
      rfl
    rw [href]
    rw [hnode]
    exact .inr ⟨rfl, rfl⟩

theorem ensures_next_id (self : Collection) (rely : σ → σ → Prop) (s : σ) :
    Ensures b rely (fun id _ => ∃ n : ℕ, id = some (.ofInt n)) self.next_id s := by
  intro t _
  have hok := law.increment_ok t ⟨self.name, []⟩
  have hdata := law.increment_data t self.name
  change Ensures b rely _ (id_of (b (.increment ⟨self.name, []⟩) t).2.result) _
  rw [id_of_ok hok hdata]
  exact ⟨_, rfl⟩

theorem ensures_add_numbered (self : Collection) (ps : Props) (rely : σ → σ → Prop) (s : σ) :
    Ensures b rely (fun r _ => r.2.global = self.name ∧ ∃ n : ℕ, r.1 = .obj (stored ps n))
      (self.add_numbered (some (.obj ps))) s := by
  refine (ensures_next_id law self rely s).bind fun id t hid => ?_
  obtain ⟨n, rfl⟩ := hid
  exact ⟨rfl, n, rfl⟩

theorem ensures_add_written (hset : SetKeeps b view) (self : Collection) {ps o : Props} (error : Option Json)
    (s : σ) :
    Ensures b (Grows view self.index_global) (fun _ => Entered view sub self.index_global self.fields o)
      (self.add_written (some (.obj ps)) (.obj o) error) s := by
  refine (ensures_update_index law hset self o s).bind fun _ t ht u htu => ?_
  refine Entered.grows (ht.grows htu) fun p hp => ?_
  rw [law.callback]
  exact hp

theorem ensures_add (hset : SetKeeps b view) (self : Collection) (ps : Props) (s : σ) :
    Ensures b (Grows view self.index_global)
      (fun r t => ∃ n : ℕ, r.object = some (.obj (stored ps n)) ∧
        Entered view sub self.index_global self.fields (stored ps n) t)
      (self.add (some (.obj ps))) s := by
  refine (ensures_next_id law self _ s).bind fun id t hid => ?_
  obtain ⟨n, rfl⟩ := hid
  intro u _
  have hok := law.update_ok u ⟨self.name, [some (.ofInt n)]⟩ (.obj (stored ps n))
  change Ensures b _ _ (if isZeroStatus (b (.update ⟨self.name, [get (stored ps n) idKey]⟩
    (.obj (stored ps n))) u).2.result then _ else _) _
  rw [get_stored, if_pos hok]
  exact (ensures_update_index law hset self (stored ps n) _).bind fun _ w hw => ⟨n, rfl, hw⟩

omit law [LinearOrder κ] in
theorem ensures_ensureIndex (self : Collection) (style : Style) (object : Props) (rely : σ → σ → Prop)
    (s : σ) : Ensures b rely (fun c _ => c.name = self.name) (self.ensureIndex style object) s := by
  obtain ⟨α, p, c, haccess, hc, -⟩ := access_uses self (.ensureIndex style object)
  change self.ensureIndex style object = _ at haccess
  rw [haccess]
  exact (Ensures.trivial p s).bind fun _ _ _ => hc

omit law [LinearOrder κ] in
theorem ensures_new (name : JsString) (fuel : ℕ) (rely : σ → σ → Prop) (s : σ) :
    Ensures b rely (fun c _ => c.name = name) (new name fuel) s :=
  (Ensures.trivial _ s).bind fun _ _ _ => rfl

end

section
variable (law : Lawful b view sub) (hlocal : Local b view) (hset : SetKeeps b view)

omit [LinearOrder κ] in
include hlocal in
theorem keeps_callback (name : JsString) (style : Style) (error result : Option Json) :
    Only (Keeps b view name) (callback style error result) := by
  cases style with
  | sync => exact .pure _
  | async => exact only_sync (keeps_of_ne hlocal (by simp [Call.global])) fun _ => .pure _

omit [LinearOrder κ] in
include hset in
theorem keeps_update_index (self : Collection) (object : Option Json) :
    Only (Keeps b view self.index_global) (self.update_index .SAVE object) :=
  only_update_index self (fun _ s => hset s _ _ _) (fun h => by cases h) object

omit [LinearOrder κ] in
include hlocal in
theorem keeps_data (self : Collection) {c : Call} (hc : c.global = some self.name) :
    Keeps b view self.index_global c := by
  refine keeps_of_ne hlocal ?_
  rw [hc]
  simpa using self.index_global_ne

omit [LinearOrder κ] in
include hlocal in
theorem keeps_add_numbered (self : Collection) (object : Option Json) :
    Only (Keeps b view self.index_global) (self.add_numbered object) :=
  (only_next_id self (keeps_data hlocal self rfl)).bind fun _ => (Only.lift _).bind fun _ => (Only.lift _).bind fun _ => .pure _

omit [LinearOrder κ] in
include hlocal hset in
theorem keeps_add_written (self : Collection) (object : Option Json) (stored : Json) (error : Option Json) :
    Only (Keeps b view self.index_global) (self.add_written object stored error) :=
  (keeps_update_index hset self _).bind fun _ =>
    (keeps_callback hlocal _ .async error (some stored)).bind fun _ => .pure _

omit [LinearOrder κ] in
include hlocal hset in
theorem keeps_add (self : Collection) (object : Option Json) :
    Only (Keeps b view self.index_global) (self.add object) :=
  only_add self (keeps_data hlocal self rfl) (fun _ _ => keeps_data hlocal self rfl)
    (fun _ _ s => hset s _ _ _) object

omit [LinearOrder κ] in
include hlocal hset in
theorem keeps_ensureIndex (self : Collection) (style : Style) (object : Props) :
    Only (Keeps b view self.index_global) (self.ensureIndex style object) := by
  unfold ensureIndex
  split_ifs
  · exact (keeps_callback hlocal _ style _ _).bind fun _ => .pure _
  refine Only.bind (.forM fun f _ => only_sync (fun s => hset s _ _ _) fun _ => .pure _) fun _ => ?_
  exact (keeps_callback hlocal _ style _ _).bind fun _ => .pure _

include law in
theorem keeps_new (name global : JsString) (fuel : ℕ) : Only (Keeps b view global) (new name fuel) := by
  refine (only_order_ids (fun ref s p hp => ?_) fuel _).bind fun _ => .pure _
  rwa [(law.reads s ref).1]

end

end

end Collection

end GlobalsJs
