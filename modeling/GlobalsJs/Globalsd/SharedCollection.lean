import GlobalsJs.Collection.Contents
import GlobalsJs.Globalsd.Linearizable

/-!
# A collection shared by remote clients

Clients look up all objects of a collection, count them, save objects that have an identifier
and remove them, all through the daemon. However their requests and the pieces of text interleave,
what the callbacks get is what a map from identifiers to objects would have answered, one call at
a time.
-/

namespace GlobalsJs
open Ecma Cache Query Globalsd LineReader
open Calls.Prog (run run_bind_ok run_bind_eq_ok)

namespace Collection

inductive Ask
  | find
  | count
  | save (ps : Props)
  | remove (ps : Props)

def Ask.request (c : Collection) : Ask → Request
  | .find => ⟨js "find", c.name, [some (.obj [])]⟩
  | .count => ⟨js "count", c.name, []⟩
  | .save ps => ⟨js "save", c.name, [some (.obj ps)]⟩
  | .remove ps => ⟨js "remove", c.name, [some (.obj ps)]⟩

/-- These are the requests of a remote collection; `count` has no remote method. -/
theorem remote_requests (self : Collection) {ps : Props} {id : Json} (hid : get ps idKey = some id) :
    self.remote_find (some (.obj [])) = pure (Ask.find.request self) ∧
      self.remote_save (some (.obj ps)) = pure ((Ask.save ps).request self) ∧
      self.remote_remove (some (.obj ps)) = pure ((Ask.remove ps).request self) := by
  refine ⟨rfl, ?_, rfl⟩
  have hfull : isEmptyObject (pop (some (.obj ps))) = false := isEmptyObject_obj (ne_nil_of_get hid)
  have hread : member (pop (some (.obj ps))) idKey = .ok (some id) := congrArg Except.ok hid
  rw [remote_save]
  simp only [hfull, hread]
  rfl

/-- Objects that are saved or removed have an identifier that was given out. -/
def Ask.Proper (bound : ℕ) : Ask → Prop
  | .find | .count => True
  | .save ps => (∃ n : ℕ, 0 < n ∧ n ≤ bound ∧ get ps idKey = some (.ofInt n)) ∧ (Json.obj ps).WF ∧
    get ps ackProp = none
  | .remove ps => (∃ n : ℕ, 0 < n ∧ n ≤ bound ∧ get ps idKey = some (.ofInt n)) ∧ (Json.obj ps).WF

/-- The calls on a map with identifiers up to `bound`, and the values they are answered with. The answer
to `count` is the number of identifiers that were given out, however many objects are stored. -/
inductive MapAnswers (bound : ℕ) (m : Map) : Ask → Map → List Json → Prop
  | find {ids : List ℕ} : ids.Pairwise (· < ·) → (∀ n, n ∈ ids ↔ (m n).isSome) →
    MapAnswers bound m .find m (ids.filterMap fun n => (m n).map .obj)
  | count : MapAnswers bound m .count m [.ofInt bound]
  | save {ps : Props} {n : ℕ} {status : Json} : get ps idKey = some (.ofInt n) → isZeroStatus status = true →
    MapAnswers bound m (.save ps) (Function.update m n (some ps)) [status]
  | remove {ps : Props} {n : ℕ} {result : Json} : get ps idKey = some (.ofInt n) → isOk result = .ok true →
    MapAnswers bound m (.remove ps) (Function.update m n none) [result]

inductive Execution {ι : Type} (bound : ℕ) : Map → List (ι × Ask × List Json) → Map → Prop
  | nil (m : Map) : Execution bound m [] m
  | cons {m m' m'' : Map} {c : ι} {ask : Ask} {vs : List Json} {rest : List (ι × Ask × List Json)} :
    MapAnswers bound m ask m' vs → Execution bound m' rest m'' → Execution bound m ((c, ask, vs) :: rest) m''

/-- A value that is answered on one line and passes for no header. -/
structure Plain (v : Json) : Prop where
  wf : v.WF
  transparent : Transparent v
  alone : (Returned.json v).values = some [v]

/-- Every status of the binding is such a value. -/
structure Printable {σ : Type} (b : Binding σ) : Prop where
  update : ∀ s node object, Plain (b (.update node object) s).2.result
  kill : ∀ s ref, Plain (b (.kill ref) s).2.result

theorem plain_ofInt (n : ℤ) : Plain (.ofInt n) :=
  ⟨Json.wf_ofInt n, ⟨(fun h => by cases h), fun ps h => by cases h⟩, rfl⟩

section
variable {σ κ : Type} [LinearOrder κ] {b : Binding σ} {view : σ → Globals κ} {sub : Json → κ}
  {self : Collection} {bound fuel : ℕ} {m : Map}

/-- The collection holds the objects of the map, and `bound` identifiers were given out. -/
structure Holds (c : Collection) (sub : Json → κ) (bound : ℕ) (g : Globals κ) (m : Map) : Prop where
  refines : c.Refines sub g m
  root : (g.root c.name).getD 0 = bound
  objects : ∀ n ps, m n = some ps → (Json.obj ps).WF ∧ get ps ackProp = none

theorem Holds.update (law : Lawful b view sub) {g h : Globals κ} {n : ℕ} {v : Option Props}
    (hg : self.Holds sub bound g m) (hn : 0 < n ∧ n ≤ bound)
    (hwrites : self.Rewrites g h (subId sub n) v (g.root self.name))
    (hv : ∀ ps, v = some ps → (Json.obj ps).WF ∧ get ps ackProp = none) :
    self.Holds sub bound h (Function.update m n v) := by
  have hroot : (h.root self.name).getD 0 = bound := by rw [hwrites.root, hg.root]
  refine ⟨hg.refines.update law hwrites.object ?_ ?_ hwrites.node, hroot, fun l ps hl => ?_⟩
  · rw [hwrites.root]
  · intro _
    rw [hroot]
    exact hn
  · rw [Function.update_apply] at hl
    split_ifs at hl
    · exact hv ps hl
    · exact hg.objects l ps hl

/-- The program that the daemon runs for the call. -/
def Ask.program (c : Collection) (realm : Realm) (fuel : ℕ) : Ask → Prog Returned
  | .find => do return .list (← c.find realm fuel (some (.obj [])))
  | .count => do return .json (← c.count)
  | .save ps => do return returned (← c.save (some (.obj ps))).returned
  | .remove ps => do return returned (← c.remove (some (.obj ps))).returned

omit [LinearOrder κ] in
theorem ids_length {g : Globals κ} (hg : self.Holds sub bound g m) {ids : List ℕ} (hsorted : ids.Pairwise (· < ·))
    (hids : ∀ n, n ∈ ids ↔ (m n).isSome) : ids.length ≤ bound := by
  have hnodup : ids.Nodup := hsorted.imp fun h => Nat.ne_of_lt h
  have hsubset : ids ⊆ List.range' 1 bound := by
    intro n hn
    obtain ⟨hpos, hle⟩ := hg.refines.bound n ((hids n).mp hn)
    rw [hg.root] at hle
    rw [List.mem_range'_1]
    omega
  have hlen := (List.subperm_of_subset hnodup hsubset).length_le
  rwa [List.length_range'] at hlen

theorem Holds.perform (law : Lawful b view sub) (hprint : Printable b) {s : σ} (realm : Realm)
    (h : self.Holds sub bound (view s) m) (hfuel : bound < fuel) {ask : Ask} (hask : ask.Proper bound) :
    ∃ t r vs m', run b (ask.program self realm fuel) s = (t, .ok r) ∧ r.values = some vs ∧
      (∀ v ∈ vs, v.WF ∧ Transparent v) ∧ MapAnswers bound m ask m' vs ∧ self.Holds sub bound (view t) m' := by
  cases ask with
  | find =>
    obtain ⟨ids, hsorted, hids, hfind⟩ := h.refines.find_all law realm (.inr rfl)
    have hrun := hfind fuel ((ids_length h hsorted hids).trans_lt hfuel)
    refine ⟨s, _, _, m, run_bind_ok hrun _, ?_, ?_, .find hsorted hids, h⟩
    · have hall : (ids.map fun n => (m n).map Json.obj).all Option.isSome = true := by
        rw [List.all_eq_true]
        intro o ho
        obtain ⟨n, hn, rfl⟩ := List.mem_map.mp ho
        rw [Option.isSome_map]
        exact (hids n).mp hn
      rw [Returned.values, if_pos hall, List.filterMap_map]
      rfl
    · intro v hv
      obtain ⟨n, -, hn⟩ := List.mem_filterMap.mp hv
      obtain ⟨ps, hps, rfl⟩ := Option.map_eq_some_iff.mp hn
      obtain ⟨hwf, hack⟩ := h.objects n ps hps
      exact ⟨hwf, (fun h => by cases h), fun qs hqs => Json.obj.inj hqs ▸ hack⟩
  | count =>
    have hrun := run_count law self s
    rw [h.root] at hrun
    refine ⟨s, _, _, m, run_bind_ok hrun _, (plain_ofInt bound).alone, ?_, .count, h⟩
    exact List.forall_mem_singleton.mpr ⟨(plain_ofInt bound).wf, (plain_ofInt bound).transparent⟩
  | save ps =>
    obtain ⟨⟨n, hpos, hle, hid⟩, hwf, hack⟩ := hask
    obtain ⟨t, status, hrun, hok, hindex⟩ := run_save_stored law self (scalar_ofInt n) hid s
    have hplain : Plain status := by
      have hreturned := hrun
      rw [save_stored self hid, run_bind_ok (run_sync _ s), if_pos (law.update_ok s _ _)] at hreturned
      obtain ⟨u, a, -, hret⟩ := run_bind_eq_ok.mp hreturned
      cases hret
      exact hprint.update s _ _
    refine ⟨t, _, _, _, run_bind_ok hrun _, hplain.alone, ?_, .save hid hok,
      h.update law ⟨hpos, hle⟩ hindex.replaces fun qs hqs => ?_⟩
    · exact List.forall_mem_singleton.mpr ⟨hplain.wf, hplain.transparent⟩
    · obtain rfl := Option.some.inj hqs
      exact ⟨hwf, hack⟩
  | remove ps =>
    obtain ⟨⟨n, hpos, hle, hid⟩, -⟩ := hask
    obtain ⟨t, result, hrun, hok, hindex⟩ := run_remove law self (scalar_ofInt n) hid s
    have hplain : Plain result := by
      have hreturned := hrun
      rw [remove_stored self hid, run_bind_ok (run_sync _ s),
        run_bind_ok (a := true) (by rw [run_liftM, law.kill_ok]; rfl), if_pos rfl] at hreturned
      obtain ⟨u, a, -, hret⟩ := run_bind_eq_ok.mp hreturned
      cases hret
      exact hprint.kill s _
    refine ⟨t, _, _, _, run_bind_ok hrun _, hplain.alone, ?_, .remove hid hok,
      h.update law ⟨hpos, hle⟩ hindex.removes fun qs hqs => by cases hqs⟩
    exact List.forall_mem_singleton.mpr ⟨hplain.wf, hplain.transparent⟩

variable {collections : JsString → Option Collection} {realm : Realm}
  {db : JsString → Option (σ → Option Json → σ × Except JsError Returned)}

omit [LinearOrder κ] in
theorem method_ask (b : Binding σ) (fuel : ℕ) (realm : Realm)
    (db : JsString → Option (σ → Option Json → σ × Except JsError Returned)) (hname : self.name ≠ []) (hexists : collections self.name = some self) (ask : Ask) :
    ∃ f, method (serverApi b realm fuel collections db) (some (ask.request self).data) = some f ∧
      ∀ s, f s = outcome b (ask.program self realm fuel) s := by
  have hmethod : ∀ (op : JsString) (params : List (Option Json))
      (operation : Collection → Option Json → Prog Returned),
      (operations realm fuel).lookup op = some operation →
      ∃ f, method (serverApi b realm fuel collections db) (some (Request.data ⟨op, self.name, params⟩)) = some f ∧
        ∀ s, f s = outcome b (operation self (some (.arr (params.map fun o => o.getD .null)))) s := by
    intro op params operation hop
    have hnamed : truthy (some (.str self.name)) = true := by simpa [truthy] using hname
    have hreads : member (some (Request.data ⟨op, self.name, params⟩)) (js "op") = .ok (some (.str op)) ∧
        member (some (Request.data ⟨op, self.name, params⟩)) (js "collection") = .ok (some (.str self.name)) ∧
        member (some (Request.data ⟨op, self.name, params⟩)) (js "params") =
          .ok (some (.arr (params.map fun o => o.getD .null))) := ⟨rfl, rfl, rfl⟩
    have htext : ∀ s, convert (some (.str s)) = .ok s := fun s => rfl
    cases hg : (serverApi b realm fuel collections db).collection op with
    | none => simp [serverApi, hop] at hg
    | some g =>
      have hrun : ∀ s ps, g s self.name ps = outcome b (operation self ps) s := by
        simp only [serverApi, hop, Option.map_some, Option.some.injEq] at hg
        subst hg
        intro s ps
        simp only [hexists]
      refine ⟨fun s => g s self.name (some (.arr (params.map fun o => o.getD .null))), ?_, fun s => hrun s _⟩
      rw [method, hreads.1, hreads.2.1, hreads.2.2]
      simp only [Except.toOption, Option.bind_eq_bind, Option.bind_some, hnamed, if_true, htext, hg]
      rfl
  cases ask with
  | find =>
    obtain ⟨f, hf, hrun⟩ := hmethod (js "find") [some (.obj [])] _ rfl
    refine ⟨f, hf, fun s => (hrun s).trans ?_⟩
    rfl
  | count => exact hmethod (js "count") [] _ rfl
  | save ps =>
    obtain ⟨f, hf, hrun⟩ := hmethod (js "save") [some (.obj ps)] _ rfl
    exact ⟨f, hf, fun s => (hrun s).trans rfl⟩
  | remove ps =>
    obtain ⟨f, hf, hrun⟩ := hmethod (js "remove") [some (.obj ps)] _ rfl
    exact ⟨f, hf, fun s => (hrun s).trans rfl⟩

def Serviceable (c : Collection) (view : σ → Globals κ) (sub : Json → κ) (bound : ℕ) (s : σ) : Prop :=
  ∃ m, c.Holds sub bound (view s) m

theorem ask_data_wf (self : Collection) {ask : Ask} (hask : ask.Proper bound) : (ask.request self).data.WF := by
  have hdata : ∀ (op : JsString) (params : List (Option Json)), (∀ v ∈ params.map fun o => o.getD .null, v.WF) →
      (Request.data ⟨op, self.name, params⟩).WF := by
    intro op params hparams
    have hkeys : [js "op", js "collection", js "params"].Nodup := by decide
    exact ⟨hkeys, trivial, trivial, (Json.wf_arr_iff _).mpr hparams, trivial⟩
  cases ask with
  | find => exact hdata _ _ (List.forall_mem_singleton.mpr ⟨List.nodup_nil, trivial⟩)
  | count => exact hdata _ _ fun v hv => absurd hv List.not_mem_nil
  | save ps => exact hdata _ _ (List.forall_mem_singleton.mpr hask.2.1)
  | remove ps => exact hdata _ _ (List.forall_mem_singleton.mpr hask.2)

structure Loggable {τ : Type} (client : Client τ) : Prop where
  named : canLog client.name = true
  wf : client.name.WF

theorem regular_ask {τ : Type} (realm : Realm)
    (db : JsString → Option (σ → Option Json → σ × Except JsError Returned))
    (law : Lawful b view sub) (hprint : Printable b) (hname : self.name ≠ [])
    (hexists : collections self.name = some self) (hfuel : bound < fuel) {client : Client τ}
    (hclient : Loggable client) {ask : Ask} (hask : ask.Proper bound) :
    Regular (serverApi b realm fuel collections db) (self.Serviceable view sub bound) client
      (ask.request self).data := by
  refine ⟨hclient.named, hclient.wf, ask_data_wf self hask, ?_⟩
  obtain ⟨f, hf, hrun⟩ := method_ask b fuel realm db hname hexists ask
  refine ⟨f, hf, fun s hs => ?_⟩
  obtain ⟨m, hm⟩ := hs
  obtain ⟨t, r, vs, m', hprogram, hvs, hvalues, -, ht⟩ := hm.perform law hprint realm hfuel hask
  have hstep : f s = (t, .ok r) := by
    rw [hrun, outcome, hprogram]
    rfl
  rw [hstep]
  exact ⟨⟨m', ht⟩, r, vs, rfl, hvs, hvalues⟩

def messageData (req : Json) : Json :=
  match member (some req) (js "data") with
  | .ok (some data) => data
  | _ => .null

theorem messages_data {τ : Type} (client : Client τ) (rs : List (Sending τ)) :
    (client.messages rs).map messageData = rs.map Sending.data := by
  induction rs generalizing client with
  | nil => rfl
  | cons r rs ih =>
    rw [Client.messages, List.map_cons, List.map_cons, ih]
    rfl

theorem execution_exists {ι τ : Type} (realm : Realm)
    (db : JsString → Option (σ → Option Json → σ × Except JsError Returned))
    (law : Lawful b view sub) (hprint : Printable b) (hname : self.name ≠ [])
    (hexists : collections self.name = some self) (hfuel : bound < fuel) {reqs : List (ι × Json)}
    (hreqs : ∀ x ∈ reqs, ∃ ask : Ask, ask.Proper bound ∧ ∃ (other : Client τ) (ts : JsString),
      x.2 = other.message ts (ask.request self).data) {s : σ} (hs : self.Holds sub bound (view s) m) :
    ∃ execution m', Execution bound m execution m' ∧
      self.Holds sub bound (view (sequential (serverApi b realm fuel collections db) s reqs).1) m' ∧
      execution.map (fun y => (y.1, (y.2.1.request self).data)) = reqs.map (fun x => (x.1, messageData x.2)) ∧
      (sequential (serverApi b realm fuel collections db) s reqs).2 = execution.map fun y => (y.1, y.2.2) := by
  induction reqs generalizing s m with
  | nil => exact ⟨[], m, .nil m, hs, rfl, rfl⟩
  | cons x reqs ih =>
    obtain ⟨c, req⟩ := x
    obtain ⟨ask, hask, other, ts, hreq⟩ := hreqs _ List.mem_cons_self
    obtain rfl : req = other.message ts (ask.request self).data := hreq
    obtain ⟨f, hf, hrun⟩ := method_ask b fuel realm db hname hexists ask
    obtain ⟨t, r, vs, m', hprogram, hvs, hvalues, hanswers, ht⟩ := hs.perform law hprint realm hfuel hask
    have hperform : Globalsd.perform (serverApi b realm fuel collections db) s (other.message ts (ask.request self).data) =
        (t, vs) := by
      rw [perform_message hf, performBy, hrun, outcome, hprogram]
      change (t, r.values.getD []) = (t, vs)
      rw [hvs]
      rfl
    obtain ⟨execution, m'', hrest, hfinal, hasked, hall⟩ :=
      ih (fun x hx => hreqs x (List.mem_cons_of_mem _ hx)) ht
    refine ⟨(c, ask, vs) :: execution, m'', .cons hanswers hrest, ?_, ?_, ?_⟩
    · rw [sequential, hperform]
      exact hfinal
    · rw [List.map_cons, hasked, List.map_cons]
      rfl
    · rw [sequential, hperform, List.map_cons, ← hall]

end

theorem printable_disk : Printable Disk.binding where
  update _ _ _ := plain_ofInt 0
  kill _ _ := by
    refine ⟨?_, ⟨(fun h => by cases h), fun ps hps => ?_⟩, rfl⟩
    · simp [Disk.binding, Disk.ok, Json.WF, Json.WFProps, keys, Json.wf_ofInt]
    · obtain rfl := Json.obj.inj hps
      rfl

def emptied : Disk := ⟨[(people.name, 1)], [], []⟩

theorem holds_emptied : people.Holds Subscript.of 1 emptied.view fun _ => none where
  refines := {
    object := fun n => by simp [Disk.view, emptied]
    ids := fun k hk => by simp [Disk.view, emptied] at hk
    bound := fun n hn => by cases hn
    nodes := fun p hp => by simp [Disk.view, emptied] at hp }
  root := rfl
  objects := fun n ps hps => by cases hps

def savesAndFinds : List (Globalsd.Event Bool Bool) :=
  [.send false ⟨js "now", ((Ask.save (stored (ann 30) 1)).request people).data, some true⟩,
    .send true ⟨js "now", (Ask.find.request people).data, some true⟩,
    .toServer false 400, .toServer true 400, .toClient true 400, .toClient false 400]

def residence : Api Disk :=
  serverApi Disk.binding Realm.bare 5 (fun _ => some people) fun _ => none

theorem saved_proper : (Ask.save (stored (ann 30) 1)).Proper 1 := by
  refine ⟨⟨1, by decide, le_refl 1, rfl⟩, ?_, rfl⟩
  have hkeys : [js "age", idKey].Nodup := by decide
  exact ⟨hkeys, Json.wf_ofInt 30, Json.wf_ofInt 1, trivial⟩

theorem savesAndFinds_admissible : Admissible residence
    (fun client data => Loggable client ∧ ∃ ask : Ask, ask.Proper 1 ∧ data = (ask.request people).data)
    directoryClient emptied (World.start directoryClient emptied) savesAndFinds := by
  have hname : ∀ c, Loggable (directoryClient c) := fun c => ⟨by cases c <;> decide, trivial⟩
  refine ⟨⟨hname false, .save (stored (ann 30) 1), saved_proper, rfl⟩, ⟨hname true, .find, trivial, rfl⟩,
    ?_, ?_, ?_, ?_, trivial⟩
  · intro d hd
    obtain rfl : d = true := by simpa using hd
    exact not_torn_start (by decide +kernel)
  · intro d hd
    obtain rfl : d = false := by simpa using hd
    exact not_torn_nil (by decide +kernel)
  · exact not_torn_nil (by decide +kernel)
  · exact not_torn_nil (by decide +kernel)

example : ((((World.start directoryClient emptied).run residence savesAndFinds).readers true).1.called.map
    fun i => i.data) = [.arr [.obj (stored (ann 30) 1)]] := by decide +kernel

end Collection

end GlobalsJs
