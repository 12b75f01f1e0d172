import GlobalsJs.Collection.Collection

/-!
# The calls that a method makes

What holds of every call of a kind holds of every call of a program that is built from
them, whatever the replies are.
-/

namespace GlobalsJs
open Ecma Cache Query Calls.Prog

namespace Collection

variable {α : Type} {P : Call → Prop}

theorem only_sync {c : Call} (hc : P c) {k : c.Result → Prog α} (hk : ∀ r, Only P (k r)) :
    Only P (c.sync >>= k) := .call hc fun r => hk r.result

theorem only_async {c : Call} (hc : P c) {k : Reply c → Prog α} (hk : ∀ r, Only P (k r)) :
    Only P (c.async >>= k) := .call hc hk

theorem only_callBack (hcallback : ∀ error result, P (.callback error result)) (error result : Option Json) :
    Only P (callBack error result) :=
  only_sync (hcallback error result) fun _ => .pure _

def IndexOperation.entry : IndexOperation → GloRef → Call
  | .SAVE, glo_ref => .set glo_ref (.str [])
  | .REMOVE, glo_ref => .kill glo_ref

theorem only_order_ids (horder : ∀ ref, P (.order ref)) (fuel : ℕ) (ref : GloRef) :
    Only P (order_ids fuel ref) := by
  induction fuel generalizing ref with
  | zero => exact .throw _
  | succ n ih =>
    refine only_sync (horder ref) fun r => ?_
    split_ifs
    · exact .pure _
    · exact (ih _).bind fun _ => .pure _

variable (self : Collection)

theorem only_update_entry {operation : IndexOperation}
    (hentry : ∀ subs, P (operation.entry ⟨self.index_global, subs⟩)) (o : Option Json) (index : Props) :
    Only P (self.update_entry operation o index) := by
  refine (Only.lift _).bind fun value => ?_
  cases value with
  | none => exact .pure _
  | some v =>
    refine (Only.lift _).bind fun id => ?_
    cases operation with
    | SAVE => exact only_sync (hentry _) fun _ => .pure _
    | REMOVE => exact only_sync (hentry _) fun _ => .pure _

theorem only_update_index {operation : IndexOperation}
    (hentry : ∀ subs, P (operation.entry ⟨self.index_global, subs⟩))
    (hsystem : operation = .REMOVE → ∀ subs, P (.kill ⟨self.system_global, subs⟩)) (object : Option Json) :
    Only P (self.update_index operation object) := by
  have hentries : ∀ o, Only P (self.indexes.forM (self.update_entry operation o)) :=
    fun o => .forM fun index _ => only_update_entry self hentry o index
  unfold update_index
  split
  · exact only_sync (hentry _) fun _ => only_sync (hsystem rfl _) fun _ => .pure _
  · exact .forM fun o _ => hentries _
  · exact hentries _

theorem only_next_id (hincrement : P (.increment ⟨self.name, []⟩)) : Only P self.next_id := by
  refine only_sync hincrement fun r => (Only.lift _).bind fun ok => ?_
  cases ok with
  | true => exact .lift _
  | false => exact .throw _

theorem only_add (hincrement : P (.increment ⟨self.name, []⟩))
    (hupdate : ∀ subs stored, P (.update ⟨self.name, subs⟩ stored))
    (hset : ∀ subs data, P (.set ⟨self.index_global, subs⟩ data)) (object : Option Json) :
    Only P (self.add object) := by
  have hindex : ∀ o, Only P (self.update_index .SAVE o) :=
    only_update_index self (fun subs => hset subs _) fun h => by cases h
  refine (only_next_id self hincrement).bind fun id => (Only.lift _).bind fun stored => ?_
  refine (Only.lift _).bind fun key => only_sync (hupdate _ _) fun status => ?_
  split_ifs
  · exact (hindex _).bind fun _ => .pure _
  · exact .pure _

theorem fetch_none {ps : Props} (hget : get ps idKey = none) :
    self.fetch_glo_ref_from_object (some (.obj ps)) = .error (.error (js "object unformatted")) := by
  have hread : member (some (.obj ps)) idKey = .ok none := congrArg Except.ok hget
  rw [fetch_glo_ref_from_object, hread]
  rfl

theorem only_fetch (object : Option Json) {k : GloRef → Prog α}
    (hk : ∀ id, Only P (k ⟨self.name, [some id]⟩)) :
    Only P ((liftM (self.fetch_glo_ref_from_object object) : Prog GloRef) >>= k) := by
  rw [fetch_glo_ref_from_object]
  cases member object idKey with
  | error e => exact .throw _
  | ok id =>
    cases id with
    | none => exact .throw _
    | some id => exact hk id

end Collection

end GlobalsJs
