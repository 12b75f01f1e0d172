import GlobalsJs.Collection.Names

/-!
# The operations of a local collection

All that a client can ask of a collection, in both styles, and which calls it takes. The
only operation that closes the connection is a find with a callback that scans an index.
-/

namespace GlobalsJs
open Ecma Cache Query Calls.Prog

def onCallback {α : Type} (f : Option Json → Option Json → Prog Unit) : Prog α → Prog α
  | .ret a => .ret a
  | .throw e => .throw e
  | .call (.callback error result) k => do
    f error result
    onCallback f (k ⟨none, ()⟩)
  | .call c k => .call c fun r => onCallback f (k r)

theorem only_onCallback {α : Type} {P : Call → Prop} {f : Option Json → Option Json → Prog Unit}
    {p : Prog α} (hf : ∀ error result, Only P (f error result)) (hp : Only P p) :
    Only P (onCallback f p) := by
  induction hp with
  | ret a => exact .ret a
  | throw e => exact .throw e
  | @call c k hc _ ih =>
    cases c with
    | callback error result => exact (hf error result).bind fun _ => ih _
    | set | kill | killGlobal | increment | update | order | orderNothing | retrieve | get | close =>
      exact .call hc ih

namespace Cache

def Call.Reads : Call → Prop
  | .order _ | .orderNothing | .retrieve _ | .get _ | .callback _ _ => True
  | .set _ _ | .kill _ | .killGlobal _ | .increment _ | .update _ _ | .close => False

def Call.Stays (c : Call) : Prop := c ≠ .close

theorem Call.Reads.stays {c : Call} (hc : Call.Reads c) : Call.Stays c := by
  rintro rfl
  exact hc

end Cache

theorem reads_callBack (error result : Option Json) : Only Call.Reads (callBack error result) :=
  Collection.only_callBack (fun _ _ => trivial) error result

namespace Collection

def first_object : Option Json → Option Json
  | some (.obj ps) => ps.head?.map Prod.snd
  | some (.arr xs) => xs.head?
  | some (.str (c :: _)) => some (.str [c])
  | _ => none

variable (self : Collection)

def findOne_async (realm : Realm) (fuel : ℕ) (query : Option Json) : Prog Unit :=
  onCallback (fun error result => callBack error (first_object result)) (self.find_async realm fuel query)

def reIndex (realm : Realm) (fuel : ℕ) : Prog Unit := do
  let us ← self.find realm fuel none
  us.forM fun o => self.update_index .SAVE o

def reIndex_async (realm : Realm) (fuel : ℕ) : Prog Unit :=
  onCallback (fun _ o => do
    self.update_index .SAVE o
    callBack (some (.obj [])) none) (self.find_async realm fuel (some (.obj [])))

theorem reads_order_ids (fuel : ℕ) (ref : GloRef) : Only Call.Reads (order_ids fuel ref) :=
  only_order_ids (fun _ => trivial) fuel ref

theorem reads_retrieve_all (ids : List Json) : Only Call.Reads (self.retrieve_all ids) :=
  .mapM fun _ _ => .call trivial fun _ => .ret _

theorem reads_select (realm : Realm) (query : Option Json) (ids : List Json) :
    Only Call.Reads (self.select realm query ids) := by
  refine (reads_retrieve_all self ids).bind fun results => ?_
  cases query with
  | none => exact .pure _
  | some q =>
    dsimp only
    split_ifs
    · exact .pure _
    · exact .lift _

theorem reads_find (realm : Realm) (fuel : ℕ) (query : Option Json) :
    Only Call.Reads (self.find realm fuel query) := by
  have hids : Only Call.Reads (self.index_ids fuel (pop query)) := by
    cases pop query with
    | none => exact .pure _
    | some q =>
      refine (Only.lift _).bind fun ref => ?_
      cases ref with
      | none => exact .pure _
      | some ref => exact reads_order_ids fuel ref
  refine (Only.lift _).bind fun subscripts => hids.bind fun ids => ?_
  split_ifs
  · exact (Only.lift _).bind fun _ => (reads_order_ids fuel _).bind fun _ => reads_select self realm _ _
  · exact reads_select self realm _ _

theorem reads_spin_find (realm : Realm) (query : Option Json) (fuel : ℕ) (ref : GloRef) :
    Only Call.Reads (spin_find realm query fuel ref) := by
  induction fuel generalizing ref with
  | zero => exact .throw _
  | succ n ih =>
    have hrest : ∀ gr (found : Reply (.retrieve gr)) (keep : Bool), Only Call.Reads (do
        if keep then callBack found.error found.result
        spin_find realm query n gr) := by
      intro gr found keep
      cases keep with
      | true => exact (reads_callBack _ _).bind fun _ => ih _
      | false => exact ih _
    refine only_sync trivial fun r => ?_
    by_cases hend : r.result = .str []
    · rw [if_pos hend]
      exact .pure _
    · rw [if_neg hend]
      refine only_async trivial fun found => ?_
      cases query with
      | none => exact hrest _ found true
      | some q =>
        dsimp only
        split_ifs
        · exact hrest _ found true
        · exact (Only.lift _).bind fun keep => hrest _ found keep

def ScansAll (query : Option Json) : Prop := isEmptyObject (pop query) = true ∨ self.indexes = []

theorem reads_find_async (realm : Realm) (fuel : ℕ) {query : Option Json} (hquery : self.ScansAll query) :
    Only Call.Reads (self.find_async realm fuel query) := by
  have hpath : ¬ ((!isEmptyObject (pop query)) = true ∧ self.indexes ≠ []) := by
    rintro ⟨hquery', hindexes⟩
    rcases hquery with h | h
    · rw [h] at hquery'
      cases hquery'
    · exact hindexes h
  refine (Only.lift _).bind fun subscripts => ?_
  rw [if_neg hpath]
  exact (Only.lift _).bind fun _ => reads_spin_find realm _ fuel _

theorem reads_findOne_async (realm : Realm) (fuel : ℕ) {query : Option Json}
    (hquery : self.ScansAll query) : Only Call.Reads (self.findOne_async realm fuel query) :=
  only_onCallback (fun _ _ => reads_callBack _ _) (reads_find_async self realm fuel hquery)

/-- `other` stands for the methods that are not part of the model: those for SQL and for the
statistics set, update and increment nodes only. -/
inductive Operation
  | new (name : JsString) (fuel : ℕ)
  | count (self : Collection) (style : Style)
  | find (self : Collection) (style : Style) (realm : Realm) (fuel : ℕ) (query : Option Json)
  | findOne (self : Collection) (style : Style) (realm : Realm) (fuel : ℕ) (query : Option Json)
  | add (self : Collection) (style : Style) (object : Option Json)
  | save (self : Collection) (style : Style) (object : Option Json)
  | remove (self : Collection) (style : Style) (object : Option Json)
  | ensureIndex (self : Collection) (style : Style) (object : Props)
  | reIndex (self : Collection) (style : Style) (realm : Realm) (fuel : ℕ)
  | other (p : Prog Unit) (stays : Only Call.Stays p)

namespace Operation

def program : Operation → Prog Unit
  | .new name fuel => do let _ ← Collection.new name fuel
  | .count self .sync => do let _ ← self.count
  | .count self .async => self.count_async
  | .find self .sync realm fuel query => do let _ ← self.find realm fuel query
  | .find self .async realm fuel query => self.find_async realm fuel query
  | .findOne self .sync realm fuel query => do let _ ← self.findOne realm fuel query
  | .findOne self .async realm fuel query => self.findOne_async realm fuel query
  | .add self .sync object => do let _ ← self.add object
  | .add self .async object => do let _ ← self.add_async object
  | .save self .sync object => do let _ ← self.save object
  | .save self .async object => do let _ ← self.save_async object
  | .remove self .sync object => do let _ ← self.remove object
  | .remove self .async object => self.remove_async object
  | .ensureIndex self style object => do let _ ← self.ensureIndex style object
  | .reIndex self .sync realm fuel => self.reIndex realm fuel
  | .reIndex self .async realm fuel => self.reIndex_async realm fuel
  | .other p _ => p

def query? : Operation → Option (Collection × Option Json)
  | .find self .async _ _ query | .findOne self .async _ _ query => some (self, query)
  | _ => none

/-- The operation does not scan an index with a callback. -/
def Scans (op : Operation) : Prop := ∀ self query, op.query? = some (self, query) → self.ScansAll query

theorem reads_of_query {op : Operation} (hop : op.Scans) (hfind : op.query?.isSome) :
    Only Call.Reads op.program := by
  cases op with
  | find self style realm fuel query =>
    cases style with
    | sync => cases hfind
    | async => exact reads_find_async self realm fuel (hop self query rfl)
  | findOne self style realm fuel query =>
    cases style with
    | sync => cases hfind
    | async => exact reads_findOne_async self realm fuel (hop self query rfl)
  | _ => cases hfind

theorem program_stays {op : Operation} (hop : op.Scans) : Only Call.Stays op.program := by
  have hreads : ∀ {α : Type} {p : Prog α}, Only Call.Reads p → Only Call.Stays (do let _ ← p : Prog Unit) :=
    fun hp => (hp.mono fun _ hc => hc.stays).bind fun _ => .pure _
  have huses : ∀ {α : Type} {p : Prog α} {name}, Only (Uses name) p →
      Only Call.Stays (do let _ ← p : Prog Unit) :=
    fun hp => (hp.mono fun _ hc => hc.1).bind fun _ => .pure _
  cases op with
  | new name fuel => exact hreads ((reads_order_ids fuel _).bind fun _ => .pure _)
  | count self style =>
    cases style with
    | sync => exact hreads (only_sync trivial fun _ => .pure _)
    | async => exact (only_async trivial fun _ => reads_callBack _ _).mono fun _ hc => Call.Reads.stays hc
  | find self style realm fuel query =>
    cases style with
    | sync => exact hreads (reads_find self realm fuel query)
    | async => exact (reads_of_query hop rfl).mono fun _ hc => hc.stays
  | findOne self style realm fuel query =>
    cases style with
    | sync => exact hreads ((reads_find self realm fuel query).bind fun _ => .pure _)
    | async => exact (reads_of_query hop rfl).mono fun _ hc => hc.stays
  | add self style object =>
    cases style with
    | sync => exact huses (uses_add self object)
    | async => exact huses (uses_add_async self object)
  | save self style object =>
    cases style with
    | sync => exact huses (uses_save self object)
    | async => exact huses (uses_save_async self object)
  | remove self style object =>
    cases style with
    | sync => exact huses (uses_remove self object)
    | async => exact (uses_remove_async self object).mono fun _ hc => hc.1
  | ensureIndex self style object =>
    obtain ⟨α, p, c, haccess, -, huse⟩ := access_uses self (.ensureIndex style object)
    have hprogram : self.ensureIndex style object = (do let _ ← p; return c) := haccess
    rw [program, hprogram]
    exact huses (huse.bind fun _ => .pure _)
  | reIndex self style realm fuel =>
    cases style with
    | sync =>
      refine ((reads_find self realm fuel none).mono fun _ hc => hc.stays).bind fun us => .forM fun o _ => ?_
      exact (uses_update_index self _ _).mono fun _ hc => hc.1
    | async =>
      refine only_onCallback (fun _ o => ?_) ((reads_find_async self realm fuel (.inl rfl)).mono
        fun _ hc => hc.stays)
      exact ((uses_update_index self _ _).bind fun _ => uses_callBack self _ _).mono fun _ hc => hc.1
  | other p stays => exact stays

end Operation

end Collection

end GlobalsJs
