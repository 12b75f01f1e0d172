import GlobalsJs.Collection.Definitions

/-!
# Sessions of several clients

A session holds its collection, the turn that is going on and the adds that wait for the
database. The invariant is that everything under way ensures the entries it owes, whatever
the other sessions do meanwhile: entries only come in addition.
-/

namespace GlobalsJs
open Ecma Cache Query Calls.Prog

namespace Collection

/-- An object that is added, with the fields that were defined when `add` was called. -/
structure Addition where
  object : Props
  stored : Json
  required : List JsString

inductive Done
  | loaded (c : Collection)
  | ensured (c : Collection) (object : Props)
  | sent (a : Addition) (node : GloRef)
  | added (a : Addition)

structure Session where
  collection : Option Collection
  turn : Option (Prog Done)
  /-- Updates that were called and not made, and updates whose callback waits. -/
  sent : List (Addition × GloRef)
  answered : List (Addition × Option Json)

structure Sessions (σ ι : Type) where
  store : σ
  session : ι → Session
  defined : List JsString
  added : List Addition

inductive Turn (ι : Type)
  | load (i : ι) (fuel : ℕ)
  | ensureIndex (i : ι) (style : Style) (object : Props)
  | add (i : ι) (style : Style) (ps : Props)
  | callback (i : ι) (n : ℕ)
  | answer (i : ι) (n : ℕ)
  | call (i : ι)
  | finish (i : ι)

def start_add (c : Collection) (required : List JsString) (ps : Props) : Style → Prog Done
  | .sync => do
    let r ← c.add (some (.obj ps))
    return .added ⟨ps, r.object.getD .null, required⟩
  | .async => do
    let (stored, node) ← c.add_numbered (some (.obj ps))
    return .sent ⟨ps, stored, required⟩ node

def start_callback (c : Collection) (a : Addition) (error : Option Json) : Prog Done := do
  let _ ← c.add_written (some (.obj a.object)) a.stored error
  return .added a

namespace Sessions
variable {σ ι : Type} [DecidableEq ι]

def put (w : Sessions σ ι) (i : ι) (x : Session) : Sessions σ ι :=
  { w with session := Function.update w.session i x }

def complete (w : Sessions σ ι) (i : ι) : Done → Sessions σ ι
  | .loaded c => w.put i { w.session i with collection := some c, turn := none }
  | .ensured c object =>
    { w.put i { w.session i with collection := some c, turn := none } with
      defined := match keys object with
        | [f] => f :: w.defined
        | _ => w.defined }
  | .sent a node =>
    w.put i { w.session i with turn := none, sent := (w.session i).sent ++ [(a, node)] }
  | .added a =>
    { w.put i { w.session i with turn := none } with added := a :: w.added }

/-- A turn starts when the client has no other one. -/
def exec (b : Binding σ) (name : JsString) (w : Sessions σ ι) : Turn ι → Option (Sessions σ ι)
  | .load i fuel =>
    match w.session i with
    | ⟨none, none, sent, answered⟩ =>
      some (w.put i ⟨none, some (do return .loaded (← new name fuel)), sent, answered⟩)
    | _ => none
  | .ensureIndex i style object =>
    match w.session i with
    | ⟨some c, none, sent, answered⟩ =>
      some (w.put i ⟨some c, some (do return .ensured (← c.ensureIndex style object) object), sent, answered⟩)
    | _ => none
  | .add i style ps =>
    match w.session i with
    | ⟨some c, none, sent, answered⟩ =>
      some (w.put i ⟨some c, some (start_add c w.defined ps style), sent, answered⟩)
    | _ => none
  | .callback i n =>
    match w.session i with
    | ⟨some c, none, sent, answered⟩ =>
      answered[n]?.map fun r =>
        w.put i ⟨some c, some (start_callback c r.1 r.2), sent, answered.eraseIdx n⟩
    | _ => none
  | .answer i n =>
    (w.session i).sent[n]?.map fun r =>
      let reply := b (.update r.2 r.1.stored) w.store
      { w.put i { w.session i with
          sent := (w.session i).sent.eraseIdx n
          answered := (w.session i).answered ++ [(r.1, reply.2.error)] } with
        store := reply.1 }
  | .call i =>
    match (w.session i).turn with
    | some (.call c k) => some { w.put i { w.session i with turn := some (k (b c w.store).2) } with
        store := (b c w.store).1 }
    | _ => none
  | .finish i =>
    match (w.session i).turn with
    | some (.ret done) => some (w.complete i done)
    | some (.throw _) => some (w.put i { w.session i with turn := none })
    | _ => none

end Sessions

section
variable {σ κ ι : Type} [LinearOrder κ] [DecidableEq ι] {b : Binding σ} {view : σ → Globals κ}
  {sub : Json → κ} {name : JsString}

def Knows (c : Collection) (required : List JsString) (ps : Props) : Prop :=
  ∀ f ∈ required, (f = idKey ∨ (get ps f).isSome) → f ∈ c.fields

def Informed (w : Sessions σ ι) : Turn ι → Prop
  | .add i .sync ps => ∀ c, (w.session i).collection = some c → Knows c w.defined ps
  | .callback i n => ∀ c a error, (w.session i).collection = some c →
    (w.session i).answered[n]? = some (a, error) → Knows c a.required a.object
  | _ => True

def Addition.Numbered (a : Addition) : Prop := ∃ n : ℕ, a.stored = .obj (Collection.stored a.object n)

def Addition.Paid (view : σ → Globals κ) (sub : Json → κ) (name : JsString) (a : Addition) (s : σ) : Prop :=
  ∃ o, a.stored = .obj o ∧ Entered view sub (name ++ COLLECTION_INDEX_IDENTIFIER) a.required o s

/-- What a turn ensures. -/
def Done.Holds (view : σ → Globals κ) (sub : Json → κ) (name : JsString) (s : σ) : Done → Prop
  | .loaded c | .ensured c _ => c.name = name
  | .sent a node => node.global = name ∧ a.Numbered
  | .added a => a.Paid view sub name s

structure Session.Ok (b : Binding σ) (view : σ → Globals κ) (sub : Json → κ) (name : JsString)
    (x : Session) (s : σ) : Prop where
  names : ∀ c, x.collection = some c → c.name = name
  keeps : ∀ p, x.turn = some p → Only (Keeps b view (name ++ COLLECTION_INDEX_IDENTIFIER)) p
  ensures : ∀ p, x.turn = some p → Ensures b (Grows view (name ++ COLLECTION_INDEX_IDENTIFIER))
    (fun done t => done.Holds view sub name t) p s
  sent : ∀ a ∈ x.sent, a.2.global = name ∧ a.1.Numbered
  answered : ∀ a ∈ x.answered, a.1.Numbered

structure Sessions.Ok (b : Binding σ) (view : σ → Globals κ) (sub : Json → κ) (name : JsString)
    (w : Sessions σ ι) : Prop where
  session : ∀ i, (w.session i).Ok b view sub name w.store
  added : ∀ a ∈ w.added, a.Paid view sub name w.store

omit [LinearOrder κ] in
theorem Addition.Paid.grows {a : Addition} {s t : σ} (ha : a.Paid view sub name s)
    (hst : Grows view (name ++ COLLECTION_INDEX_IDENTIFIER) s t) : a.Paid view sub name t := by
  obtain ⟨o, ho, hentered⟩ := ha
  exact ⟨o, ho, hentered.grows hst⟩

omit [LinearOrder κ] in
theorem Session.Ok.grows {x : Session} {s t : σ} (hx : x.Ok b view sub name s)
    (hst : Grows view (name ++ COLLECTION_INDEX_IDENTIFIER) s t) : x.Ok b view sub name t where
  names := hx.names
  keeps := hx.keeps
  ensures p hp := by
    refine (hx.ensures p hp).later grows_trans (fun done u v huv hdone => ?_) hst
    cases done with
    | loaded | ensured | sent => exact hdone
    | added a => exact Addition.Paid.grows hdone huv
  sent := hx.sent
  answered := hx.answered

omit [LinearOrder κ] in
theorem Sessions.Ok.put {w : Sessions σ ι} (hw : w.Ok b view sub name) {i : ι} {x : Session} {s : σ}
    {defined : List JsString} {added : List Addition}
    (hgrows : Grows view (name ++ COLLECTION_INDEX_IDENTIFIER) w.store s)
    (hx : x.Ok b view sub name s) (hadded : ∀ a ∈ added, a ∈ w.added ∨ a.Paid view sub name s) :
    Sessions.Ok b view sub name ⟨s, Function.update w.session i x, defined, added⟩ where
  session j := by
    by_cases hji : j = i
    · subst hji
      simpa using hx
    · simpa [hji] using (hw.session j).grows hgrows
  added a ha := (hadded a ha).elim (fun hbefore => (hw.added a hbefore).grows hgrows) fun h => h

omit [LinearOrder κ] in
theorem Sessions.Ok.start {w : Sessions σ ι} (hw : w.Ok b view sub name) {i : ι} {x : Session}
    {p : Prog Done} {answered : List (Addition × Option Json)} (hsession : w.session i = x)
    (hkeeps : Only (Keeps b view (name ++ COLLECTION_INDEX_IDENTIFIER)) p)
    (hensures : Ensures b (Grows view (name ++ COLLECTION_INDEX_IDENTIFIER))
      (fun done t => done.Holds view sub name t) p w.store)
    (hanswered : ∀ a ∈ answered, a ∈ x.answered) :
    (w.put i { x with turn := some p, answered := answered }).Ok b view sub name := by
  have hx := hw.session i
  rw [hsession] at hx
  refine hw.put (grows_refl _ _) ⟨hx.names, fun q hq => ?_, fun q hq => ?_, hx.sent,
    fun a ha => hx.answered a (hanswered a ha)⟩ fun a ha => .inl ha
  · obtain rfl := Option.some.inj hq
    exact hkeeps
  · obtain rfl := Option.some.inj hq
    exact hensures

omit [LinearOrder κ] in
theorem Session.Ok.idle {x : Session} {s : σ} (hx : x.Ok b view sub name s) :
    Session.Ok b view sub name { x with turn := none } s where
  names := hx.names
  keeps p hp := by cases hp
  ensures p hp := by cases hp
  sent := hx.sent
  answered := hx.answered

omit [LinearOrder κ] in
theorem Sessions.Ok.complete {w : Sessions σ ι} (hw : w.Ok b view sub name) {i : ι} {done : Done}
    (hdone : done.Holds view sub name w.store) : (w.complete i done).Ok b view sub name := by
  have hidle := (hw.session i).idle
  cases done with
  | loaded c | ensured c object =>
    refine hw.put (grows_refl _ _) ⟨fun d hd => ?_, hidle.keeps, hidle.ensures, hidle.sent,
      hidle.answered⟩ fun a ha => .inl ha
    obtain rfl := Option.some.inj hd
    exact hdone
  | sent a node =>
    refine hw.put (grows_refl _ _) ⟨hidle.names, hidle.keeps, hidle.ensures, fun r hr => ?_,
      hidle.answered⟩ fun a ha => .inl ha
    rcases List.mem_append.mp hr with hr | hr
    · exact hidle.sent r hr
    · rw [List.mem_singleton.mp hr]
      exact hdone
  | added a =>
    refine hw.put (grows_refl _ _) hidle fun r hr => ?_
    rcases List.mem_cons.mp hr with rfl | hr
    · exact .inr hdone
    · exact .inl hr

omit [LinearOrder κ] in
theorem Sessions.Ok.call {w : Sessions σ ι} (hw : w.Ok b view sub name) {i : ι} {c : Call}
    {k : Reply c → Prog Done} (hturn : (w.session i).turn = some (.call c k)) :
    Sessions.Ok b view sub name
      { w.put i { w.session i with turn := some (k (b c w.store).2) } with store := (b c w.store).1 } := by
  have hx := hw.session i
  have hstep := hx.ensures _ hturn w.store (grows_refl _ _)
  cases hx.keeps _ hturn with
  | call hc hk =>
    have hy := hx.grows (hc w.store)
    refine hw.put (hc w.store) ⟨hy.names, fun p hp => ?_, fun p hp => ?_, hy.sent, hy.answered⟩
      fun a ha => .inl ha
    · obtain rfl := Option.some.inj hp
      exact hk _
    · obtain rfl := Option.some.inj hp
      exact hstep

omit [LinearOrder κ] in
theorem paid_of_knows {c : Collection} {required : List JsString} {ps : Props} (hknows : Knows c required ps)
    {n : ℕ} {s : σ} (hs : Entered view sub (c.name ++ COLLECTION_INDEX_IDENTIFIER) c.fields (stored ps n) s) :
    Addition.Paid view sub c.name ⟨ps, .obj (stored ps n), required⟩ s := by
  refine ⟨stored ps n, rfl, fun f hf v id hv => hs f (hknows f hf ?_) v id hv⟩
  by_cases hfid : f = idKey
  · exact .inl hfid
  · rw [stored, get_put, if_neg hfid] at hv
    exact .inr (by rw [hv]; rfl)

section
variable (law : Lawful b view sub) (hlocal : Local b view) (hset : SetKeeps b view)

include hlocal hset in
omit [LinearOrder κ] in
theorem keeps_start_add (c : Collection) (required : List JsString) (ps : Props) (style : Style) :
    Only (Keeps b view (c.name ++ COLLECTION_INDEX_IDENTIFIER)) (start_add c required ps style) := by
  cases style with
  | sync => exact (keeps_add hlocal hset c _).bind fun _ => .pure _
  | async => exact (keeps_add_numbered hlocal c _).bind fun _ => .pure _

include law hset in
theorem ensures_start_add {c : Collection} {required : List JsString} {ps : Props} {style : Style}
    (hknows : style = .sync → Knows c required ps) (s : σ) :
    Ensures b (Grows view (c.name ++ COLLECTION_INDEX_IDENTIFIER))
      (fun done t => done.Holds view sub c.name t) (start_add c required ps style) s := by
  cases style with
  | sync =>
    refine (ensures_add law hset c ps s).bind fun r t hr => ?_
    obtain ⟨n, hobject, hentered⟩ := hr
    rw [hobject]
    exact paid_of_knows (hknows rfl) hentered
  | async => exact (ensures_add_numbered law c ps _ s).bind fun r t hr => hr

include law hset in
theorem ensures_start_callback {c : Collection} {a : Addition} (ha : a.Numbered)
    (hknows : Knows c a.required a.object) (error : Option Json) (s : σ) :
    Ensures b (Grows view (c.name ++ COLLECTION_INDEX_IDENTIFIER))
      (fun done t => done.Holds view sub c.name t) (start_callback c a error) s := by
  obtain ⟨n, hn⟩ := ha
  rw [start_callback, hn]
  refine (ensures_add_written law hset c error s).bind fun _ t ht => ?_
  have hpaid := paid_of_knows hknows ht
  rw [← hn] at hpaid
  exact hpaid

include hlocal in
omit [LinearOrder κ] in
theorem Sessions.Ok.answer {w : Sessions σ ι} (hw : w.Ok b view sub name) {i : ι} {n : ℕ}
    {a : Addition} {node : GloRef} (hget : (w.session i).sent[n]? = some (a, node)) :
    Sessions.Ok b view sub name
      { w.put i { w.session i with
          sent := (w.session i).sent.eraseIdx n
          answered := (w.session i).answered ++ [(a, (b (.update node a.stored) w.store).2.error)] } with
        store := (b (.update node a.stored) w.store).1 } := by
  have hx := hw.session i
  obtain ⟨rfl, hnumbered⟩ := hx.sent _ (List.mem_of_getElem? hget)
  have hne : node.global ≠ node.global ++ COLLECTION_INDEX_IDENTIFIER :=
    index_global_ne ⟨node.global, []⟩
  have hglobal : (Call.update node a.stored).global ≠ some (node.global ++ COLLECTION_INDEX_IDENTIFIER) :=
    fun h => hne (Option.some.inj h)
  have hgrows : Grows view (node.global ++ COLLECTION_INDEX_IDENTIFIER) w.store
      (b (.update node a.stored) w.store).1 := keeps_of_ne hlocal hglobal w.store
  have hy := hx.grows hgrows
  refine hw.put hgrows ⟨hy.names, hy.keeps, hy.ensures, fun r hr => ?_, fun r hr => ?_⟩
    fun a ha => .inl ha
  · exact hy.sent r (List.mem_of_mem_eraseIdx hr)
  · rcases List.mem_append.mp hr with hr | hr
    · exact hy.answered r hr
    · rw [List.mem_singleton.mp hr]
      exact hnumbered

include law hlocal hset

theorem sessions_exec {w w' : Sessions σ ι} {e : Turn ι} (hw : w.Ok b view sub name)
    (hinformed : Informed w e) (hexec : w.exec b name e = some w') : w'.Ok b view sub name := by
  cases e with
  | load i fuel =>
    simp only [Sessions.exec] at hexec
    split at hexec
    · rename_i sent answered hsession
      obtain rfl := Option.some.inj hexec
      refine hw.start hsession ((keeps_new law name _ fuel).bind fun _ => .pure _) ?_ fun a ha => ha
      exact (ensures_new name fuel _ _).bind fun c t hc => hc
    · cases hexec
  | ensureIndex i style object =>
    simp only [Sessions.exec] at hexec
    split at hexec
    · rename_i c sent answered hsession
      obtain rfl := Option.some.inj hexec
      obtain rfl := (hw.session i).names c (by rw [hsession])
      refine hw.start hsession ((keeps_ensureIndex hlocal hset c style object).bind fun _ => .pure _) ?_
        fun a ha => ha
      exact (ensures_ensureIndex c style object _ _).bind fun d t hd => hd
    · cases hexec
  | add i style ps =>
    simp only [Sessions.exec] at hexec
    split at hexec
    · rename_i c sent answered hsession
      obtain rfl := Option.some.inj hexec
      obtain rfl := (hw.session i).names c (by rw [hsession])
      refine hw.start hsession (keeps_start_add hlocal hset c _ ps style) ?_ fun a ha => ha
      refine ensures_start_add law hset (fun hsync => ?_) w.store
      subst hsync
      exact hinformed c (by rw [hsession])
    · cases hexec
  | callback i n =>
    simp only [Sessions.exec] at hexec
    split at hexec
    · rename_i c sent answered hsession
      obtain ⟨⟨a, error⟩, hget, rfl⟩ := Option.map_eq_some_iff.mp hexec
      have hx := hw.session i
      rw [hsession] at hx
      obtain rfl := hx.names c rfl
      have hknows := hinformed c a error (by rw [hsession]) (by rw [hsession]; exact hget)
      refine hw.start hsession ((keeps_add_written hlocal hset c _ _ _).bind fun _ => .pure _) ?_
        fun r hr => List.mem_of_mem_eraseIdx hr
      exact ensures_start_callback law hset (hx.answered _ (List.mem_of_getElem? hget)) hknows error w.store
    · cases hexec
  | answer i n =>
    obtain ⟨⟨a, node⟩, hget, rfl⟩ := Option.map_eq_some_iff.mp hexec
    exact hw.answer hlocal hget
  | call i =>
    simp only [Sessions.exec] at hexec
    split at hexec
    · rename_i c k hturn
      obtain rfl := Option.some.inj hexec
      exact hw.call hturn
    · cases hexec
  | finish i =>
    simp only [Sessions.exec] at hexec
    split at hexec
    · rename_i done hturn
      obtain rfl := Option.some.inj hexec
      exact hw.complete ((hw.session i).ensures _ hturn)
    · obtain rfl := Option.some.inj hexec
      exact hw.put (grows_refl _ _) (hw.session i).idle fun a ha => .inl ha
    · cases hexec

end

/-- All turns of a run meet the condition in the state they are taken in. -/
def AllInformed (b : Binding σ) (name : JsString) : List (Turn ι) → Sessions σ ι → Prop
  | [], _ => True
  | e :: es, w => Informed w e ∧ ∀ w', w.exec b name e = some w' → AllInformed b name es w'

/-- The clients before they have loaded their indexes. -/
def Sessions.start (s : σ) : Sessions σ ι := ⟨s, fun _ => ⟨none, none, [], []⟩, [], []⟩

theorem sessions_run (law : Lawful b view sub) (hlocal : Local b view) (hset : SetKeeps b view)
    {es : List (Turn ι)} {w w' : Sessions σ ι} (hw : w.Ok b view sub name)
    (hinformed : AllInformed b name es w) (hrun : es.foldlM (fun w e => w.exec b name e) w = some w') :
    w'.Ok b view sub name := by
  induction es generalizing w with
  | nil =>
    rw [← Option.some.inj hrun]
    exact hw
  | cons e es ih =>
    rw [List.foldlM_cons] at hrun
    cases hexec : w.exec b name e with
    | none =>
      rw [hexec] at hrun
      cases hrun
    | some w₁ =>
      rw [hexec] at hrun
      exact ih (sessions_exec law hlocal hset hw hinformed.1 hexec) (hinformed.2 w₁ hexec) hrun

omit [LinearOrder κ] [DecidableEq ι] in
theorem sessions_start (s : σ) : (Sessions.start s : Sessions σ ι).Ok b view sub name := by
  refine ⟨fun i => ⟨fun c hc => ?_, fun p hp => ?_, fun p hp => ?_, fun a ha => ?_, fun a ha => ?_⟩,
    fun a ha => ?_⟩
  · cases hc
  · cases hp
  · cases hp
  · cases ha
  · cases ha
  · cases ha

/-- In every state that is reached, every added object has an entry for each of its fields
that was defined when it was added. -/
theorem definition_binds_clients (law : Lawful b view sub) (hlocal : Local b view)
    (hset : SetKeeps b view) (name : JsString) (s : σ) {es : List (Turn ι)} {w : Sessions σ ι}
    (hinformed : AllInformed b name es (.start s))
    (hrun : es.foldlM (fun w e => w.exec b name e) (Sessions.start s) = some w) {a : Addition}
    (ha : a ∈ w.added) : ∃ o, a.stored = .obj o ∧ ∀ f ∈ a.required, ∀ v id, get o f = some v →
      get o idKey = some id → f ≠ [] → Scalar v → Scalar id →
        (view w.store).node (name ++ COLLECTION_INDEX_IDENTIFIER) [sub (.str f), sub v, sub id] :=
  (sessions_run law hlocal hset (sessions_start s) hinformed hrun).added a ha

end

theorem allInformed_cons {σ ι : Type} [DecidableEq ι] {b : Binding σ} {name : JsString} {e : Turn ι}
    {es : List (Turn ι)} {w w' : Sessions σ ι} (he : Informed w e) (hexec : w.exec b name e = some w')
    (hes : AllInformed b name es w') : AllInformed b name (e :: es) w :=
  ⟨he, fun _ h₁ => Option.some.inj (hexec.symm.trans h₁) ▸ hes⟩

def informedTurns : List (Turn (Fin 2)) := [.load 0 1, .call 0, .finish 0,
  .ensureIndex 0 .sync [(js "age", .ofInt 1)], .call 0, .finish 0,
  .load 1 2, .call 1, .call 1, .finish 1,
  .add 1 .sync (ann 30), .call 1, .call 1, .call 1, .finish 1]

def uninformedTurns : List (Turn (Fin 2)) := [.load 0 1, .call 0, .finish 0, .load 1 1, .call 1, .finish 1,
  .ensureIndex 0 .sync [(js "age", .ofInt 1)], .call 0, .finish 0,
  .add 1 .sync (ann 30), .call 1, .call 1, .finish 1]

theorem definition_binds_two :
    ∃ w a, informedTurns.foldlM (fun w e => w.exec Disk.binding (js "people") e)
        (Sessions.start Disk.empty) = some w ∧ w.added = [a] ∧ a.required = [js "age"] ∧
      ∃ o, a.stored = .obj o ∧ ∀ f ∈ a.required, ∀ v id, get o f = some v → get o idKey = some id →
        f ≠ [] → Scalar v → Scalar id →
          (Disk.view w.store).node (js "people" ++ COLLECTION_INDEX_IDENTIFIER) [.of (.str f), .of v, .of id] := by
  have hinformed : AllInformed Disk.binding (js "people") informedTurns (.start Disk.empty) := by
    have hknows : ∀ c, (⟨js "people", [[(js "age", .ofInt 1)]]⟩ : Collection) = c →
        Knows c [js "age"] (ann 30) := by
      rintro c rfl f hf -
      rw [List.mem_singleton.mp hf]
      decide
    refine allInformed_cons trivial rfl (allInformed_cons trivial rfl (allInformed_cons trivial rfl ?_))
    refine allInformed_cons trivial rfl (allInformed_cons trivial rfl (allInformed_cons trivial rfl ?_))
    refine allInformed_cons trivial rfl (allInformed_cons trivial rfl (allInformed_cons trivial rfl ?_))
    refine allInformed_cons trivial rfl (allInformed_cons (fun c hc => hknows c (Option.some.inj hc)) rfl ?_)
    refine allInformed_cons trivial rfl (allInformed_cons trivial rfl (allInformed_cons trivial rfl ?_))
    exact allInformed_cons trivial rfl trivial
  refine ⟨_, _, rfl, rfl, rfl, ?_⟩
  exact definition_binds_clients Disk.lawful Disk.isLocal Disk.setKeeps (js "people") Disk.empty hinformed
    rfl List.mem_cons_self

theorem definition_not_seen :
    ∃ w, uninformedTurns.foldlM (fun w e => w.exec Disk.binding (js "people") e)
        (Sessions.start Disk.empty) = some w ∧
      w.added = [⟨ann 30, .obj (stored (ann 30) 1), [js "age"]⟩] ∧
      ¬ (Disk.view w.store).node (js "people1gdb") [.of (.str (js "age")), .of (.ofInt 30), .of (.ofInt 1)] := by
  refine ⟨_, rfl, rfl, ?_⟩
  decide +kernel

end Collection

end GlobalsJs
