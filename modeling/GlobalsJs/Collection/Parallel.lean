import GlobalsJs.Calls.Pool
import GlobalsJs.Collection.AsyncFind
import GlobalsJs.Collection.Failures
import GlobalsJs.Collection.Operations

/-!
# Operations that share a connection

The operations of one `Db` take turns on its connection, a call at a time. As long as no
find with a callback scans an index, nothing but `Db.close` closes it, and every find
delivers what it delivers alone. A scan of an index closes the connection when it ends.
-/

namespace GlobalsJs
open Ecma Cache Query Calls Calls.Prog

namespace Cache
variable {σ : Type}

def connected (b : Binding σ) (refuse : (c : Call) → Reply c) : Binding (σ × Bool)
  | .callback _ _, s => (s, ⟨none, ()⟩)
  | .close, s => if s.2 then (((b .close s.1).1, false), (b .close s.1).2) else (s, refuse .close)
  | c, s => if s.2 then (((b c s.1).1, true), (b c s.1).2) else (s, refuse c)

def KeepsOnRead (b : Binding σ) : Prop :=
  (∀ s ref, (b (.order ref) s).1 = s ∧ (b (.retrieve ref) s).1 = s ∧ (b (.get ref) s).1 = s) ∧
    ∀ s, (b .orderNothing s).1 = s

variable {b : Binding σ} {refuse : (c : Call) → Reply c}

theorem connected_stays {c : Call} (hc : c.Stays) (s : σ) (calls : List Callback) :
    recording (connected b refuse) c ((s, true), calls) =
      ((((recording b c (s, calls)).1.1, true), (recording b c (s, calls)).1.2),
        (recording b c (s, calls)).2) := by
  cases c with
  | close => exact absurd rfl hc
  | callback | set | kill | killGlobal | increment | update | order | orderNothing | retrieve | get => rfl

theorem connected_reads (hreads : KeepsOnRead b) {c : Call} (hc : c.Reads) (s : σ × Bool)
    (calls : List Callback) : (recording (connected b refuse) c (s, calls)).1.1 = s := by
  obtain ⟨s, opened⟩ := s
  cases c with
  | callback => rfl
  | set | kill | killGlobal | increment | update | close => cases hc
  | order ref | retrieve ref | get ref | orderNothing =>
    cases opened with
    | false => rfl
    | true => simp [recording, connected, hreads.1, hreads.2]

theorem run_connected {α : Type} {p : Prog α} (hp : Only Call.Stays p) (s : σ) (calls : List Callback) :
    run (recording (connected b refuse)) p ((s, true), calls) =
      ((((run (recording b) p (s, calls)).1.1, true), (run (recording b) p (s, calls)).1.2),
        (run (recording b) p (s, calls)).2) := by
  induction hp generalizing s calls with
  | ret a => rfl
  | throw e => rfl
  | call hc _ ih =>
    rw [run_call, connected_stays hc]
    exact ih _ _ _

end Cache

namespace Collection
variable {σ : Type}

abbrev Underway (σ : Type) := Task Call Reply Stop Operation (σ × Bool) (List Callback)

/-- A `Db` and the operations on it that are under way. The connection is open or closed. -/
abbrev Running (σ : Type) := Pool Call Reply Stop Operation (σ × Bool) (List Callback)

inductive Move
  | start (op : Operation)
  | step (i : ℕ)
  | close

def perform (b : Binding σ) (refuse : (c : Call) → Reply c) (w : Running σ) : Move → Running σ
  | .start op => w.start Operation.program [] op
  | .step i => w.step (recording (connected b refuse)) i
  | .close => { w with shared := (connected b refuse .close w.shared).1 }

def connect (s : σ) : Running σ := ⟨(s, true), []⟩

def DeliversAlone (b : Binding σ) (t : Underway σ) : Prop :=
  ∀ u, (∀ s ∈ t.seen, s.1 = u) →
    run (recording b) t.op.program (u, []) = run (recording b) t.rest (u, t.own)

/-- The connection is open and was open at every call, the finds are not disturbed, and later
operations work. -/
structure Undisturbed (b : Binding σ) (refuse : (c : Call) → Reply c) (w : Running σ) : Prop where
  opened : w.shared.2 = true
  answered : ∀ t ∈ w.tasks, ∀ s ∈ t.seen, s.2 = true
  finds : ∀ t ∈ w.tasks, t.op.query?.isSome → DeliversAlone b t
  later : ∀ op : Operation, op.Scans →
    run (recording (connected b refuse)) op.program (w.shared, []) =
      ((((run (recording b) op.program (w.shared.1, [])).1.1, true),
        (run (recording b) op.program (w.shared.1, [])).1.2),
        (run (recording b) op.program (w.shared.1, [])).2)

structure Untroubled (b : Binding σ) (refuse : (c : Call) → Reply c)
    (t : Underway σ) : Prop where
  scans : t.op.Scans
  stays : Only Call.Stays t.rest
  answered : ∀ s ∈ t.seen, s.2 = true
  finds : t.op.query?.isSome → Only Call.Reads t.rest ∧
    t.AsIfAlone (recording (connected b refuse)) Operation.program []

variable {b : Binding σ} {refuse : (c : Call) → Reply c}

theorem untroubled_start {op : Operation} (hop : op.Scans) :
    Untroubled b refuse ⟨op, op.program, [], []⟩ where
  scans := hop
  stays := Operation.program_stays hop
  answered := by simp
  finds hfind := ⟨Operation.reads_of_query hop hfind, Task.asIfAlone_start _ _ _⟩

theorem untroubled_advance (hreads : KeepsOnRead b)
    {t : Underway σ} {s : σ × Bool} (hs : s.2 = true)
    (ht : Untroubled b refuse t) :
    (t.advance (recording (connected b refuse)) s).1.2 = true ∧
      Untroubled b refuse (t.advance (recording (connected b refuse)) s).2 := by
  have hop := t.advance_op (recording (connected b refuse)) s
  refine ⟨Task.advance_shared (I := fun s : σ × Bool => s.2 = true) ht.stays (fun c hc s calls hs => ?_) hs,
    by rw [hop]; exact ht.scans, Task.advance_only ht.stays s,
    Task.advance_seen (I := fun s : σ × Bool => s.2 = true) ht.answered hs, fun hfind => ?_⟩
  · obtain ⟨s, _⟩ := s
    cases hs
    rw [connected_stays hc]
  · rw [hop] at hfind
    obtain ⟨hrest, halone⟩ := ht.finds hfind
    exact ⟨Task.advance_only hrest s,
      Task.advance_asIfAlone hrest (fun c hc s calls => connected_reads hreads hc s calls) halone s⟩

theorem Untroubled.deliversAlone {t : Underway σ}
    (ht : Untroubled b refuse t) (hfind : t.op.query?.isSome) : DeliversAlone b t := by
  intro u hu
  have halone := (ht.finds hfind).2 (u, true) fun s hs => Prod.ext (hu s hs) (ht.answered s hs)
  rw [run_connected (Operation.program_stays ht.scans), run_connected ht.stays] at halone
  obtain ⟨hstate, hresult⟩ := Prod.mk.inj halone
  obtain ⟨hshared, hcalls⟩ := Prod.mk.inj hstate
  exact Prod.ext (Prod.ext (Prod.mk.inj hshared).1 hcalls) hresult

theorem perform_untroubled (hreads : KeepsOnRead b) {w : Running σ} {m : Move}
    (hstart : ∀ op, m = .start op → op.Scans) (hclose : m ≠ .close) (hshared : w.shared.2 = true)
    (htasks : ∀ t ∈ w.tasks, Untroubled b refuse t) :
    (perform b refuse w m).shared.2 = true ∧ ∀ t ∈ (perform b refuse w m).tasks, Untroubled b refuse t := by
  cases m with
  | start op => exact ⟨hshared, Pool.start_keeps (untroubled_start (hstart op rfl)) htasks⟩
  | step i =>
    exact Pool.step_keeps (I := fun s : σ × Bool => s.2 = true)
      (fun t s hs ht => untroubled_advance hreads hs ht) hshared htasks i
  | close => exact absurd rfl hclose

/-- By induction on the moves: only `Db.close` and scans of an index close the connection. -/
theorem connection_stays_open (hreads : KeepsOnRead b) (refuse : (c : Call) → Reply c) (s : σ)
    {moves : List Move} (hscans : ∀ op, .start op ∈ moves → op.Scans) (hclose : .close ∉ moves) :
    Undisturbed b refuse (moves.foldl (perform b refuse) (connect s)) := by
  have hrun : ∀ (w : Running σ), w.shared.2 = true → (∀ t ∈ w.tasks, Untroubled b refuse t) →
      (moves.foldl (perform b refuse) w).shared.2 = true ∧
        ∀ t ∈ (moves.foldl (perform b refuse) w).tasks, Untroubled b refuse t := by
    induction moves with
    | nil => exact fun w hshared htasks => ⟨hshared, htasks⟩
    | cons m moves ih =>
      intro w hshared htasks
      obtain ⟨hshared, htasks⟩ := perform_untroubled hreads
        (fun op hm => hscans op (hm ▸ List.mem_cons_self)) (fun hm => hclose (hm ▸ List.mem_cons_self))
        hshared htasks
      exact ih (fun op hop => hscans op (List.mem_cons_of_mem m hop))
        (fun hmem => hclose (List.mem_cons_of_mem m hmem)) _ hshared htasks
  obtain ⟨hshared, htasks⟩ := hrun (connect s) rfl (by simp [connect])
  refine ⟨hshared, fun t ht => (htasks t ht).answered, fun t ht hfind => (htasks t ht).deliversAlone hfind,
    fun op hop => ?_⟩
  generalize (moves.foldl (perform b refuse) (connect s)).shared = shared at hshared ⊢
  obtain ⟨u, _⟩ := shared
  cases hshared
  exact run_connected (Operation.program_stays hop) u []

theorem keepsOnRead_disk : KeepsOnRead Disk.binding := ⟨Disk.lawful.reads, fun _ => rfl⟩

def scanningFinds : List Move :=
  [.start (.find people .async Realm.bare 5 (some (.obj []))),
    .start (.find people .async Realm.bare 5 (some (.obj []))), .step 0, .step 1, .step 1,
    .start (.count people .sync), .step 2, .step 0, .step 0, .step 1]

theorem connection_stays_open_residents :
    Undisturbed Disk.binding refusal (scanningFinds.foldl (perform Disk.binding refusal) (connect residents)) := by
  refine connection_stays_open keepsOnRead_disk refusal residents (fun op hop self query hquery => ?_)
    (by simp [scanningFinds])
  simp only [scanningFinds, List.mem_cons, Move.start.injEq, reduceCtorEq, List.not_mem_nil, or_false,
    false_or] at hop
  rcases hop with rfl | rfl | rfl
  · cases hquery
    exact .inl rfl
  · cases hquery
    exact .inl rfl
  · cases hquery

theorem run_order_open (hno : ∀ c s, (b c s).2.error = none) (refuse : (c : Call) → Reply c) (ref : Option GloRef) (s : σ)
    (calls : List Callback) : ∃ u o, run (recording (connected b refuse)) (order_async ref) ((s, true), calls) =
      (((u, true), calls), .ok (none, o)) := by
  cases ref with
  | none =>
    refine ⟨(b .orderNothing s).1, (b .orderNothing s).2.result, ?_⟩
    rw [← hno .orderNothing s]
    rfl
  | some ref =>
    refine ⟨(b (.order ref) s).1, (b (.order ref) s).2.result, ?_⟩
    rw [← hno (.order ref) s]
    rfl

theorem spin_find_index_closes (hno : ∀ c s, (b c s).2.error = none) (self : Collection) {fuel : ℕ}
    {ref : Option GloRef} {s : σ} {calls : List Callback} {t : (σ × Bool) × List Callback}
    (h : run (recording (connected b refuse)) (self.spin_find_index fuel ref) ((s, true), calls) = (t, .ok ())) :
    t.1.2 = false := by
  induction fuel generalizing ref s calls with
  | zero => cases (Prod.mk.inj h).2
  | succ n ih =>
    obtain ⟨u, o, horder⟩ := run_order_open hno refuse ref s calls
    rw [spin_find_index, run_bind_ok horder] at h
    have hok : ¬ truthy (none : Option Json) = true := by decide
    dsimp only at h
    rw [if_neg hok] at h
    by_cases hend : o.result = .str []
    · rw [if_pos hend] at h
      rw [← (Prod.mk.inj h).1]
      rfl
    · rw [if_neg hend] at h
      exact ih (s := (b (.retrieve ⟨self.name, [some o.result]⟩) u).1) h

/-- A find with a callback that ends has left the connection open exactly when it went through
all objects. -/
theorem find_keeps_open_iff (hno : ∀ c s, (b c s).2.error = none) (self : Collection) (realm : Realm)
    {fuel : ℕ} {query : Option Json} {s : σ} {t : (σ × Bool) × List Callback}
    (h : run (recording (connected b refuse)) (self.find_async realm fuel query) ((s, true), []) =
      (t, .ok ())) : t.1.2 = true ↔ self.ScansAll query := by
  by_cases hscans : self.ScansAll query
  · refine iff_of_true ?_ hscans
    rw [run_connected ((reads_find_async self realm fuel hscans).mono fun _ hc => hc.stays)] at h
    rw [← (Prod.mk.inj h).1]
  · refine iff_of_false ?_ hscans
    have hpath : (!isEmptyObject (pop query)) = true ∧ self.indexes ≠ [] := by
      simpa [ScansAll, not_or] using hscans
    unfold find_async at h
    dsimp only at h
    rw [run_bind, run_liftM] at h
    cases hsubs : query_subscripts (pop query) with
    | error e => rw [hsubs] at h; cases (Prod.mk.inj h).2
    | ok subscripts =>
      simp only [hsubs, Except.mapError, if_pos hpath] at h
      rw [run_bind, run_liftM] at h
      cases hbuild : self.build_index_glo_ref_from_query ((pop query).getD .null) with
      | error e => rw [hbuild] at h; cases (Prod.mk.inj h).2
      | ok ref =>
        simp only [hbuild, Except.mapError] at h
        simp [spin_find_index_closes hno self h]

def indexedFinds : List Move :=
  let find := .find people .async Realm.bare 5 (some (.obj (ann 30)))
  [.start find, .start find, .step 0, .step 1, .step 0, .step 0, .step 0, .step 0,
    .step 1, .step 1, .step 1, .step 1]

/-- Nobody has called `Db.close`, and yet the connection is closed: the second find delivers
nothing and an error instead of the object, and a count finds no counter. -/
theorem indexed_find_disturbs :
    let w := indexedFinds.foldl (perform Disk.binding refusal) (connect residents)
    let found := some (.obj (stored (resident 30) 1))
    Move.close ∉ indexedFinds ∧ w.shared.2 = false ∧ ¬ Undisturbed Disk.binding refusal w ∧
    w.tasks.map (fun t => t.own.map Callback.result) = [[found], [none, some (.obj [])]] ∧
    (run (recording Disk.binding) (people.find_async Realm.bare 5 (some (.obj (ann 30))))
      (residents, [])).1.2.map Callback.result = [found] ∧
    (run Disk.binding people.count residents).2 = .ok (.ofInt 2) ∧
    (run (connected Disk.binding refusal) people.count w.shared).2 = .ok (.ofInt 0) := by
  have hclosed : (indexedFinds.foldl (perform Disk.binding refusal) (connect residents)).shared.2 = false := by
    decide +kernel
  refine ⟨by simp [indexedFinds], hclosed, fun h => ?_, by decide +kernel, by decide +kernel, by decide +kernel,
    by decide +kernel⟩
  rw [h.opened] at hclosed
  cases hclosed

end Collection

end GlobalsJs
