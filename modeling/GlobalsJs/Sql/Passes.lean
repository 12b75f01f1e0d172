import GlobalsJs.Sql.Requests

/-!
# Passes of the loop

A pass that has slept starts the next one. The loop ends at the node `lastid`, which it
sets itself when it has served a request, and every pass starts from the first request:
the number of the last one is looked for in a global of another name. So a request whose
class was not generated is served again.
-/

namespace GlobalsJs.Sql
open Ecma

variable {κ : Type} [LinearOrder κ] (text : κ → JsString)

def passes : (ℕ → ℕ → Dictionary) → ℕ → SqlGlobal κ → List (SqlGlobal κ × Pass κ)
  | _, 0, _ => []
  | dictionary, n + 1, q =>
    let p := deamon text (dictionary 0) none q
    (q, p) :: if p.ending = .slept then passes (fun i => dictionary (i + 1)) n p.state else []

def processed (runs : List (SqlGlobal κ × Pass κ)) : List ℕ :=
  runs.flatMap fun run => run.2.handled.map Handled.id

namespace SqlGlobal

def Complete (q : SqlGlobal κ) : Prop := ∀ k r, q.requests.lookup k = some r → 0 < k ∧ r.Ready

def gathered (q : SqlGlobal κ) (k : ℕ) : Arrays κ :=
  ((Table.inOrder q.requests.keys).filter (· ≤ k)).foldl
    (fun a m => (q.requests.lookup m).elim a fun r => a.merge r.toArrays) ⟨∅, ∅⟩

/-- The class of the request is generated without an error from what is recorded up to it. -/
def Succeeds (text : κ → JsString) (dictionary : ℕ → Dictionary) (q : SqlGlobal κ) (k : ℕ) : Prop :=
  ∀ r c gn, q.requests.lookup k = some r → r.classname = some c → r.globalname = some gn →
    ∃ g, generateClass text (dictionary k) c (q.gathered k).properties (q.gathered k).indicies gn =
      .ok g ∧ g.status = .ok ()

end SqlGlobal

structure Sound (q : SqlGlobal κ) (p : Pass κ) : Prop where
  ends : p.ending ≠ .running
  subscripts : p.ending ≠ .trapped .subscript
  ascending : p.handled.map Handled.id = Table.inOrder q.requests.keys

def ProcessedOnce (dictionary : ℕ → ℕ → Dictionary) (q : SqlGlobal κ) : Prop :=
  ∀ n, (∀ run ∈ passes text dictionary n q, Sound run.1 run.2) ∧
    (0 < n → ∀ k ∈ q.requests.keys, (processed (passes text dictionary n q)).count k = 1)

variable {text} {dictionary : ℕ → Dictionary}

theorem Serves.after {q : SqlGlobal κ} {n : ℕ} {a : Arrays κ} {hs : List (Handled κ)}
    (h : Serves text dictionary q n a hs) : ∀ h ∈ hs, n < h.id := by
  intro h' hmem
  obtain ⟨r, hr⟩ := (h.handled_iff h'.id).mp ⟨h', hmem, rfl⟩
  exact hr.after

theorem Serves.ascending {q : SqlGlobal κ} {n : ℕ} {a : Arrays κ} {hs : List (Handled κ)}
    (h : Serves text dictionary q n a hs) : (hs.map Handled.id).Pairwise (· < ·) := by
  induction h with
  | stop => exact .nil
  | serve _ _ _ _ _ hrest ih =>
    rw [List.map_cons, List.pairwise_cons]
    refine ⟨fun k hk => ?_, ih⟩
    obtain ⟨h, hmem, rfl⟩ := List.mem_map.mp hk
    exact hrest.after h hmem

omit [LinearOrder κ] in
theorem reached_of_complete {q : SqlGlobal κ} (hq : q.Complete) {k : ℕ} {r : Request κ}
    (hr : q.requests.lookup k = some r) : q.Reached 0 k r :=
  ⟨(hq k r hr).1, hr, fun m s _ _ hs => (hq m s hs).2⟩

theorem eq_inOrder {ks ids : List ℕ} (hids : ids.Pairwise (· < ·)) (hmem : ∀ k, k ∈ ids ↔ k ∈ ks) :
    ids = Table.inOrder ks :=
  hids.eq_of_mem_iff (Table.walk_sorted ks ks.length none).1 fun k =>
    (hmem k).trans Table.mem_inOrder.symm

theorem Serves.ids {q : SqlGlobal κ} {hs : List (Handled κ)} (hq : q.Complete)
    (h : Serves text dictionary q 0 ⟨∅, ∅⟩ hs) : hs.map Handled.id = Table.inOrder q.requests.keys := by
  refine eq_inOrder h.ascending fun k => ?_
  have hserved := h.handled_iff k
  rw [List.mem_map, hserved, ← AList.mem_keys, ← AList.lookup_isSome, Option.isSome_iff_exists]
  exact ⟨fun ⟨r, hr⟩ => ⟨r, hr.recorded⟩, fun ⟨r, hr⟩ => ⟨r, reached_of_complete hq hr⟩⟩

theorem gathered_next {q : SqlGlobal κ} {n k : ℕ} {r : Request κ} (hnk : n < k)
    (hr : q.requests.lookup k = some r)
    (hnext : ∀ l, n < l → l < k → q.requests.lookup l = none) :
    q.gathered k = (q.gathered n).merge r.toArrays := by
  have hlisted : ∀ l, l ∈ Table.inOrder q.requests.keys ↔ (q.requests.lookup l).isSome := fun l => by
    rw [Table.mem_inOrder, AList.lookup_isSome, AList.mem_keys]
  have hsorted : (Table.inOrder q.requests.keys).Pairwise (· < ·) := (Table.walk_sorted _ _ _).1
  have hsplit : (Table.inOrder q.requests.keys).filter (· ≤ k) =
      (Table.inOrder q.requests.keys).filter (· ≤ n) ++ [k] := by
    refine (hsorted.filter _).eq_of_mem_iff ?_ fun l => ?_
    · refine List.pairwise_append.mpr ⟨hsorted.filter _, List.pairwise_singleton _ _, fun l hl m hm => ?_⟩
      obtain rfl := List.mem_singleton.mp hm
      have hln := of_decide_eq_true (List.mem_filter.mp hl).2
      omega
    · simp only [List.mem_filter, List.mem_append, List.mem_singleton, hlisted, decide_eq_true_eq]
      constructor
      · intro ⟨hl, hlk⟩
        by_cases hln : l ≤ n
        · exact .inl ⟨hl, hln⟩
        · refine .inr (hlk.eq_or_lt.resolve_right fun hlt => ?_)
          rw [hnext l (by omega) hlt] at hl
          cases hl
      · intro h
        rcases h with ⟨hl, hln⟩ | rfl
        · exact ⟨hl, by omega⟩
        · exact ⟨by rw [hr]; rfl, le_rfl⟩
  rw [SqlGlobal.gathered, hsplit, List.foldl_append, List.foldl_cons, List.foldl_nil, hr]
  rfl

theorem gathered_zero {q : SqlGlobal κ} (hq : q.Complete) : q.gathered 0 = ⟨∅, ∅⟩ := by
  have hnone : (Table.inOrder q.requests.keys).filter (· ≤ 0) = [] := by
    rw [List.filter_eq_nil_iff]
    intro k hk
    rw [Table.mem_inOrder, ← AList.mem_keys, ← AList.lookup_isSome, Option.isSome_iff_exists] at hk
    obtain ⟨r, hr⟩ := hk
    have hpos := (hq k r hr).1
    rw [decide_eq_true_eq]
    omega
  rw [SqlGlobal.gathered, hnone]
  rfl

theorem Serves.generated {q : SqlGlobal κ} {n : ℕ} {a : Arrays κ} {hs : List (Handled κ)}
    (h : Serves text dictionary q n a hs) (ha : a = q.gathered n) :
    ∀ h ∈ hs, ∃ r c gn, q.requests.lookup h.id = some r ∧ r.classname = some c ∧
      r.globalname = some gn ∧ generateClass text (dictionary h.id) c (q.gathered h.id).properties
        (q.gathered h.id).indicies gn = .ok h.generated := by
  induction h with
  | stop => simp
  | @serve n a k r c gn g hs hk hnext hclass hglobal hgenerate _ ih =>
    have hmerged := gathered_next hk.after hk.recorded hnext
    rw [← ha] at hmerged
    refine List.forall_mem_cons.mpr ⟨⟨r, c, gn, hk.recorded, hclass, hglobal, ?_⟩, ih hmerged.symm⟩
    rw [hmerged]
    exact hgenerate

theorem succeeds_iff {q : SqlGlobal κ} {hs : List (Handled κ)} (hq : q.Complete)
    (h : Serves text dictionary q 0 ⟨∅, ∅⟩ hs) :
    (∀ h ∈ hs, h.generated.status = .ok ()) ↔ ∀ k ∈ q.requests.keys, q.Succeeds text dictionary k := by
  have hgenerated := h.generated (gathered_zero hq).symm
  constructor
  · intro hok k hk r c gn hr hclass hglobal
    obtain ⟨h', hmem, rfl⟩ := (h.handled_iff k).mpr ⟨r, reached_of_complete hq hr⟩
    obtain ⟨r', c', gn', hr', hclass', hglobal', hgenerate⟩ := hgenerated h' hmem
    obtain rfl := Option.some.inj (hr.symm.trans hr')
    obtain rfl := Option.some.inj (hclass.symm.trans hclass')
    obtain rfl := Option.some.inj (hglobal.symm.trans hglobal')
    exact ⟨h'.generated, hgenerate, hok h' hmem⟩
  · intro hsucceeds h' hmem
    obtain ⟨r, c, gn, hr, hclass, hglobal, hgenerate⟩ := hgenerated h' hmem
    have hkey : h'.id ∈ q.requests.keys := by
      rw [← AList.mem_keys, ← AList.lookup_isSome, hr]
      rfl
    obtain ⟨g, hg, hok⟩ := hsucceeds _ hkey r c gn hr hclass hglobal
    obtain rfl := Except.ok.inj (hgenerate.symm.trans hg)
    exact hok

/-- The second state is left by a pass that has served the requests in the list. -/
structure Left (hs : List (Handled κ)) (q t : SqlGlobal κ) : Prop where
  enabled : t.enabled = q.enabled
  stop : t.stop = q.stop
  lastid : if hs = [] then t.lastid = q.lastid else t.lastid.isSome
  gone : ∀ h ∈ hs, h.generated.status = .ok () → t.requests.lookup h.id = none
  failed : ∀ h ∈ hs, h.generated.status ≠ .ok () → t.requests.lookup h.id = q.requests.lookup h.id
  others : ∀ m, (∀ h ∈ hs, h.id ≠ m) → t.requests.lookup m = q.requests.lookup m

omit [LinearOrder κ] in
theorem Left.refl (q : SqlGlobal κ) (message : JsString) : Left [] q (q.deamonLog message) :=
  ⟨rfl, rfl, rfl, by simp, by simp, fun _ _ => rfl⟩

omit [LinearOrder κ] in
theorem logErrors_kept (q : SqlGlobal κ) (err : List JsString) :
    (q.logErrors err).enabled = q.enabled ∧ (q.logErrors err).stop = q.stop := by
  induction err generalizing q with
  | nil => exact ⟨rfl, rfl⟩
  | cons e err ih => exact ih _

theorem settle_kept (q : SqlGlobal κ) (k : ℕ) (status : Status) :
    (q.settle k status).enabled = q.enabled ∧ (q.settle k status).stop = q.stop ∧
      (q.settle k status).lastid = some k := by
  cases status with
  | error err => exact ⟨(logErrors_kept q err).1, (logErrors_kept q err).2, rfl⟩
  | ok u =>
    cases hr : q.requests.lookup k <;>
      simp [SqlGlobal.settle, SqlGlobal.moved, SqlGlobal.deamonLog, hr]

theorem settle_gone (q : SqlGlobal κ) (k : ℕ) : (q.settle k (.ok ())).requests.lookup k = none := by
  simp only [SqlGlobal.settle, SqlGlobal.moved, SqlGlobal.deamonLog]
  cases hr : q.requests.lookup k with
  | none => exact hr
  | some r => exact AList.lookup_erase _ _

theorem settle_failed (q : SqlGlobal κ) (k : ℕ) {status : Status} (h : status ≠ .ok ()) :
    (q.settle k status).requests.lookup k = q.requests.lookup k := by
  cases status with
  | error err => simp only [SqlGlobal.settle, logErrors_requests]
  | ok u => exact absurd rfl h

theorem Left.settle {q t : SqlGlobal κ} {hs : List (Handled κ)} {h : Handled κ} {message : JsString}
    (hleft : Left hs ((q.deamonLog message).settle h.id h.generated.status) t)
    (hlater : ∀ h' ∈ hs, h.id < h'.id) : Left (h :: hs) q t := by
  obtain ⟨henabled, hstop, hlastid⟩ := settle_kept (q.deamonLog message) h.id h.generated.status
  have hself : t.requests.lookup h.id =
      ((q.deamonLog message).settle h.id h.generated.status).requests.lookup h.id :=
    hleft.others h.id fun h' hmem => (hlater h' hmem).ne'
  have helse : ∀ m, m ≠ h.id → ((q.deamonLog message).settle h.id h.generated.status).requests.lookup m =
      q.requests.lookup m := fun m hm => settle_lookup _ _ hm
  refine ⟨hleft.enabled.trans henabled, hleft.stop.trans hstop, ?_, ?_, ?_, fun m hm => ?_⟩
  · rw [if_neg (List.cons_ne_nil _ _)]
    have hlast := hleft.lastid
    split_ifs at hlast
    · rw [hlast, hlastid]
      rfl
    · exact hlast
  · refine List.forall_mem_cons.mpr ⟨fun hok => ?_, hleft.gone⟩
    rw [hself, hok]
    exact settle_gone _ _
  · refine List.forall_mem_cons.mpr ⟨fun hfail => ?_, fun h' hmem hfail => ?_⟩
    · rw [hself]
      exact settle_failed _ _ hfail
    · rw [hleft.failed h' hmem hfail, helse _ (hlater h' hmem).ne']
  · obtain ⟨hm, hms⟩ := List.forall_mem_cons.mp hm
    rw [hleft.others m hms, helse m hm.symm]

/-- A pass with nothing to serve and no node `lastid` runs off the end; every other pass sleeps. -/
def Ends (q : SqlGlobal κ) (p : Pass κ) : Prop :=
  if p.handled = [] ∧ q.lastid = none then p.ending = .trapped .subscript else p.ending = .slept

variable (text dictionary) in
theorem spin_left {q : SqlGlobal κ} {fuel n : ℕ} {a : Arrays κ}
    (hready : ∀ m r, n < m → q.requests.lookup m = some r → r.Ready)
    (hfuel : (Table.above q.requests.keys (some n)).length < fuel) :
    let p := spin text dictionary fuel (q.order n) a q
    Left p.handled q p.state ∧ Ends q p ∧ ∀ h ∈ p.handled, n < h.id := by
  induction fuel generalizing q n a with
  | zero => omega
  | succ fuel ih =>
    cases hnext : Table.order q.requests.keys (some n) with
    | none =>
      rw [SqlGlobal.order, hnext]
      cases hlast : q.lastid with
      | none => exact ⟨.refl q _, by simp [Ends, spin, hlast], fun h hmem => absurd hmem List.not_mem_nil⟩
      | some l => exact ⟨.refl q _, by simp [Ends, spin, hlast], fun h hmem => absurd hmem List.not_mem_nil⟩
    | some k =>
      obtain ⟨hnk, ⟨r, hr⟩, -⟩ := order_next hnext
      obtain ⟨c, hclass, hc, hglobal⟩ := hready k r hnk hr
      obtain ⟨gn, hglobal⟩ := Option.isSome_iff_exists.mp hglobal
      obtain ⟨g, hgenerate⟩ := generateClass_ready text (dictionary k) gn hc (a.merge r.toArrays)
      obtain ⟨message, hspin⟩ := spin_ready fuel hr hclass hglobal hgenerate
      have hshorter := Table.above_shorter hnext
      have hlater : ∀ m s, k < m →
          ((q.deamonLog message).settle k g.status).requests.lookup m = some s → s.Ready := by
        intro m s hm hs
        rw [settle_lookup _ _ hm.ne'] at hs
        exact hready m s (hnk.trans hm) hs
      have hfewer : (Table.above q.requests.keys (some k)).length < fuel := by omega
      obtain ⟨hleft, hends, hids⟩ := ih (a := a.merge r.toArrays) hlater
        ((settle_above (q.deamonLog message) k k g.status).trans_lt hfewer)
      -- the node is there from the first request on
      have hslept := hends
      rw [Ends, if_neg (by simp [settle_kept])] at hslept
      rw [SqlGlobal.order, hnext]
      dsimp only
      rw [hspin]
      refine ⟨hleft.settle hids, ?_, List.forall_mem_cons.mpr ⟨hnk, fun h hmem => hnk.trans (hids h hmem)⟩⟩
      rw [Ends, if_neg (fun h => List.cons_ne_nil _ _ h.1)]
      exact hslept

variable (text dictionary) in
theorem deamon_left {q : SqlGlobal κ} (hworking : q.Working) (hq : q.Complete) :
    let p := deamon text dictionary none q
    Left p.handled q p.state ∧ Ends q p ∧ p.handled.map Handled.id = Table.inOrder q.requests.keys := by
  have hids := (@deamon_serves κ _ text dictionary q hworking none).1.ids hq
  have hstop : ¬ q.stop = true := by simp [hworking.stop]
  have hfuel : (Table.above q.requests.keys (some 0)).length < q.requests.keys.length + 1 :=
    Nat.lt_succ_of_le (List.length_filter_le _ _)
  have hspin := spin_left text dictionary (a := ⟨∅, ∅⟩)
    (q := q.deamonLog (js "Start")) (n := 0) (fun m r _ hr => (hq m r hr).2) hfuel
  have hdeamon : deamon text dictionary none q = spin text dictionary (q.requests.keys.length + 1)
      ((q.deamonLog (js "Start")).order 0) ⟨∅, ∅⟩ (q.deamonLog (js "Start")) := by
    rw [deamon, if_neg hworking.enabled, if_neg hstop]
    rfl
  rw [hdeamon] at hids ⊢
  obtain ⟨hleft, hends, -⟩ := hspin
  exact ⟨⟨hleft.enabled, hleft.stop, hleft.lastid, hleft.gone, hleft.failed, hleft.others⟩, hends, hids⟩

omit [LinearOrder κ] in
theorem mem_requests {q : SqlGlobal κ} {k : ℕ} : k ∈ q.requests.keys ↔ (q.requests.lookup k).isSome := by
  rw [AList.lookup_isSome, AList.mem_keys]

omit [LinearOrder κ] in
theorem Left.working {hs : List (Handled κ)} {q t : SqlGlobal κ} (h : Left hs q t) (hq : q.Working) :
    t.Working := ⟨h.enabled ▸ hq.enabled, h.stop ▸ hq.stop⟩

omit [LinearOrder κ] in
theorem Left.lookup {hs : List (Handled κ)} {q t : SqlGlobal κ} (h : Left hs q t) {k : ℕ} {r : Request κ}
    (hr : t.requests.lookup k = some r) : q.requests.lookup k = some r := by
  by_cases hk : ∃ h' ∈ hs, h'.id = k
  · obtain ⟨h', hmem, rfl⟩ := hk
    by_cases hok : h'.generated.status = .ok ()
    · rw [h.gone h' hmem hok] at hr
      cases hr
    · rwa [h.failed h' hmem hok] at hr
  · rwa [h.others k fun h' hmem hid => hk ⟨h', hmem, hid⟩] at hr

omit [LinearOrder κ] in
theorem Left.complete {hs : List (Handled κ)} {q t : SqlGlobal κ} (h : Left hs q t) (hq : q.Complete) :
    t.Complete := fun k r hr => hq k r (h.lookup hr)

omit [LinearOrder κ] in
theorem complete_of_empty {q : SqlGlobal κ} (hnone : q.requests.keys = []) : q.Complete := by
  intro k r hr
  have hk : k ∈ q.requests.keys := by rw [mem_requests, hr]; rfl
  rw [hnone] at hk
  cases hk

theorem inOrder_eq_nil {ks : List ℕ} : Table.inOrder ks = [] ↔ ks = [] := by
  simp only [List.eq_nil_iff_forall_not_mem, Table.mem_inOrder]

variable (text dictionary) in
theorem sound_iff {q : SqlGlobal κ} (hworking : q.Working) (hq : q.Complete) :
    Sound q (deamon text dictionary none q) ↔ q.requests.keys ≠ [] ∨ q.lastid.isSome := by
  obtain ⟨-, hends, hids⟩ := deamon_left text dictionary hworking hq
  have hhandled : (deamon text dictionary none q).handled = [] ↔ q.requests.keys = [] := by
    rw [← inOrder_eq_nil, ← hids, List.map_eq_nil_iff]
  simp only [Ends, hhandled] at hends
  constructor
  · intro hsound
    by_contra hnot
    rw [not_or, not_not, Option.not_isSome_iff_eq_none] at hnot
    rw [if_pos hnot] at hends
    exact hsound.subscripts hends
  · intro hwork
    have hslept : ¬ (q.requests.keys = [] ∧ q.lastid = none) := by
      intro ⟨hnone, hlast⟩
      rcases hwork with h | h
      · exact h hnone
      · rw [hlast] at h
        cases h
    rw [if_neg hslept] at hends
    exact ⟨by rw [hends]; decide, by rw [hends]; decide, hids⟩

theorem passes_succ {dictionary : ℕ → ℕ → Dictionary} {n : ℕ} {q : SqlGlobal κ}
    (hsound : Sound q (deamon text (dictionary 0) none q)) (hworking : q.Working) (hq : q.Complete) :
    passes text dictionary (n + 1) q = (q, deamon text (dictionary 0) none q) ::
      passes text (fun i => dictionary (i + 1)) n (deamon text (dictionary 0) none q).state := by
  obtain ⟨-, hends, -⟩ := deamon_left text (dictionary 0) hworking hq
  have hslept : (deamon text (dictionary 0) none q).ending = .slept := by
    rw [Ends] at hends
    split_ifs at hends
    · exact absurd hends hsound.subscripts
    · exact hends
  rw [passes, if_pos hslept]

omit [LinearOrder κ] in
theorem Left.nothing {hs : List (Handled κ)} {q t : SqlGlobal κ} (h : Left hs q t)
    (hids : hs.map Handled.id = Table.inOrder q.requests.keys)
    (hok : ∀ h ∈ hs, h.generated.status = .ok ()) : t.requests.keys = [] := by
  rw [List.eq_nil_iff_forall_not_mem]
  intro k hk
  obtain ⟨r, hr⟩ := Option.isSome_iff_exists.mp (mem_requests.mp hk)
  have hk' : k ∈ hs.map Handled.id := by
    rw [hids, Table.mem_inOrder, mem_requests, h.lookup hr]
    rfl
  obtain ⟨h', hmem, rfl⟩ := List.mem_map.mp hk'
  rw [h.gone h' hmem (hok h' hmem)] at hr
  cases hr

variable (text dictionary) in
theorem count_handled {q : SqlGlobal κ} (hworking : q.Working) (hq : q.Complete) {k : ℕ}
    (hk : k ∈ q.requests.keys) : ((deamon text dictionary none q).handled.map Handled.id).count k = 1 := by
  obtain ⟨-, -, hids⟩ := deamon_left text dictionary hworking hq
  rw [hids]
  refine List.count_eq_one_of_mem ?_ (Table.mem_inOrder.mpr hk)
  exact (Table.walk_sorted q.requests.keys _ none).1.imp ne_of_lt

variable (text dictionary) in
theorem lastid_deamon {q : SqlGlobal κ} (hworking : q.Working) (hq : q.Complete)
    (hwork : q.requests.keys ≠ [] ∨ q.lastid.isSome) :
    (deamon text dictionary none q).state.lastid.isSome := by
  obtain ⟨hleft, -, hids⟩ := deamon_left text dictionary hworking hq
  have hlastid := hleft.lastid
  split_ifs at hlastid with hhandled
  · rw [hhandled, List.map_nil, eq_comm, inOrder_eq_nil] at hids
    rw [hlastid]
    exact hwork.resolve_left (not_not.mpr hids)
  · exact hlastid

variable (text) in
theorem passes_idle (dictionary : ℕ → ℕ → Dictionary) {n : ℕ} {q : SqlGlobal κ} (hworking : q.Working)
    (hnone : q.requests.keys = []) (hlast : q.lastid.isSome) :
    (∀ run ∈ passes text dictionary n q, Sound run.1 run.2) ∧ processed (passes text dictionary n q) = [] := by
  induction n generalizing q dictionary with
  | zero => exact ⟨by simp [passes], rfl⟩
  | succ n ih =>
    have hcomplete := complete_of_empty hnone
    have hsound := (sound_iff text (dictionary 0) hworking hcomplete).mpr (.inr hlast)
    obtain ⟨hleft, -, hids⟩ := deamon_left text (dictionary 0) hworking hcomplete
    have hhandled : (deamon text (dictionary 0) none q).handled = [] := by
      rw [inOrder_eq_nil.mpr hnone, List.map_eq_nil_iff] at hids
      exact hids
    have hnone' := hleft.nothing hids fun h hmem => by rw [hhandled] at hmem; cases hmem
    obtain ⟨hrest, hprocessed⟩ := ih (fun i => dictionary (i + 1)) (hleft.working hworking)
      hnone' (lastid_deamon text (dictionary 0) hworking hcomplete (.inr hlast))
    rw [passes_succ hsound hworking hcomplete]
    refine ⟨List.forall_mem_cons.mpr ⟨hsound, hrest⟩, ?_⟩
    rw [processed, List.flatMap_cons, hhandled]
    exact hprocessed

variable (text) in
theorem processed_twice (dictionary : ℕ → ℕ → Dictionary) {q : SqlGlobal κ} (hworking : q.Working)
    (hq : q.Complete) (hsound : Sound q (deamon text (dictionary 0) none q)) {h : Handled κ}
    (hmem : h ∈ (deamon text (dictionary 0) none q).handled) (hfail : h.generated.status ≠ .ok ()) :
    (processed (passes text dictionary 2 q)).count h.id = 2 := by
  obtain ⟨hleft, -, hids⟩ := deamon_left text (dictionary 0) hworking hq
  have hkey : h.id ∈ q.requests.keys := by
    rw [← Table.mem_inOrder, ← hids]
    exact List.mem_map_of_mem hmem
  have hpending : h.id ∈ (deamon text (dictionary 0) none q).state.requests.keys := by
    rw [mem_requests, hleft.failed h hmem hfail]
    exact mem_requests.mp hkey
  have hagain := count_handled text (dictionary 1) (hleft.working hworking) (hleft.complete hq) hpending
  rw [passes_succ hsound hworking hq, processed, List.flatMap_cons, List.count_append,
    count_handled text (dictionary 0) hworking hq hkey, passes, List.flatMap_cons, List.count_append,
    hagain]
  split_ifs <;> rfl

/-- The passes process each request once, in order and without a null subscript, exactly when
there is a request or the node `lastid` to begin with and no class fails in the first pass. -/
theorem passes_once_iff (text : κ → JsString) (dictionary : ℕ → ℕ → Dictionary) {q : SqlGlobal κ}
    (hworking : q.Working) (hq : q.Complete) :
    ProcessedOnce text dictionary q ↔ (q.requests.keys ≠ [] ∨ q.lastid.isSome) ∧
      ∀ k ∈ q.requests.keys, q.Succeeds text (dictionary 0) k := by
  obtain ⟨hleft, -, hids⟩ := deamon_left text (dictionary 0) hworking hq
  have hserves := (@deamon_serves κ _ text (dictionary 0) q hworking none).1
  rw [← succeeds_iff hq hserves]
  constructor
  · intro honce
    have hsound : Sound q (deamon text (dictionary 0) none q) := (honce 1).1 _ List.mem_cons_self
    refine ⟨(sound_iff text (dictionary 0) hworking hq).mp hsound, fun h hmem => ?_⟩
    by_contra hfail
    have hkey : h.id ∈ q.requests.keys := by
      rw [← Table.mem_inOrder, ← hids]
      exact List.mem_map_of_mem hmem
    have htwice := processed_twice text dictionary hworking hq hsound hmem hfail
    rw [(honce 2).2 (by decide) h.id hkey] at htwice
    cases htwice
  · intro ⟨hwork, hok⟩ n
    cases n with
    | zero => exact ⟨by simp [passes], fun h => absurd h (lt_irrefl 0)⟩
    | succ n =>
      have hsound := (sound_iff text (dictionary 0) hworking hq).mpr hwork
      obtain ⟨hrest, hprocessed⟩ := passes_idle text (fun i => dictionary (i + 1)) (n := n)
        (hleft.working hworking) (hleft.nothing hids hok) (lastid_deamon text (dictionary 0) hworking hq hwork)
      rw [passes_succ hsound hworking hq]
      refine ⟨List.forall_mem_cons.mpr ⟨hsound, hrest⟩, fun _ k hk => ?_⟩
      rw [processed] at hprocessed
      rw [processed, List.flatMap_cons, hprocessed, List.append_nil]
      exact count_handled text (dictionary 0) hworking hq hk

section
open Cache (Subscript)

def noRequests : SqlGlobal Subscript := { twoRequests with requests := ∅ }

def refusing : Dictionary := { accepting with newClass := fun _ => .error [js "ERROR #5001"] }

theorem twoRequests_working : twoRequests.Working := ⟨by decide, rfl⟩

theorem twoRequests_complete : twoRequests.Complete := by
  intro k r hr
  have hk : k ∈ twoRequests.requests.keys := by rw [mem_requests, hr]; rfl
  have hkeys : twoRequests.requests.keys = [1, 2] := rfl
  rw [hkeys, List.mem_cons, List.mem_singleton] at hk
  rcases hk with rfl | rfl
  · obtain rfl : getSampleClassMeta = r := Option.some.inj hr
    exact ⟨by decide, _, rfl, by decide, rfl⟩
  · obtain rfl : notesClassMeta = r := Option.some.inj hr
    exact ⟨by decide, _, rfl, by decide, rfl⟩

theorem passes_once_two : ProcessedOnce Subscript.text (fun _ _ => accepting) twoRequests ↔
    (twoRequests.requests.keys ≠ [] ∨ twoRequests.lastid.isSome) ∧
      ∀ k ∈ twoRequests.requests.keys, twoRequests.Succeeds Subscript.text (fun _ => accepting) k :=
  passes_once_iff Subscript.text (fun _ _ => accepting) twoRequests_working twoRequests_complete

/-- The first pass over an empty queue addresses a null subscript, and requests whose classes
fail are processed in every pass. -/
theorem first_pass_traps :
    (passes Subscript.text (fun _ _ => accepting) 1 noRequests).map (·.2.ending) = [.trapped .subscript] ∧
    processed (passes Subscript.text (fun _ _ => refusing) 2 twoRequests) = [1, 2, 1, 2] :=
  ⟨by decide +kernel, by decide +kernel⟩

end

end GlobalsJs.Sql
