import GlobalsJs.Sql.Served

/-!
# Requests that are met half written

When the loop comes to a request before all of it is there, it processes what there is, and the nodes that
are written after that make a request without a name, at which the loop ends with an error. Hence the loop
survives the calls exactly when it never comes too early.
-/

namespace GlobalsJs.Sql

open Ecma Cache

section
variable {κ : Type} [LinearOrder κ] {round : Rounding} {text : κ → JsString} {sub : JsString → κ}

/-- The dictionary refuses nothing. -/
structure Dictionary.Accepting (d : Dictionary) : Prop where
  newClass : ∀ n, d.newClass n = .ok ()
  save : ∀ cdef, d.save cdef = .ok ()
  clearStorages : ∀ cdef, d.clearStorages cdef = .ok ()
  insertStorage : ∀ cdef storage, d.insertStorage cdef storage = .ok ()
  compile : ∀ n, d.compile n = .ok ()

theorem accepting_accepts : accepting.Accepting :=
  ⟨fun _ => rfl, fun _ => rfl, fun _ => rfl, fun _ _ => rfl, fun _ => rfl⟩

variable (text) in
theorem generateClass_accepting {d : Dictionary} (hd : d.Accepting) {c : JsString} (hc : c ≠ [])
    (properties indicies : Table κ JsString) (gn : JsString) :
    ∃ g, generateClass text d c properties indicies gn = .ok g ∧ g.status = .ok () := by
  have hstorage : ∀ cdef, ∃ stored, generateSQLStorage text d gn properties indicies cdef = (stored, .ok ()) := by
    intro cdef
    rw [generateSQLStorage]
    dsimp only
    rw [hd.clearStorages]
    dsimp only
    rw [hd.insertStorage]
    exact ⟨_, rfl⟩
  have hcreate : ∃ cdef, createCDef d c = .ok (some cdef) := by
    refine ⟨⟨c, true, 25, [], [], [], [], []⟩, ?_⟩
    simp only [createCDef, if_neg hc, hd.newClass]
    rfl
  obtain ⟨cdef, hcdef⟩ := hcreate
  rw [generateClass, hcdef]
  dsimp only
  rw [hd.save]
  dsimp only
  obtain ⟨stored, hstored⟩ := hstorage { createProperties text d c properties
    { cdef with super := js "%Persistent", storageStrategy := js "GlobalsJSSQLStorage" } with indices := [idIndex] }
  rw [hstored]
  dsimp only
  rw [hd.save]
  exact ⟨_, rfl, hd.compile c⟩

structure Sane (s : Site κ) : Prop where
  working : s.sql.Working
  numbered : ∀ k c, s.calls k = some c → 0 < k ∧ k ≤ s.counter
  named : ∀ k r, s.sql.requests.lookup k = some r → 0 < k ∧ ∀ n, r.classname = some n → n ≠ []

/-- The loop has died, or will die at the request: of what is to be written the name of the class is no part. -/
def Doomed (s : Site κ) : Prop := .undefined ∈ s.traps ∨
  ∃ k c, s.calls k = some c ∧ 0 < c.made ∧
    ((s.sql.requests.lookup k = none ∧ ∃ e ∈ c.rest, [] ∉ e.1) ∨
      ∃ r, s.sql.requests.lookup k = some r ∧ r.classname = none)

theorem put_classname (hsub : Function.Injective sub) (r : Request κ) {p : List JsString} (hknown : Known p)
    (data : JsString) : (r.put sub p data).classname = if p = [js "classname"] then some data else r.classname := by
  by_cases hp : [] ∈ p
  · have hne : p ≠ [js "classname"] := by
      rintro rfl
      exact absurd hp (by decide)
    rw [put_void r hp, if_neg hne]
  · have hnode := put_node hsub r hp hknown data [js "classname"]
    simp only [Request.node, if_true, eq_comm (a := [js "classname"])] at hnode
    exact hnode

theorem entries_class {m : Filled} {e : List JsString × JsString} (he : e ∈ m.entries)
    (hclass : e.1 = [js "classname"]) : e.2 ≠ [] := by
  simp only [Filled.entries, under, List.mem_append, List.mem_cons, List.not_mem_nil, or_false, List.mem_map] at he
  rcases he with ((rfl | rfl) | ⟨f, -, rfl⟩) | ⟨f, -, rfl⟩
  · simp [js]
  · exact absurd (List.cons.inj hclass).1 (by decide)
  · simp at hclass
  · simp at hclass

theorem rest_class {c : Asking} (hmade : 0 < c.made) {e : List JsString × JsString} (he : e ∈ c.rest) :
    e.1 ≠ [js "classname"] := by
  obtain ⟨n, hn⟩ := Nat.exists_eq_succ_of_ne_zero hmade.ne'
  rw [Asking.rest, hn] at he
  have hmem := List.mem_of_mem_drop (l := c.description.entries.tail) he
  simp only [Filled.entries, under, List.cons_append, List.nil_append, List.tail_cons, List.mem_cons,
    List.mem_append, List.mem_map] at hmem
  rcases hmem with rfl | ⟨f, -, rfl⟩ | ⟨f, -, rfl⟩
  · exact fun heq => absurd (List.cons.inj heq).1 (by decide)
  · simp
  · simp

theorem settle_of_lookup {q : SqlGlobal κ} {k m : ℕ} {status : Status} {r : Request κ}
    (h : (q.settle k status).requests.lookup m = some r) : q.requests.lookup m = some r := by
  by_cases hm : m = k
  · rcases settle_requests q k status with hsame | herased
    · rwa [hsame] at h
    · rw [herased, hm, AList.lookup_erase] at h
      cases h
  · rwa [settle_lookup q status hm] at h

section Turns
variable {s : Site κ} {dictionary : ℕ → Dictionary}

theorem turn_of_lookup {m : ℕ} {r : Request κ} (h : (s.turn text dictionary).sql.requests.lookup m = some r) :
    s.sql.requests.lookup m = some r := by
  rw [Site.turn] at h
  split at h
  · exact h
  · exact h
  · exact h
  · dsimp only at h
    split at h
    · split at h
      · exact h
      · exact settle_of_lookup (q := s.sql.deamonLog _) h
    · exact h

variable (text s dictionary) in
theorem turn_working : (s.turn text dictionary).sql.enabled = s.sql.enabled ∧
    (s.turn text dictionary).sql.stop = s.sql.stop := by
  rw [Site.turn]
  split
  · exact ⟨rfl, rfl⟩
  · exact ⟨rfl, rfl⟩
  · exact ⟨rfl, rfl⟩
  · dsimp only
    split
    · split
      · exact ⟨rfl, rfl⟩
      · rename_i generated _
        obtain ⟨henabled, hstop, -⟩ := settle_kept (s.sql.deamonLog _) _ generated.status
        exact ⟨henabled, hstop⟩
    · exact ⟨rfl, rfl⟩

theorem turn_traps {t : Trap} (ht : t ∈ s.traps) : t ∈ (s.turn text dictionary).traps := by
  rw [Site.turn]
  split
  · exact ht
  · exact ht
  · exact List.mem_append_left _ ht
  · dsimp only
    split
    · split
      · exact List.mem_append_left _ ht
      · exact ht
    · exact List.mem_append_left _ ht

theorem turn_elsewhere {k : ℕ} (hloop : ∀ a, s.loop ≠ some (.id k, a)) :
    (s.turn text dictionary).sql.requests.lookup k = s.sql.requests.lookup k := by
  rw [Site.turn]
  split
  · rfl
  · rfl
  · rfl
  · rename_i nextid arrays hat
    have hne : k ≠ nextid := by
      rintro rfl
      exact hloop arrays hat
    dsimp only
    split
    · split
      · rfl
      · exact settle_lookup _ _ hne
    · rfl

theorem turn_undefined {k : ℕ} {a : Arrays κ} (hloop : s.loop = some (.id k, a))
    (hr : ∀ r, s.sql.requests.lookup k = some r → r.classname = none ∨ r.globalname = none) :
    .undefined ∈ (s.turn text dictionary).traps := by
  rw [Site.turn, hloop]
  dsimp only
  split
  · rename_i recorded c gn hrequest
    rcases hr _ hrequest with h | h <;> cases h
  · exact List.mem_append_right _ (List.mem_singleton_self _)

theorem turn_generated {k : ℕ} {a : Arrays κ} (hloop : s.loop = some (.id k, a)) (hd : (dictionary k).Accepting)
    {recorded : Arrays κ} {n gn : JsString} (hr : s.sql.requests.lookup k = some ⟨recorded, some n, some gn⟩)
    (hn : n ≠ []) : (s.turn text dictionary).sql.requests.lookup k = none := by
  obtain ⟨g, hg, hok⟩ := generateClass_accepting text hd hn (a.merge recorded).properties
    (a.merge recorded).indicies gn
  rw [Site.turn, hloop]
  dsimp only
  rw [hr]
  dsimp only
  rw [hg]
  dsimp only
  rw [hok]
  exact settle_gone _ _

end Turns

namespace Sane
variable {s : Site κ}

omit [LinearOrder κ] in
theorem of_fresh (hs : s.Fresh) : Sane s := by
  refine ⟨hs.working, fun k c hc => ?_, fun k r hr => ?_⟩
  · rw [hs.calls k] at hc
    cases hc
  · rw [hs.requests] at hr
    cases hr

theorem write (hsub : Function.Injective sub) (hs : Sane s) (id : ℕ) : Sane (s.write sub id) := by
  rw [Site.write]
  cases hcall : s.calls id with
  | none => exact hs
  | some c =>
    dsimp only
    cases hrest : c.rest with
    | nil => exact hs
    | cons e es =>
      have hmem : e ∈ c.description.entries := by
        refine List.mem_of_mem_drop (i := c.made) ?_
        rw [← Asking.rest, hrest]
        exact List.mem_cons_self
      obtain ⟨henabled, hstop⟩ := put_kept sub s.sql id e.1 e.2
      refine ⟨⟨henabled ▸ hs.working.enabled, hstop ▸ hs.working.stop⟩, fun k c' hc => ?_, fun k r hr => ?_⟩
      · dsimp only at hc ⊢
        by_cases hk : k = id
        · rw [hk]
          exact hs.numbered id c hcall
        · exact hs.numbered k c' (by rwa [Function.update_of_ne hk] at hc)
      · dsimp only at hr
        rw [put_lookup] at hr
        split_ifs at hr with hk
        · obtain rfl := Option.some.inj hr
          refine ⟨hk.1 ▸ (hs.numbered id c hcall).1, fun n hn => ?_⟩
          rw [put_classname hsub _ (entries_known c.description e hmem)] at hn
          split_ifs at hn with hclass
          · rw [← Option.some.inj hn]
            exact entries_class hmem hclass
          · cases hold : s.sql.requests.lookup id with
            | none =>
              rw [hold] at hn
              cases hn
            | some r =>
              rw [hold] at hn
              exact (hs.named id r hold).2 n hn
        · exact hs.named k r hr

theorem step (hsub : Function.Injective sub) (hs : Sane s) (e : Event) : Sane (s.step round text sub e) := by
  cases e with
  | ask collection object m =>
    refine ⟨hs.working, fun k c hc => ?_, hs.named⟩
    rw [Site.step] at hc ⊢
    dsimp only at hc ⊢
    by_cases hk : k = s.counter + 1
    · omega
    · obtain ⟨hpos, hle⟩ := hs.numbered k c (by rwa [Function.update_of_ne hk] at hc)
      omega
  | write id => exact hs.write hsub id
  | start =>
    have hstop : ¬ s.sql.stop = true := by simp [hs.working.stop]
    rw [Site.step, Site.start, if_neg hs.working.enabled, if_neg hstop]
    split_ifs
    · exact hs
    · exact ⟨⟨hs.working.enabled, hs.working.stop⟩, hs.numbered, hs.named⟩
  | round dictionary =>
    obtain ⟨hcounter, hcalls⟩ := turn_calls text s dictionary
    obtain ⟨henabled, hstop⟩ := turn_working text s dictionary
    refine ⟨⟨?_, ?_⟩, fun k c hc => ?_, fun k r hr => hs.named k r (turn_of_lookup hr)⟩
    · rw [Site.step, henabled]
      exact hs.working.enabled
    · rw [Site.step, hstop]
      exact hs.working.stop
    rw [Site.step] at hc ⊢
    rw [hcounter]
    exact hs.numbered k c (by rwa [hcalls] at hc)

theorem run (hsub : Function.Injective sub) (hs : Sane s) (es : List Event) : Sane (s.run round text sub es) := by
  induction es generalizing s with
  | nil => exact hs
  | cons e es ih => exact ih (hs.step hsub e)

end Sane

namespace Doomed
variable {s : Site κ}

theorem write (hsub : Function.Injective sub) (hs : Doomed s) (id : ℕ) : Doomed (s.write sub id) := by
  rw [Site.write]
  cases hcall : s.calls id with
  | none => exact hs
  | some c =>
    dsimp only
    cases hrest : c.rest with
    | nil => exact hs
    | cons e es =>
      rcases hs with hs | ⟨k, c', hc', hmade, hs⟩
      · exact .inl hs
      · have hmem : e ∈ c.description.entries := by
          refine List.mem_of_mem_drop (i := c.made) ?_
          rw [← Asking.rest, hrest]
          exact List.mem_cons_self
        refine .inr ⟨k, ?_⟩
        dsimp only
        by_cases hk : k = id
        · rw [hk, hcall] at hc'
          obtain rfl := Option.some.inj hc'
          have hclass := rest_class hmade (show e ∈ c.rest by rw [hrest]; exact List.mem_cons_self)
          refine ⟨{ c with made := c.made + 1 }, by rw [hk, Function.update_self], Nat.succ_pos _, ?_⟩
          rw [put_lookup, hk]
          by_cases hpath : [] ∈ e.1
          · rw [if_neg fun h => h.2 hpath, Asking.rest_next hrest, ← hk]
            refine hs.imp_left fun hnone => ⟨hnone.1, ?_⟩
            obtain ⟨e', he', hpath'⟩ := hnone.2
            rw [hrest] at he'
            rcases List.mem_cons.mp he' with rfl | he'
            · exact absurd hpath hpath'
            · exact ⟨e', he', hpath'⟩
          · rw [if_pos ⟨rfl, hpath⟩]
            refine .inr ⟨_, rfl, ?_⟩
            rw [put_classname hsub _ (entries_known c.description e hmem), if_neg hclass, ← hk]
            rcases hs with hnone | ⟨r, hr, hname⟩
            · rw [hnone.1]
              rfl
            · rw [hr]
              exact hname
        · rw [Function.update_of_ne hk, put_lookup, if_neg fun h => hk h.1]
          exact ⟨c', hc', hmade, hs⟩

theorem turn (hs : Doomed s) (dictionary : ℕ → Dictionary) : Doomed (s.turn text dictionary) := by
  rcases hs with hs | ⟨k, c, hc, hmade, hs⟩
  · exact .inl (turn_traps hs)
  · by_cases hloop : ∃ a, s.loop = some (.id k, a)
    · obtain ⟨a, hloop⟩ := hloop
      refine .inl (turn_undefined hloop fun r hr => .inl ?_)
      rcases hs with hnone | ⟨r', hr', hname⟩
      · rw [hnone.1] at hr
        cases hr
      · rw [hr'] at hr
        rw [← Option.some.inj hr]
        exact hname
    · refine .inr ⟨k, c, by rw [(turn_calls text s dictionary).2, hc], hmade, ?_⟩
      rw [turn_elsewhere fun a ha => hloop ⟨a, ha⟩]
      exact hs

theorem step (hsub : Function.Injective sub) (hsane : Sane s) (hs : Doomed s) (e : Event) :
    Doomed (s.step round text sub e) := by
  cases e with
  | ask collection object m =>
    refine hs.imp_right fun hs => ?_
    obtain ⟨k, c, hc, hrest⟩ := hs
    have hk : k ≠ s.counter + 1 := by
      have hle := (hsane.numbered k c hc).2
      omega
    exact ⟨k, c, (Function.update_of_ne hk _ _).trans hc, hrest⟩
  | write id => exact hs.write hsub id
  | start =>
    rw [Site.step, Site.start]
    split_ifs <;> exact hs
  | round dictionary => exact hs.turn dictionary

theorem of_half (hsane : Sane s) (hs : Kept text sub s) {dictionary : ℕ → Dictionary}
    (hd : ∀ k, (dictionary k).Accepting) (hcalm : ¬ s.CalmAt (.round dictionary)) :
    Doomed (s.turn text dictionary) := by
  simp only [Site.CalmAt, not_forall, not_not] at hcalm
  obtain ⟨k, hnext, c, hcall, hhalf⟩ := hcalm
  obtain ⟨a, hloop⟩ : ∃ a, s.loop = some (.id k, a) := by
    rw [Site.nextid] at hnext
    split at hnext
    · rename_i k' a hloop
      obtain rfl := Option.some.inj hnext
      exact ⟨a, hloop⟩
    · cases hnext
  obtain ⟨r, hr⟩ := Option.isSome_iff_exists.mp (hs.next k a hloop)
  obtain ⟨recorded, classname, globalname⟩ := r
  cases classname with
  | none =>
    refine .inl (turn_undefined hloop fun r hr' => .inl ?_)
    rw [hr] at hr'
    rw [← Option.some.inj hr']
  | some n =>
    cases globalname with
    | none =>
      refine .inl (turn_undefined hloop fun r hr' => .inr ?_)
      rw [hr] at hr'
      rw [← Option.some.inj hr']
    | some gn =>
      have hgone : (s.turn text dictionary).sql.requests.lookup k = none :=
        turn_generated hloop (hd k) hr ((hsane.named k _ hr).2 n rfl)
      exact .inr ⟨k, c, by rw [(turn_calls text s dictionary).2, hcall], hhalf.1, .inl ⟨hgone, hhalf.2⟩⟩

theorem run (hsub : Function.Injective sub) (hsane : Sane s) (hs : Doomed s) (es : List Event) :
    Doomed (s.run round text sub es) := by
  induction es generalizing s with
  | nil => exact hs
  | cons e es ih => exact ih (hsane.step hsub e) (hs.step hsub hsane e)

theorem of_not_calm (hsub : Function.Injective sub) (hsane : Sane s) (hs : Kept text sub s) {es : List Event}
    (hd : ∀ dictionary, .round dictionary ∈ es → ∀ k, (dictionary k).Accepting)
    (hcalm : ¬ s.Calm round text sub es) : Doomed (s.run round text sub es) := by
  induction es generalizing s with
  | nil => exact absurd trivial hcalm
  | cons e es ih =>
    by_cases hfirst : s.CalmAt e
    · exact ih (hsane.step hsub e) (hs.step hsub hfirst)
        (fun dictionary hmem => hd dictionary (List.mem_cons_of_mem _ hmem)) fun hrest => hcalm ⟨hfirst, hrest⟩
    · refine run hsub (hsane.step hsub e) ?_ es
      cases e with
      | ask | write | start => exact absurd trivial hfirst
      | round dictionary => exact of_half hsane hs (hd dictionary List.mem_cons_self) hfirst

end Doomed

theorem spin_undefined {q : SqlGlobal κ} {dictionary : ℕ → Dictionary} {fuel n : ℕ} {a : Arrays κ}
    (hnamed : ∀ m r, q.requests.lookup m = some r → ∀ c, r.classname = some c → c ≠ [])
    (hnone : ∃ k r, n < k ∧ q.requests.lookup k = some r ∧ r.classname = none)
    (hfuel : (Table.above q.requests.keys (some n)).length < fuel) :
    (spin text dictionary fuel (q.order n) a q).ending = .trapped .undefined := by
  induction fuel generalizing q n a with
  | zero => omega
  | succ fuel ih =>
    obtain ⟨k, r, hnk, hr, hname⟩ := hnone
    cases hnext : Table.order q.requests.keys (some n) with
    | none =>
      have hmem : k ∈ Table.above q.requests.keys (some n) := by
        refine Table.mem_above.mpr ⟨mem_requests.mpr (by rw [hr]; rfl), ?_⟩
        simpa using hnk
      rw [Table.order_eq_none.mp hnext] at hmem
      cases hmem
    | some l =>
      obtain ⟨hnl, ⟨r', hr'⟩, hbetween⟩ := order_next hnext
      rw [SqlGlobal.order, hnext]
      dsimp only
      by_cases hready : r'.Ready
      · have hlk : l < k := by
          rcases lt_trichotomy l k with hlt | rfl | hgt
          · exact hlt
          · obtain ⟨c, hc, -⟩ := hready
            rw [hr'] at hr
            rw [Option.some.inj hr, hname] at hc
            cases hc
          · rw [hbetween k hnk hgt] at hr
            cases hr
        obtain ⟨c, hclass, hc, hglobal⟩ := hready
        obtain ⟨gn, hglobal⟩ := Option.isSome_iff_exists.mp hglobal
        obtain ⟨g, hgenerate⟩ := generateClass_ready text (dictionary l) gn hc (a.merge r'.toArrays)
        obtain ⟨message, hspin⟩ := spin_ready fuel hr' hclass hglobal hgenerate
        have hshorter := Table.above_shorter hnext
        have hfewer := settle_above (q.deamonLog message) l l g.status
        have hsame : (q.deamonLog message).requests = q.requests := rfl
        rw [hspin]
        refine ih (fun m t ht => hnamed m t (settle_of_lookup (q := q.deamonLog message) ht)) ⟨k, r, hlk, ?_, hname⟩ ?_
        · rw [settle_lookup _ _ hlk.ne']
          exact hr
        · rw [hsame] at hfewer
          omega
      · obtain ⟨recorded, classname, globalname⟩ := r'
        cases classname with
        | none => simp [spin, hr']
        | some c =>
          cases globalname with
          | none => simp [spin, hr']
          | some gn => exact absurd ⟨c, rfl, hnamed l _ hr' c rfl, rfl⟩ hready

theorem deamon_undefined {q : SqlGlobal κ} {dictionary : ℕ → Dictionary} (hworking : q.Working)
    (hnamed : ∀ m r, q.requests.lookup m = some r → ∀ c, r.classname = some c → c ≠ [])
    (hnone : ∃ k r, 0 < k ∧ q.requests.lookup k = some r ∧ r.classname = none) :
    (deamon text dictionary none q).ending = .trapped .undefined := by
  have hfuel : (Table.above q.requests.keys (some 0)).length < q.requests.keys.length + 1 :=
    Nat.lt_succ_of_le (List.length_filter_le _ _)
  have hstop : ¬ q.stop = true := by simp [hworking.stop]
  rw [deamon, if_neg hworking.enabled, if_neg hstop]
  exact spin_undefined (q := q.deamonLog (js "Start")) hnamed hnone hfuel

theorem Kept.complete (hsub : Function.Injective sub) {s : Site κ} (hs : Kept text sub s) (hsane : Sane s)
    (hended : ∀ k c, s.calls k = some c → c.rest = []) : s.sql.Complete := by
  intro k r hr
  obtain ⟨hpos, hnamed⟩ := hsane.named k r hr
  have hstage := hs.stages k
  rw [hr] at hstage
  obtain ⟨c, hcall, hmade, rfl⟩ : ∃ c, s.calls k = some c ∧ 0 < c.made ∧ c.request sub = r := by
    generalize s.calls k = call, s.generated.count k = n at hstage ⊢
    cases hstage with
    | pending hmade => exact ⟨_, rfl, hmade, rfl⟩
  have hwhole : c.Whole := ⟨hmade, by rw [hended k c hcall]; simp⟩
  obtain ⟨recorded, hrecorded, -⟩ := hwhole.recorded hsub
  rw [hrecorded] at hnamed ⊢
  exact ⟨hpos, _, rfl, hnamed _ rfl, rfl⟩

theorem turns_idle {s : Site κ} (hloop : s.loop = none) (dictionary : ℕ → Dictionary) (n : ℕ) :
    (Site.turn text dictionary)^[n] s = s := by
  have hfixed : Site.turn text dictionary s = s := by
    rw [Site.turn, hloop]
  exact Function.iterate_fixed hfixed n

/-- Rounds between which nothing happens are the loop of `deamon`. -/
theorem turns_spin (dictionary : ℕ → Dictionary) (fuel : ℕ) {s : Site κ} {node : Node} {a : Arrays κ}
    (hloop : s.loop = some (node, a)) :
    let p := spin text dictionary fuel node a s.sql
    let t := (Site.turn text dictionary)^[fuel] s
    t.sql = p.state ∧ t.handled = s.handled ++ p.handled ∧ (t.loop = none ↔ p.ending ≠ .running) := by
  induction fuel generalizing s node a with
  | zero => simp [spin, hloop]
  | succ fuel ih =>
    rw [Function.iterate_succ_apply]
    -- the round is the last one
    have hlast : ∀ {q : SqlGlobal κ} {traps : List Trap} {ending : Ending},
        s.turn text dictionary = { s with sql := q, loop := none, traps := traps } →
        spin text dictionary (fuel + 1) node a s.sql = ⟨q, [], ending⟩ → ending ≠ .running →
        let p := spin text dictionary (fuel + 1) node a s.sql
        let t := (Site.turn text dictionary)^[fuel] (s.turn text dictionary)
        t.sql = p.state ∧ t.handled = s.handled ++ p.handled ∧ (t.loop = none ↔ p.ending ≠ .running) := by
      intro q traps ending hturn hspin hending
      dsimp only
      rw [hturn, hspin, turns_idle rfl]
      simp [hending]
    cases node with
    | lastid => exact hlast (by simp only [Site.turn, hloop]; rfl) rfl (by decide)
    | nothing => exact hlast (by simp only [Site.turn, hloop]; rfl) rfl (by decide)
    | id k =>
      rcases hr : s.sql.requests.lookup k with _ | ⟨recorded, _ | c, _ | gn⟩
      · exact hlast (by simp only [Site.turn, hloop, hr]; rfl) (by simp only [spin, hr]; rfl) (by decide)
      · exact hlast (by simp only [Site.turn, hloop, hr]; rfl) (by simp only [spin, hr]; rfl) (by decide)
      · exact hlast (by simp only [Site.turn, hloop, hr]; rfl) (by simp only [spin, hr]; rfl) (by decide)
      · exact hlast (by simp only [Site.turn, hloop, hr]; rfl) (by simp only [spin, hr]; rfl) (by decide)
      · cases hg : generateClass text (dictionary k) c (a.merge recorded).properties (a.merge recorded).indicies gn with
        | error trap =>
          exact hlast (by simp only [Site.turn, hloop, hr, hg]; rfl) (by simp only [spin, hr, hg]; rfl) (by simp)
        | ok g =>
          obtain ⟨settled, hsettled⟩ : ∃ q, q = (s.sql.deamonLog (js "Start processing in node:" ++ natText k)).settle k
            g.status := ⟨_, rfl⟩
          have hturn : s.turn text dictionary = { s with
              sql := settled
              loop := some (settled.order k, a.merge recorded)
              handled := s.handled ++ [⟨k, c, gn, a.merge recorded, g⟩] } := by
            rw [Site.turn, hloop]
            dsimp only
            rw [hr]
            dsimp only
            rw [hg, hsettled]
          have hspin : spin text dictionary (fuel + 1) (.id k) a s.sql =
              (spin text dictionary fuel (settled.order k) (a.merge recorded) settled).after
                ⟨k, c, gn, a.merge recorded, g⟩ := by
            simp only [spin, hr, hg, hsettled]
          obtain ⟨hsql, hhandled, hends⟩ := ih (s := s.turn text dictionary) (by rw [hturn])
          rw [hturn] at hsql hhandled hends ⊢
          dsimp only at hsql hhandled hends ⊢
          rw [hspin]
          refine ⟨hsql, ?_, hends⟩
          rw [hhandled, List.append_assoc]
          rfl

example : (deamon Subscript.text (fun _ => accepting) none
    (nothingAsked.run JsNumber.finite Subscript.text (fun f => ⟨f⟩) hasty).sql).ending = .trapped .undefined := by
  decide +kernel

end

end GlobalsJs.Sql
