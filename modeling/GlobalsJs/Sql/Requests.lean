import GlobalsJs.Sql.Deamon

/-!
# What a request is generated from

In a pass each class is generated from its own record exactly when every request records
all the names of those before it. A pass with one request has nothing to leak.
-/

namespace GlobalsJs.Sql
open Ecma

variable {κ : Type} [LinearOrder κ] {text : κ → JsString} {dictionary : ℕ → Dictionary}

namespace Arrays

def Same (a b : Arrays κ) : Prop :=
  Table.Same a.properties b.properties ∧ Table.Same a.indicies b.indicies

def Within (a b : Arrays κ) : Prop :=
  a.properties.keys ⊆ b.properties.keys ∧ a.indicies.keys ⊆ b.indicies.keys

theorem merge_same_iff {a r : Arrays κ} : (a.merge r).Same r ↔ a.Within r :=
  and_congr Table.same_union_iff Table.same_union_iff

theorem merge_within_iff {a r s : Arrays κ} : (a.merge r).Within s ↔ r.Within s ∧ a.Within s := by
  simp only [Within, merge, Table.keys_union_subset]
  tauto

omit [LinearOrder κ] in
theorem empty_within (r : Arrays κ) : (⟨∅, ∅⟩ : Arrays κ).Within r :=
  ⟨List.nil_subset _, List.nil_subset _⟩

end Arrays

def Request.Ready (r : Request κ) : Prop :=
  ∃ c, r.classname = some c ∧ c ≠ [] ∧ r.globalname.isSome

/-- A pass that starts after `n` comes to the request. -/
structure SqlGlobal.Reached (q : SqlGlobal κ) (n k : ℕ) (r : Request κ) : Prop where
  after : n < k
  recorded : q.requests.lookup k = some r
  ready : ∀ m s, n < m → m ≤ k → q.requests.lookup m = some s → s.Ready

/-- The class was generated from what was recorded, and from nothing else. -/
def Handled.Exact (text : κ → JsString) (dictionary : ℕ → Dictionary) (q : SqlGlobal κ)
    (h : Handled κ) : Prop :=
  ∃ r, q.requests.lookup h.id = some r ∧ r.classname = some h.classname ∧
    r.globalname = some h.globalname ∧ h.arrays.Same r.toArrays ∧
    generateClass text (dictionary h.id) h.classname r.properties r.indicies h.globalname =
      .ok h.generated

/-- The requests of a pass that starts after `n` with these arrays. -/
inductive Serves (text : κ → JsString) (dictionary : ℕ → Dictionary) (q : SqlGlobal κ) :
    ℕ → Arrays κ → List (Handled κ) → Prop
  | stop {n a} : (∀ k r, ¬ q.Reached n k r) → Serves text dictionary q n a []
  | serve {n a k r c gn g hs} : q.Reached n k r →
      (∀ l, n < l → l < k → q.requests.lookup l = none) →
      r.classname = some c → r.globalname = some gn →
      generateClass text (dictionary k) c (a.merge r.toArrays).properties
        (a.merge r.toArrays).indicies gn = .ok g →
      Serves text dictionary q k (a.merge r.toArrays) hs →
      Serves text dictionary q n a (⟨k, c, gn, a.merge r.toArrays, g⟩ :: hs)

omit [LinearOrder κ] in
theorem reached_iff {q : SqlGlobal κ} {n k l : ℕ} {r s : Request κ} (hk : q.Reached n k r)
    (hnext : ∀ m, n < m → m < k → q.requests.lookup m = none) :
    q.Reached n l s ↔ (l = k ∧ s = r) ∨ q.Reached k l s := by
  constructor
  · intro hl
    rcases lt_trichotomy l k with hlt | rfl | hgt
    · have hnone := hnext l hl.after hlt
      rw [hl.recorded] at hnone
      cases hnone
    · exact .inl ⟨rfl, Option.some.inj (hl.recorded.symm.trans hk.recorded)⟩
    · exact .inr ⟨hgt, hl.recorded, fun m t hm => hl.ready m t (hk.after.trans hm)⟩
  · intro h
    rcases h with ⟨rfl, rfl⟩ | hl
    · exact hk
    · refine ⟨hk.after.trans hl.after, hl.recorded, fun m t hm hml hlookup => ?_⟩
      rcases le_or_gt m k with hmk | hkm
      · exact hk.ready m t hm hmk hlookup
      · exact hl.ready m t hkm hml hlookup

theorem Serves.exact_iff {q : SqlGlobal κ} {n : ℕ} {a : Arrays κ} {hs : List (Handled κ)}
    (h : Serves text dictionary q n a hs) :
    (∀ h ∈ hs, h.Exact text dictionary q) ↔
      (∀ k r, q.Reached n k r → a.Within r.toArrays) ∧
      ∀ k l r s, q.Reached n k r → q.Reached n l s → k < l → r.Within s.toArrays := by
  induction h with
  | stop hnone =>
    simp only [List.not_mem_nil, false_imp_iff, implies_true, true_iff]
    exact ⟨fun k r hk => absurd hk (hnone k r), fun k _ r _ hk => absurd hk (hnone k r)⟩
  | @serve n a k r c gn g hs hk hnext hclass hglobal hgenerate _ ih =>
    have hhead : Handled.Exact text dictionary q ⟨k, c, gn, a.merge r.toArrays, g⟩ ↔
        a.Within r.toArrays := by
      rw [← Arrays.merge_same_iff]
      constructor
      · rintro ⟨r', hr', -, -, hsame, -⟩
        obtain rfl : r = r' := Option.some.inj (hk.recorded.symm.trans hr')
        exact hsame
      · intro hsame
        exact ⟨r, hk.recorded, hclass, hglobal, hsame,
          (generateClass_congr hsame.1 hsame.2).symm.trans hgenerate⟩
    rw [List.forall_mem_cons, hhead, ih]
    constructor
    · rintro ⟨ha, hwithin, hpairs⟩
      refine ⟨fun l s hl => ?_, fun l m s t hl hm hlm => ?_⟩
      · rcases (reached_iff hk hnext).mp hl with ⟨rfl, rfl⟩ | hl
        · exact ha
        · exact (Arrays.merge_within_iff.mp (hwithin l s hl)).2
      · rcases (reached_iff hk hnext).mp hm with ⟨rfl, rfl⟩ | hm
        · rcases (reached_iff hk hnext).mp hl with ⟨rfl, rfl⟩ | hl
          · exact absurd hlm (lt_irrefl _)
          · exact absurd hlm hl.after.asymm
        · rcases (reached_iff hk hnext).mp hl with ⟨rfl, rfl⟩ | hl
          · exact (Arrays.merge_within_iff.mp (hwithin m t hm)).1
          · exact hpairs l m s t hl hm hlm
    · intro ⟨hwithin, hpairs⟩
      have hfrom : ∀ {l s}, q.Reached k l s → q.Reached n l s := fun hl =>
        (reached_iff hk hnext).mpr (.inr hl)
      refine ⟨hwithin k r hk, fun l s hl => ?_, fun l m s t hl hm => hpairs l m s t (hfrom hl) (hfrom hm)⟩
      exact Arrays.merge_within_iff.mpr ⟨hpairs k l r s hk (hfrom hl) hl.after, hwithin l s (hfrom hl)⟩

theorem Serves.handled_iff {q : SqlGlobal κ} {n : ℕ} {a : Arrays κ} {hs : List (Handled κ)}
    (h : Serves text dictionary q n a hs) (k : ℕ) :
    (∃ h ∈ hs, h.id = k) ↔ ∃ r, q.Reached n k r := by
  induction h with
  | stop hnone => simpa using hnone k
  | @serve n a l r c gn g hs hl hnext _ _ _ _ ih =>
    simp only [List.exists_mem_cons_iff, ih, reached_iff hl hnext]
    constructor
    · intro h
      rcases h with rfl | ⟨s, hs⟩
      · exact ⟨r, .inl ⟨rfl, rfl⟩⟩
      · exact ⟨s, .inr hs⟩
    · rintro ⟨s, ⟨rfl, -⟩ | hs⟩
      · exact .inl rfl
      · exact .inr ⟨s, hs⟩

omit [LinearOrder κ] in
@[simp] theorem logErrors_requests (q : SqlGlobal κ) (err : List JsString) :
    (q.logErrors err).requests = q.requests := by
  induction err generalizing q with
  | nil => rfl
  | cons e err ih => exact ih _

theorem settle_requests (q : SqlGlobal κ) (k : ℕ) (status : Status) :
    (q.settle k status).requests = q.requests ∨ (q.settle k status).requests = q.requests.erase k := by
  cases status with
  | error err => exact .inl (logErrors_requests q err)
  | ok u =>
    simp only [SqlGlobal.settle, SqlGlobal.moved, SqlGlobal.deamonLog]
    cases q.requests.lookup k with
    | none => exact .inl rfl
    | some r => exact .inr rfl

theorem settle_lookup (q : SqlGlobal κ) {k m : ℕ} (status : Status) (hm : m ≠ k) :
    (q.settle k status).requests.lookup m = q.requests.lookup m := by
  rcases settle_requests q k status with h | h
  · rw [h]
  · rw [h, AList.lookup_erase_ne hm]

theorem settle_above (q : SqlGlobal κ) (k n : ℕ) (status : Status) :
    (Table.above (q.settle k status).requests.keys (some n)).length ≤
      (Table.above q.requests.keys (some n)).length := by
  rcases settle_requests q k status with h | h
  · rw [h]
  · rw [h, AList.keys_erase]
    exact (List.erase_sublist.filter _).length_le

omit [LinearOrder κ] in
theorem order_next {q : SqlGlobal κ} {n k : ℕ} (h : Table.order q.requests.keys (some n) = some k) :
    n < k ∧ (∃ r, q.requests.lookup k = some r) ∧ ∀ l, n < l → l < k → q.requests.lookup l = none := by
  obtain ⟨hk, hleast⟩ := Table.order_eq_some.mp h
  obtain ⟨hkeys, hlt⟩ := Table.mem_above.mp hk
  refine ⟨hlt n rfl, Option.isSome_iff_exists.mp (AList.lookup_isSome.mpr (AList.mem_keys.mpr hkeys)),
    fun l hn hl => ?_⟩
  by_contra hsome
  have hmem : l ∈ q.requests.keys :=
    AList.mem_keys.mp (AList.lookup_isSome.mp (Option.isSome_iff_ne_none.mpr hsome))
  have hle : k ≤ l := hleast l (Table.mem_above.mpr ⟨hmem, by simpa using hn⟩)
  omega

theorem generateClass_ready (text : κ → JsString) (dictionary : Dictionary) {c : JsString} (gn : JsString)
    (hc : c ≠ []) (a : Arrays κ) :
    ∃ g, generateClass text dictionary c a.properties a.indicies gn = .ok g := by
  unfold generateClass
  dsimp only
  split
  · exact ⟨_, rfl⟩
  · rename_i hnone
    simp only [createCDef, if_neg hc] at hnone
    cases hnew : dictionary.newClass c <;> rw [hnew] at hnone <;> cases hnone
  · split
    · exact ⟨_, rfl⟩
    · split
      · exact ⟨_, rfl⟩
      · split <;> exact ⟨_, rfl⟩

theorem spin_unready {q : SqlGlobal κ} {fuel k : ℕ} {a : Arrays κ} {r : Request κ}
    (hr : q.requests.lookup k = some r) (hready : ¬ r.Ready) :
    (spin text dictionary (fuel + 1) (.id k) a q).handled = [] ∧
      (spin text dictionary (fuel + 1) (.id k) a q).ending ≠ .running := by
  obtain ⟨recorded, _ | c, _ | gn⟩ := r
  · simp [spin, hr]
  · simp [spin, hr]
  · simp [spin, hr]
  · have hc : c = [] := by
      by_contra hc
      exact hready ⟨c, rfl, hc, rfl⟩
    have htrap : ∀ b : Arrays κ, generateClass text (dictionary k) c b.properties b.indicies gn =
        .error .invalidOref := fun b => by rw [hc]; rfl
    simp [spin, hr, htrap]

theorem spin_ready {q : SqlGlobal κ} (fuel : ℕ) {k : ℕ} {a : Arrays κ} {r : Request κ} {c gn : JsString}
    {g : Generated} (hr : q.requests.lookup k = some r) (hclass : r.classname = some c)
    (hglobal : r.globalname = some gn)
    (hgenerate : generateClass text (dictionary k) c (a.merge r.toArrays).properties
      (a.merge r.toArrays).indicies gn = .ok g) :
    ∃ message, spin text dictionary (fuel + 1) (.id k) a q =
      (spin text dictionary fuel (((q.deamonLog message).settle k g.status).order k) (a.merge r.toArrays)
        ((q.deamonLog message).settle k g.status)).after ⟨k, c, gn, a.merge r.toArrays, g⟩ := by
  obtain ⟨recorded, _, _⟩ := r
  cases hclass
  cases hglobal
  exact ⟨js "Start processing in node:" ++ natText k, by simp only [spin, hr, hgenerate]⟩

theorem spin_serves {q₀ q : SqlGlobal κ} {fuel n : ℕ} {a : Arrays κ}
    (hsame : ∀ m, n < m → q.requests.lookup m = q₀.requests.lookup m)
    (hfuel : (Table.above q.requests.keys (some n)).length < fuel) :
    Serves text dictionary q₀ n a (spin text dictionary fuel (q.order n) a q).handled ∧
      (spin text dictionary fuel (q.order n) a q).ending ≠ .running := by
  induction fuel generalizing q n a with
  | zero => omega
  | succ fuel ih =>
    cases hnext : Table.order q.requests.keys (some n) with
    | none =>
      have hnone : ∀ k r, ¬ q₀.Reached n k r := by
        intro k r hk
        have hmem : k ∈ q.requests.keys := by
          rw [← AList.mem_keys, ← AList.lookup_isSome, hsame k hk.after, hk.recorded]
          rfl
        have habove : k ∈ Table.above q.requests.keys (some n) :=
          Table.mem_above.mpr ⟨hmem, by simpa using hk.after⟩
        rw [Table.order_eq_none.mp hnext] at habove
        cases habove
      rw [SqlGlobal.order, hnext]
      cases q.lastid <;> exact ⟨.stop hnone, by simp [spin]⟩
    | some k =>
      obtain ⟨hnk, ⟨r, hr⟩, hbetween⟩ := order_next hnext
      have hr₀ : q₀.requests.lookup k = some r := (hsame k hnk).symm.trans hr
      have hstop : ¬ r.Ready → ∀ l s, ¬ q₀.Reached n l s := by
        intro hready l s hl
        refine hready (hl.ready k r hnk (not_lt.mp fun hlk => ?_) hr₀)
        have hlookup := hbetween l hl.after hlk
        rw [hsame l hl.after, hl.recorded] at hlookup
        cases hlookup
      rw [SqlGlobal.order, hnext]
      by_cases hready : r.Ready
      · obtain ⟨c, hclass, hc, hglobal⟩ := hready
        obtain ⟨gn, hglobal⟩ := Option.isSome_iff_exists.mp hglobal
        obtain ⟨g, hgenerate⟩ := generateClass_ready text (dictionary k) gn hc (a.merge r.toArrays)
        obtain ⟨message, hspin⟩ := spin_ready fuel hr hclass hglobal hgenerate
        have hlater : ∀ m, k < m → ((q.deamonLog message).settle k g.status).requests.lookup m =
            q₀.requests.lookup m := fun m hm =>
          (settle_lookup _ _ hm.ne').trans (hsame m (hnk.trans hm))
        have hreached : q₀.Reached n k r := by
          refine ⟨hnk, hr₀, fun m s hm hmk hs => ?_⟩
          rcases hmk.eq_or_lt with rfl | hmk
          · obtain rfl : r = s := Option.some.inj (hr₀.symm.trans hs)
            exact ⟨c, hclass, hc, by rw [hglobal]; rfl⟩
          · rw [← hsame m hm, hbetween m hm hmk] at hs
            cases hs
        have hfuel' : (Table.above q.requests.keys (some k)).length < fuel := by
          have hshorter := Table.above_shorter hnext
          omega
        obtain ⟨hserves, hends⟩ :=
          ih hlater ((settle_above (q.deamonLog message) k k g.status).trans_lt hfuel')
        rw [hspin]
        exact ⟨.serve hreached (fun l hl hlk => (hsame l hl).symm.trans (hbetween l hl hlk)) hclass hglobal
          hgenerate hserves, hends⟩
      · obtain ⟨hnothing, hends⟩ := spin_unready hr hready
        rw [hnothing]
        exact ⟨.stop (hstop hready), hends⟩

structure SqlGlobal.Working (q : SqlGlobal κ) : Prop where
  enabled : q.enabled ≠ some (js "0")
  stop : q.stop = false

theorem deamon_serves {q : SqlGlobal κ} (hworking : q.Working) (last : Option ℕ) :
    Serves text dictionary q (last.getD 0) ⟨∅, ∅⟩ (deamon text dictionary last q).handled ∧
      (deamon text dictionary last q).ending ≠ .running := by
  have hfuel : (Table.above q.requests.keys (some (last.getD 0))).length < q.requests.keys.length + 1 :=
    Nat.lt_succ_of_le (List.length_filter_le _ _)
  have hstop : ¬ q.stop = true := by simp [hworking.stop]
  rw [deamon, if_neg hworking.enabled, if_neg hstop]
  exact spin_serves (q := q.deamonLog (js "Start")) (fun _ _ => rfl) hfuel

theorem deamon_idle {q : SqlGlobal κ} (hidle : ¬ q.Working) (last : Option ℕ) :
    (deamon text dictionary last q).handled = [] ∧ (deamon text dictionary last q).ending = .quit := by
  unfold deamon
  split_ifs with henabled hstop
  · exact ⟨rfl, rfl⟩
  · exact ⟨rfl, rfl⟩
  · exact absurd ⟨henabled, Bool.eq_false_iff.mpr hstop⟩ hidle

theorem deamon_ends (last : Option ℕ) (q : SqlGlobal κ) :
    (deamon text dictionary last q).ending ≠ .running := by
  by_cases hworking : q.Working
  · exact (deamon_serves hworking last).2
  · rw [(deamon_idle hworking last).2]
    decide

theorem handled_iff {q : SqlGlobal κ} (hworking : q.Working) (last : Option ℕ) (k : ℕ) :
    (∃ h ∈ (deamon text dictionary last q).handled, h.id = k) ↔
      ∃ r, q.Reached (last.getD 0) k r :=
  (deamon_serves hworking last).1.handled_iff k

/-- What is generated is exact when each request that the pass comes to records the names of
all those before it, and only then. -/
theorem deamon_exact_iff (text : κ → JsString) (dictionary : ℕ → Dictionary) (last : Option ℕ)
    (q : SqlGlobal κ) :
    (∀ h ∈ (deamon text dictionary last q).handled, h.Exact text dictionary q) ↔
      (q.Working → ∀ k l r s, q.Reached (last.getD 0) k r → q.Reached (last.getD 0) l s → k < l →
        r.Within s.toArrays) := by
  by_cases hworking : q.Working
  · rw [(deamon_serves hworking last).1.exact_iff]
    constructor
    · exact fun h _ => h.2
    · exact fun h => ⟨fun _ r _ => r.empty_within, h hworking⟩
  · rw [(deamon_idle hworking last).1]
    simp [hworking]

section
open Cache (Subscript)

def getSampleClassMeta : Request Subscript where
  properties := [⟨⟨js "name"⟩, js "%Library.String"⟩, ⟨⟨js "age"⟩, js "%Library.Integer"⟩,
    ⟨⟨js "email"⟩, js "%Library.String"⟩].toAList
  indicies := [⟨⟨js "email"⟩, js "1"⟩].toAList
  classname := some (js "gdb.foopeople")
  globalname := some (js "foopeople")

def notesClassMeta : Request Subscript where
  properties := [⟨⟨js "title"⟩, js "%Library.String"⟩].toAList
  indicies := ∅
  classname := some (js "gdb.notes")
  globalname := some (js "notes")

def accepting : Dictionary where
  newClass _ := .ok ()
  newProperty _ := .ok ()
  insertProperty _ _ := .ok ()
  save _ := .ok ()
  clearStorages _ := .ok ()
  insertStorage _ _ := .ok ()
  compile _ := .ok ()

def twoRequests : SqlGlobal Subscript where
  enabled := some (js "1")
  stop := false
  requests := [⟨1, getSampleClassMeta⟩, ⟨2, notesClassMeta⟩].toAList
  lastid := none
  out := ∅
  sleeptime := none
  log := []

/-- The notes get the names, the ages and the addresses of the people. -/
theorem second_class_leaks : ¬ ∀ h ∈ (deamon Subscript.text (fun _ => accepting) none twoRequests).handled,
    h.Exact Subscript.text (fun _ => accepting) twoRequests := by
  intro hexact
  have hworking : twoRequests.Working := ⟨by decide, rfl⟩
  have hpeople : twoRequests.Reached 0 1 getSampleClassMeta := by
    refine ⟨by decide, rfl, fun m s hm hm1 hs => ?_⟩
    obtain rfl : m = 1 := by omega
    obtain rfl : getSampleClassMeta = s := Option.some.inj hs
    exact ⟨_, rfl, by decide, rfl⟩
  have hnotes : twoRequests.Reached 0 2 notesClassMeta := by
    refine ⟨by decide, rfl, fun m s hm hm2 hs => ?_⟩
    obtain rfl | rfl : m = 1 ∨ m = 2 := by omega
    · exact hpeople.ready 1 s hm le_rfl hs
    · obtain rfl : notesClassMeta = s := Option.some.inj hs
      exact ⟨_, rfl, by decide, rfl⟩
  have hwithin := ((deamon_serves hworking none).1.exact_iff.mp hexact).2 1 2 _ _ hpeople hnotes (by decide)
  have hage : (⟨js "age"⟩ : Subscript) ∈ notesClassMeta.properties.keys := hwithin.1 (by decide)
  exact absurd hage (by decide)

end

end GlobalsJs.Sql
