import Mathlib.Data.Finset.Sort
import Mathlib.Data.List.Lex
import Mathlib.Data.Set.Card
import GlobalsJs.Ecma.Comparison
import GlobalsJs.Gdbsession.Session

/-!
# The nodes of the globals

What the shell relies on of its database: a global has data at some of its nodes, a node stands
before those below it, and the next node is the least one behind. `%G` prints a node and all that
stand behind it, to the end of the global.
-/

namespace GlobalsJs.Gdbsession

open Ecma Calls

/-- The data at the nodes of the globals. -/
abbrev Nodes (κ : Type) := JsString → List κ → Option JsString

namespace Nodes
variable {κ : Type} [DecidableEq κ]

def set (t : Nodes κ) (name : JsString) (path : List κ) (data : JsString) : Nodes κ :=
  fun n p => if n = name ∧ p = path then some data else t n p

def kill (t : Nodes κ) (name : JsString) (path : List κ) : Nodes κ :=
  fun n p => if n = name ∧ path <+: p then none else t n p

omit [DecidableEq κ] in
def Below (t : Nodes κ) (name : JsString) (path : List κ) : Prop :=
  ∃ p, path <+: p ∧ p ≠ path ∧ (t name p).isSome

open Classical in
/-- One for data at the node, and ten for nodes below it. -/
noncomputable def definition (t : Nodes κ) (name : JsString) (path : List κ) : ℕ :=
  (if (t name path).isSome then 1 else 0) + if t.Below name path then 10 else 0

end Nodes

/-- How the database reads a reference: whether it takes it, and where a subscript stands among the others. -/
structure Collation (κ : Type) where
  accepts : GlbRef → Prop
  sub : JsString → κ

def Node.texts (n : Node) : List JsString := (n.subscripts.getD []).map Json.toText

structure Node.At {κ : Type} (co : Collation κ) (n : Node) (name : JsString) (path : List κ) : Prop where
  global : n.global = some name
  subscripts : n.texts.map co.sub = path
  accepted : co.accepts ⟨name, n.texts, none⟩

/-- The database as the shell relies on it, when no call fails. -/
structure LawfulNodes {σ κ : Type} [LinearOrder κ] (db : Cache σ) (view : σ → Nodes κ) (co : Collation κ) :
    Prop where
  connect : ∀ s info, (db (.connect info) s).2 = .ok () ∧ view (db (.connect info) s).1 = view s
  close : ∀ s, (db .close s).2 = .ok () ∧ view (db .close s).1 = view s
  global_directory : ∀ s opts, (∃ names, (db (.global_directory opts) s).2 = .ok names) ∧
    view (db (.global_directory opts) s).1 = view s
  set : ∀ s name subs data, co.accepts ⟨name, subs, some data⟩ →
    (∃ r ok, (db (.set ⟨name, subs, some data⟩) s).2 = .ok r ∧ member r (js "ok") = .ok ok) ∧
      view (db (.set ⟨name, subs, some data⟩) s).1 = (view s).set name (subs.map co.sub) data
  kill : ∀ s name subs, co.accepts ⟨name, subs, none⟩ →
    (∃ r ok, (db (.kill ⟨name, subs, none⟩) s).2 = .ok r ∧ member r (js "ok") = .ok ok) ∧
      view (db (.kill ⟨name, subs, none⟩) s).1 = (view s).kill name (subs.map co.sub)
  data : ∀ s (n : Node) name path, n.At co name path → view (db (.data n) s).1 = view s ∧
    ∃ r, (db (.data n) s).2 = .ok r ∧ r.defined = some (.ofInt ((view s).definition name path : ℕ))
  get : ∀ s (n : Node) name path data, n.At co name path → view s name path = some data →
    view (db (.get n) s).1 = view s ∧
      ∃ r : Node, (db (.get n) s).2 = .ok r ∧ r.At co name path ∧ textOf r.data = data
  next_node : ∀ s (n : Node) name path q, n.At co name path →
    IsLeast {q | path < q ∧ (view s name q).isSome} q → view (db (.next_node n) s).1 = view s ∧
      ∃ r : Node, (db (.next_node n) s).2 = .ok r ∧ r.At co name q ∧ view s name q = some (textOf r.data) ∧
        definedIs r 0 = false
  next_end : ∀ s (n : Node) name path, n.At co name path → (∀ q, path < q → view s name q = none) →
    view (db (.next_node n) s).1 = view s ∧ ∃ r : Node, (db (.next_node n) s).2 = .ok r ∧ definedIs r 0 = true
  finite : ∀ s name, {q | (view s name q).isSome}.Finite

theorem definedIs_ofInt {r : Node} {n : ℕ} (h : r.defined = some (.ofInt n)) (m : ℕ) :
    definedIs r m = decide (n = m) := by
  have hprim : ∀ k : ℤ, primOf JsNumber.finite (some (.ofInt k)) = .num (.finite ⟨k, 0⟩) :=
    fun k => prim_ofInt JsNumber.finite k
  have hobject : ∀ k : ℤ, (Json.ofInt k).isObject = false := fun _ => rfl
  rw [definedIs, h, looseEqual, hprim, hprim]
  simp [hobject, looseEq, Prim.toNumber, JsNumber.eq, Decimal.scaled]

theorem exists_sorted {α : Type} [LinearOrder α] {S : Set α} (hfinite : S.Finite) :
    ∃ xs : List α, xs.Pairwise (· < ·) ∧ (∀ x, x ∈ xs ↔ x ∈ S) ∧ xs.length = S.ncard := by
  refine ⟨hfinite.toFinset.sort (· ≤ ·), (Finset.sortedLT_sort _).pairwise, fun x => ?_, ?_⟩
  · rw [Finset.mem_sort, Set.Finite.mem_toFinset]
  · rw [Finset.length_sort, Set.ncard_eq_toFinset_card S hfinite]

section
variable {σ κ : Type} [LinearOrder κ] {db : Cache σ} {view : σ → Nodes κ} {co : Collation κ}

structure Shows (co : Collation κ) (t : Nodes κ) (name : JsString) (q : List κ) (n : Node) : Prop where
  node : n.At co name q
  data : t name q = some (textOf n.data)

def printed (shown : List Node) : List Output :=
  shown.flatMap fun n => [.text (format_glb_output n), .text [newline]]

/-- The nodes that are printed for one: those from it on, in their order, and none if there are neither
data at it nor nodes below it. -/
def Dump (co : Collation κ) (t : Nodes κ) (name : JsString) (path : List κ) (shown : List Node) : Prop :=
  ∃ qs : List (List κ), qs.Pairwise (· < ·) ∧
    (∀ q, q ∈ qs ↔ (t name q).isSome ∧ path ≤ q ∧ ((t name path).isSome ∨ t.Below name path)) ∧
    List.Forall₂ (Shows co t name) qs shown

section
variable {t : Nodes κ} {name : JsString} {path : List κ} {qs : List (List κ)} {shown : List Node}
  (hsorted : qs.Pairwise (· < ·)) (hqs : ∀ q, q ∈ qs ↔ path < q ∧ (t name q).isSome)
  (hshown : List.Forall₂ (Shows co t name) qs shown)
include hsorted hqs hshown

theorem Dump.here {r : Node} (hr : Shows co t name path r) : Dump co t name path (r :: shown) := by
  have hsome : (t name path).isSome := by
    rw [hr.data]
    rfl
  refine ⟨path :: qs, ?_, fun q => ?_, .cons hr hshown⟩
  · exact List.pairwise_cons.mpr ⟨fun q hq => ((hqs q).mp hq).1, hsorted⟩
  · rw [List.mem_cons, hqs]
    constructor
    · intro hq
      rcases hq with rfl | hq
      · exact ⟨hsome, le_refl q, .inl hsome⟩
      · exact ⟨hq.2, hq.1.le, .inl hsome⟩
    · intro hq
      rcases hq.2.1.eq_or_lt with heq | hlt
      · exact .inl heq.symm
      · exact .inr ⟨hlt, hq.1⟩

theorem Dump.below (hnone : ¬ (t name path).isSome) (hbelow : t.Below name path) :
    Dump co t name path shown := by
  refine ⟨qs, hsorted, fun q => ?_, hshown⟩
  rw [hqs]
  constructor
  · exact fun hq => ⟨hq.2, hq.1.le, .inr hbelow⟩
  · intro hq
    refine ⟨hq.2.1.lt_of_ne fun heq => ?_, hq.1⟩
    rw [heq] at hnone
    exact hnone hq.1

end

theorem Dump.nothing {t : Nodes κ} {name : JsString} {path : List κ} (hnone : ¬ (t name path).isSome)
    (hbelow : ¬ t.Below name path) : Dump co t name path [] :=
  ⟨[], .nil, fun _ => iff_of_false List.not_mem_nil fun hq => hq.2.2.elim hnone hbelow, .nil⟩

theorem printed_cons (n : Node) (shown : List Node) :
    printed (n :: shown) = [.text (format_glb_output n), .text [newline]] ++ printed shown := rfl

theorem run_log (db : Cache σ) (text : JsString) (s : Session σ) : Prog.run (answer db) (log text) s =
    ({ s with written := s.written ++ [.text text, .text [newline]] }, .ok ()) := by
  have hlog : Prog.run (answer db) (log text) s =
      ({ s with written := s.written ++ [.text text] ++ [.text [newline]] }, .ok ()) := rfl
  rw [hlog, List.append_assoc]
  rfl

theorem run_spin (law : LawfulNodes db view co) {name : JsString} {p : List κ} {qs : List (List κ)}
    (hsorted : qs.Pairwise (· < ·)) {s : Session σ}
    (hqs : ∀ q, q ∈ qs ↔ p < q ∧ (view s.database name q).isSome) {n : Node} (hn : n.At co name p)
    {fuel : ℕ} (hfuel : qs.length < fuel) :
    ∃ shown d, List.Forall₂ (Shows co (view s.database) name) qs shown ∧ view d = view s.database ∧
      Prog.run (answer db) (spin fuel n) s =
        ({ s with written := s.written ++ printed shown, database := d }, .ok ()) := by
  obtain ⟨fuel, rfl⟩ := Nat.exists_eq_succ_of_ne_zero (Nat.ne_zero_of_lt hfuel)
  induction qs generalizing p n s fuel with
  | nil =>
    have hend : ∀ q, p < q → view s.database name q = none := by
      intro q hq
      rw [← Option.not_isSome_iff_eq_none]
      exact fun hsome => List.not_mem_nil ((hqs q).mpr ⟨hq, hsome⟩)
    obtain ⟨hview, r, hr, hzero⟩ := law.next_end s.database n name p hn hend
    refine ⟨[], _, .nil, hview, ?_⟩
    rw [spin, Prog.run_bind_ok (run_cache (Prod.ext rfl hr)), if_pos hzero]
    simp [printed]
  | cons q qs ih =>
    obtain ⟨hfirst, hrest⟩ := List.pairwise_cons.mp hsorted
    have hleast : IsLeast {q | p < q ∧ (view s.database name q).isSome} q := by
      refine ⟨(hqs q).mp List.mem_cons_self, fun q' hq' => ?_⟩
      rcases List.mem_cons.mp ((hqs q').mpr hq') with rfl | hmem
      · exact le_refl q'
      · exact (hfirst q' hmem).le
    obtain ⟨hview, r, hr, hat, hdata, hzero⟩ := law.next_node s.database n name p q hn hleast
    have hpos : ∃ k, fuel = k + 1 := by
      rw [List.length_cons] at hfuel
      exact ⟨fuel - 1, by omega⟩
    obtain ⟨fuel, rfl⟩ := hpos
    -- the session when the node has been printed
    obtain ⟨t, ht⟩ : ∃ t : Session σ, t = { s with
        written := s.written ++ [.text (format_glb_output r), .text [newline]]
        database := (db (.next_node n) s.database).1 } := ⟨_, rfl⟩
    have hviewt : view t.database = view s.database := by rw [ht]; exact hview
    have hqs' : ∀ q', q' ∈ qs ↔ q < q' ∧ (view t.database name q').isSome := by
      intro q'
      rw [hviewt]
      constructor
      · intro hmem
        exact ⟨hfirst q' hmem, ((hqs q').mp (List.mem_cons_of_mem q hmem)).2⟩
      · rintro ⟨hlt, hsome⟩
        refine (List.mem_cons.mp ((hqs q').mpr ⟨hleast.1.1.trans hlt, hsome⟩)).resolve_left ?_
        exact hlt.ne'
    obtain ⟨shown, d, hshown, hviewd, hrun⟩ :=
      ih hrest hqs' hat fuel (by rw [List.length_cons] at hfuel; omega)
    rw [hviewt] at hshown hviewd
    refine ⟨r :: shown, d, .cons ⟨hat, hdata⟩ hshown, hviewd, ?_⟩
    have hglobal : ¬ r.global.isNone = true := by simp [hat.global]
    rw [spin, Prog.run_bind_ok (run_cache (Prod.ext rfl hr)), if_neg (by rw [hzero]; exact Bool.false_ne_true),
      if_neg hglobal, Prog.run_bind_ok (run_log db _ _), ← ht, hrun, ht, printed_cons, List.append_assoc]

omit [LinearOrder κ] in
theorem definition_data {t : Nodes κ} {name : JsString} {path : List κ} {r : Node}
    (hr : r.defined = some (.ofInt (t.definition name path : ℕ))) :
    (definedIs r 1 || definedIs r 11) = (t name path).isSome ∧
      (definedIs r 0 = true ↔ ¬ (t name path).isSome ∧ ¬ t.Below name path) := by
  have h0 := definedIs_ofInt hr 0
  have h1 := definedIs_ofInt hr 1
  have h11 := definedIs_ofInt hr 11
  simp only [Nat.cast_zero, Nat.cast_one, Nat.cast_ofNat] at h0 h1 h11
  rw [h0, h1, h11, Nodes.definition]
  cases (t name path).isSome <;> by_cases hbelow : t.Below name path <;> simp [hbelow]

theorem run_global_dump (sh : Shell) (law : LawfulNodes db view co) {global name : JsString} {path : List κ}
    (hn : (nodeOf global).At co name path) {s : Session σ}
    (hfuel : {q | (view s.database name q).isSome}.ncard < sh.fuel) :
    ∃ shown d, Dump co (view s.database) name path shown ∧ view d = view s.database ∧
      Prog.run (answer db) (global_dump sh global) s =
        ({ s with written := s.written ++ printed shown, database := d }, .ok ()) := by
  obtain ⟨hconnect, hviewc⟩ := law.connect s.database sh.conninfo
  obtain ⟨opened, hopened⟩ : ∃ d, d = (db (.connect sh.conninfo) s.database).1 := ⟨_, rfl⟩
  rw [← hopened] at hviewc
  obtain ⟨hviewd, dd, hdd, hdefined⟩ := law.data opened _ name path hn
  obtain ⟨known, hknown⟩ : ∃ d, d = (db (.data (nodeOf global)) opened).1 := ⟨_, rfl⟩
  rw [← hknown, hviewc] at hviewd
  rw [hviewc] at hdefined
  obtain ⟨hdata, hzero⟩ := definition_data hdefined
  have hbegin : ∀ rest : Node → Act Unit, Prog.run (answer db)
      (do cache (.connect sh.conninfo); let dd ← cache (.data (nodeOf global)); rest dd) s =
      Prog.run (answer db) (rest dd) { s with database := known } := by
    intro rest
    rw [Prog.run_bind_ok (run_cache (by exact Prod.ext hopened.symm hconnect)),
      Prog.run_bind_ok (run_cache (by exact Prod.ext hknown.symm hdd))]
  have hclosed : ∀ t : Session σ, ∃ d, view d = view t.database ∧
      Prog.run (answer db) (cache .close) t = ({ t with database := d }, .ok ()) := by
    intro t
    obtain ⟨hclose, hviewx⟩ := law.close t.database
    exact ⟨_, hviewx, run_cache (by exact Prod.ext rfl hclose)⟩
  have hsub : {q | path < q ∧ (view s.database name q).isSome} ⊆ {q | (view s.database name q).isSome} :=
    fun q hq => hq.2
  obtain ⟨qs, hsorted, hqs, hlength⟩ := exists_sorted ((law.finite s.database name).subset hsub)
  have hlen : qs.length < sh.fuel := by
    have hle := Set.ncard_le_ncard hsub (law.finite s.database name)
    omega
  have hspin : ∀ (t : Session σ) (n : Node), view t.database = view s.database → n.At co name path →
      ∃ shown d, List.Forall₂ (Shows co (view s.database) name) qs shown ∧ view d = view s.database ∧
        Prog.run (answer db) (spin sh.fuel n) t =
          ({ t with written := t.written ++ printed shown, database := d }, .ok ()) := by
    intro t n hview hat
    rw [← hview]
    exact run_spin law hsorted (fun q => by rw [hqs, hview]; exact Iff.rfl) hat hlen
  have hrest : (view s.database name path).isSome ∨ (view s.database).Below name path →
      ∀ n, dumpRest sh dd n = spin sh.fuel n := by
    intro hthere n
    rw [dumpRest, if_neg]
    rw [hzero]
    exact fun hnone => hthere.elim hnone.1 hnone.2
  rw [global_dump, hbegin]
  by_cases hsome : (view s.database name path).isSome
  · -- the node itself is printed first
    obtain ⟨data, hget⟩ := Option.isSome_iff_exists.mp hsome
    obtain ⟨hviewg, r, hr, hat, htext⟩ := law.get known _ name path data hn (by rw [hviewd, hget])
    rw [hviewd] at hviewg
    obtain ⟨shown, d, hshown, hview, hrun⟩ := hspin { s with
      written := s.written ++ [.text (format_glb_output r), .text [newline]]
      database := (db (.get (nodeOf global)) known).1 } r hviewg hat
    obtain ⟨closed, hviewx, hclose⟩ := hclosed { s with
      written := s.written ++ [.text (format_glb_output r), .text [newline]] ++ printed shown
      database := d }
    have hshows : Shows co (view s.database) name path r := ⟨hat, by rw [hget, htext]⟩
    refine ⟨r :: shown, closed, .here hsorted hqs hshown hshows, hviewx.trans hview, ?_⟩
    have hnode : Prog.run (answer db) (dumpNode dd (nodeOf global)) { s with database := known } =
        ({ s with
          written := s.written ++ [.text (format_glb_output r), .text [newline]]
          database := (db (.get (nodeOf global)) known).1 }, .ok r) := by
      rw [dumpNode, hdata, if_pos hsome, Prog.run_bind_ok (run_cache (by exact Prod.ext rfl hr)),
        Prog.run_bind_ok (run_log db _ _)]
      rfl
    rw [Prog.run_bind_ok hnode, hrest (.inl hsome), Prog.run_bind_ok hrun, hclose, printed_cons,
      List.append_assoc]
  · have hnode : Prog.run (answer db) (dumpNode dd (nodeOf global)) { s with database := known } =
        ({ s with database := known }, .ok (nodeOf global)) := by
      rw [dumpNode, hdata, if_neg hsome]
      rfl
    rw [Prog.run_bind_ok hnode]
    by_cases hbelow : (view s.database).Below name path
    · obtain ⟨shown, d, hshown, hview, hrun⟩ := hspin { s with database := known } _ hviewd hn
      obtain ⟨closed, hviewx, hclose⟩ := hclosed { s with written := s.written ++ printed shown, database := d }
      refine ⟨shown, closed, .below hsorted hqs hshown hsome hbelow, hviewx.trans hview, ?_⟩
      rw [hrest (.inr hbelow), Prog.run_bind_ok hrun, hclose]
    · obtain ⟨closed, hviewx, hclose⟩ := hclosed { s with database := known }
      refine ⟨[], closed, .nothing hsome hbelow, hviewx.trans hviewd, ?_⟩
      have hnone : dumpRest sh dd (nodeOf global) = pure () := if_pos (hzero.mpr ⟨hsome, hbelow⟩)
      rw [hnone]
      change Prog.run (answer db) (cache .close) _ = _
      rw [hclose]
      simp [printed]

end

end GlobalsJs.Gdbsession
