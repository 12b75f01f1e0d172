import GlobalsJs.Cache.Disk
import GlobalsJs.Gdbsession.Nodes
import GlobalsJs.Lists.Table

/-!
# Globals in memory

A small database for the shell: a list of the nodes that have data, in the collation of numerals and texts.
-/

namespace GlobalsJs.Gdbsession

open Ecma
open GlobalsJs.Cache (Subscript)

abbrev Memory := List ((JsString × List Subscript) × JsString)

namespace Memory

def collation : Collation Subscript := ⟨fun _ => True, fun s => ⟨s⟩⟩

def view (d : Memory) : Nodes Subscript := fun name path => d.lookup (name, path)

def paths (d : Memory) (name : JsString) : List (List Subscript) :=
  d.filterMap fun e => if e.1.1 = name then some e.1.2 else none

def kill (d : Memory) (name : JsString) (path : List Subscript) : Memory :=
  d.filter fun e => !(e.1.1 = name ∧ path <+: e.1.2)

def node (name : JsString) (path : List Subscript) (data : Option JsString) (defined : ℕ) : Node :=
  ⟨some name, some (path.map fun k => .str k.text), data.map .str, some (.ofInt defined)⟩

def definition (d : Memory) (name : JsString) (path : List Subscript) : ℕ :=
  (if (d.view name path).isSome then 1 else 0) +
    if (d.paths name).any (fun q => path <+: q ∧ q ≠ path) then 10 else 0

def nameOf (n : Node) : JsString := n.global.getD []

def pathOf (n : Node) : List Subscript := n.texts.map collation.sub

def next (d : Memory) (name : JsString) (path : List Subscript) : Node :=
  match Table.order (d.paths name) (some path) with
  | none => ⟨none, none, none, some (.ofInt 0)⟩
  | some q => node name q (d.view name q) (d.definition name q)

def result : Option Json := some (.obj [(js "ok", .ofInt 1)])

def cache : Cache Memory
  | .connect _, d => (d, .ok ())
  | .set r, d => (((r.global, r.subscripts.map collation.sub), r.data.getD []) :: d, .ok result)
  | .kill r, d => (d.kill r.global (r.subscripts.map collation.sub), .ok result)
  | .global_directory _, d => (d, .ok (d.map fun e => e.1.1).dedup)
  | .data n, d => (d, .ok (node (nameOf n) (pathOf n) none (d.definition (nameOf n) (pathOf n))))
  | .get n, d =>
    (d, .ok (node (nameOf n) (pathOf n) (d.view (nameOf n) (pathOf n)) (d.definition (nameOf n) (pathOf n))))
  | .next_node n, d => (d, .ok (d.next (nameOf n) (pathOf n)))
  | .close, d => (d, .ok ())

theorem mem_paths {d : Memory} {name : JsString} {q : List Subscript} :
    q ∈ d.paths name ↔ (d.view name q).isSome := by
  rw [paths, List.mem_filterMap, view, List.lookup_isSome_iff]
  constructor
  · rintro ⟨e, he, hq⟩
    split_ifs at hq with hname
    refine ⟨e, he, ?_⟩
    rw [← hname, ← Option.some.inj hq]
    exact beq_self_eq_true _
  · rintro ⟨e, he, hkey⟩
    have heq : (name, q) = e.1 := eq_of_beq hkey
    exact ⟨e, he, by rw [← heq, if_pos rfl]⟩

theorem view_kill (d : Memory) (name : JsString) (path : List Subscript) :
    (d.kill name path).view = d.view.kill name path := by
  funext n p
  rw [view, kill, GlobalsJs.Cache.Disk.lookup_filter d (fun key => !(key.1 = name ∧ path <+: key.2)) (n, p), Nodes.kill]
  by_cases hkey : n = name ∧ path <+: p <;> simp [hkey, view]

theorem definition_eq (d : Memory) (name : JsString) (path : List Subscript) :
    d.definition name path = d.view.definition name path := by
  have hbelow : (d.paths name).any (fun q => path <+: q ∧ q ≠ path) = true ↔ d.view.Below name path := by
    rw [List.any_eq_true, Nodes.Below]
    refine exists_congr fun q => ?_
    rw [mem_paths, decide_eq_true_eq]
    tauto
  rw [definition, Nodes.definition]
  by_cases h : d.view.Below name path
  · rw [if_pos h, if_pos (hbelow.mpr h)]
  · rw [if_neg h, if_neg (mt hbelow.mp h)]

theorem node_at (name : JsString) (path : List Subscript) (data : Option JsString) (defined : ℕ) :
    (node name path data defined).At collation name path := by
  refine ⟨rfl, ?_, trivial⟩
  change ((path.map fun k => Json.str k.text).map Json.toText).map collation.sub = path
  rw [List.map_map, List.map_map]
  exact List.map_id path

theorem at_unique {n : Node} {name : JsString} {path : List Subscript} (hn : n.At collation name path) :
    nameOf n = name ∧ pathOf n = path := by
  rw [nameOf, hn.global]
  exact ⟨rfl, hn.subscripts⟩

theorem lawful : LawfulNodes cache view collation where
  connect _ _ := ⟨rfl, rfl⟩
  close _ := ⟨rfl, rfl⟩
  global_directory _ _ := ⟨⟨_, rfl⟩, rfl⟩
  set d name subs data _ := by
    refine ⟨⟨_, some (.ofInt 1), rfl, rfl⟩, ?_⟩
    funext n p
    change List.lookup (n, p) (((name, subs.map collation.sub), data) :: d) = _
    rw [List.lookup_cons, Nodes.set]
    by_cases hkey : n = name ∧ p = subs.map collation.sub
    · rw [if_pos hkey, hkey.1, hkey.2, beq_self_eq_true]
    · have hne : (n, p) ≠ (name, subs.map collation.sub) := fun heq => hkey (Prod.mk.inj heq)
      rw [if_neg hkey, beq_false_of_ne hne]
      rfl
  kill d name subs _ := ⟨⟨_, some (.ofInt 1), rfl, rfl⟩, d.view_kill name (subs.map collation.sub)⟩
  data d n name path hn := by
    obtain ⟨hname, hpath⟩ := at_unique hn
    refine ⟨rfl, _, rfl, ?_⟩
    rw [hname, hpath, definition_eq]
    rfl
  get d n name path data hn hdata := by
    obtain ⟨hname, hpath⟩ := at_unique hn
    refine ⟨rfl, _, rfl, ?_, ?_⟩
    · rw [hname, hpath]
      exact node_at ..
    · rw [hname, hpath, hdata]
      rfl
  next_node d n name path q hn hq := by
    obtain ⟨hname, hpath⟩ := at_unique hn
    have hnext : Table.order (d.paths name) (some path) = some q := by
      rw [Table.order_eq_some]
      constructor
      · rw [Table.mem_above, mem_paths]
        exact ⟨hq.1.2, by simpa using hq.1.1⟩
      · intro p hp
        rw [Table.mem_above, mem_paths] at hp
        exact hq.2 ⟨hp.2 path rfl, hp.1⟩
    obtain ⟨data, hdata⟩ := Option.isSome_iff_exists.mp hq.1.2
    refine ⟨rfl, node name q (d.view name q) (d.definition name q), ?_, node_at .., ?_, ?_⟩
    · change Except.ok (d.next (nameOf n) (pathOf n)) = _
      rw [hname, hpath, next, hnext]
    · rw [hdata]
      rfl
    · have hthere : d.definition name q ≠ 0 := by
        rw [definition, if_pos hq.1.2]
        omega
      exact (definedIs_ofInt rfl 0).trans (decide_eq_false hthere)
  next_end d n name path hn hend := by
    obtain ⟨hname, hpath⟩ := at_unique hn
    have hnext : Table.order (d.paths name) (some path) = none := by
      rw [Table.order_eq_none, List.eq_nil_iff_forall_not_mem]
      intro p hp
      rw [Table.mem_above, mem_paths] at hp
      rw [hend p (hp.2 path rfl)] at hp
      cases hp.1
    refine ⟨rfl, ⟨none, none, none, some (.ofInt 0)⟩, ?_, definedIs_ofInt (n := 0) rfl 0⟩
    change Except.ok (d.next (nameOf n) (pathOf n)) = _
    rw [hname, hpath, next, hnext]
  finite d name := by
    refine (d.paths name).finite_toSet.subset fun q hq => ?_
    exact mem_paths.mpr hq

end Memory

end GlobalsJs.Gdbsession
