import GlobalsJs.Cache.Binding
import Mathlib.Data.List.Lex
import Mathlib.Data.Sum.Order

/-!
# A binding in memory

A small lawful binding: lists of counters, objects and nodes. Subscripts are texts,
and texts that are numerals come first, in the order of the numbers.
-/

namespace GlobalsJs.Cache
open Ecma

structure Subscript where
  text : JsString

namespace Subscript

def rank (k : Subscript) : Lex (ℕ ⊕ List ℕ) :=
  if k.text = natText (readNat k.text) then Sum.inlₗ (readNat k.text)
  else Sum.inrₗ (k.text.map UInt16.toNat)

theorem rank_injective : Function.Injective rank := by
  rintro ⟨s⟩ ⟨t⟩ h
  unfold rank at h
  dsimp only at h
  split_ifs at h with hs ht ht
  · have hnat : readNat s = readNat t := Sum.inl.inj (toLex.injective h)
    rw [Subscript.mk.injEq, hs, ht, hnat]
  · cases toLex.injective h
  · cases toLex.injective h
  · have hmap : s.map UInt16.toNat = t.map UInt16.toNat := Sum.inr.inj (toLex.injective h)
    rw [Subscript.mk.injEq]
    exact List.map_injective_iff.mpr (fun a b => UInt16.toNat_inj.mp) hmap

instance : LinearOrder Subscript := LinearOrder.lift' rank rank_injective

def of (v : Json) : Subscript := ⟨v.toText⟩

theorem of_lt {m n : ℕ} (h : m < n) : of (.ofInt m) < of (.ofInt n) := by
  have hrank : ∀ k : ℕ, rank (of (.ofInt k)) = Sum.inlₗ k := by
    intro k
    have htext : (of (.ofInt k)).text = natText k := rfl
    rw [rank, htext, readNat_natText, if_pos rfl]
  change rank (of (.ofInt m)) < rank (of (.ofInt n))
  rw [hrank, hrank]
  exact Sum.Lex.inl_lt_inl_iff.mpr h

theorem text_of_scalar {v : Json} (h : Scalar v) : (of v).text ≠ [] := by
  cases v with
  | num n => exact n.text_ne_nil
  | bool b => cases b <;> decide
  | str s => exact h
  | null | arr | obj => cases h

end Subscript

structure Disk where
  counters : List (JsString × ℕ)
  objects : List ((JsString × Subscript) × Props)
  nodes : List (JsString × List Subscript)

namespace Disk

def empty : Disk := ⟨[], [], []⟩

def path (ref : GloRef) : List Subscript := ref.subscripts.map fun x => ⟨textOf x⟩

def kill (d : Disk) (name : JsString) (path : List Subscript) : Disk where
  counters := if path = [] then d.counters.filter (·.1 ≠ name) else d.counters
  objects := d.objects.filter fun o => !(o.1.1 = name ∧ path <+: [o.1.2])
  nodes := d.nodes.filter fun p => !(p.1 = name ∧ path <+: p.2)

def counter (d : Disk) (name : JsString) : ℕ := (d.counters.lookup name).getD 0

def level (d : Disk) (name : JsString) (path : List Subscript) : List Subscript :=
  (d.nodes.filterMap fun p =>
    if p.1 = name ∧ path <+: p.2 ∧ ∀ k ∈ p.2, k.text ≠ [] then (p.2.drop path.length).head? else none) ++
  if path = [] then (d.objects.filterMap fun o =>
    if o.1.1 = name ∧ o.1.2.text ≠ [] then some o.1.2 else none) else []

/-- The empty text stands for the place before the first subscript. -/
def next (d : Disk) (name : JsString) (path : List Subscript) (x : Subscript) : Option Subscript :=
  let ks := (d.level name path).filter fun k => x.text = [] ∨ x < k
  ks.find? fun k => ks.all (k ≤ ·)

def ok : Json := .obj [(js "ok", .ofInt 1)]

def binding : Binding Disk
  | .set ref _, d => ({ d with nodes := (ref.global, path ref) :: d.nodes }, ⟨none, ok⟩)
  | .kill ref, d => (d.kill ref.global (path ref), ⟨none, ok⟩)
  | .killGlobal name, d => (d.kill name [], ⟨none, ok⟩)
  | .increment ref, d =>
    ({ d with counters := (ref.global, d.counter ref.global + 1) :: d.counters },
      ⟨none, .obj [(js "ok", .ofInt 1), (js "data", .ofInt (d.counter ref.global + 1 : ℕ))]⟩)
  | .update ref object, d =>
    ({ d with objects := match object, path ref with
      | .obj ps, [k] => ((ref.global, k), ps) :: d.objects
      | _, _ => d.objects }, ⟨none, .ofInt 0⟩)
  | .order ref, d =>
    (d, ⟨none,
      match ref.subscripts.getLast?, d.next ref.global (path ref).dropLast
        ((path ref).getLastD ⟨[]⟩) with
      | some _, some k => ⟨ref.global, ref.subscripts.dropLast ++ [some (.str k.text)], .str k.text⟩
      | _, _ => ⟨ref.global, ref.subscripts, .str []⟩⟩)
  | .orderNothing, d => (d, ⟨none, ⟨[], [], .str []⟩⟩)
  | .retrieve ref, d =>
    (d, ⟨none, match path ref with
      | [k] => (d.objects.lookup (ref.global, k)).map .obj
      | _ => none⟩)
  | .get ref, d => (d, ⟨none, if ref.subscripts.isEmpty then
      (d.counters.lookup ref.global).map fun n => .ofInt n else none⟩)
  | .close, d => (d, ⟨none, ok⟩)
  | .callback _ _, d => (d, ⟨none, ()⟩)

def view (d : Disk) : Globals Subscript where
  root n := d.counters.lookup n
  object n k := if k.text = [] then none else d.objects.lookup (n, k)
  node n p := (n, p) ∈ d.nodes ∧ ∀ k ∈ p, k.text ≠ []

instance (d : Disk) (name : JsString) (path : List Subscript) : Decidable (d.view.node name path) :=
  inferInstanceAs (Decidable ((name, path) ∈ d.nodes ∧ ∀ k ∈ path, k.text ≠ []))

theorem mem_level (d : Disk) (name : JsString) (path : List Subscript) (k : Subscript) :
    k ∈ d.level name path ↔ d.view.Child name path k := by
  have hnodes : (∃ p ∈ d.nodes, (if p.1 = name ∧ path <+: p.2 ∧ ∀ k ∈ p.2, k.text ≠ [] then
      (p.2.drop path.length).head? else none) = some k) ↔
      ∃ rest, d.view.node name (path ++ k :: rest) := by
    constructor
    · rintro ⟨⟨n, p⟩, hp, hk⟩
      split_ifs at hk with hcond
      obtain ⟨rfl, ⟨rest, rfl⟩, htext⟩ := hcond
      obtain ⟨rest, rfl⟩ : ∃ r, rest = k :: r := by
        rw [List.drop_left] at hk
        exact ⟨rest.tail, (List.cons_head?_tail hk).symm⟩
      exact ⟨rest, hp, htext⟩
    · rintro ⟨rest, hp, htext⟩
      refine ⟨_, hp, ?_⟩
      rw [if_pos ⟨rfl, List.prefix_append _ _, htext⟩, List.drop_left]
      rfl
  have hobjects : (∃ o ∈ d.objects, (if o.1.1 = name ∧ o.1.2.text ≠ [] then some o.1.2 else none) =
      some k) ↔ (d.view.object name k).isSome := by
    by_cases hk : k.text = []
    · have hnone : d.view.object name k = none := if_pos hk
      rw [hnone]
      refine ⟨fun ⟨o, _, ho⟩ => ?_, fun h => by cases h⟩
      split_ifs at ho with hcond
      rw [Option.some.inj ho] at hcond
      exact absurd hk hcond.2
    · have hsome : d.view.object name k = d.objects.lookup (name, k) := if_neg hk
      rw [hsome, List.lookup_isSome_iff]
      constructor
      · rintro ⟨⟨⟨n, l⟩, ps⟩, hmem, ho⟩
        split_ifs at ho with hcond
        obtain ⟨rfl, -⟩ := hcond
        exact ⟨_, hmem, by rw [← Option.some.inj ho]; exact beq_self_eq_true _⟩
      · rintro ⟨⟨⟨n, l⟩, ps⟩, hmem, hkey⟩
        obtain ⟨rfl, rfl⟩ := Prod.mk.inj (eq_of_beq hkey)
        exact ⟨_, hmem, if_pos ⟨rfl, hk⟩⟩
  by_cases hpath : path = []
  · simp [level, hpath, Globals.Child] at *
    rw [hnodes, hobjects]
  · simp [level, hpath, Globals.Child] at *
    rw [hnodes]

theorem lookup_filter {α β : Type} [BEq α] [LawfulBEq α] (xs : List (α × β)) (keep : α → Bool) (a : α) :
    (xs.filter fun x => keep x.1).lookup a = if keep a then xs.lookup a else none := by
  induction xs with
  | nil => simp
  | cons x xs ih =>
    obtain ⟨k, v⟩ := x
    by_cases hka : a = k
    · subst hka
      cases hkeep : keep a <;> simp [hkeep, ih]
    · have hbeq : (a == k) = false := beq_false_of_ne hka
      cases hkeep : keep k <;> simp [List.lookup_cons, hkeep, hbeq, ih]

theorem path_of (name : JsString) (subs : List Json) :
    path ⟨name, subs.map some⟩ = subs.map Subscript.of := by
  simp only [path, List.map_map]
  rfl

theorem view_kill (d : Disk) (name : JsString) (path : List Subscript) :
    (d.kill name path).view = d.view.kill name path := by
  have hroot : (d.kill name path).view.root = (d.view.kill name path).root := by
    funext n
    simp only [view, kill, Globals.kill]
    by_cases hpath : path = []
    · rw [if_pos hpath]
      refine (lookup_filter d.counters (fun m => decide (m ≠ name)) n).trans ?_
      by_cases hn : n = name <;> simp [hn, hpath]
    · simp [hpath]
  have hobject : (d.kill name path).view.object = (d.view.kill name path).object := by
    funext n k
    simp only [view, kill, Globals.kill]
    have hfilter := lookup_filter d.objects
      (fun key => !(decide (key.1 = name ∧ path <+: [key.2]))) (n, k)
    dsimp only at hfilter
    rw [hfilter]
    by_cases hk : n = name ∧ path <+: [k] <;> simp [hk]
  have hnode : (d.kill name path).view.node = (d.view.kill name path).node := by
    funext n p
    simp only [view, kill, Globals.kill, List.mem_filter, eq_iff_iff]
    simp
    tauto
  change Globals.mk _ _ _ = Globals.mk _ _ _
  congr

theorem next_eq_some {d : Disk} {name : JsString} {path : List Subscript} {x k : Subscript}
    (h : IsLeast {l | d.view.Child name path l ∧ (x.text = [] ∨ x < l)} k) :
    d.next name path x = some k := by
  unfold next
  generalize hks : (d.level name path).filter (fun k => x.text = [] ∨ x < k) = ks
  have hmem : ∀ l, l ∈ ks ↔ d.view.Child name path l ∧ (x.text = [] ∨ x < l) := by
    intro l
    rw [← hks, List.mem_filter, mem_level, decide_eq_true_eq]
  cases hfind : ks.find? (fun k => ks.all (k ≤ ·)) with
  | none =>
    rw [List.find?_eq_none] at hfind
    refine absurd ?_ (hfind k ((hmem k).mpr h.1))
    exact List.all_eq_true.mpr fun l hl => decide_eq_true (h.2 ((hmem l).mp hl))
  | some l =>
    have hall := List.all_eq_true.mp (List.find?_some (p := fun k => ks.all (k ≤ ·)) hfind)
    have hl := (hmem l).mp (List.mem_of_find?_eq_some hfind)
    have hlk : l ≤ k := of_decide_eq_true (hall k ((hmem k).mpr h.1))
    exact congrArg some (le_antisymm hlk (h.2 hl))

theorem next_eq_none {d : Disk} {name : JsString} {path : List Subscript} {x : Subscript}
    (h : ∀ l, d.view.Child name path l → ¬ (x.text = [] ∨ x < l)) : d.next name path x = none := by
  have hnil : (d.level name path).filter (fun k => x.text = [] ∨ x < k) = [] := by
    rw [List.filter_eq_nil_iff]
    intro l hl
    rw [decide_eq_true_eq]
    exact h l ((d.mem_level name path l).mp hl)
  rw [next, hnil]
  rfl

theorem text_of_child {d : Disk} {name : JsString} {path : List Subscript} {k : Subscript}
    (h : d.view.Child name path k) : k.text ≠ [] := by
  rcases h with ⟨rest, -, htext⟩ | ⟨-, hobj⟩
  · exact htext k (by simp)
  · intro hk
    have hnone : d.view.object name k = none := if_pos hk
    rw [hnone] at hobj
    cases hobj

theorem mem_objects {d : Disk} {name : JsString} {k : Subscript} {o : Props}
    (h : d.view.object name k = some o) : ((name, k), o) ∈ d.objects := by
  simp only [view] at h
  split_ifs at h
  obtain ⟨l₁, l₂, hobjects, -⟩ := List.lookup_eq_some_iff.mp h
  simp [hobjects]

theorem order_result (d : Disk) (name : JsString) (subs : List Json) (x : Json) :
    (binding (.order ⟨name, (subs ++ [x]).map some⟩) d).2.result =
      match d.next name (subs.map Subscript.of) (Subscript.of x) with
      | some k => ⟨name, subs.map some ++ [some (.str k.text)], .str k.text⟩
      | none => ⟨name, (subs ++ [x]).map some, .str []⟩ := by
  have hpath : path ⟨name, subs.map some ++ [some x]⟩ = subs.map Subscript.of ++ [Subscript.of x] := by
    simpa using path_of name (subs ++ [x])
  simp only [binding, List.map_append, List.map_singleton, List.getLast?_concat,
    List.dropLast_concat, hpath, List.getLastD_concat]
  cases d.next name (subs.map Subscript.of) (Subscript.of x) <;> rfl

theorem order_least {d : Disk} {name : JsString} {subs : List Json} {x : Json} {k : Subscript}
    (hk : IsLeast {l | d.view.Child name (subs.map Subscript.of) l ∧
      ((Subscript.of x).text = [] ∨ Subscript.of x < l)} k) :
    let r := (binding (.order ⟨name, (subs ++ [x]).map some⟩) d).2.result
    r.global = name ∧ r.subscripts = (subs ++ [r.result]).map some ∧ Scalar r.result ∧
      Subscript.of r.result = k ∧ isEnd r.result = false := by
  have hresult := order_result d name subs x
  rw [next_eq_some hk] at hresult
  rw [hresult]
  have htext := text_of_child hk.1.1
  refine ⟨rfl, by simp, htext, rfl, ?_⟩
  simp [isEnd, looseEqual, looseEq, primOf, Json.prim, htext]

theorem lawful : Lawful binding view Subscript.of where
  sub_str s t h := congrArg Subscript.text h
  sub_lt _ _ h := Subscript.of_lt h
  no_error c d := by cases c <;> rfl
  set d name subs data hsubs := by
    have htext : ∀ k ∈ subs.map Subscript.of, k.text ≠ [] := by
      intro k hk
      obtain ⟨x, hx, rfl⟩ := List.mem_map.mp hk
      exact Subscript.text_of_scalar (hsubs x hx)
    simp only [binding, view, Globals.setNode, path_of, List.mem_cons, Prod.mk.injEq]
    congr
    funext n p
    rw [eq_iff_iff]
    constructor
    · rintro ⟨⟨rfl, rfl⟩ | hmem, hp⟩
      · exact Or.inr ⟨rfl, rfl⟩
      · exact Or.inl ⟨hmem, hp⟩
    · rintro (⟨hmem, hp⟩ | ⟨rfl, rfl⟩)
      · exact ⟨Or.inr hmem, hp⟩
      · exact ⟨Or.inl ⟨rfl, rfl⟩, htext⟩
  kill d name subs _ := by
    rw [← view_kill, ← path_of name]
    rfl
  set_elsewhere d ref data name hname := by
    refine ⟨rfl, rfl, ?_⟩
    funext p
    simp [binding, view, hname]
  kill_elsewhere d ref name hname := by
    change ((d.kill ref.global (path ref)).view).SameAt d.view name
    rw [view_kill]
    refine ⟨?_, ?_, ?_⟩
    · simp [Globals.kill, hname]
    · funext k
      simp [Globals.kill, hname]
    · funext p
      simp [Globals.kill, hname]
  kill_ok _ _ := rfl
  killGlobal d name := view_kill d name []
  increment d name := by
    simp only [binding, view, Globals.increment]
    congr
    funext n
    by_cases hn : n = name <;> simp [List.lookup_cons, hn, counter, beq_false_of_ne]
  increment_ok _ _ := rfl
  increment_data _ _ := rfl
  update d name id ps hid := by
    have htext := Subscript.text_of_scalar hid
    simp only [binding, view, Globals.update, path, List.map_cons, List.map_nil, textOf]
    congr
    funext n k
    change (if k.text = [] then none else List.lookup (n, k) ((⟨name, Subscript.of id⟩, ps) :: d.objects))
      = _
    by_cases hkey : n = name ∧ k = Subscript.of id
    · obtain ⟨rfl, rfl⟩ := hkey
      simp [htext]
    · have hne : ((n, k) == (name, Subscript.of id)) = false :=
        beq_false_of_ne fun h => hkey (Prod.mk.inj h)
      simp [List.lookup_cons, hne, hkey]
  update_ok _ _ _ := rfl
  retrieve d name id ps hid h := by
    have hlookup : d.view.object name (Subscript.of id) = d.objects.lookup (name, Subscript.of id) :=
      if_neg (Subscript.text_of_scalar hid)
    rw [hlookup] at h
    exact congrArg (Option.map Json.obj) h
  get_root d name := by
    simp only [binding, view]
    cases d.counters.lookup name <;> rfl
  order d name subs x k hx _ hk := by
    refine order_least ?_
    simpa only [Subscript.text_of_scalar hx, false_or] using hk
  order_end d name subs x hx _ hnone := by
    have hresult := order_result d name subs x
    rw [next_eq_none (by simpa only [Subscript.text_of_scalar hx, false_or] using hnone)] at hresult
    rw [hresult]
  reads _ _ := ⟨rfl, rfl, rfl⟩
  callback _ _ _ := rfl
  finite d name path :=
    (List.finite_toSet (d.level name path)).subset fun l hl => (d.mem_level name path l).mpr hl

theorem isLocal : Local binding view := by
  intro c d name hname
  cases c with
  | set ref data => exact lawful.set_elsewhere d ref data name fun h => hname (congrArg some h.symm)
  | kill ref => exact lawful.kill_elsewhere d ref name fun h => hname (congrArg some h.symm)
  | killGlobal n =>
    have hne : name ≠ n := fun h => hname (congrArg some h.symm)
    rw [lawful.killGlobal]
    exact ⟨by simp [Globals.kill, hne], by simp [Globals.kill, hne], by simp [Globals.kill, hne]⟩
  | increment ref =>
    have hne : name ≠ ref.global := fun h => hname (congrArg some h.symm)
    refine ⟨?_, rfl, rfl⟩
    simp [binding, view, List.lookup_cons, beq_false_of_ne hne]
  | update node object =>
    have hne : name ≠ node.global := fun h => hname (congrArg some h.symm)
    refine ⟨rfl, ?_, rfl⟩
    funext k
    have hkey : ∀ l, ((name, k) == (node.global, l)) = false :=
      fun l => beq_false_of_ne fun h => hne (Prod.mk.inj h).1
    simp only [binding, view]
    split_ifs
    · rfl
    split
    · simp only [List.lookup_cons, hkey]
    · rfl
  | order | orderNothing | retrieve | get | close | callback => exact .refl _ name

theorem setKeeps : SetKeeps binding view := fun _ _ _ _ _ hp => ⟨List.mem_cons_of_mem _ hp.1, hp.2⟩

theorem starting : Starting binding view Subscript.of where
  order_first d name subs k _ hk := by
    refine order_least ?_
    simpa only [Subscript.of, Json.toText, true_or, and_true] using hk
  order_none d name subs _ hnone := by
    have hresult := order_result d name subs (.str [])
    rw [next_eq_none fun l hl _ => hnone l hl] at hresult
    rw [hresult]
  order_text d ref := by
    simp only [binding]
    split <;> rfl

end Disk

end GlobalsJs.Cache
