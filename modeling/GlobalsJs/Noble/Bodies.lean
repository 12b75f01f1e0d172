import GlobalsJs.Lists.Brackets
import GlobalsJs.Noble.ClassReader

/-!
# The bodies of methods

The body of a method ends where its braces are closed. The inner loop counts at most one opening
and one closing brace a line, and it reads from a variable that is never set.
-/

namespace GlobalsJs.Noble

open Ecma Brackets

structure MethodText where
  kind : MethodKind
  header : JsString
  begins : methodKind (lineType header) = some kind
  opened : [lbrace] <:+ header
  body : List JsString
  balanced : Balanced lbrace rbrace body.flatten
  indent : JsString
  indent_blank : indent.all isStripped
  trail : JsString
  trail_blank : trail.all isStripped

def MethodText.closing (m : MethodText) : JsString := m.indent ++ rbrace :: m.trail

def MethodText.lines (m : MethodText) : List JsString := m.header :: (m.body ++ [m.closing])

inductive Item
  | line (text : JsString) (h : methodKind (lineType text) = none)
  | method (m : MethodText)

def Item.lines : Item → List JsString
  | .line text _ => [text]
  | .method m => m.lines

/-- What is to be recorded of it. -/
def Item.record (cdef : Cdef) : Item → Cdef
  | .line text _ => recordLine cdef text
  | .method m => cdef.addMethod m.kind ⟨methodHeader m.header, m.body⟩

structure ClassText where
  items : List Item
  text : JsString
  lines_eq : fileLines text = items.flatMap Item.lines

namespace ClassText

def recorded (c : ClassText) : Cdef := c.items.foldl Item.record .empty

def BodiesRead (source : Source) (c : ClassText) : Prop :=
  ∃ fuel, loadAndCompileClass source fuel c.text = (c.recorded, .ok ())

def ofItems (items : List Item) (h : ∀ l ∈ items.flatMap Item.lines, newline ∉ l) : ClassText :=
  ⟨items, LineReader.wire newline (items.flatMap Item.lines), fileLines_wire h⟩

end ClassText

/-- The count never comes to zero in the body, and behind it only the brace of the method is open. -/
def Counted : ℤ → List JsString → Prop
  | done, [] => done = 1
  | done, cl :: body => countLine done cl ≠ 0 ∧ Counted (countLine done cl) body

instance decidableCounted : (done : ℤ) → (body : List JsString) → Decidable (Counted done body)
  | done, [] => inferInstanceAs (Decidable (done = 1))
  | done, cl :: body =>
    have := decidableCounted (countLine done cl) body
    inferInstanceAs (Decidable (countLine done cl ≠ 0 ∧ Counted (countLine done cl) body))

theorem countLine_eq (done : ℤ) (cl : JsString) :
    countLine done cl = done + (if lbrace ∈ cl then 1 else 0) - (if rbrace ∈ cl then 1 else 0) := by
  rw [countLine]
  split_ifs <;> omega

theorem countLine_closing (done : ℤ) (m : MethodText) : countLine done m.closing = done - 1 := by
  have hblank : ∀ s : JsString, s.all isStripped → lbrace ∉ s := by
    intro s hs hmem
    exact absurd (List.all_eq_true.mp hs lbrace hmem) (by decide)
  have hopening : lbrace ∉ m.closing := by
    simp [MethodText.closing, hblank _ m.indent_blank, hblank _ m.trail_blank, show lbrace ≠ rbrace by decide]
  have hclosing : rbrace ∈ m.closing := by simp [MethodText.closing]
  rw [countLine_eq, if_neg hopening, if_pos hclosing, add_zero]

theorem counted_of_depth {done : ℤ} {body : List JsString}
    (hsingle : ∀ cl ∈ body, cl.count lbrace ≤ 1 ∧ cl.count rbrace ≤ 1)
    (hopen : ∀ p, p <+: body.flatten → 0 < done + depth lbrace rbrace p)
    (hclosed : done + depth lbrace rbrace body.flatten = 1) : Counted done body := by
  induction body generalizing done with
  | nil =>
    rw [Counted]
    simpa [depth] using hclosed
  | cons cl body ih =>
    obtain ⟨hcl, hbody⟩ := List.forall_mem_cons.mp hsingle
    have hcount : countLine done cl = done + depth lbrace rbrace cl := by
      rw [countLine_eq, depth_of_single hcl.1 hcl.2, add_sub_assoc]
    have hpos : 0 < done + depth lbrace rbrace cl := hopen cl (List.prefix_append cl body.flatten)
    rw [Counted, hcount]
    refine ⟨hpos.ne', ih hbody (fun p hp => ?_) ?_⟩
    · rw [add_assoc, ← depth_append]
      exact hopen (cl ++ p) ((List.prefix_append_right_inj cl).mpr hp)
    · rwa [add_assoc, ← depth_append]

theorem MethodText.counted_of_single (m : MethodText)
    (hsingle : ∀ cl ∈ m.body, cl.count lbrace ≤ 1 ∧ cl.count rbrace ≤ 1) : Counted 1 m.body := by
  refine counted_of_depth hsingle (fun p hp => ?_) ?_
  · have hp := m.balanced.nonneg p hp
    omega
  · rw [m.balanced.closed, add_zero]

theorem readBody_done (source : Source) (fuel : ℕ) (cls rest : List JsString) :
    readBody source (fuel + 1) 0 cls rest = .ok (cls, rest) := rfl

theorem readBody_line {done : ℤ} (hdone : done ≠ 0) (fuel : ℕ) (cls : List JsString) (cl : JsString)
    (rest : List JsString) :
    readBody .reader (fuel + 1) done cls (cl :: rest) =
      readBody .reader fuel (countLine done cl) (if countLine done cl = 0 then cls else cls ++ [cl]) rest := by
  rw [readBody, if_neg hdone]
  rfl

theorem readBody_unset (fuel : ℕ) {done : ℤ} (hdone : done ≠ 0) (cls rest : List JsString)
    (r : List JsString × List JsString) : readBody .unset fuel done cls rest ≠ .ok r := by
  intro hread
  cases fuel with
  | zero => cases hread
  | succ fuel =>
    rw [readBody, if_neg hdone] at hread
    cases hread

theorem readBody_grows {fuel : ℕ} {done : ℤ} {cls rest : List JsString} {r : List JsString × List JsString}
    (hread : readBody .reader fuel done cls rest = .ok r) : cls <+: r.1 := by
  induction fuel generalizing done cls rest with
  | zero => cases hread
  | succ fuel ih =>
    have hgrow : ∀ (d : ℤ) (cl : JsString), cls <+: if d = 0 then cls else cls ++ [cl] := by
      intro d cl
      split_ifs
      · exact List.prefix_rfl
      · exact List.prefix_append _ _
    rw [readBody] at hread
    split_ifs at hread with hdone
    · cases hread
      exact List.prefix_rfl
    · cases rest with
      | nil => exact (hgrow _ _).trans (ih hread)
      | cons cl rest => exact (hgrow _ _).trans (ih hread)

theorem readBody_counted {done : ℤ} {body : List JsString} (hdone : done ≠ 0) (hcounted : Counted done body)
    (m : MethodText) {fuel : ℕ} (hfuel : body.length + 1 < fuel) (cls rest : List JsString) :
    readBody .reader fuel done cls (body ++ m.closing :: rest) = .ok (cls ++ body, rest) := by
  induction body generalizing done fuel cls with
  | nil =>
    obtain ⟨fuel, rfl⟩ : ∃ k, fuel = k + 2 := ⟨fuel - 2, by simp only [List.length_nil] at hfuel; omega⟩
    obtain rfl : done = 1 := hcounted
    rw [List.nil_append, readBody_line hdone, countLine_closing, List.append_nil]
    rfl
  | cons cl body ih =>
    obtain ⟨fuel, rfl⟩ := Nat.exists_eq_succ_of_ne_zero (Nat.ne_zero_of_lt hfuel)
    have hbody : body.length + 1 < fuel := by
      simp only [List.length_cons] at hfuel
      omega
    rw [List.cons_append, readBody_line hdone, if_neg hcounted.1, ih hcounted.1 hcounted.2 hbody,
      List.append_assoc]
    rfl

theorem counted_of_readBody {done : ℤ} {body : List JsString} (hdone : done ≠ 0) {m : MethodText} {fuel : ℕ}
    {cls rest after : List JsString}
    (hread : readBody .reader fuel done cls (body ++ m.closing :: rest) = .ok (cls ++ body, after)) :
    Counted done body ∧ after = rest := by
  induction body generalizing done fuel cls with
  | nil =>
    cases fuel with
    | zero => cases hread
    | succ fuel =>
      rw [List.nil_append, List.append_nil, readBody_line hdone, countLine_closing] at hread
      split_ifs at hread with hlast
      · rw [hlast] at hread
        cases fuel with
        | zero => cases hread
        | succ fuel =>
          rw [readBody_done] at hread
          cases hread
          exact ⟨sub_eq_zero.mp hlast, rfl⟩
      · -- the closing line is taken for one of the body
        have hlen := (readBody_grows hread).length_le
        simp at hlen
  | cons cl body ih =>
    cases fuel with
    | zero => cases hread
    | succ fuel =>
      rw [List.cons_append, readBody_line hdone] at hread
      split_ifs at hread with hlast
      · -- the loop ends in the body
        rw [hlast] at hread
        cases fuel with
        | zero => cases hread
        | succ fuel =>
          rw [readBody_done] at hread
          have hlen := congrArg List.length (congrArg Prod.fst (Except.ok.inj hread))
          simp at hlen
      · rw [List.append_cons cls cl body] at hread
        obtain ⟨hcounted, hafter⟩ := ih hlast hread
        exact ⟨⟨hlast, hcounted⟩, hafter⟩

theorem Item.record_keeps (cdef : Cdef) (item : Item) (k : MethodKind) :
    cdef.methods k <+: (item.record cdef).methods k := by
  cases item with
  | line text h => rw [record, recordLine_methods]
  | method m => exact addMethod_keeps cdef m.kind _ k

theorem record_keeps (cdef : Cdef) (items : List Item) (k : MethodKind) :
    cdef.methods k <+: (items.foldl Item.record cdef).methods k := by
  induction items generalizing cdef with
  | nil => exact List.prefix_rfl
  | cons item items ih => exact (item.record_keeps cdef k).trans (ih _)

theorem entry_unique {ms : List MethodDef} {cdef : Cdef} {lt : MethodKind} {m m' : MethodDef}
    (h : (cdef.addMethod lt m).methods lt <+: ms) (h' : (cdef.addMethod lt m').methods lt <+: ms) : m = m' := by
  rw [addMethod_self] at h h'
  have hentry := List.prefix_of_prefix_length_le h h' (by simp)
  rw [List.prefix_append_right_inj] at hentry
  exact List.singleton_inj.mp (hentry.eq_of_length rfl)

theorem readClass_line {text : JsString} (h : methodKind (lineType text) = none) (source : Source) (fuel : ℕ)
    (cdef : Cdef) (rest : List JsString) :
    readClass source (fuel + 1) cdef (text :: rest) = readClass source fuel (recordLine cdef text) rest := by
  rw [readClass, h]

theorem readClass_method (m : MethodText) {source : Source} {fuel : ℕ} {rest : List JsString}
    {r : List JsString × List JsString} (hread : readBody source fuel 1 [] (m.body ++ m.closing :: rest) = .ok r)
    (cdef : Cdef) :
    readClass source (fuel + 1) cdef (m.lines ++ rest) =
      readClass source fuel (cdef.addMethod m.kind ⟨methodHeader m.header, r.1⟩) r.2 := by
  rw [MethodText.lines, List.cons_append, List.append_assoc, List.singleton_append, readClass, m.begins, hread]

theorem readClass_items {source : Source} {items : List Item}
    (hitems : ∀ m, .method m ∈ items → source = .reader ∧ Counted 1 m.body) (cdef : Cdef) {fuel : ℕ}
    (hfuel : (items.flatMap Item.lines).length < fuel) :
    readClass source fuel cdef (items.flatMap Item.lines) = (items.foldl Item.record cdef, .ok ()) := by
  induction items generalizing cdef fuel with
  | nil =>
    obtain ⟨fuel, rfl⟩ := Nat.exists_eq_succ_of_ne_zero (Nat.ne_zero_of_lt hfuel)
    rfl
  | cons item items ih =>
    obtain ⟨fuel, rfl⟩ := Nat.exists_eq_succ_of_ne_zero (Nat.ne_zero_of_lt hfuel)
    have hrest := ih fun m hm => hitems m (List.mem_cons_of_mem item hm)
    rw [List.flatMap_cons, List.length_append] at hfuel
    rw [List.flatMap_cons, List.foldl_cons]
    cases item with
    | line text h =>
      have hlines : (items.flatMap Item.lines).length < fuel := by
        simp only [Item.lines, List.length_singleton] at hfuel
        omega
      exact (readClass_line h source fuel cdef _).trans (hrest _ hlines)
    | method m =>
      obtain ⟨rfl, hcounted⟩ := hitems m List.mem_cons_self
      have hlines : m.body.length + 1 < fuel ∧ (items.flatMap Item.lines).length < fuel := by
        simp only [Item.lines, MethodText.lines, List.length_cons, List.length_append, List.length_nil] at hfuel
        omega
      have hread := readBody_counted one_ne_zero hcounted m hlines.1 [] (items.flatMap Item.lines)
      exact (readClass_method m hread cdef).trans (hrest _ hlines.2)

theorem counted_of_entry {m : MethodText} {source : Source} {fuel : ℕ} {cdef final : Cdef} {rest : List JsString}
    (hread : readClass source (fuel + 1) cdef (m.lines ++ rest) = (final, .ok ()))
    (hfinal : (cdef.addMethod m.kind ⟨methodHeader m.header, m.body⟩).methods m.kind <+: final.methods m.kind) :
    source = .reader ∧ Counted 1 m.body ∧
      readClass source fuel (cdef.addMethod m.kind ⟨methodHeader m.header, m.body⟩) rest = (final, .ok ()) := by
  cases hbody : readBody source fuel 1 [] (m.body ++ m.closing :: rest) with
  | error e =>
    rw [MethodText.lines, List.cons_append, List.append_assoc, List.singleton_append, readClass, m.begins,
      hbody] at hread
    cases (Prod.ext_iff.mp hread).2
  | ok r =>
    have hnext := (readClass_method m hbody cdef).symm.trans hread
    have hleft := readClass_keeps source fuel (cdef.addMethod m.kind ⟨methodHeader m.header, r.1⟩) r.2 m.kind
    rw [hnext] at hleft
    have hentry : r.1 = m.body := congrArg MethodDef.implementation (entry_unique hleft hfinal)
    cases source with
    | unset => exact absurd hbody (readBody_unset fuel one_ne_zero [] _ r)
    | reader =>
      have hr : r = ([] ++ m.body, r.2) := by rw [← hentry]; rfl
      rw [hr] at hbody
      obtain ⟨hcounted, hafter⟩ := counted_of_readBody one_ne_zero hbody
      rw [hentry, hafter] at hnext
      exact ⟨rfl, hcounted, hnext⟩

theorem counted_of_readClass {source : Source} {items : List Item} {cdef : Cdef} {fuel : ℕ}
    (hread : readClass source fuel cdef (items.flatMap Item.lines) = (items.foldl Item.record cdef, .ok ())) :
    ∀ m, .method m ∈ items → source = .reader ∧ Counted 1 m.body := by
  induction items generalizing cdef fuel with
  | nil => exact fun m hm => absurd hm List.not_mem_nil
  | cons item items ih =>
    rw [List.flatMap_cons, List.foldl_cons] at hread
    cases fuel with
    | zero => cases (Prod.ext_iff.mp hread).2
    | succ fuel =>
      cases item with
      | line text h =>
        have hrest := ih ((readClass_line h source fuel cdef _).symm.trans hread)
        intro m hm
        exact hrest m ((List.mem_cons.mp hm).resolve_left (by simp))
      | method m =>
        obtain ⟨hsource, hcounted, hnext⟩ := counted_of_entry hread (record_keeps _ items m.kind)
        intro m' hm'
        rcases List.mem_cons.mp hm' with heq | hrest
        · cases heq
          exact ⟨hsource, hcounted⟩
        · exact ih hnext m' hrest

namespace ClassText

theorem bodiesRead_of_counted {source : Source} {c : ClassText}
    (h : ∀ m, .method m ∈ c.items → source = .reader ∧ Counted 1 m.body) : c.BodiesRead source := by
  refine ⟨(c.items.flatMap Item.lines).length + 1, ?_⟩
  rw [loadAndCompileClass, c.lines_eq]
  exact readClass_items h .empty (Nat.lt_succ_self _)

theorem BodiesRead.counted {source : Source} {c : ClassText} (h : c.BodiesRead source) :
    ∀ m, .method m ∈ c.items → source = .reader ∧ Counted 1 m.body := by
  obtain ⟨fuel, hread⟩ := h
  rw [loadAndCompileClass, c.lines_eq] at hread
  exact counted_of_readClass hread

/-- A class file is read as it is written if it has no method, or if `source` were the reader of
the file and the braces of each body were counted, and only then. -/
theorem bodies_read_iff (source : Source) (c : ClassText) :
    c.BodiesRead source ↔ ∀ m, .method m ∈ c.items → source = .reader ∧ Counted 1 m.body :=
  ⟨BodiesRead.counted, bodiesRead_of_counted⟩

/-- A method of one line, which is not read as `source` is not set, and one with two blocks that
begin in one line, which no reader of the file would make read as it is written. -/
theorem bodies_not_read :
    let version : MethodText :=
      { kind := .classmethod, header := js "classmethod version() As %String \x7b", begins := by decide,
        opened := by decide, body := [js "    return $ZV"], balanced := by decide,
        indent := [], indent_blank := by decide, trail := [], trail_blank := by decide }
    let nested : MethodText :=
      { kind := .method, header := js "method check(n) \x7b", begins := by decide, opened := by decide,
        body := [js "    if (n) \x7b if (n>1) \x7b", js "    \x7d", js "    \x7d"], balanced := by decide,
        indent := [], indent_blank := by decide, trail := [], trail_blank := by decide }
    ¬ (ofItems [.method version] (by decide)).BodiesRead .unset ∧
      ¬ (ofItems [.method nested] (by decide)).BodiesRead .reader := by
  refine ⟨fun hread => ?_, fun hread => ?_⟩
  · have hsource := (hread.counted _ List.mem_cons_self).1
    cases hsource
  · have hcounted := (hread.counted _ List.mem_cons_self).2
    revert hcounted
    decide

end ClassText

end GlobalsJs.Noble
