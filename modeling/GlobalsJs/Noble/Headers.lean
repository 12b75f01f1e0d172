import GlobalsJs.Noble.ClassReader

/-!
# The headers of methods

The line that begins a method has its name, its parameters and perhaps a return type. Whether
there is a return type is decided by the letters `as`, wherever they stand in the line.
-/

namespace GlobalsJs.Noble

open Ecma Pieces

/-- The line that begins a method, up to the brace. -/
structure Header where
  kind : MethodKind
  keyword : JsString
  spelled : keyword.map lowerCase = kind.word
  name : JsString
  name_units : name.all isAlphanumeric
  params : List FormalParameter
  returnType : Option Typing
  returnType_ne : ∀ t ∈ returnType, t.className ≠ []

namespace Header

def signature (h : Header) : JsString :=
  h.keyword ++ space :: (h.name ++ lparen :: (formalSpec h.params ++ [rparen]))

def front (h : Header) : JsString := h.signature ++ (h.returnType.map Typing.text).getD []

def text (h : Header) : JsString := h.front ++ [space, lbrace]

/-- Whatever was read before and comes after it, the entry of the method has the name, the
parameters and the return type of the line. -/
def Recorded (h : Header) : Prop :=
  ∀ (source : Source) (fuel : ℕ) (cdef : Cdef) (rest : List JsString),
    ∃ m, ((readClass source (fuel + 1) cdef (h.text :: rest)).1.methods h.kind)[(cdef.methods h.kind).length]? =
        some m ∧
      m.methodName = h.name ∧ m.formalSpec = formalSpec h.params ∧
      m.returnType = (h.returnType.map Typing.className).getD []

/-- The letters `as`, in any case. -/
def MentionsAs (s : JsString) : Prop := js "as" <:+: s.map lowerCase

instance (s : JsString) : Decidable (MentionsAs s) :=
  inferInstanceAs (Decidable (js "as" <:+: s.map lowerCase))

/-- There is no return type and nothing that is taken for one: the method is no class method,
and the letters `as` are not in its name and not in a parameter, which then has no type. -/
structure Untyped (h : Header) : Prop where
  kind : h.kind = .method
  name : ¬ MentionsAs h.name
  params : ∀ p ∈ h.params, p.type = none ∧ ¬ MentionsAs p.name

theorem keyword_clean (h : Header) : Clean h.keyword :=
  clean_of_lowerCase h.spelled (by cases h.kind <;> decide)

theorem name_clean (h : Header) : Clean h.name :=
  fun c hc => isClassUnit_of_alphanumeric (List.all_eq_true.mp h.name_units c hc)

end Header

theorem Typing.mem_text {t : Typing} {c : CodeUnit} (hc : c ∈ t.text) : isClassUnit c ∨ c = space := by
  rw [Typing.text, List.mem_cons, List.mem_append, List.mem_cons] at hc
  rcases hc with rfl | hc | rfl | hc
  · exact .inr rfl
  · exact .inl (t.as_clean c hc)
  · exact .inr rfl
  · exact .inl (t.className_clean c hc)

theorem FormalParameter.mem_text {p : FormalParameter} {c : CodeUnit} (hc : c ∈ p.text) :
    isClassUnit c ∨ c = space := by
  rw [FormalParameter.text, declaration, List.mem_append, List.mem_append, List.mem_append] at hc
  rcases hc with (hc | hc) | hc | hc
  · split_ifs at hc with hspaced
    · exact .inr (List.mem_singleton.mp hc)
    · cases hc
  · cases hkeyword : p.keyword with
    | none =>
      rw [hkeyword] at hc
      cases hc
    | some k =>
      rw [hkeyword, Option.map_some, Option.getD_some, List.mem_append, List.mem_singleton] at hc
      exact hc.imp_left (k.text_clean c)
  · exact .inl (p.name_clean c hc)
  · cases htype : p.type with
    | none =>
      rw [htype] at hc
      cases hc
    | some t =>
      rw [htype] at hc
      exact Typing.mem_text hc

theorem isStripped_of_classUnit {c : CodeUnit} (hc : isClassUnit c) : isStripped c = false := by
  simp only [isClassUnit, isAlphanumeric, isDigit, isLetter, Bool.or_eq_true, Bool.and_eq_true,
    decide_eq_true_eq, UInt16.le_iff_toNat_le, ← UInt16.toNat_inj] at hc
  simp only [isStripped, Bool.or_eq_false_iff, Bool.and_eq_false_iff, decide_eq_false_iff_not,
    UInt16.le_iff_toNat_le, ← UInt16.toNat_inj]
  simp only [zero, nine, dot, space, UInt16.reduceToNat] at hc ⊢
  omega

theorem notMem_formalSpec {c : CodeUnit} (hc : isClassUnit c = false) (hspace : c ≠ space)
    (hcomma : c ≠ comma) (ps : List FormalParameter) : c ∉ formalSpec ps := by
  refine notMem_intercalate hcomma (List.forall_mem_map.mpr fun p _ hmem => ?_)
  rcases FormalParameter.mem_text hmem with h | h
  · rw [hc] at h
    cases h
  · exact hspace h

namespace Header

theorem notMem_returned {h : Header} {c : CodeUnit} (hc : isClassUnit c = false) (hspace : c ≠ space) :
    c ∉ (h.returnType.map Typing.text).getD [] := by
  cases h.returnType with
  | none => exact List.not_mem_nil
  | some t =>
    intro hmem
    rcases Typing.mem_text hmem with hunit | hunit
    · rw [hc] at hunit
      cases hunit
    · exact hspace hunit

theorem notMem_front {h : Header} {c : CodeUnit} (hc : isClassUnit c = false) (hspace : c ≠ space)
    (hcomma : c ≠ comma) (hl : c ≠ lparen) (hr : c ≠ rparen) : c ∉ h.front := by
  have hkeyword : c ∉ h.keyword := h.keyword_clean.notMem hc
  have hname : c ∉ h.name := h.name_clean.notMem hc
  have hspec := notMem_formalSpec hc hspace hcomma h.params
  have hreturned : c ∉ (h.returnType.map Typing.text).getD [] := notMem_returned hc hspace
  simp [front, signature, hkeyword, hname, hspec, hreturned, hspace, hl, hr]

theorem keyword_ne (h : Header) : h.keyword ≠ [] := by
  intro hnil
  have hspelled := h.spelled
  rw [hnil] at hspelled
  cases hkind : h.kind <;> rw [hkind] at hspelled <;> cases hspelled

theorem stripLeft_text (h : Header) : stripLeft h.text = h.text := by
  obtain ⟨c, rest, hkeyword⟩ := List.exists_cons_of_ne_nil h.keyword_ne
  have hc : isStripped c = false :=
    isStripped_of_classUnit (h.keyword_clean c (by rw [hkeyword]; exact List.mem_cons_self))
  rw [text, front, signature, hkeyword, stripLeft]
  simp [hc]

theorem lineType_text (h : Header) : lineType h.text = h.kind.word := by
  have hblank : space ∉ h.keyword := h.keyword_clean.notMem (by decide)
  rw [lineType, stripLeft_text, text, front, signature, List.append_assoc, List.append_assoc, List.cons_append,
    piece_one_append hblank]
  exact h.spelled

theorem front_ends (h : Header) : ∃ s c, h.front = s ++ [c] ∧ isStripped c = false := by
  rw [front]
  cases hreturned : h.returnType with
  | none =>
    refine ⟨h.keyword ++ space :: (h.name ++ lparen :: formalSpec h.params), rparen, ?_, by decide⟩
    simp [signature]
  | some t =>
    obtain ⟨s, c, hclass⟩ := (List.eq_nil_or_concat' t.className).resolve_left (h.returnType_ne t hreturned)
    refine ⟨h.signature ++ space :: (t.as ++ space :: s), c, ?_, ?_⟩
    · simp [Typing.text, hclass]
    · exact isStripped_of_classUnit (t.className_clean c (by rw [hclass]; simp))

theorem stripRight_text (h : Header) : stripRight (piece lbrace 1 (stripLeft h.text)) = h.front := by
  have hbrace : lbrace ∉ h.front ++ [space] := by
    have hfront : lbrace ∉ h.front := notMem_front (by decide) (by decide) (by decide) (by decide) (by decide)
    simpa [show lbrace ≠ space by decide] using hfront
  have htext : h.text = (h.front ++ [space]) ++ lbrace :: [] := by simp [text]
  obtain ⟨s, c, hends, hc⟩ := h.front_ends
  rw [stripLeft_text, htext, piece_one_append hbrace, stripRight, List.rdropWhile_concat_pos _ _ _ (by decide),
    hends, List.rdropWhile_concat_neg _ _ _ (by simp [hc])]

theorem piece_front (h : Header) :
    piece rparen 1 h.front = h.keyword ++ space :: (h.name ++ lparen :: formalSpec h.params) := by
  have hparen : rparen ∉ h.keyword ++ space :: (h.name ++ lparen :: formalSpec h.params) := by
    have hkeyword : rparen ∉ h.keyword := h.keyword_clean.notMem (by decide)
    have hname : rparen ∉ h.name := h.name_clean.notMem (by decide)
    have hspec : rparen ∉ formalSpec h.params := notMem_formalSpec (by decide) (by decide) (by decide) _
    simp [hkeyword, hname, hspec, show rparen ≠ space by decide, show rparen ≠ lparen by decide]
  have hfront : h.front = (h.keyword ++ space :: (h.name ++ lparen :: formalSpec h.params)) ++
      rparen :: (h.returnType.map Typing.text).getD [] := by
    simp [front, signature]
  rw [hfront, piece_one_append hparen]

/-- The type that is read: the text behind the last blank when the letters `as` are in the line. -/
def typeRead (h : Header) : JsString :=
  if MentionsAs h.front then piece space (pieceCount space h.front) h.front else []

theorem methodHeader_text (h : Header) :
    methodHeader h.text = ⟨h.name, formalSpec h.params, h.typeRead⟩ := by
  have hblank : space ∉ h.keyword := h.keyword_clean.notMem (by decide)
  have hopen : lparen ∉ h.name := h.name_clean.notMem (by decide)
  have hspec : lparen ∉ formalSpec h.params := notMem_formalSpec (by decide) (by decide) (by decide) _
  have hclose : rparen ∉ formalSpec h.params := notMem_formalSpec (by decide) (by decide) (by decide) _
  simp only [methodHeader, stripRight_text, piece_front, pieces_rest hblank, piece_one_append hopen,
    piece_succ_append hopen, piece_one_self hspec, piece_one_self hclose]
  rfl

end Header

theorem mentionsAs_append {sep : CodeUnit} (hsep : lowerCase sep ∉ js "as") (s t : JsString) :
    Header.MentionsAs (s ++ sep :: t) ↔ Header.MentionsAs s ∨ Header.MentionsAs t := by
  rw [Header.MentionsAs, List.map_append, List.map_cons, infix_separated hsep]
  rfl

theorem Keyword.not_mentionsAs (k : Keyword) : ¬ Header.MentionsAs k.text := by
  rw [Header.MentionsAs, k.spelled]
  cases k.passing <;> decide

theorem Typing.mentionsAs (t : Typing) : Header.MentionsAs t.text := by
  have has : Header.MentionsAs t.as := by
    rw [Header.MentionsAs, t.spelled]
  have htext : t.text = [] ++ space :: (t.as ++ space :: t.className) := rfl
  rw [htext, mentionsAs_append (by decide), mentionsAs_append (by decide)]
  exact .inr (.inl has)

theorem mentionsAs_typed (s : JsString) (type : Option Typing) :
    Header.MentionsAs (s ++ (type.map Typing.text).getD []) ↔ type.isSome ∨ Header.MentionsAs s := by
  cases type with
  | none => simp
  | some t =>
    have htyping := t.mentionsAs
    rw [Option.map_some, Option.getD_some]
    refine iff_of_true ?_ (.inl rfl)
    rw [Header.MentionsAs, List.map_append]
    exact List.infix_append_of_infix_right htyping

theorem FormalParameter.mentionsAs_text (p : FormalParameter) :
    Header.MentionsAs p.text ↔ p.type.isSome ∨ Header.MentionsAs p.name := by
  have hblank : ∀ (b : Bool) (s : JsString),
      Header.MentionsAs ((if b then [space] else []) ++ s) ↔ Header.MentionsAs s := by
    intro b s
    cases b with
    | false => rfl
    | true => exact (mentionsAs_append (by decide) [] s).trans (or_iff_right (by decide))
  have hkeyword : ∀ (k : Option Keyword) (s : JsString),
      Header.MentionsAs ((k.map fun k => k.text ++ [space]).getD [] ++ s) ↔ Header.MentionsAs s := by
    intro k s
    cases k with
    | none => rfl
    | some k =>
      rw [Option.map_some, Option.getD_some, List.append_assoc]
      exact (mentionsAs_append (by decide) k.text s).trans (or_iff_right k.not_mentionsAs)
  rw [text, List.append_assoc, hblank, hkeyword, declaration, mentionsAs_typed]

theorem mentionsAs_formalSpec (ps : List FormalParameter) :
    Header.MentionsAs (formalSpec ps) ↔ ∃ p ∈ ps, p.type.isSome ∨ Header.MentionsAs p.name := by
  rw [Header.MentionsAs, formalSpec, map_intercalate, infix_intercalate (by decide) (by decide)]
  simp only [List.mem_map, exists_exists_and_eq_and]
  exact exists_congr fun p => and_congr_right fun _ => p.mentionsAs_text

namespace Header

theorem mentionsAs_keyword (h : Header) : MentionsAs h.keyword ↔ h.kind = .classmethod := by
  rw [MentionsAs, h.spelled]
  cases h.kind <;> decide

theorem untyped_iff (h : Header) :
    h.Untyped ↔ ¬ (MentionsAs h.keyword ∨ MentionsAs h.name ∨ MentionsAs (formalSpec h.params)) := by
  rw [mentionsAs_keyword, mentionsAs_formalSpec]
  constructor
  · intro huntyped hmention
    rcases hmention with hkind | hname | ⟨p, hp, htype | hname⟩
    · rw [huntyped.kind] at hkind
      cases hkind
    · exact huntyped.name hname
    · rw [(huntyped.params p hp).1] at htype
      cases htype
    · exact (huntyped.params p hp).2 hname
  · intro hmention
    refine ⟨?_, fun hname => hmention (.inr (.inl hname)), fun p hp => ⟨?_, ?_⟩⟩
    · cases hkind : h.kind with
      | method => rfl
      | classmethod => exact absurd (.inl hkind) hmention
    · cases htype : p.type with
      | none => rfl
      | some t => exact absurd (.inr (.inr ⟨p, hp, .inl (by rw [htype]; rfl)⟩)) hmention
    · exact fun hname => hmention (.inr (.inr ⟨p, hp, .inr hname⟩))

theorem mentionsAs_front (h : Header) :
    MentionsAs h.front ↔ h.returnType.isSome ∨ ¬ h.Untyped := by
  have hsignature : MentionsAs h.signature ↔ ¬ h.Untyped := by
    have hclose : MentionsAs (formalSpec h.params ++ [rparen]) ↔ MentionsAs (formalSpec h.params) :=
      (mentionsAs_append (by decide) _ []).trans (or_iff_left (by decide))
    rw [untyped_iff, not_not, signature, mentionsAs_append (by decide), mentionsAs_append (by decide), hclose]
  rw [front, mentionsAs_typed, hsignature]

theorem typeRead_some {h : Header} {t : Typing} (hreturned : h.returnType = some t) :
    h.typeRead = t.className := by
  have hmention : MentionsAs h.front := h.mentionsAs_front.mpr (.inl (by rw [hreturned]; rfl))
  have hblank : space ∉ t.className := Clean.notMem t.className_clean (by decide)
  have hfront : h.front = (h.signature ++ space :: t.as) ++ space :: t.className := by
    simp [front, hreturned, Typing.text]
  rw [typeRead, if_pos hmention, hfront, piece_last hblank]

theorem typeRead_none {h : Header} (hreturned : h.returnType = none) : h.typeRead = [] ↔ h.Untyped := by
  have hmention : MentionsAs h.front ↔ ¬ h.Untyped := by
    rw [mentionsAs_front, hreturned]
    simp
  rw [typeRead]
  split_ifs with has
  · refine iff_of_false ?_ (hmention.mp has)
    have hfront : h.front = (h.keyword ++ space :: (h.name ++ lparen :: formalSpec h.params)) ++ [rparen] := by
      simp [front, signature, hreturned]
    rw [hfront]
    exact piece_last_ne_nil (by decide) _
  · exact iff_of_true rfl (not_not.mp fun huntyped => has (hmention.mpr huntyped))

theorem typeRead_iff (h : Header) :
    h.typeRead = (h.returnType.map Typing.className).getD [] ↔ h.returnType.isSome ∨ h.Untyped := by
  cases hreturned : h.returnType with
  | none =>
    rw [Option.map_none, Option.getD_none, typeRead_none hreturned]
    simp
  | some t => exact iff_of_true (typeRead_some hreturned) (.inl rfl)

theorem readClass_text (h : Header) (source : Source) (fuel : ℕ) (cdef : Cdef) (rest : List JsString) :
    ∃ cls, ((readClass source (fuel + 1) cdef (h.text :: rest)).1.methods h.kind)[(cdef.methods h.kind).length]? =
      some ⟨⟨h.name, formalSpec h.params, h.typeRead⟩, cls⟩ := by
  have hkind : methodKind (lineType h.text) = some h.kind := by rw [lineType_text, methodKind_word]
  rw [← methodHeader_text]
  exact readClass_header hkind source fuel cdef rest

/-- The header is recorded as it is written if it has a return type or nothing in it is taken for
one, and only then. -/
theorem header_recorded_iff (h : Header) : h.Recorded ↔ h.returnType.isSome ∨ h.Untyped := by
  rw [← typeRead_iff]
  constructor
  · intro hrecorded
    obtain ⟨m, hm, -, -, htype⟩ := hrecorded .unset 0 .empty []
    obtain ⟨cls, hcls⟩ := h.readClass_text .unset 0 .empty []
    obtain rfl := Option.some.inj (hm.symm.trans hcls)
    exact htype
  · intro htype source fuel cdef rest
    obtain ⟨cls, hcls⟩ := h.readClass_text source fuel cdef rest
    exact ⟨_, hcls, rfl, rfl, htype⟩

/-- `classmethod version() {` has no return type, and is recorded with the return type `version()`. -/
theorem version_not_recorded :
    ¬ Recorded { kind := .classmethod, keyword := js "classmethod", spelled := by decide, name := js "version",
                 name_units := by decide, params := [], returnType := none, returnType_ne := by simp } := by
  intro hrecorded
  obtain ⟨m, hm, -, -, htype⟩ := hrecorded .unset 0 .empty []
  have hread : m.returnType = js "version()" := by
    obtain rfl := Option.some.inj (hm.symm.trans (rfl : _ = some (_ : MethodDef)))
    decide
  rw [hread] at htype
  revert htype
  decide

end Header

end GlobalsJs.Noble
