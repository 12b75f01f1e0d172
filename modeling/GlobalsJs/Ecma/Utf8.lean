import GlobalsJs.Ecma.Text

/-!
# Bytes and text

Text travels in UTF-8 and is decoded event by event. The decoder is that of the engine: it takes a
character of up to three bytes as one unit and a longer one, which the engine has no unit for, as the
replacement character, and so it does with each byte of a character that is not there in full. Hence
decoding the pieces of a stream gives its text exactly when no piece ends inside a character and no
character is beyond U+FFFF.
-/

namespace Ecma

abbrev replacement : CodeUnit := 0xFFFD

def units (c : Char) : JsString :=
  if c.toNat < 0x10000 then [c.toNat.toUInt16]
  else [(0xD800 + (c.toNat - 0x10000) / 0x400).toUInt16, (0xDC00 + (c.toNat - 0x10000) % 0x400).toUInt16]

def utf16 (cs : List Char) : JsString := cs.flatMap units

def utf8 (cs : List Char) : List UInt8 := cs.flatMap String.utf8EncodeChar

def badChar : ℕ × ℕ := (0xFFFD, 1)

def continues (b : UInt8) : Bool := b.toNat / 64 = 2

def shortest (code_point limit size : ℕ) : ℕ × ℕ := if code_point ≤ limit then badChar else (code_point, size)

/-- `Utf8::CalculateValue`; a shift and an or of six new bits is 64 times the one plus the other. -/
def calculateValue (first : UInt8) : List UInt8 → ℕ × ℕ
  | [] => badChar
  | second :: str =>
    if !continues second then badChar
    else if first.toNat < 0xE0 then
      if first.toNat < 0xC0 then badChar
      else shortest ((first.toNat * 64 + second.toNat % 64) % 0x800) 0x7F 2
    else match str with
      | [] => badChar
      | third :: str =>
        if !continues third then badChar
        else if first.toNat < 0xF0 then
          shortest (((first.toNat * 64 + second.toNat % 64) * 64 + third.toNat % 64) % 0x10000) 0x7FF 3
        else match str with
          | [] => badChar
          | fourth :: _ =>
            if !continues fourth then badChar
            else if first.toNat < 0xF8 then
              shortest ((((first.toNat * 64 + second.toNat % 64) * 64 + third.toNat % 64) * 64 +
                fourth.toNat % 64) % 0x200000) 0xFFFF 4
            else badChar

def valueOf (first : UInt8) (str : List UInt8) : ℕ × ℕ :=
  if first.toNat ≤ 0x7F then (first.toNat, 1) else calculateValue first str

/-- `Heap::AllocateStringFromUtf8Slow`. The number is of bytes that the last character takes yet. -/
def stringFromUtf8 : ℕ → List UInt8 → JsString
  | _, [] => []
  | taken + 1, _ :: str => stringFromUtf8 taken str
  | 0, first :: str =>
    let r := valueOf first str
    (if 0xFFFF < r.1 then replacement else r.1.toUInt16) :: stringFromUtf8 (r.2 - 1) str

/-- `Buffer.prototype.toString`, in UTF-8. -/
def decode (bs : List UInt8) : JsString := stringFromUtf8 0 bs

def seen (c : Char) : CodeUnit := if 0xFFFF < c.toNat then replacement else c.toNat.toUInt16

def Basic (c : Char) : Prop := c.toNat ≤ 0xFFFF

def BeginsInside (bs : List UInt8) : Prop :=
  ∃ (c : Char) (x y : List UInt8), x ≠ [] ∧ String.utf8EncodeChar c = x ++ bs ++ y

def EndsInside (bs : List UInt8) : Prop :=
  ∃ (c : Char) (y : List UInt8), y ≠ [] ∧ String.utf8EncodeChar c = bs ++ y

theorem utf8_append (cs ds : List Char) : utf8 (cs ++ ds) = utf8 cs ++ utf8 ds := List.flatMap_append

theorem utf16_append (cs ds : List Char) : utf16 (cs ++ ds) = utf16 cs ++ utf16 ds := List.flatMap_append

theorem beginsInside_nil : BeginsInside [] :=
  ⟨'a', String.utf8EncodeChar 'a', [], String.utf8EncodeChar_ne_nil, by simp⟩

theorem endsInside_nil : EndsInside [] :=
  ⟨'a', String.utf8EncodeChar 'a', String.utf8EncodeChar_ne_nil, rfl⟩

inductive Encodes (v : ℕ) : List UInt8 → Prop
  | one {a : UInt8} : v ≤ 0x7F → a.toNat = v → Encodes v [a]
  | two {a b : UInt8} : 0x7F < v → v ≤ 0x7FF → a.toNat = v / 64 + 192 → b.toNat = v % 64 + 128 → Encodes v [a, b]
  | three {a b c : UInt8} : 0x7FF < v → v ≤ 0xFFFF → a.toNat = v / 4096 + 224 → b.toNat = v / 64 % 64 + 128 →
      c.toNat = v % 64 + 128 → Encodes v [a, b, c]
  | four {a b c d : UInt8} : 0xFFFF < v → v < 0x110000 → a.toNat = v / 262144 + 240 →
      b.toNat = v / 4096 % 64 + 128 → c.toNat = v / 64 % 64 + 128 → d.toNat = v % 64 + 128 → Encodes v [a, b, c, d]

theorem encodes (c : Char) : Encodes c.toNat (String.utf8EncodeChar c) := by
  have hval : c.val.toNat = c.toNat := rfl
  have hvalid : c.toNat < 0x110000 := by
    rcases c.valid with h | h
    · exact lt_trans h (by decide)
    · exact h.2
  have hbyte : ∀ {n : ℕ}, n < 256 → (UInt8.ofNat n).toNat = n := fun h => by
    rw [UInt8.toNat_ofNat', Nat.mod_eq_of_lt h]
  unfold String.utf8EncodeChar
  simp only [hval]
  split_ifs with h₁ h₂ h₃
  · exact .one h₁ (hbyte (by omega))
  · exact .two (by omega) h₂ ((hbyte (by omega)).trans (by omega)) (hbyte (by omega))
  · exact .three (by omega) h₃ ((hbyte (by omega)).trans (by omega)) (hbyte (by omega)) (hbyte (by omega))
  · exact .four (by omega) hvalid ((hbyte (by omega)).trans (by omega)) (hbyte (by omega)) (hbyte (by omega))
      (hbyte (by omega))

theorem Encodes.continues {v : ℕ} {a : UInt8} {bs : List UInt8} (h : Encodes v (a :: bs)) :
    ∀ b ∈ bs, continues b = true := by
  cases h <;> simp only [List.forall_mem_cons, List.not_mem_nil, false_imp_iff, implies_true, and_true,
    Ecma.continues, decide_eq_true_eq] <;> omega

theorem valueOf_continues {b : UInt8} (h : continues b = true) (bs : List UInt8) : valueOf b bs = badChar := by
  have hb : b.toNat / 64 = 2 := by simpa [continues] using h
  rw [valueOf, if_neg (by omega)]
  cases bs with
  | nil => rfl
  | cons second bs =>
    unfold calculateValue
    dsimp only
    rw [if_pos (show b.toNat < 0xE0 by omega), if_pos (show b.toNat < 0xC0 by omega), ite_self]

theorem Encodes.valueOf {v : ℕ} {a : UInt8} {bs : List UInt8} (h : Encodes v (a :: bs)) (more : List UInt8) :
    Ecma.valueOf a (bs ++ more) = (v, bs.length + 1) := by
  have hcontinues := h.continues
  cases h with
  | one hv ha =>
    rw [Ecma.valueOf, if_pos (by omega), ha]
    rfl
  | @two _ b hlow hv ha hb =>
    simp only [List.forall_mem_cons] at hcontinues
    have hpoint : (a.toNat * 64 + b.toNat % 64) % 0x800 = v := by
      rw [ha, hb]
      omega
    rw [Ecma.valueOf, if_neg (by omega)]
    simp only [List.cons_append, calculateValue, hcontinues.1, hpoint, shortest]
    rw [if_neg (by decide), if_pos (by omega), if_neg (by omega), if_neg (by omega)]
    rfl
  | @three _ b c hlow hv ha hb hc =>
    simp only [List.forall_mem_cons] at hcontinues
    have hpoint : ((a.toNat * 64 + b.toNat % 64) * 64 + c.toNat % 64) % 0x10000 = v := by
      rw [ha, hb, hc]
      omega
    rw [Ecma.valueOf, if_neg (by omega)]
    simp only [List.cons_append, calculateValue, hcontinues.1, hcontinues.2.1, hpoint, shortest]
    rw [if_neg (by decide), if_neg (by omega), if_neg (by decide), if_pos (by omega), if_neg (by omega)]
    rfl
  | @four _ b c d hlow hv ha hb hc hd =>
    simp only [List.forall_mem_cons] at hcontinues
    have hpoint : (((a.toNat * 64 + b.toNat % 64) * 64 + c.toNat % 64) * 64 + d.toNat % 64) % 0x200000 = v := by
      rw [ha, hb, hc, hd]
      omega
    rw [Ecma.valueOf, if_neg (by omega)]
    simp only [List.cons_append, calculateValue, hcontinues.1, hcontinues.2.1, hcontinues.2.2.1, hpoint, shortest]
    rw [if_neg (by decide), if_neg (by omega), if_neg (by decide), if_neg (by omega), if_neg (by decide),
      if_pos (by omega), if_neg (by omega)]
    rfl

theorem calculateValue_cut {v : ℕ} {a : UInt8} {bs more : List UInt8} (h : Encodes v (a :: (bs ++ more)))
    (hmore : more ≠ []) : calculateValue a bs = badChar := by
  rcases bs with _ | ⟨b, _ | ⟨c, _ | ⟨d, bs⟩⟩⟩
  · rfl
  · cases h with
    | two => exact absurd rfl hmore
    | three _ _ ha | four _ _ ha =>
      simp only [calculateValue]
      rw [if_neg (show ¬ a.toNat < 0xE0 by omega), ite_self]
  · cases h with
    | three => exact absurd rfl hmore
    | four _ _ ha =>
      simp only [calculateValue]
      rw [if_neg (show ¬ a.toNat < 0xE0 by omega), if_neg (show ¬ a.toNat < 0xF0 by omega), ite_self, ite_self]
  · -- the list is already as long as that of four bytes
    simp only [List.cons_append] at h
    generalize hall : bs ++ more = all at h
    cases h
    exact absurd (List.append_eq_nil_iff.mp hall).2 hmore

theorem valueOf_cut {v : ℕ} {a : UInt8} {bs more : List UInt8} (h : Encodes v (a :: (bs ++ more)))
    (hmore : more ≠ []) : Ecma.valueOf a bs = badChar := by
  have hhigh : 0x7F < a.toNat := by
    generalize hall : bs ++ more = all at h
    cases h with
    | one => exact absurd (List.append_eq_nil_iff.mp hall).2 hmore
    | two | three | four => omega
  rw [Ecma.valueOf, if_neg (by omega), calculateValue_cut h hmore]
theorem continues_inside {c : Char} {x y : List UInt8} (hx : x ≠ []) (h : String.utf8EncodeChar c = x ++ y) :
    ∀ b ∈ y, continues b = true := by
  obtain ⟨a, x, rfl⟩ := List.exists_cons_of_ne_nil hx
  have henc := encodes c
  rw [h] at henc
  exact fun b hb => henc.continues b (List.mem_append_right x hb)

theorem stringFromUtf8_taken (xs bs : List UInt8) : stringFromUtf8 xs.length (xs ++ bs) = stringFromUtf8 0 bs := by
  induction xs with
  | nil => rfl
  | cons x xs ih => exact ih

theorem decode_char (c : Char) (bs : List UInt8) :
    decode (String.utf8EncodeChar c ++ bs) = seen c :: decode bs := by
  have henc := encodes c
  obtain ⟨a, xs, hbytes⟩ := List.exists_cons_of_ne_nil (String.utf8EncodeChar_ne_nil (c := c))
  rw [hbytes] at henc ⊢
  rw [decode, List.cons_append, stringFromUtf8, henc.valueOf bs]
  dsimp only
  rw [Nat.add_sub_cancel, stringFromUtf8_taken]
  rfl

theorem decode_utf8_append (cs : List Char) (bs : List UInt8) :
    decode (utf8 cs ++ bs) = cs.map seen ++ decode bs := by
  induction cs with
  | nil => rfl
  | cons c cs ih =>
    have hcons : utf8 (c :: cs) = String.utf8EncodeChar c ++ utf8 cs := List.flatMap_cons
    rw [hcons, List.append_assoc, decode_char, ih]
    rfl

theorem decode_bad {first : UInt8} {str : List UInt8} (h : valueOf first str = badChar) :
    decode (first :: str) = replacement :: decode str := by
  rw [decode, stringFromUtf8, h]
  rfl

theorem decode_inside {pre : List UInt8} (h : ∀ b ∈ pre, continues b = true) (bs : List UInt8) :
    decode (pre ++ bs) = List.replicate pre.length replacement ++ decode bs := by
  induction pre with
  | nil => rfl
  | cons b pre ih =>
    obtain ⟨hb, hpre⟩ := List.forall_mem_cons.mp h
    rw [List.cons_append, decode_bad (valueOf_continues hb _), ih hpre, List.length_cons, List.replicate_succ,
      List.cons_append]

theorem decode_cut {c : Char} {post y : List UInt8} (hy : y ≠ []) (h : String.utf8EncodeChar c = post ++ y) :
    decode post = List.replicate post.length replacement := by
  cases post with
  | nil => rfl
  | cons b post =>
    have henc := encodes c
    rw [h] at henc
    have hpost : ∀ b ∈ post, continues b = true := fun x hx => henc.continues x (List.mem_append_left y hx)
    have hrest := decode_inside hpost []
    rw [List.append_nil] at hrest
    rw [decode_bad (valueOf_cut henc hy), hrest, List.length_cons, List.replicate_succ]
    simp [decode, stringFromUtf8]

theorem decode_torn {pre post : List UInt8} (cs : List Char) (hpre : BeginsInside pre) (hpost : EndsInside post) :
    decode (pre ++ utf8 cs ++ post) =
      List.replicate pre.length replacement ++ cs.map seen ++ List.replicate post.length replacement := by
  obtain ⟨c, x, y, hx, hc⟩ := hpre
  obtain ⟨d, z, hz, hd⟩ := hpost
  have hinside : ∀ b ∈ pre, continues b = true := by
    rw [List.append_assoc] at hc
    exact fun b hb => continues_inside hx hc b (List.mem_append_left y hb)
  rw [List.append_assoc, decode_inside hinside, decode_utf8_append, decode_cut hz hd, List.append_assoc]

theorem decode_utf8 (cs : List Char) : decode (utf8 cs) = cs.map seen := by
  have h := decode_utf8_append cs []
  have hnil : decode [] = [] := rfl
  rwa [List.append_nil, hnil, List.append_nil] at h

theorem units_basic {c : Char} (h : Basic c) : units c = [seen c] := by
  have hle : c.toNat ≤ 0xFFFF := h
  rw [units, if_pos (by omega), seen, if_neg (by omega)]

theorem seen_basic {cs : List Char} (h : ∀ c ∈ cs, Basic c) : cs.map seen = utf16 cs := by
  induction cs with
  | nil => rfl
  | cons c cs ih =>
    obtain ⟨hc, hcs⟩ := List.forall_mem_cons.mp h
    have hcons : utf16 (c :: cs) = units c ++ utf16 cs := List.flatMap_cons
    rw [List.map_cons, ih hcs, hcons, units_basic hc]
    rfl

theorem utf8_split {e rest : List UInt8} {cs : List Char} (h : e ++ rest = utf8 cs) :
    (∃ done todo, cs = done ++ todo ∧ e = utf8 done ∧ rest = utf8 todo) ∨
      ∃ done c todo x y, cs = done ++ c :: todo ∧ x ≠ [] ∧ y ≠ [] ∧ String.utf8EncodeChar c = x ++ y ∧
        e = utf8 done ++ x ∧ rest = y ++ utf8 todo := by
  induction cs generalizing e with
  | nil =>
    obtain ⟨rfl, rfl⟩ := List.append_eq_nil_iff.mp h
    exact .inl ⟨[], [], rfl, rfl, rfl⟩
  | cons c cs ih =>
    have hcons : utf8 (c :: cs) = String.utf8EncodeChar c ++ utf8 cs := List.flatMap_cons
    rw [hcons] at h
    rcases List.append_eq_append_iff.mp h with ⟨y, hc, hrest⟩ | ⟨b, rfl, hb⟩
    · by_cases he : e = []
      · subst he
        rw [List.nil_append] at h
        exact .inl ⟨[], c :: cs, rfl, rfl, h.trans hcons.symm⟩
      · by_cases hy : y = []
        · subst hy
          refine .inl ⟨[c], cs, rfl, ?_, hrest⟩
          rw [List.append_nil] at hc
          exact hc.symm.trans (List.append_nil _).symm
        · exact .inr ⟨[], c, cs, e, y, rfl, he, hy, hc, rfl, hrest⟩
    · rcases ih hb.symm with ⟨done, todo, rfl, rfl, hrest⟩ | ⟨done, c', todo, x, y, rfl, hx, hy, hc', rfl, hrest⟩
      · exact .inl ⟨c :: done, todo, rfl, rfl, hrest⟩
      · refine .inr ⟨c :: done, c', todo, x, y, rfl, hx, hy, hc', ?_, hrest⟩
        rw [← List.append_assoc]
        rfl

/-- What is decoded of a text: some of its characters are replaced, by at least one replacement
character more than they are themselves. -/
inductive Blurs : List Char → JsString → Prop
  | nil : Blurs [] []
  | keep {c : Char} {cs : List Char} {u : JsString} : Basic c → Blurs cs u → Blurs (c :: cs) (seen c :: u)
  | tear {c : Char} {n : ℕ} {cs : List Char} {u : JsString} : 127 < c.toNat → (units c).count replacement < n →
      Blurs cs u → Blurs (c :: cs) (List.replicate n replacement ++ u)

theorem count_units (c : Char) : (units c).count replacement ≤ 1 ∧ (¬ Basic c → (units c).count replacement = 0) := by
  by_cases hc : Basic c
  · rw [units_basic hc]
    exact ⟨List.count_le_length, fun h => absurd hc h⟩
  · have hlarge : 0xFFFF < c.toNat := Nat.not_le.mp hc
    have hvalid : c.toNat < 0x110000 := by
      rcases c.valid with h | h
      · exact lt_trans h (by decide)
      · exact h.2
    have hne : ∀ n : ℕ, n < 0xFFFD → n.toUInt16 ≠ replacement := by
      intro n hn h
      have htoNat := congrArg UInt16.toNat h
      simp [replacement] at htoNat
      omega
    have hzero : (units c).count replacement = 0 := by
      rw [units, if_neg (by omega), List.count_eq_zero]
      simp only [List.mem_cons, List.not_mem_nil, or_false, not_or]
      exact ⟨(hne _ (by omega)).symm, (hne _ (by omega)).symm⟩
    exact ⟨by omega, fun _ => hzero⟩

theorem Blurs.prepend (done : List Char) {cs : List Char} {u : JsString} (h : Blurs cs u) :
    Blurs (done ++ cs) (done.map seen ++ u) := by
  induction done with
  | nil => exact h
  | cons c done ih =>
    by_cases hc : Basic c
    · exact .keep hc ih
    · have hlarge : 0xFFFF < c.toNat := Nat.not_le.mp hc
      have hseen : seen c = replacement := if_pos hlarge
      have htear := Blurs.tear (n := 1) (show 127 < c.toNat by omega)
        (by rw [(count_units c).2 hc]; exact Nat.one_pos) ih
      rw [List.map_cons, hseen]
      exact htear

theorem Blurs.split {cs ds : List Char} {u : JsString} (h : Blurs (cs ++ ds) u) :
    ∃ v w, u = v ++ w ∧ Blurs cs v ∧ Blurs ds w := by
  induction cs generalizing u with
  | nil => exact ⟨[], u, rfl, .nil, h⟩
  | cons c cs ih =>
    cases h with
    | keep hc h =>
      obtain ⟨v, w, rfl, hv, hw⟩ := ih h
      exact ⟨seen c :: v, w, rfl, .keep hc hv, hw⟩
    | tear hc hn h =>
      obtain ⟨v, w, rfl, hv, hw⟩ := ih h
      exact ⟨_, w, (List.append_assoc _ _ _).symm, .tear hc hn hv, hw⟩

theorem Blurs.count_le {cs : List Char} {u : JsString} (h : Blurs cs u) :
    (utf16 cs).count replacement ≤ u.count replacement := by
  induction h with
  | nil => exact le_rfl
  | @keep c cs _ hc _ ih =>
    have hcons : utf16 (c :: cs) = seen c :: utf16 cs := by
      rw [utf16, List.flatMap_cons, units_basic hc]
      rfl
    rw [hcons, List.count_cons, List.count_cons]
    exact Nat.add_le_add_right ih _
  | @tear c n _ _ _ hn _ ih =>
    rw [utf16, List.flatMap_cons, List.count_append, List.count_append, List.count_replicate_self]
    exact Nat.add_le_add hn.le ih

theorem Blurs.no_surrogate {cs : List Char} {u : JsString} (h : Blurs cs u) :
    ∀ x ∈ u, x.toNat < 0xD800 ∨ 0xDFFF < x.toNat := by
  induction h with
  | nil => exact fun x hx => absurd hx List.not_mem_nil
  | @keep c cs u hc _ ih =>
    refine List.forall_mem_cons.mpr ⟨?_, ih⟩
    have hle : c.toNat ≤ 0xFFFF := hc
    have hseen : (seen c).toNat = c.toNat := by
      rw [seen, if_neg (by omega)]
      simp
      omega
    rw [hseen]
    rcases c.valid with h | h
    · exact .inl h
    · exact .inr h.1
  | tear _ _ _ ih =>
    intro x hx
    rcases List.mem_append.mp hx with hx | hx
    · rw [List.eq_of_mem_replicate hx]
      exact .inr (by decide)
    · exact ih x hx

theorem surrogate_of_not_basic {c : Char} (h : ¬ Basic c) :
    ∃ x ∈ units c, ¬ (x.toNat < 0xD800 ∨ 0xDFFF < x.toNat) := by
  have hlarge : 0xFFFF < c.toNat := Nat.not_le.mp h
  have hvalid : c.toNat < 0x110000 := by
    rcases c.valid with h | h
    · exact lt_trans h (by decide)
    · exact h.2
  refine ⟨(0xD800 + (c.toNat - 0x10000) / 0x400).toUInt16, ?_, ?_⟩
  · rw [units, if_neg (by omega)]
    exact List.mem_cons_self
  · simp
    omega

/-- Every piece is a text of its own. -/
def WholeCharacters (es : List (List UInt8)) : Prop := ∀ e ∈ es, ∃ cs, e = utf8 cs

theorem two_le_of_split {c : Char} {x y : List UInt8} (hx : x ≠ []) (hy : y ≠ [])
    (h : String.utf8EncodeChar c = x ++ y) : 127 < c.toNat := by
  have hlen := congrArg List.length h
  rw [String.length_utf8EncodeChar, List.length_append] at hlen
  have hx := List.length_pos_of_ne_nil hx
  have hy := List.length_pos_of_ne_nil hy
  by_contra hle
  have hone : c.utf8Size = 1 := Char.utf8Size_eq_one_iff.mpr (UInt32.le_iff_toNat_le.mpr (Nat.not_lt.mp hle))
  omega

theorem decoded_pieces {es : List (List UInt8)} {pre : List UInt8} {text : List Char}
    (hpre : BeginsInside pre) (h : es.flatten = pre ++ utf8 text) :
    ∃ u, (es.map decode).flatten = List.replicate pre.length replacement ++ u ∧ Blurs text u ∧
      (pre = [] → u.count replacement ≤ (utf16 text).count replacement → WholeCharacters es) := by
  induction es generalizing pre text with
  | nil =>
    obtain ⟨rfl, htext⟩ := List.append_eq_nil_iff.mp h.symm
    cases text with
    | nil => exact ⟨[], rfl, .nil, fun _ _ e he => absurd he List.not_mem_nil⟩
    | cons c cs => exact absurd (List.append_eq_nil_iff.mp htext).1 String.utf8EncodeChar_ne_nil
  | cons e es ih =>
    rw [List.map_cons, List.flatten_cons]
    rw [List.flatten_cons] at h
    rcases List.append_eq_append_iff.mp h with ⟨a, rfl, hes⟩ | ⟨b, rfl, hb⟩
    · -- the whole piece is inside the character
      obtain ⟨c, x, y, hx, hc⟩ := hpre
      have he : BeginsInside e := ⟨c, x, a ++ y, hx, by rw [hc]; simp⟩
      have ha : BeginsInside a := ⟨c, x ++ e, y, by simp [hx], by rw [hc]; simp⟩
      have hdecode := decode_torn [] he endsInside_nil
      obtain ⟨u, hrest, hblurs, hwhole⟩ := ih ha hes
      simp only [utf8, List.flatMap_nil, List.append_nil, List.map_nil, List.length_nil, List.replicate_zero] at hdecode
      refine ⟨u, ?_, hblurs, fun hnil hcount => ?_⟩
      · rw [hdecode, hrest, ← List.append_assoc, List.replicate_append_replicate, List.length_append]
      · obtain ⟨rfl, rfl⟩ := List.append_eq_nil_iff.mp hnil
        exact List.forall_mem_cons.mpr ⟨⟨[], rfl⟩, hwhole rfl hcount⟩
    · rcases utf8_split hb.symm with
        ⟨done, todo, rfl, rfl, hes⟩ | ⟨done, c, todo, x, y, rfl, hx, hy, hc, rfl, hes⟩
      · -- the piece ends between two characters
        have hdecode := decode_torn done hpre endsInside_nil
        obtain ⟨u, hrest, hblurs, hwhole⟩ := ih beginsInside_nil hes
        rw [List.append_nil, List.length_nil, List.replicate_zero, List.append_nil] at hdecode
        rw [List.length_nil, List.replicate_zero, List.nil_append] at hrest
        refine ⟨done.map seen ++ u, by rw [hdecode, hrest, List.append_assoc], hblurs.prepend done,
          fun hnil hcount => ?_⟩
        have hdone := (Blurs.nil.prepend done).count_le
        rw [List.append_nil, List.append_nil] at hdone
        rw [utf16_append, List.count_append, List.count_append] at hcount
        exact List.forall_mem_cons.mpr ⟨⟨done, by rw [hnil]; rfl⟩, hwhole rfl (by omega)⟩
      · -- it ends inside the character `c`
        have hdecode := decode_torn done hpre ⟨c, y, hy, hc⟩
        obtain ⟨u, hrest, hblurs, -⟩ := ih ⟨c, x, [], hx, by rw [hc]; simp⟩ hes
        have hlen : (units c).count replacement < x.length + y.length := by
          have hx := List.length_pos_of_ne_nil hx
          have hy := List.length_pos_of_ne_nil hy
          have hone := (count_units c).1
          omega
        have htorn := (Blurs.tear (two_le_of_split hx hy hc) hlen hblurs).prepend done
        refine ⟨_, ?_, htorn, fun _ hcount => ?_⟩
        · rw [← List.append_assoc pre, hdecode, hrest, ← List.replicate_append_replicate]
          simp only [List.append_assoc]
        · -- there are more replacement characters than in the text
          have hdone := (Blurs.nil.prepend done).count_le
          have hle := hblurs.count_le
          have hcons : utf16 (c :: todo) = units c ++ utf16 todo := List.flatMap_cons
          rw [List.append_nil, List.append_nil] at hdone
          rw [utf16_append, hcons, List.count_append, List.count_append, List.count_append, List.count_append,
            List.count_replicate_self] at hcount
          omega

theorem decode_whole {es : List (List UInt8)} (h : WholeCharacters es) :
    ∃ cs, es.flatten = utf8 cs ∧ (es.map decode).flatten = cs.map seen := by
  induction es with
  | nil => exact ⟨[], rfl, rfl⟩
  | cons e es ih =>
    obtain ⟨cs, rfl⟩ := h e List.mem_cons_self
    obtain ⟨ds, hes, hdecode⟩ := ih fun e he => h e (List.mem_cons_of_mem _ he)
    refine ⟨cs ++ ds, ?_, ?_⟩
    · rw [List.flatten_cons, hes, utf8_append]
    · rw [List.map_cons, List.flatten_cons, hdecode, decode_utf8, List.map_append]

theorem prefix_of_utf8 {cs ds : List Char} (h : utf8 cs <+: utf8 ds) : cs <+: ds := by
  induction cs generalizing ds with
  | nil => exact List.nil_prefix
  | cons c cs ih =>
    have hcons : ∀ (c : Char) (cs : List Char), utf8 (c :: cs) = String.utf8EncodeChar c ++ utf8 cs :=
      fun c cs => List.flatMap_cons
    obtain ⟨more, hmore⟩ := h
    have hc := encodes c
    obtain ⟨a, xs, hbytes⟩ := List.exists_cons_of_ne_nil (String.utf8EncodeChar_ne_nil (c := c))
    rw [hcons, hbytes, List.append_assoc] at hmore
    cases ds with
    | nil => cases hmore
    | cons d ds =>
      have hd := encodes d
      obtain ⟨b, ys, hbytes'⟩ := List.exists_cons_of_ne_nil (String.utf8EncodeChar_ne_nil (c := d))
      rw [hcons, hbytes'] at hmore
      obtain ⟨rfl, hrest⟩ := List.cons.inj hmore
      rw [hbytes] at hc
      rw [hbytes'] at hd
      have hsame : xs ++ (utf8 cs ++ more) = ys ++ utf8 ds := hrest
      have hvalue := hc.valueOf (utf8 cs ++ more)
      rw [hsame, hd.valueOf (utf8 ds)] at hvalue
      obtain rfl : c = d := Char.toNat_inj.mp (Prod.mk.inj hvalue).1.symm
      obtain rfl : xs = ys := (List.cons.inj (hbytes.symm.trans hbytes')).2
      exact List.cons_prefix_cons.mpr ⟨rfl, ih ⟨more, List.append_cancel_left hrest⟩⟩

theorem utf8_injective {cs ds : List Char} (h : utf8 cs = utf8 ds) : cs = ds := by
  have hpre := prefix_of_utf8 (h ▸ List.prefix_refl (utf8 cs) : utf8 cs <+: utf8 ds)
  have hpre' := prefix_of_utf8 (h ▸ List.prefix_refl (utf8 cs) : utf8 ds <+: utf8 cs)
  exact hpre.eq_of_length_le hpre'.length_le

theorem decode_pieces {es : List (List UInt8)} {text : List Char} (h : es.flatten = utf8 text) :
    Blurs text (es.map decode).flatten ∧
      ((∀ c ∈ text, Basic c) → ((es.map decode).flatten = utf16 text ↔ WholeCharacters es)) := by
  obtain ⟨u, hdecoded, hblurs, hwhole⟩ := decoded_pieces beginsInside_nil h
  rw [List.length_nil, List.replicate_zero, List.nil_append] at hdecoded
  rw [hdecoded]
  refine ⟨hblurs, fun hbasic => ⟨fun heq => hwhole rfl (by rw [heq]), fun hes => ?_⟩⟩
  obtain ⟨cs, hcs, hdecode⟩ := decode_whole hes
  obtain rfl := utf8_injective (hcs.symm.trans h)
  rw [← hdecoded, hdecode, seen_basic hbasic]

end Ecma
