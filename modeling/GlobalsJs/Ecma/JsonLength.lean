import GlobalsJs.Ecma.JsonRoundTrip

/-!
# How long the text of an object is

A string takes at least its units and two quotes. It takes no more exactly when no unit of it
is escaped, so text that is as short as what is read from it holds plain units only.
-/

namespace Ecma.Json

def isPlain (c : CodeUnit) : Bool := c ≠ quote && c ≠ backslash && 32 ≤ c

theorem escapeUnit_plain {c : CodeUnit} (hc : isPlain c) : escapeUnit c = [c] := by
  simp only [isPlain, Bool.and_eq_true, decide_eq_true_eq] at hc
  obtain ⟨⟨hq, hb⟩, hlow⟩ := hc
  have hne : ∀ d : CodeUnit, d < 32 → c ≠ d := by
    rintro d hd rfl
    exact UInt16.not_lt.mpr hlow hd
  rw [escapeUnit, if_neg hq, if_neg hb, if_neg (hne _ (by decide)), if_neg (hne _ (by decide)),
    if_neg (hne _ (by decide)), if_neg (hne _ (by decide)), if_neg (hne _ (by decide)),
    if_neg (UInt16.not_lt.mpr hlow)]

theorem quoted_plain {s : JsString} (hs : s.all isPlain) : quoted s = quote :: s ++ [quote] := by
  have hflat : s.flatMap escapeUnit = s := by
    induction s with
    | nil => rfl
    | cons c s ih =>
      rw [List.all_cons, Bool.and_eq_true] at hs
      rw [List.flatMap_cons, escapeUnit_plain hs.1, ih hs.2, List.singleton_append]
  rw [quoted, hflat]

theorem stringifyProps_eq (ps : Props) : stringify.stringifyProps ps =
    [comma].intercalate (ps.map fun p => quoted p.1 ++ colon :: stringify p.2) := by
  induction ps with
  | nil => rfl
  | cons p ps ih =>
    cases ps with
    | nil => simp [stringify.stringifyProps]
    | cons q ps =>
      simp only [stringify.stringifyProps, ih, List.map_cons, List.intercalate_cons_cons, List.append_assoc,
        List.singleton_append]

theorem parseBody_length {s t r : JsString} (h : parseBody s = some (t, r)) :
    t.length + r.length + 1 ≤ s.length ∧ (t.length + r.length + 1 = s.length → t.all isPlain) := by
  fun_induction parseBody s generalizing t with
  | case2 s =>
    obtain ⟨rfl, rfl⟩ : [] = t ∧ s = r := by simpa using h
    simp
  | case4 a b c d s x hx hq ih =>
    obtain ⟨⟨t, r⟩, hs, ht⟩ := Option.map_eq_some_iff.mp h
    obtain ⟨rfl, rfl⟩ := Prod.mk.inj ht
    have hle : t.length + r.length + 1 ≤ s.length := (ih hs).1
    dsimp only [List.length_cons]
    exact ⟨by omega, by omega⟩
  | case7 e s he x hx hq ih =>
    obtain ⟨⟨t, r⟩, hs, ht⟩ := Option.map_eq_some_iff.mp h
    obtain ⟨rfl, rfl⟩ := Prod.mk.inj ht
    have hle : t.length + r.length + 1 ≤ s.length := (ih hs).1
    dsimp only [List.length_cons]
    exact ⟨by omega, by omega⟩
  | case10 c s hq hb hc ih =>
    obtain ⟨⟨t, r⟩, hs, ht⟩ := Option.map_eq_some_iff.mp h
    obtain ⟨rfl, rfl⟩ := Prod.mk.inj ht
    obtain ⟨hle, hplain⟩ : t.length + r.length + 1 ≤ s.length ∧
      (t.length + r.length + 1 = s.length → t.all isPlain) := ih hs
    dsimp only [List.length_cons]
    refine ⟨by omega, fun heq => ?_⟩
    rw [List.all_cons, hplain (by omega), Bool.and_true]
    simp [isPlain, hq, hb, UInt16.not_lt.mp hc]
  | case1 | case3 | case5 | case6 | case8 | case9 => cases h

theorem skipSpace_length_le (s : JsString) : (skipSpace s).length ≤ s.length :=
  (List.dropWhile_sublist isSpace).length_le

def room : Json → ℕ
  | .str s => s.length + 2
  | _ => 0

def Plain : Json → Prop
  | .str s => s.all isPlain
  | _ => True

def membersRoom (ps : Props) : ℕ := (ps.map fun p => p.1.length + room p.2 + 4).sum

/-- Of the text only the rest is left, and where the value took no more than it must it is plain. -/
structure Fits (n : ℕ) : Prop where
  value : ∀ {s v r}, parseValue n s = some (v, r) →
    room v + r.length ≤ s.length ∧ (room v + r.length = s.length → v.Plain)
  members : ∀ {s ps r}, parseMembers n s = some (ps, r) →
    membersRoom ps + r.length ≤ s.length ∧
      (membersRoom ps + r.length = s.length → ∀ p ∈ ps, p.1.all isPlain ∧ p.2.Plain)
  elems : ∀ {s xs r}, parseElems n s = some (xs, r) → r.length ≤ s.length

theorem expect_length {w s r : JsString} {v u : Json} (h : expect w v s = some (u, r)) :
    u = v ∧ r.length ≤ s.length := by
  unfold expect at h
  split_ifs at h with hw
  obtain ⟨rfl, rfl⟩ := Prod.mk.inj (Option.some.inj h)
  exact ⟨rfl, by simp⟩

theorem Fits.value_succ {n : ℕ} (ih : Fits n) {s r : JsString} {v : Json}
    (h : parseValue (n + 1) s = some (v, r)) :
    room v + r.length ≤ s.length ∧ (room v + r.length = s.length → v.Plain) := by
  have hskip := skipSpace_length_le s
  rw [parseValue] at h
  cases hs : skipSpace s with
  | nil => rw [hs] at h; cases h
  | cons c t =>
    rw [hs] at h
    rw [hs, List.length_cons] at hskip
    dsimp only at h
    split_ifs at h with hq hb hl ht hf hn
    · obtain ⟨⟨x, r⟩, hx, hxr⟩ := Option.map_eq_some_iff.mp h
      obtain ⟨rfl, rfl⟩ := Prod.mk.inj hxr
      obtain ⟨hle, hplain⟩ := parseBody_length hx
      dsimp only [room]
      exact ⟨by omega, fun heq => hplain (by omega)⟩
    · have hskip' := skipSpace_length_le t
      cases ht : skipSpace t with
      | nil => rw [ht] at h; cases h
      | cons d t' =>
        rw [ht] at h
        rw [ht, List.length_cons] at hskip'
        dsimp only at h
        split_ifs at h with hd
        · obtain ⟨rfl, rfl⟩ := Prod.mk.inj (Option.some.inj h)
          exact ⟨by dsimp only [room]; omega, fun _ => trivial⟩
        · obtain ⟨⟨ps, r⟩, hps, hpr⟩ := Option.map_eq_some_iff.mp h
          obtain ⟨rfl, rfl⟩ := Prod.mk.inj hpr
          have hle := (ih.members hps).1
          exact ⟨by dsimp only [room]; omega, fun _ => trivial⟩
    · have hskip' := skipSpace_length_le t
      cases ht : skipSpace t with
      | nil => rw [ht] at h; cases h
      | cons d t' =>
        rw [ht] at h
        rw [ht, List.length_cons] at hskip'
        dsimp only at h
        split_ifs at h with hd
        · obtain ⟨rfl, rfl⟩ := Prod.mk.inj (Option.some.inj h)
          exact ⟨by dsimp only [room]; omega, fun _ => trivial⟩
        · obtain ⟨⟨xs, r⟩, hxs, hxr⟩ := Option.map_eq_some_iff.mp h
          obtain ⟨rfl, rfl⟩ := Prod.mk.inj hxr
          have hle := ih.elems hxs
          exact ⟨by dsimp only [room]; omega, fun _ => trivial⟩
    · obtain ⟨rfl, hle⟩ := expect_length h
      exact ⟨by dsimp only [room]; omega, fun _ => trivial⟩
    · obtain ⟨rfl, hle⟩ := expect_length h
      exact ⟨by dsimp only [room]; omega, fun _ => trivial⟩
    · obtain ⟨rfl, hle⟩ := expect_length h
      exact ⟨by dsimp only [room]; omega, fun _ => trivial⟩
    · unfold parseNumber at h
      dsimp only at h
      split_ifs at h with hk
      obtain ⟨rfl, rfl⟩ := Prod.mk.inj (Option.some.inj h)
      have hle := (List.dropWhile_sublist isNumeralUnit (l := c :: t)).length_le
      rw [List.length_cons] at hle
      exact ⟨by dsimp only [room]; omega, fun _ => trivial⟩

theorem Fits.members_succ {n : ℕ} (ih : Fits n) {s r : JsString} {ps : Props}
    (h : parseMembers (n + 1) s = some (ps, r)) :
    membersRoom ps + r.length ≤ s.length ∧
      (membersRoom ps + r.length = s.length → ∀ p ∈ ps, p.1.all isPlain ∧ p.2.Plain) := by
  have hskip := skipSpace_length_le s
  rw [parseMembers] at h
  cases hs : skipSpace s with
  | nil => rw [hs] at h; cases h
  | cons c t =>
    rw [hs] at h
    rw [hs, List.length_cons] at hskip
    dsimp only at h
    split_ifs at h with hc
    cases hk : parseBody t with
    | none => rw [hk] at h; cases h
    | some kt =>
      obtain ⟨k, s₁⟩ := kt
      rw [hk] at h
      dsimp only at h
      obtain ⟨hkey, hkplain⟩ := parseBody_length hk
      have hskip₁ := skipSpace_length_le s₁
      cases hs₁ : skipSpace s₁ with
      | nil => rw [hs₁] at h; cases h
      | cons d s₂ =>
        rw [hs₁] at h
        rw [hs₁, List.length_cons] at hskip₁
        dsimp only at h
        split_ifs at h with hd
        cases hv : parseValue n s₂ with
        | none => rw [hv] at h; cases h
        | some vs =>
          obtain ⟨v, s₃⟩ := vs
          rw [hv] at h
          dsimp only at h
          obtain ⟨hvalue, hvplain⟩ := ih.value hv
          have hskip₃ := skipSpace_length_le s₃
          cases hs₃ : skipSpace s₃ with
          | nil => rw [hs₃] at h; cases h
          | cons e s₄ =>
            rw [hs₃] at h
            rw [hs₃, List.length_cons] at hskip₃
            dsimp only at h
            split_ifs at h with he₁ he₂
            · obtain ⟨⟨qs, r⟩, hqs, hqr⟩ := Option.map_eq_some_iff.mp h
              obtain ⟨rfl, rfl⟩ := Prod.mk.inj hqr
              obtain ⟨hle, hplain⟩ := ih.members hqs
              have hroom : membersRoom ((k, v) :: qs) = k.length + room v + 4 + membersRoom qs := rfl
              dsimp only
              rw [hroom]
              refine ⟨by omega, fun heq => List.forall_mem_cons.mpr ⟨?_, hplain (by omega)⟩⟩
              exact ⟨hkplain (by omega), hvplain (by omega)⟩
            · obtain ⟨rfl, rfl⟩ := Prod.mk.inj (Option.some.inj h)
              have hroom : membersRoom [(k, v)] = k.length + room v + 4 := rfl
              rw [hroom]
              refine ⟨by omega, fun heq => List.forall_mem_singleton.mpr ?_⟩
              exact ⟨hkplain (by omega), hvplain (by omega)⟩

theorem Fits.elems_succ {n : ℕ} (ih : Fits n) {s r : JsString} {xs : List Json}
    (h : parseElems (n + 1) s = some (xs, r)) : r.length ≤ s.length := by
  rw [parseElems] at h
  cases hv : parseValue n s with
  | none => rw [hv] at h; cases h
  | some vs =>
    obtain ⟨v, s₁⟩ := vs
    rw [hv] at h
    dsimp only at h
    have hvalue := (ih.value hv).1
    have hskip := skipSpace_length_le s₁
    cases hs₁ : skipSpace s₁ with
    | nil => rw [hs₁] at h; cases h
    | cons e s₂ =>
      rw [hs₁] at h
      rw [hs₁, List.length_cons] at hskip
      dsimp only at h
      split_ifs at h with he₁ he₂
      · obtain ⟨⟨ys, r⟩, hys, hyr⟩ := Option.map_eq_some_iff.mp h
        obtain ⟨-, rfl⟩ := Prod.mk.inj hyr
        have hle := ih.elems hys
        dsimp only
        omega
      · obtain ⟨-, rfl⟩ := Prod.mk.inj (Option.some.inj h)
        omega

theorem fits (n : ℕ) : Fits n := by
  induction n with
  | zero => refine ⟨?_, ?_, ?_⟩ <;> (intro _ _ _ h; cases h)
  | succ n ih => exact ⟨ih.value_succ, ih.members_succ, ih.elems_succ⟩

theorem put_subset (ps : Props) (k : JsString) (v : Json) : put ps k v ⊆ (k, v) :: ps := by
  induction ps with
  | nil => exact List.Subset.refl _
  | cons p ps ih =>
    rw [put]
    split_ifs
    · exact List.cons_subset_cons _ (List.subset_cons_self _ _)
    · refine List.cons_subset.mpr ⟨by simp, List.Subset.trans ih ?_⟩
      exact List.cons_subset_cons _ (List.subset_cons_self _ _)

theorem build_subset (raw : Props) : build raw ⊆ raw := by
  suffices hgen : ∀ done : Props, raw.foldl (fun ps p => put ps p.1 p.2) done ⊆ raw ++ done by
    have hnil := hgen []
    rwa [List.append_nil] at hnil
  induction raw with
  | nil => exact fun done => List.Subset.refl done
  | cons p raw ih =>
    intro done
    refine List.Subset.trans (ih (put done p.1 p.2)) (List.append_subset.mpr ⟨by simp, ?_⟩)
    exact List.Subset.trans (put_subset done p.1 p.2) (List.cons_subset.mpr ⟨by simp, by simp⟩)

theorem get_eq_some_iff {ps : Props} (hps : (keys ps).Nodup) {k : JsString} {v : Json} :
    get ps k = some v ↔ (k, v) ∈ ps := by
  refine ⟨mem_of_get, fun hmem => ?_⟩
  induction ps with
  | nil => cases hmem
  | cons p ps ih =>
    obtain ⟨l, w⟩ := p
    obtain ⟨hl, hps⟩ := List.nodup_cons.mp hps
    rw [get_cons]
    rcases List.mem_cons.mp hmem with heq | hlater
    · obtain ⟨rfl, rfl⟩ := Prod.mk.inj heq
      rw [if_pos rfl]
    · rw [if_neg, ih hps hlater]
      rintro rfl
      exact hl (List.mem_map.mpr ⟨_, hlater, rfl⟩)

theorem membersRoom_sublist {ps qs : Props} (h : ps.Sublist qs) : membersRoom ps ≤ membersRoom qs := by
  induction h with
  | slnil => exact le_rfl
  | cons p _ ih => exact ih.trans (Nat.le_add_left _ _)
  | cons_cons p _ ih => exact Nat.add_le_add_left ih _

theorem membersRoom_le {ps qs : Props} (hps : ps.Nodup) (h : ps ⊆ qs) : membersRoom ps ≤ membersRoom qs := by
  obtain ⟨rs, hperm, hsub⟩ := hps.subperm h
  have hsum : membersRoom rs = membersRoom ps :=
    (hperm.map fun p : JsString × Json => p.1.length + room p.2 + 4).sum_eq
  exact hsum.symm.trans_le (membersRoom_sublist hsub)

theorem plain_of_parse {text : JsString} {ps es : Props} (h : parse (lbrace :: text) = some (.obj ps))
    (hnodup : es.Nodup) (hes : ∀ e ∈ es, get ps e.1 = some e.2) (hlength : text.length ≤ membersRoom es) :
    ∀ e ∈ es, e.1.all isPlain ∧ e.2.Plain := by
  obtain ⟨r, hr, -⟩ := parse_eq_some.mp h
  rw [skipSpace_cons (by decide), parseValue, skipSpace_cons (by decide)] at hr
  dsimp only at hr
  rw [if_neg (by decide), if_pos rfl] at hr
  cases hs : skipSpace text with
  | nil => rw [hs] at hr; cases hr
  | cons d t =>
    rw [hs] at hr
    dsimp only at hr
    split_ifs at hr with hd
    · obtain ⟨hps, -⟩ := Prod.mk.inj (Option.some.inj hr)
      obtain rfl := Json.obj.inj hps
      intro e he
      have hget := hes e he
      cases hget
    · obtain ⟨⟨raw, r⟩, hraw, heq⟩ := Option.map_eq_some_iff.mp hr
      obtain ⟨hps, rfl⟩ := Prod.mk.inj heq
      obtain rfl := Json.obj.inj hps
      obtain ⟨hle, hplain⟩ := (fits _).members hraw
      have hsub : es ⊆ raw := fun e he => build_subset raw (mem_of_get (hes e he))
      have hroom := membersRoom_le hnodup hsub
      exact fun e he => hplain (by omega) e (hsub he)

end Ecma.Json
