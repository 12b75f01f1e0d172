import GlobalsJs.Ecma.JsonBlur
import GlobalsJs.Globalsd.DaemonReader
import GlobalsJs.Globalsd.ClientReader
import GlobalsJs.Stream.Cuts

/-!
# From bytes to texts

Both readers decode each data event by itself. When an event ends inside a character, the message
has replacement characters in its place, and is still accepted: what is read is another text.
-/

namespace GlobalsJs.Globalsd
open Ecma LineReader

/-- A message whose text is made of characters; a lone surrogate is none. -/
structure Utf8Message where
  json : Json
  wf : json.WF
  chars : List Char
  spells : utf16 chars = Json.stringify json

namespace Utf8Message

def text (m : Utf8Message) : JsString := Json.stringify m.json

theorem parse_text (m : Utf8Message) : Json.parse m.text = some m.json := Json.parse_stringify m.wf

theorem newline_notMem (m : Utf8Message) : newline ∉ m.text := Json.newline_notMem_stringify m.json

end Utf8Message

def bytesOf (ms : List Utf8Message) : List UInt8 := utf8 (ms.flatMap fun m => m.chars ++ ['\n'])

def texts (ms : List Utf8Message) : List JsString := ms.map Utf8Message.text

def parses (p : JsString) : Bool := (Json.parse p).isSome

/-- A data event ends behind a part of a message that is JSON itself; such a message is a number. -/
def CutInNumber (ms : List Utf8Message) (events : List (List UInt8)) : Prop :=
  ∃ before, before <+: events ∧ ∃ cs done p, before.flatten = utf8 cs ∧
    CutShort parses newline (texts ms) (utf16 cs) done p

section
variable {σ : Type} {k : σ → Json → σ × Bool}

def noted (k : σ → Json → σ × Bool) (s : σ × List JsString) (p : JsString) : (σ × List JsString) × Bool :=
  match Json.parse p with
  | none => (s, false)
  | some o => (((k s.1 o).1, s.2 ++ [p]), (k s.1 o).2)

/-- The texts that the reader puts together from the decoded events. -/
def reassembled (k : σ → Json → σ × Bool) (s : σ) (events : List JsString) : List JsString :=
  (events.foldl (feed (noted k) newline) ((s, []), [])).1.2

/-- Taking notes does not change what the reader does. -/
theorem noted_reader (s : σ) (events : List JsString) :
    let st := events.foldl (feed (noted k) newline) ((s, []), [])
    events.foldl (feed (parsed k) newline) (s, []) = (st.1.1, st.2) := by
  have hnotes : ∀ (s : σ × List JsString) (p : JsString),
      parsed k s.1 p = ((noted k s p).1.1, (noted k s p).2) := by
    intro s p
    rw [parsed, noted]
    cases Json.parse p <;> rfl
  exact feeds_view hnotes ((s, []), []) events

theorem noted_grows (s : σ × List JsString) (p : JsString) : s.2 <+: (noted k s p).1.2 := by
  rw [noted]
  cases Json.parse p with
  | none => exact List.prefix_refl _
  | some o => exact List.prefix_append s.2 [p]

theorem accepting_grows (noted : List JsString) (p : JsString) : noted <+: (accepting parses noted p).1 := by
  rw [accepting]
  split_ifs
  · exact List.prefix_append noted [p]
  · exact List.prefix_refl _

/-- The reader with a handler and the reader that notes what parses are in step, or both have
noted a text that is not the next one. -/
inductive Agrees (k : σ → Json → σ × Bool) (ms : List Utf8Message) (t : σ) :
    (σ × List JsString) × JsString → List JsString × JsString → Prop
  | same {done todo : List Utf8Message} {s : σ} {kept : JsString} : ms = done ++ todo →
    Accepts k s (todo.map Utf8Message.json) t → Agrees k ms t ((s, texts done), kept) (texts done, kept)
  | astray {st : (σ × List JsString) × JsString} {st' : List JsString × JsString} :
    ¬ st.1.2 <+: texts ms → ¬ st'.1 <+: texts ms → Agrees k ms t st st'

variable {ms : List Utf8Message} {t : σ}

theorem next_text {done todo : List Utf8Message} (hms : ms = done ++ todo) {p : JsString}
    (h : texts done ++ [p] <+: texts ms) : ∃ m more, todo = m :: more ∧ p = m.text := by
  rw [hms, texts, texts, List.map_append, List.prefix_append_right_inj] at h
  cases todo with
  | nil => cases List.prefix_nil.mp h
  | cons m more =>
    rw [List.map_cons, List.cons_prefix_cons] at h
    exact ⟨m, more, rfl, h.1⟩

theorem Agrees.piece {st : (σ × List JsString) × JsString} {st' : List JsString × JsString}
    (h : Agrees k ms t st st') (p : JsString) :
    Agrees k ms t (LineReader.piece (noted k) st p) (LineReader.piece (accepting parses) st' p) := by
  by_cases hp : p = []
  · rwa [hp, piece_nil, piece_nil]
  rw [LineReader.piece, LineReader.piece, if_neg hp, if_neg hp]
  cases h with
  | astray hst hst' =>
    exact .astray (fun h => hst ((noted_grows _ p).trans h)) fun h => hst' ((accepting_grows _ p).trans h)
  | @same done todo s kept hms haccepts =>
    cases hparse : Json.parse p with
    | none =>
      simp only [noted, accepting, parses, hparse]
      exact .same hms haccepts
    | some o =>
      simp only [noted, accepting, parses, hparse, Option.isSome_some, if_true]
      by_cases hnext : texts done ++ [p] <+: texts ms
      · obtain ⟨m, more, rfl, rfl⟩ := next_text hms hnext
        rw [m.parse_text] at hparse
        obtain rfl := Option.some.inj hparse
        cases haccepts with
        | cons hm hrest =>
          rw [hm, if_pos rfl]
          have hdone : texts done ++ [m.text] = texts (done ++ [m]) := by simp [texts]
          rw [hdone]
          exact .same (by simp [hms]) hrest
      · exact .astray hnext hnext

theorem Agrees.feed {st : (σ × List JsString) × JsString} {st' : List JsString × JsString}
    (h : Agrees k ms t st st') (chunk : JsString) :
    Agrees k ms t (LineReader.feed (noted k) newline st chunk)
      (LineReader.feed (accepting parses) newline st' chunk) := by
  have hpieces : ∀ (ps : List JsString) st st', Agrees k ms t st st' →
      Agrees k ms t (ps.foldl (LineReader.piece (noted k)) st)
        (ps.foldl (LineReader.piece (accepting parses)) st') := by
    intro ps
    induction ps with
    | nil => exact fun _ _ h => h
    | cons p ps ih => exact fun st st' h => ih _ _ (h.piece p)
  cases h with
  | same hms haccepts => exact hpieces _ _ _ (.same hms haccepts)
  | astray hst hst' =>
    refine .astray ?_ ?_
    · exact @feed_keeps _ _ (noted k) newline _ (fun s => ¬ s.2 <+: texts ms)
        (fun s p hs h => hs ((noted_grows s p).trans h)) st hst chunk
    · exact @feed_keeps _ _ (accepting parses) newline _ (fun s => ¬ s <+: texts ms)
        (fun s p hs h => hs ((accepting_grows s p).trans h)) st' hst' chunk

theorem reassembled_iff {s : σ} (haccepts : Accepts k s (ms.map Utf8Message.json) t)
    (events : List JsString) : reassembled k s events = texts ms ↔
      (events.foldl (feed (accepting parses) newline) ([], [])).1 = texts ms := by
  have hagrees : ∀ (events : List JsString) st st', Agrees k ms t st st' →
      Agrees k ms t (events.foldl (feed (noted k) newline) st)
        (events.foldl (feed (accepting parses) newline) st') := by
    intro events
    induction events with
    | nil => exact fun _ _ h => h
    | cons e es ih => exact fun st st' h => ih _ _ (h.feed e)
  have hstart : Agrees k ms t ((s, []), []) ([], []) :=
    .same (show ms = [] ++ ms from rfl) haccepts
  have hend := hagrees events _ _ hstart
  rw [reassembled]
  generalize events.foldl (feed (noted k) newline) ((s, []), []) = st at hend
  generalize events.foldl (feed (accepting parses) newline) ([], []) = st' at hend
  cases hend with
  | same => exact Iff.rfl
  | astray hst hst' =>
    exact iff_of_false (fun h => hst (h ▸ List.prefix_refl _)) fun h => hst' (h ▸ List.prefix_refl _)

end

structure DecodedAs (m : Utf8Message) (l : JsString) : Prop where
  basic : ∀ c ∈ m.chars, Basic c
  blurs : Blurs m.chars l

namespace DecodedAs
variable {m : Utf8Message} {l : JsString}

theorem blurred (h : DecodedAs m l) : Json.Blurred m.text l := by
  have hblurred := Json.blurred_of_blurs h.basic h.blurs
  rwa [m.spells] at hblurred

theorem newline_notMem (h : DecodedAs m l) : newline ∉ l := fun hmem =>
  m.newline_notMem (h.blurred.mem_of_ascii (by decide) hmem)

theorem same_or_bracketed (h : DecodedAs m l) : l = m.text ∨
    (∀ n, m.json ≠ .num n) ∧ ∃ c : CodeUnit, l.getLast? = some c ∧ Json.isSpace c = false := by
  have hascii : (∀ c ∈ m.text, c < 128) → l = m.text := h.blurred.eq_of_ascii
  have hends : ∀ (init : JsString) (c : CodeUnit), m.text = init ++ [c] → c < 128 → Json.isSpace c = false →
      ∃ c : CodeUnit, l.getLast? = some c ∧ Json.isSpace c = false := by
    intro init c htext hc hspace
    have hblurred := h.blurred
    rw [htext] at hblurred
    exact ⟨c, hblurred.ends hc, hspace⟩
  cases hjson : m.json with
  | null => exact .inl (hascii (by rw [Utf8Message.text, hjson]; exact forall_mem_of_all (by decide)))
  | bool b =>
    refine .inl (hascii ?_)
    rw [Utf8Message.text, hjson]
    cases b <;> exact forall_mem_of_all (by decide)
  | num n =>
    refine .inl (hascii fun c hc => ?_)
    rw [Utf8Message.text, hjson] at hc
    by_contra hhigh
    have hunit := List.all_eq_true.mp n.units c hc
    rw [Json.isNumeralUnit_high (UInt16.not_lt.mp hhigh)] at hunit
    cases hunit
  | str s =>
    have htext : m.text = (quote :: s.flatMap Json.escapeUnit) ++ [quote] := by rw [Utf8Message.text, hjson]; rfl
    exact .inr ⟨(fun n hn => by cases hn), hends _ quote htext (by decide) (by decide)⟩
  | arr xs =>
    have htext : m.text = (lbracket :: Json.stringify.stringifyElems xs) ++ [rbracket] := by
      rw [Utf8Message.text, hjson]
      rfl
    exact .inr ⟨(fun n hn => by cases hn), hends _ rbracket htext (by decide) (by decide)⟩
  | obj ps =>
    have htext : m.text = (lbrace :: Json.stringify.stringifyProps ps) ++ [rbrace] := by
      rw [Utf8Message.text, hjson]
      rfl
    exact .inr ⟨(fun n hn => by cases hn), hends _ rbrace htext (by decide) (by decide)⟩

theorem parses (h : DecodedAs m l) : l ≠ [] ∧ Globalsd.parses l = true := by
  have hsome : (Json.parse l).isSome = true := by
    rcases h.same_or_bracketed with rfl | ⟨hnum, -⟩
    · rw [m.parse_text]
      rfl
    · obtain ⟨w, hw, -⟩ := Json.parse_blurred hnum m.parse_text h.blurred
      rw [hw]
      rfl
  refine ⟨?_, hsome⟩
  rintro rfl
  cases hsome

theorem same_of_part (h : DecodedAs m l) {p q : JsString} (hpq : l = p ++ q) (hq : q ≠ [])
    (hp : Globalsd.parses p = true) : l = m.text := by
  rcases h.same_or_bracketed with hsame | ⟨hnum, c, hlast, hspace⟩
  · exact hsame
  obtain ⟨v, hv⟩ := Option.isSome_iff_exists.mp hp
  obtain ⟨w, hw, hwnum⟩ := Json.parse_blurred hnum m.parse_text h.blurred
  rw [hpq] at hw hlast
  have hblank := (Json.parse_opening hwnum hv hw).2
  rw [List.getLast?_append_of_ne_nil _ hq, List.getLast?_eq_some_getLast hq] at hlast
  rw [← Option.some.inj hlast, hblank _ (List.getLast_mem hq)] at hspace
  cases hspace

end DecodedAs

/-- The characters of a text that the decoder has a unit for. -/
def BasicText (ms : List Utf8Message) : Prop := ∀ m ∈ ms, ∀ c ∈ m.chars, Basic c

theorem decoded_lines {ms : List Utf8Message} {u : JsString} (hbasic : BasicText ms)
    (h : Blurs (ms.flatMap fun m => m.chars ++ ['\n']) u) :
    ∃ ls, u = wire newline ls ∧ List.Forall₂ DecodedAs ms ls := by
  induction ms generalizing u with
  | nil =>
    cases h
    exact ⟨[], rfl, .nil⟩
  | cons m ms ih =>
    rw [List.flatMap_cons, List.append_assoc] at h
    obtain ⟨l, w, rfl, hl, hw⟩ := h.split
    rw [List.singleton_append] at hw
    cases hw with
    | keep _ hrest =>
      obtain ⟨hm, hms⟩ := List.forall_mem_cons.mp hbasic
      obtain ⟨ls, rfl, hls⟩ := ih hms hrest
      exact ⟨l :: ls, by rw [wire_cons]; rfl, .cons ⟨hm, hl⟩ hls⟩
    | tear hhigh => exact absurd hhigh (by decide)

theorem utf16_messages (ms : List Utf8Message) :
    utf16 (ms.flatMap fun m => m.chars ++ ['\n']) = wire newline (texts ms) := by
  induction ms with
  | nil => rfl
  | cons m ms ih =>
    have htexts : texts (m :: ms) = Json.stringify m.json :: texts ms := rfl
    rw [List.flatMap_cons, utf16_append, utf16_append, m.spells, ih, htexts, wire_cons, List.append_assoc]
    rfl

theorem message_of_line {R : Utf8Message → JsString → Prop} {ms : List Utf8Message} {done more : List JsString}
    {l : JsString} (h : List.Forall₂ R ms (done ++ l :: more)) :
    ∃ done' m more', ms = done' ++ m :: more' ∧ done'.length = done.length ∧ R m l := by
  induction done generalizing ms with
  | nil =>
    cases h with
    | @cons m _ more' _ hm _ => exact ⟨[], m, more', rfl, rfl, hm⟩
  | cons x done ih =>
    cases h with
    | @cons m₀ _ ms _ _ hms =>
      obtain ⟨done', m, more', rfl, hlen, hm⟩ := ih hms
      exact ⟨m₀ :: done', m, more', rfl, congrArg Nat.succ hlen, hm⟩

theorem basic_messages {ms : List Utf8Message} (h : BasicText ms) :
    ∀ c ∈ ms.flatMap fun m => m.chars ++ ['\n'], Basic c := by
  intro c hc
  obtain ⟨m, hm, hc⟩ := List.mem_flatMap.mp hc
  rcases List.mem_append.mp hc with hc | hc
  · exact h m hm c hc
  · obtain rfl := List.mem_singleton.mp hc
    show '\n'.toNat ≤ 0xFFFF
    decide

theorem basic_of_read {ms : List Utf8Message} {events : List (List UInt8)} (hcut : events.flatten = bytesOf ms)
    (hread : ((events.map decode).foldl (feed (accepting parses) newline) ([], [])).1 = texts ms) : BasicText ms := by
  have hunits := (decode_pieces hcut).1.no_surrogate
  have hnoted : ∀ l ∈ texts ms, ∀ x ∈ l, x.toNat < 0xD800 ∨ 0xDFFF < x.toNat :=
    hread ▸ feeds_units hunits
  intro m hm c hc
  by_contra hbasic
  obtain ⟨x, hx, hsurrogate⟩ := surrogate_of_not_basic hbasic
  refine hsurrogate (hnoted m.text (List.mem_map_of_mem hm) x ?_)
  rw [Utf8Message.text, ← m.spells]
  exact List.mem_flatMap.mpr ⟨c, hc, hx⟩

theorem decoded_prefix {ms : List Utf8Message} {events : List (List UInt8)} (hcut : events.flatten = bytesOf ms)
    (hbasic : BasicText ms) (hall : WholeCharacters events) {before : List (List UInt8)} (hbefore : before <+: events) :
    ∃ ds, before.flatten = utf8 ds ∧ (before.map decode).flatten = utf16 ds := by
  obtain ⟨after, rfl⟩ := hbefore
  obtain ⟨ds, hds, hdecode⟩ := decode_whole fun e he => hall e (List.mem_append_left after he)
  have hpre : utf8 ds <+: bytesOf ms := by
    rw [← hcut, List.flatten_append, hds]
    exact List.prefix_append _ _
  refine ⟨ds, hds, ?_⟩
  rw [hdecode, seen_basic fun c hc => basic_messages hbasic c ((prefix_of_utf8 hpre).subset hc)]

theorem decoded_texts_iff {ms : List Utf8Message} {events : List (List UInt8)}
    (hcut : events.flatten = bytesOf ms) :
    ((events.map decode).foldl (feed (accepting parses) newline) ([], [])).1 = texts ms ↔
      BasicText ms ∧ WholeCharacters events ∧ ¬ CutInNumber ms events := by
  by_cases hbasic : BasicText ms
  swap
  · exact iff_of_false (mt (basic_of_read hcut) hbasic) fun h => hbasic h.1
  rw [and_iff_right hbasic]
  have hchars := basic_messages hbasic
  obtain ⟨hblurs, hwhole⟩ := decode_pieces hcut
  obtain ⟨ls, hls, hlines⟩ := decoded_lines hbasic hblurs
  have hmem : ∀ l ∈ ls, ∃ m, DecodedAs m l := by
    intro l hl
    obtain ⟨done, more, rfl⟩ := List.append_of_mem hl
    obtain ⟨-, m, -, -, -, hm⟩ := message_of_line hlines
    exact ⟨m, hm⟩
  have hsep : ∀ l ∈ ls, newline ∉ l := fun l hl => (hmem l hl).elim fun m hm => hm.newline_notMem
  have hok : ∀ l ∈ ls, l ≠ [] ∧ parses l = true := fun l hl => (hmem l hl).elim fun m hm => hm.parses
  have hsame : WholeCharacters events ↔ ls = texts ms := by
    rw [← hwhole hchars, hls, utf16_messages]
    refine ⟨fun h => wire_inj hsep ?_ h, congrArg _⟩
    exact List.forall_mem_map.mpr fun m _ => m.newline_notMem
  have hdecoded : WholeCharacters events → ∀ {before : List (List UInt8)}, before <+: events →
      ∃ ds, before.flatten = utf8 ds ∧ (before.map decode).flatten = utf16 ds :=
    fun hall => decoded_prefix hcut hbasic hall
  rcases lines_accepted hsep hok hls with ⟨hread, hclean⟩ | ⟨decoded, hpre, done, p, hshort, hnoted⟩
  · rw [hread, hsame]
    refine ⟨fun h => ⟨h, ?_⟩, fun h => h.1⟩
    rintro ⟨before, hbefore, cs, done, p, hcs, hshort⟩
    obtain ⟨ds, hds, htext⟩ := hdecoded (hsame.mpr h) hbefore
    obtain rfl := utf8_injective (hds.symm.trans hcs)
    exact hclean _ (hbefore.map decode) done p (htext ▸ h ▸ hshort)
  · obtain ⟨before, hbefore, rfl⟩ := List.prefix_map_iff.mp hpre
    constructor
    · intro hread
      exfalso
      obtain ⟨q, more, hls, hq⟩ := hshort.part
      rw [hls] at hlines
      obtain ⟨done', m, more', rfl, hlen, hm⟩ := message_of_line hlines
      obtain ⟨r, hr⟩ := hread ▸ hnoted
      rw [texts, List.map_append, List.map_cons, List.append_assoc] at hr
      obtain ⟨-, hnext⟩ := List.append_inj hr (by rw [List.length_map, hlen])
      obtain ⟨rfl, -⟩ := List.cons.inj hnext
      exact hq (List.append_right_eq_self.mp (hm.same_of_part rfl hq hshort.accepted))
    · rintro ⟨hall, hnumber⟩
      obtain ⟨cs, hcs, htext⟩ := hdecoded hall hbefore
      refine absurd ⟨before, hbefore, cs, done, p, hcs, ?_⟩ hnumber
      rw [← hsame.mp hall, ← htext]
      exact hshort

/-- Both ends put the texts together exactly when no character is beyond U+FFFF, every event consists
of whole characters and none ends inside a number. -/
theorem text_reassembled_iff {ms : List Utf8Message} {events : List (List UInt8)}
    (hcut : events.flatten = bytesOf ms) :
    (∀ {σ ι : Type} (api : Api σ) (c : ι) (s t : Server σ ι),
      Accepts (handle api c) s (ms.map Utf8Message.json) t →
      (reassembled (handle api c) s (events.map decode) = texts ms ↔
        BasicText ms ∧ WholeCharacters events ∧ ¬ CutInNumber ms events)) ∧
    ∀ {κ : Type} (self : Client κ) (s t : Reader κ),
      Accepts (handleObject self) s (ms.map Utf8Message.json) t →
      (reassembled (handleObject self) s (events.map decode) = texts ms ↔
        BasicText ms ∧ WholeCharacters events ∧ ¬ CutInNumber ms events) := by
  constructor
  · intro σ ι api c s t ht
    rw [reassembled_iff ht, decoded_texts_iff hcut]
  · intro κ self s t ht
    rw [reassembled_iff ht, decoded_texts_iff hcut]

def accented : Utf8Message where
  json := (directoryRequest 0 [233]).json
  wf := (directoryRequest 0 [233]).wf
  chars := (directoryRequest 0 [233]).text.map fun c => Char.ofNat c.toNat
  spells := by decide +kernel

theorem text_reassembled_accented :
    let events := [bytesOf [accented]]
    reassembled (handle directoryApi ()) idle (events.map decode) = texts [accented] ↔
      BasicText [accented] ∧ WholeCharacters events ∧ ¬ CutInNumber [accented] events :=
  (text_reassembled_iff (by simp)).1 directoryApi () idle _ (.cons rfl (.nil _))

/-- The name is cut between its two bytes, and two replacement characters are read. -/
theorem cut_character_altered :
    let bytes := bytesOf [accented]
    let events := [bytes.take 27, bytes.drop 27]
    events.flatten = bytesOf [accented] ∧
      (handle directoryApi () idle accented.json).2 = true ∧
      reassembled (handle directoryApi ()) idle (events.map decode) =
        [(directoryRequest 0 [replacement, replacement]).text] ∧
      reassembled (handle directoryApi ()) idle (events.map decode) ≠ texts [accented] := by
  refine ⟨by simp, by decide +kernel, by decide +kernel, by decide +kernel⟩

end GlobalsJs.Globalsd
