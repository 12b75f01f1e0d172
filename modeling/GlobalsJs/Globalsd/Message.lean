import GlobalsJs.Ecma.JsonRoundTrip
import GlobalsJs.Stream.LineReader

/-!
# Objects on the wire

Both ends write one object a line and read lines by trial. `Message` is a
well-formed object; its text is framed for every handler that begins by parsing.
-/

namespace GlobalsJs.Globalsd
open Ecma LineReader

structure Message where
  props : Props
  wf : (Json.obj props).WF

namespace Message

def json (m : Message) : Json := .obj m.props

def text (m : Message) : JsString := Json.stringify m.json

theorem parse_text (m : Message) : Json.parse m.text = some m.json := Json.parse_stringify m.wf

theorem text_ne_nil (m : Message) : m.text ≠ [] := Json.stringify_ne_nil _

/-- The stream that carries the messages: each text and the end of its line. -/
def wire (ms : List Message) : JsString := LineReader.wire newline (ms.map text)

@[simp] theorem wire_nil : wire [] = [] := rfl

@[simp] theorem wire_cons (m : Message) (ms : List Message) :
    wire (m :: ms) = m.text ++ newline :: wire ms := by
  simp [wire]

theorem wire_append (ms ns : List Message) : wire (ms ++ ns) = wire ms ++ wire ns := by
  simp [wire, LineReader.wire]

end Message

/-- Parse a piece and pass the value on; text that does not parse is refused. -/
def parsed {σ : Type*} (k : σ → Json → σ × Bool) (s : σ) (p : JsString) : σ × Bool :=
  match Json.parse p with
  | none => (s, false)
  | some o => k s o

section
variable {σ : Type*} {k : σ → Json → σ × Bool}

theorem parsed_text (s : σ) (m : Message) : parsed k s m.text = k s m.json := by
  simp [parsed, m.parse_text]

theorem framed_text (m : Message) : Framed (parsed k) newline NoBlank m.text := by
  apply framed_noBlank m.text_ne_nil (Json.newline_notMem_stringify _)
  intro s p q hpq hq _
  simp [parsed, Json.parse_proper_prefix m.wf hpq hq]

theorem run_texts (s : σ) (ms : List Message) :
    run (parsed k) s (ms.map Message.text) = ms.foldl (fun s m => (k s m.json).1) s := by
  induction ms generalizing s with
  | nil => rfl
  | cons m ms ih =>
    rw [List.map_cons, List.foldl_cons, ← ih, run, List.foldl_cons, parsed_text]
    rfl

theorem smooth_texts {s : σ} {ms : List Message}
    (h : ∀ s', ∀ m ∈ ms, (k s' m.json).2 = true) : Smooth (parsed k) s (ms.map Message.text) := by
  induction ms generalizing s with
  | nil => trivial
  | cons m ms ih =>
    refine ⟨?_, ih fun s' n hn => h s' n (List.mem_cons_of_mem m hn)⟩
    rw [parsed_text]
    exact h s m List.mem_cons_self

end

structure Line where
  text : JsString
  props : Props
  one_line : newline ∉ text
  reads : Json.parse text = some (.obj props)

namespace Line

def json (l : Line) : Json := .obj l.props

def wire (ls : List Line) : JsString := LineReader.wire newline (ls.map text)

end Line

def Message.line (m : Message) : Line where
  text := m.text
  props := m.props
  one_line := Json.newline_notMem_stringify _
  reads := m.parse_text

def IsSpace (c : CodeUnit) : Prop := Json.isSpace c = true

inductive Handles {σ : Type*} (k : σ → Json → σ × Bool) : σ → List Line → σ → Prop
  | nil (s : σ) : Handles k s [] s
  | cons {s s' t : σ} {l : Line} {ls : List Line} :
      k s l.json = (s', true) → Handles k s' ls t → Handles k s (l :: ls) t

inductive Accepts {σ : Type*} (k : σ → Json → σ × Bool) : σ → List Json → σ → Prop
  | nil (s : σ) : Accepts k s [] s
  | cons {s s' t : σ} {v : Json} {vs : List Json} :
      k s v = (s', true) → Accepts k s' vs t → Accepts k s (v :: vs) t

section
variable {σ : Type*} {k : σ → Json → σ × Bool}

theorem Accepts.append {s t u : σ} {vs ws : List Json} (h : Accepts k s vs t) (h' : Accepts k t ws u) :
    Accepts k s (vs ++ ws) u := by
  induction h with
  | nil => exact h'
  | cons hv _ ih => exact .cons hv (ih h')

theorem Accepts.split {s t : σ} {vs ws : List Json} (h : Accepts k s (vs ++ ws) t) :
    ∃ u, Accepts k s vs u ∧ Accepts k u ws t := by
  induction vs generalizing s with
  | nil => exact ⟨s, .nil s, h⟩
  | cons v vs ih =>
    cases h with
    | cons hv h =>
      obtain ⟨u, hu, hrest⟩ := ih h
      exact ⟨u, .cons hv hu, hrest⟩

theorem Accepts.handles {s t : σ} {ls : List Line} (h : Accepts k s (ls.map Line.json) t) :
    Handles k s ls t := by
  induction ls generalizing s with
  | nil =>
    cases h with
    | nil => exact .nil _
  | cons l ls ih =>
    cases h with
    | cons hl h => exact .cons hl (ih h)

theorem Accepts.foldl_piece {s t : σ} {vs : List Json} (h : Accepts k s vs t)
    (hwf : ∀ v ∈ vs, v.WF) :
    (vs.map Json.stringify).foldl (piece (parsed k)) (s, []) = (t, []) := by
  induction h with
  | nil => rfl
  | @cons s s' t v vs hv _ ih =>
    have hpiece : parsed k s (Json.stringify v) = (s', true) := by
      rw [parsed, Json.parse_stringify (hwf v List.mem_cons_self)]
      exact hv
    rw [List.map_cons, List.foldl_cons, piece_accepted [] (Json.stringify_ne_nil v) (by rw [hpiece]),
      hpiece]
    exact ih fun w hw => hwf w (List.mem_cons_of_mem v hw)

theorem Accepts.events {s t : σ} {vs : List Json} (h : Accepts k s vs t) (hwf : ∀ v ∈ vs, v.WF)
    {groups : List (List JsString)} (hcut : groups.flatten = vs.map Json.stringify) :
    (groups.map (LineReader.wire newline)).foldl (feed (parsed k) newline) (s, []) = (t, []) := by
  induction groups generalizing s vs with
  | nil =>
    obtain rfl : vs = [] := List.map_eq_nil_iff.mp hcut.symm
    cases h with
    | nil => rfl
  | cons g groups ih =>
    obtain ⟨us, ws, rfl, hus, hws⟩ := List.map_eq_append_iff.mp hcut.symm
    obtain ⟨u, hu, hrest⟩ := h.split
    have hlines : ∀ l ∈ g, newline ∉ l := by
      rw [← hus]
      exact List.forall_mem_map.mpr fun v _ => Json.newline_notMem_stringify v
    rw [List.map_cons, List.foldl_cons, feed_wire s hlines, ← hus,
      hu.foldl_piece fun v hv => hwf v (List.mem_append_left ws hv)]
    exact ih hrest (fun v hv => hwf v (List.mem_append_right us hv)) hws.symm

end

section
variable {σ : Type*} {k : σ → Json → σ × Bool}

theorem refusesBlank_space : RefusesBlank (parsed k) IsSpace := by
  intro s b hb _
  rw [parsed, Json.parse_space hb]

theorem framed_line (l : Line) : Framed (parsed k) newline IsSpace l.text := by
  have hex : ∃ n, (Json.parse (l.text.take n)).isSome = true :=
    ⟨l.text.length, by rw [List.take_length, l.reads]; rfl⟩
  obtain ⟨v, hv⟩ := Option.isSome_iff_exists.mp (Nat.find_spec hex)
  have hmin := fun m => Nat.find_min hex (m := m)
  generalize Nat.find hex = n at hv hmin
  have hsplit := l.text.take_append_drop n
  have hwhole := l.reads
  rw [← hsplit] at hwhole
  obtain ⟨rfl, hpad⟩ := Json.parse_opening (Json.obj_ne_num l.props) hv hwhole
  have hcore : ∀ b r, Blank IsSpace b → r <+: l.text.drop n →
      Json.parse (b ++ l.text.take n ++ r) = some (.obj l.props) := by
    intro b r hb hr
    rw [List.append_assoc, Json.parse_space_append hb]
    exact Json.parse_append_space hv fun c hc => hpad c (hr.subset hc)
  refine ⟨_, _, hsplit, ?_, hsplit.symm ▸ l.one_line, hpad, ?_, ?_⟩
  · intro hnil
    rw [hnil] at hv
    cases hv
  · intro s b p q hb hpq hq _
    have hlen := congrArg List.length hpq
    rw [List.length_append, List.length_take] at hlen
    have hshort : p.length < n := by
      have := List.length_pos_of_ne_nil hq
      omega
    have hp : p = l.text.take p.length := by
      have hpre : p <+: l.text := ⟨q ++ l.text.drop n, by rw [← List.append_assoc, hpq, hsplit]⟩
      exact List.prefix_iff_eq_take.mp hpre
    have hnone : Json.parse p = none := by
      rw [hp]
      exact Option.not_isSome_iff_eq_none.mp (hmin _ hshort)
    rw [parsed, Json.parse_space_append hb, hnone]
  · intro s b r hb hr
    rw [parsed, parsed, hcore b r hb hr, hwhole]

theorem parsed_line (s : σ) (l : Line) : parsed k s l.text = k s l.json := by
  simp [parsed, l.reads, Line.json]

theorem Line.text_ne_nil (l : Line) : l.text ≠ [] := by
  intro hnil
  have hreads := l.reads
  rw [hnil] at hreads
  cases hreads

theorem piece_line (st : σ × JsString) (l : Line) :
    piece (parsed k) st l.text = ((k st.1 l.json).1, if (k st.1 l.json).2 then [] else l.text) := by
  rw [piece, if_neg l.text_ne_nil, parsed_line]

theorem parse_glued (l m : Line) (x : JsString) : Json.parse (l.text ++ x ++ m.text) = none := by
  by_contra h
  obtain ⟨v, hv⟩ := Option.ne_none_iff_exists'.mp h
  rw [List.append_assoc] at hv
  have hspace := Json.space_of_parse_append l.reads hv
  have hm := m.reads
  rw [Json.parse_space fun c hc => hspace c (List.mem_append_right x hc)] at hm
  cases hm

theorem Handles.append {s t u : σ} {ls ls' : List Line} (h : Handles k s ls t)
    (h' : Handles k t ls' u) : Handles k s (ls ++ ls') u := by
  induction h with
  | nil => exact h'
  | cons hl _ ih => exact .cons hl (ih h')

theorem Handles.smooth {s t : σ} {ls : List Line} (h : Handles k s ls t) :
    Smooth (parsed k) s (ls.map Line.text) ∧ run (parsed k) s (ls.map Line.text) = t := by
  induction h with
  | nil => exact ⟨trivial, rfl⟩
  | @cons s s' t l ls hl _ ih =>
    have htext : parsed k s l.text = (s', true) := (parsed_line s l).trans hl
    constructor
    · refine ⟨by rw [htext], ?_⟩
      rw [htext]; exact ih.1
    · rw [List.map_cons, run, List.foldl_cons, htext]; exact ih.2

theorem Handles.chunks {s t : σ} {ls : List Line} {chunks : List JsString}
    (h : Handles k s ls t) (hcut : chunks.flatten = Line.wire ls) :
    (chunks.foldl (feed (parsed k) newline) (s, [])).1 = t := by
  have hframed : ∀ text ∈ ls.map Line.text, Framed (parsed k) newline IsSpace text := by
    intro text htext
    obtain ⟨l, -, rfl⟩ := List.mem_map.mp htext
    exact framed_line l
  rw [(feed_chunks refusesBlank_space hcut hframed h.smooth.1).1, h.smooth.2]

end

/-- The messages whose text lies within `arrived`, read from the front. -/
def complete : List Message → JsString → List Message
  | [], _ => []
  | m :: ms, arrived =>
    if m.text.isPrefixOf arrived then m :: complete ms (arrived.drop (m.text.length + 1)) else []

theorem complete_wire (done todo : List Message) (p : JsString) :
    complete (done ++ todo) (Message.wire done ++ p) = done ++ complete todo p := by
  induction done with
  | nil => rfl
  | cons m done ih =>
    have hpre : m.text.isPrefixOf (m.text ++ newline :: (Message.wire done ++ p)) = true := by simp
    simp [complete, hpre, ih]

theorem complete_short {todo : List Message} {p : JsString}
    (h : ∀ m ∈ todo.head?, ¬ m.text <+: p) : complete todo p = [] := by
  cases todo with
  | nil => rfl
  | cons m todo =>
    have hm : ¬ m.text <+: p := h m (by simp)
    simp [complete, hm]

end GlobalsJs.Globalsd
