import GlobalsJs.Globalsd.DaemonReader

/-!
# Several connections

The listener of every socket keeps its unread text in the one `partial_object` of
the server. The messages of a connection get through as long as no chunk with
text on a line arrives while another connection is in the middle of a message.
-/

namespace GlobalsJs.Globalsd
open Ecma LineReader Cache Collection

variable {σ ι : Type} {api : Api σ}

section Streams
variable [DecidableEq ι]

/-- The text that connection `c` has sent so far. -/
def received (events : List (ι × JsString)) (c : ι) : JsString :=
  (events.filter (·.1 = c)).flatMap (·.2)

/-- The requests that `onRequest` got for the socket of `c`. -/
def callsOn (s : Server σ ι) (c : ι) : List Json :=
  (s.calls.filter (·.socket = c)).map (·.request)

def MidMessage (ms : List Message) (text : JsString) : Prop :=
  ∃ done m todo p q, ms = done ++ m :: todo ∧ m.text = p ++ q ∧ p ≠ [] ∧ q ≠ [] ∧
    text = Message.wire done ++ p

/-- A chunk with text on a line comes while no other connection is inside a message. -/
def Quiet (ms : ι → List Message) (before : List (ι × JsString)) (event : ι × JsString) : Prop :=
  event.2 = [] ∨ event.2 = [newline] ∨
    ∀ d ≠ event.1, ¬ MidMessage (ms d) (received before d)

theorem received_concat (events : List (ι × JsString)) (e : ι × JsString) (c : ι) :
    received (events ++ [e]) c = received events c ++ if e.1 = c then e.2 else [] := by
  by_cases h : e.1 = c <;> simp [received, h]

end Streams

structure Reading (api : Api σ) (c : ι) (ms : List Message) (arrived kept : JsString)
    (done : List Message) : Prop where
  stage : ∃ todo rest, ms = done ++ todo ∧ arrived ++ rest = Message.wire ms ∧
    Stage (parsed (tolerant api c)) newline NoBlank kept (todo.map Message.text) rest

theorem framed_texts {c : ι} (ms : List Message) :
    ∀ l ∈ ms.map Message.text, Framed (parsed (tolerant api c)) newline NoBlank l := by
  intro l hl
  obtain ⟨m, -, rfl⟩ := List.mem_map.mp hl
  exact framed_text m

theorem Reading.start (c : ι) (ms : List Message) : Reading api c ms [] [] [] :=
  ⟨ms, Message.wire ms, rfl, rfl, .start blank_nil (framed_texts ms)⟩

theorem Reading.inside {c : ι} {ms done : List Message} {arrived kept : JsString}
    (h : Reading api c ms arrived kept done) (hkept : kept ≠ []) :
    ∃ m todo q, ms = done ++ m :: todo ∧ m.text = kept ++ q ∧ q ≠ [] ∧
      arrived = Message.wire done ++ kept := by
  obtain ⟨todo, rest, rfl, hwhole, hst⟩ := h
  generalize htodo : todo.map Message.text = lines at hst
  cases hst with
  | ended _ hb | finished hb => exact absurd (blank_noBlank hb) hkept
  | @inside b p q pad lines hb hq hl =>
    obtain rfl := blank_noBlank hb
    obtain rfl := blank_noBlank hl.pad_blank
    rw [List.append_nil] at htodo
    obtain ⟨m, todo, rfl, hm, rfl⟩ := List.map_eq_cons_iff.mp htodo
    refine ⟨m, todo, q, rfl, hm, hq, ?_⟩
    have hassoc : arrived ++ (q ++ newline :: Message.wire todo) =
        Message.wire done ++ p ++ (q ++ newline :: Message.wire todo) := by
      rw [Message.wire_append, Message.wire_cons, hm] at hwhole
      simpa [Message.wire] using hwhole
    exact List.append_cancel_right hassoc

theorem Reading.mid {c : ι} {ms done : List Message} {arrived kept : JsString}
    (h : Reading api c ms arrived kept done) (hkept : kept ≠ []) :
    MidMessage ms arrived ∧ Json.parse kept = none := by
  obtain ⟨m, todo, q, hms, hm, hq, harr⟩ := h.inside hkept
  exact ⟨⟨done, m, todo, kept, q, hms, hm, hkept, hq, harr⟩,
    Json.parse_proper_prefix m.wf hm.symm hq⟩

theorem complete_nil (todo : List Message) : complete todo [] = [] :=
  complete_short fun m _ h => m.text_ne_nil (List.prefix_nil.mp h)

theorem complete_inside {m : Message} (todo : List Message) {p q : JsString}
    (hm : m.text = p ++ q) (hq : q ≠ []) : complete (m :: todo) p = [] := by
  refine complete_short fun n hn hpre => ?_
  obtain rfl : m = n := by simpa using hn
  have hlen := hpre.length_le
  rw [hm, List.length_append] at hlen
  have := List.length_pos_of_ne_nil hq
  omega

theorem not_midMessage_wire (done todo : List Message) :
    ¬ MidMessage (done ++ todo) (Message.wire done) := by
  rintro ⟨done', m, todo', p, q, hms, hm, hp, hq, htext⟩
  have hwhole := complete_wire done todo []
  have hpart := complete_wire done' (m :: todo') p
  rw [← hms, ← htext, complete_inside todo' hm hq] at hpart
  rw [List.append_nil, complete_nil, hpart] at hwhole
  rw [List.append_cancel_right hwhole] at htext
  exact hp (List.append_cancel_left ((List.append_nil _).trans htext)).symm

theorem complete_text (m : Message) (todo : List Message) : complete (m :: todo) m.text = [m] := by
  have hpre : m.text.isPrefixOf m.text = true := by simp
  have hdrop : m.text.drop (m.text.length + 1) = [] := by simp
  rw [complete, if_pos hpre, hdrop, complete_nil]

theorem Reading.done_eq {c : ι} {ms done : List Message} {arrived kept : JsString}
    (h : Reading api c ms arrived kept done) : complete ms arrived = done := by
  by_cases hkept : kept = []
  · obtain ⟨todo, rest, rfl, hwhole, hst⟩ := h
    rw [Message.wire_append] at hwhole
    have hbetween : rest = Message.wire todo → complete (done ++ todo) arrived = done := by
      rintro rfl
      have harr : arrived ++ [] = Message.wire done ++ [] := by simpa using hwhole
      rw [← arrived.append_nil, harr, complete_wire, complete_nil, List.append_nil]
    generalize htodo : todo.map Message.text = lines at hst
    cases hst with
    | finished =>
      obtain rfl := List.map_eq_nil_iff.mp htodo
      exact hbetween rfl
    | @inside b p q pad lines hb hq hl =>
      obtain rfl : p = [] := (List.append_eq_nil_iff.mp hkept).2
      obtain rfl := blank_noBlank hl.pad_blank
      apply hbetween
      rw [Message.wire, htodo]
      simp
    | @ended _ pad _ hb hpad =>
      obtain rfl := blank_noBlank hpad
      subst htodo
      change arrived ++ newline :: Message.wire todo = _ at hwhole
      rcases List.eq_nil_or_concat' done with rfl | ⟨init, m, rfl⟩
      · -- nothing was passed on yet, so no line can have just ended
        have := congrArg List.length hwhole
        simp at this
        omega
      · have harr : arrived = Message.wire init ++ m.text := by
          have h : arrived ++ newline :: Message.wire todo =
              (Message.wire init ++ m.text) ++ newline :: Message.wire todo := by
            rw [hwhole, Message.wire_append]; simp
          exact List.append_cancel_right h
        rw [harr, List.append_assoc, List.singleton_append, complete_wire, complete_text]
  · obtain ⟨m, todo, q, rfl, hm, hq, rfl⟩ := h.inside hkept
    rw [complete_wire, complete_inside todo hm hq, List.append_nil]

theorem Reading.feed (s : Server σ ι) {c : ι} {ms done : List Message}
    {arrived kept chunk : JsString} (h : Reading api c ms arrived kept done)
    (hcut : arrived ++ chunk <+: Message.wire ms) :
    ∃ more, Reading api c ms (arrived ++ chunk) (tolerantly api (s, kept) (c, chunk)).2 (done ++ more) ∧
      ∃ new, (tolerantly api (s, kept) (c, chunk)).1.calls = s.calls ++ new ∧
        new.map (fun call => (call.socket, call.request)) = more.map fun m => (c, m.json) := by
  obtain ⟨todo, rest, rfl, hwhole, hst⟩ := h
  obtain ⟨rest', hrest⟩ := hcut
  have hsplit : rest = chunk ++ rest' := by
    rw [List.append_assoc, ← hwhole] at hrest
    exact (List.append_cancel_left hrest).symm
  rw [hsplit] at hst
  obtain ⟨lines, lines', hlines, hrun, hstage⟩ :=
    feed_stage refusesBlank_noBlank chunk hst (framed_texts todo) (tolerant_smooth s todo)
  obtain ⟨more, todo', rfl, rfl, rfl⟩ := List.map_eq_append_iff.mp hlines
  refine ⟨more, ⟨todo', rest', by simp, hrest, hstage⟩, ?_⟩
  obtain ⟨new, hcalls, hnew⟩ := @foldl_tolerant_calls _ _ api c s more
  refine ⟨new, ?_, hnew⟩
  rw [← hcalls, ← run_texts]
  exact congrArg Server.calls hrun

theorem tolerantly_blank (c : ι) (st : Listening σ ι) {text : JsString}
    (hblank : text = [] ∨ text = [newline]) (hkept : Json.parse st.2 = none) :
    tolerantly api st (c, text) = st := by
  have hoffer : piece (parsed (tolerant api c)) st st.2 = st := by
    by_cases hnil : st.2 = []
    · rw [hnil, piece_nil]
    · exact piece_refused st.2 hnil (by simp [parsed, hkept])
  rcases hblank with rfl | rfl
  · rw [tolerantly, feed_nil, hoffer]
  · rw [tolerantly, feed_sep, hoffer, List.splitOn_nil]
    rfl

variable [DecidableEq ι]

def Separate (api : Api σ) (ms : ι → List Message) (s₀ : Server σ ι) (events : List (ι × JsString)) (o : ι)
    (st : Listening σ ι) : Prop :=
  ∀ c, ∃ done, Reading api c (ms c) (received events c) (if c = o then st.2 else []) done ∧
    callsOn st.1 c = callsOn s₀ c ++ done.map Message.json

theorem callsOn_eq (s : Server σ ι) (c : ι) :
    callsOn s c = ((s.calls.map fun call => (call.socket, call.request)).filter (·.1 = c)).map Prod.snd := by
  rw [callsOn, List.filter_map, List.map_map]
  rfl

theorem callsOn_append {s t : Server σ ι} {c : ι} {more : List Message} {new : List (Call ι)}
    (hcalls : t.calls = s.calls ++ new)
    (hnew : new.map (fun call => (call.socket, call.request)) = more.map fun m => (c, m.json)) (d : ι) :
    callsOn t d = callsOn s d ++ if d = c then more.map Message.json else [] := by
  rw [callsOn_eq, callsOn_eq, hcalls, List.map_append, hnew, List.filter_append, List.map_append]
  by_cases hd : d = c
  · subst hd; simp [List.filter_map, Function.comp_def]
  · simp [List.filter_map, Function.comp_def, Ne.symm hd, hd]

theorem Separate.chunk {ms : ι → List Message} {s₀ : Server σ ι} {events : List (ι × JsString)}
    {o : ι} {st : Listening σ ι} (h : Separate api ms s₀ events o st) {e : ι × JsString}
    (hcut : received (events ++ [e]) e.1 <+: Message.wire (ms e.1))
    (hfree : o = e.1 ∨ st.2 = []) :
    Separate api ms s₀ (events ++ [e]) e.1 (tolerantly api st e) := by
  obtain ⟨done, hreading, hcalls⟩ := h e.1
  have hkept : (if e.1 = o then st.2 else []) = st.2 := by
    rcases hfree with rfl | hnil
    · simp
    · simp [hnil]
  rw [hkept] at hreading
  rw [received_concat, if_pos rfl] at hcut
  obtain ⟨more, hnext, new, hmore, hnew⟩ := hreading.feed st.1 hcut
  intro d
  have hd := callsOn_append hmore hnew d
  by_cases hde : d = e.1
  · subst hde
    refine ⟨done ++ more, ?_, ?_⟩
    · rw [received_concat, if_pos rfl, if_pos rfl]; exact hnext
    · rw [if_pos rfl, hcalls] at hd
      rw [List.map_append, ← List.append_assoc]; exact hd
  · obtain ⟨done', hreading', hcalls'⟩ := h d
    have hother : (if d = o then st.2 else []) = [] := by
      rcases hfree with rfl | hnil
      · simp [hde]
      · simp [hnil]
    refine ⟨done', ?_, ?_⟩
    · rw [received_concat, if_neg (Ne.symm hde), if_neg hde, List.append_nil, ← hother]
      exact hreading'
    · rw [if_neg hde, List.append_nil, hcalls'] at hd
      exact hd

theorem Separate.blank {ms : ι → List Message} {s₀ : Server σ ι} {events : List (ι × JsString)}
    {o : ι} {st : Listening σ ι} (h : Separate api ms s₀ events o st) {e : ι × JsString}
    (hcut : received (events ++ [e]) e.1 <+: Message.wire (ms e.1))
    (hblank : e.2 = [] ∨ e.2 = [newline]) (hoe : o ≠ e.1) (hkept : st.2 ≠ []) :
    Separate api ms s₀ (events ++ [e]) o (tolerantly api st e) := by
  obtain ⟨_, hreading, _⟩ := h o
  rw [if_pos rfl] at hreading
  have hsame : tolerantly api st e = st := tolerantly_blank e.1 st hblank (hreading.mid hkept).2
  rw [hsame]
  intro d
  obtain ⟨done, hd, hcalls⟩ := h d
  refine ⟨done, ?_, hcalls⟩
  by_cases hde : e.1 = d
  · subst hde
    rw [if_neg (Ne.symm hoe)] at hd ⊢
    rw [received_concat, if_pos rfl] at hcut ⊢
    obtain ⟨more, hnext, new, hmore, hnew⟩ := hd.feed st.1 hcut
    have hnone : tolerantly api (st.1, []) e = (st.1, []) := tolerantly_blank e.1 _ hblank rfl
    rw [hnone] at hnext hmore
    obtain rfl : new = [] := by simpa using hmore
    obtain rfl : more = [] := by simpa using hnew
    rwa [List.append_nil] at hnext
  · rw [received_concat, if_neg hde, List.append_nil]; exact hd

theorem Separate.step {ms : ι → List Message} {s₀ : Server σ ι} {events : List (ι × JsString)}
    {o : ι} {st : Listening σ ι} (h : Separate api ms s₀ events o st) {e : ι × JsString}
    (hcut : received (events ++ [e]) e.1 <+: Message.wire (ms e.1))
    (hquiet : Quiet ms events e) :
    ∃ o', Separate api ms s₀ (events ++ [e]) o' (tolerantly api st e) := by
  by_cases hfree : o = e.1 ∨ st.2 = []
  · exact ⟨e.1, h.chunk hcut hfree⟩
  · obtain ⟨hoe, hkept⟩ := not_or.mp hfree
    obtain ⟨_, hreading, _⟩ := h o
    rw [if_pos rfl] at hreading
    have hblank : e.2 = [] ∨ e.2 = [newline] := by
      rcases hquiet with hnil | hend | hnone
      · exact Or.inl hnil
      · exact Or.inr hend
      · exact absurd (hreading.mid hkept).1 (hnone o hoe)
    exact ⟨o, h.blank hcut hblank hoe hkept⟩

theorem separate_run (s : Server σ ι) (c : ι) {ms : ι → List Message}
    {events : List (ι × JsString)} (hcut : ∀ d, received events d <+: Message.wire (ms d))
    (hquiet : ∀ before e after, events = before ++ e :: after → Quiet ms before e) :
    ∃ o, Separate api ms s events o (events.foldl (tolerantly api) (s, [])) := by
  induction events using List.reverseRecOn with
  | nil => exact ⟨c, fun d => ⟨[], by simpa [received] using Reading.start d (ms d), by simp⟩⟩
  | append_singleton events e ih =>
    have hprefix : ∀ d, received events d <+: Message.wire (ms d) := fun d =>
      (received_concat events e d ▸ List.prefix_append _ _ :
        received events d <+: received (events ++ [e]) d).trans (hcut d)
    obtain ⟨o, h⟩ := ih hprefix fun before f after hsplit =>
      hquiet before f (after ++ [e]) (by simp [hsplit])
    rw [List.foldl_concat]
    exact h.step (hcut e.1) (hquiet events e [] rfl)

theorem connections_isolated (s : Server σ ι) {ms : ι → List Message}
    {events : List (ι × JsString)} (hcut : ∀ c, received events c <+: Message.wire (ms c))
    (hok : Unbroken s (events.foldl (onEvent api) (s, [])).1)
    (hquiet : ∀ before e after, events = before ++ e :: after → Quiet ms before e) (c : ι) :
    callsOn (events.foldl (onEvent api) (s, [])).1 c =
        callsOn s c ++ (complete (ms c) (received events c)).map Message.json ∧
      (received events c = Message.wire (ms c) →
        callsOn (events.foldl (onEvent api) (s, [])).1 c =
          callsOn s c ++ (ms c).map Message.json) := by
  rw [unbroken_run hok]
  have hrun : ∃ o, Separate api ms s events o (events.foldl (tolerantly api) (s, [])) :=
    separate_run s c hcut hquiet
  obtain ⟨o, h⟩ := hrun
  obtain ⟨done, hreading, hcalls⟩ := h c
  have hdone := hreading.done_eq
  refine ⟨by rw [hdone]; exact hcalls, fun hall => ?_⟩
  have hwhole := complete_wire (ms c) [] []
  rw [List.append_nil, List.append_nil, ← hall, hdone] at hwhole
  rw [hcalls, hwhole]
  simp [complete]

def firstPieces : JsString × JsString :=
  ((Message.wire [findAnn]).take 9, (Message.wire [findAnn]).drop 9)

def packetBetween : List (Bool × JsString) :=
  [(false, firstPieces.1), (true, Message.wire [findAnn]), (false, firstPieces.2)]

def packetBefore : List (Bool × JsString) :=
  [(true, Message.wire [findAnn]), (false, firstPieces.1), (false, firstPieces.2)]

def shared : Server Disk Bool := ⟨⟨residents, [], []⟩, []⟩

theorem received_pieces (c : Bool) : received packetBetween c = Message.wire [findAnn] ∧
    received packetBefore c = Message.wire [findAnn] := by
  cases c <;> simp [received, packetBetween, packetBefore, firstPieces]

theorem connections_isolated_two :
    callsOn (packetBefore.foldl (onEvent peopleApi) (shared, [])).1 false = [findAnn.json] := by
  have hcut : ∀ c, received packetBefore c <+: Message.wire ((fun _ => [findAnn]) c) :=
    fun c => (received_pieces c).2 ▸ List.prefix_rfl
  refine (connections_isolated shared hcut (by decide +kernel) ?_ false).2 (received_pieces false).2
  -- the second client has sent its whole packet before the first one starts
  have hfirst : ¬ MidMessage [findAnn] [] := not_midMessage_wire [] _
  have hsecond : ¬ MidMessage [findAnn] (Message.wire [findAnn]) := by
    simpa using not_midMessage_wire [findAnn] []
  intro before e after hsplit
  refine Or.inr (Or.inr fun d hd => ?_)
  generalize hpieces : firstPieces = pieces at hsplit
  rcases before with _ | ⟨x, _ | ⟨y, _ | ⟨z, before⟩⟩⟩
  all_goals simp only [packetBefore, List.nil_append, List.cons_append, List.cons.injEq] at hsplit
  · obtain ⟨rfl, -⟩ := hsplit
    obtain rfl : d = false := by simpa using hd
    exact hfirst
  · obtain ⟨rfl, rfl, -⟩ := hsplit
    obtain rfl : d = true := by simpa using hd
    simpa [received] using hsecond
  · obtain ⟨rfl, rfl, rfl, -⟩ := hsplit
    obtain rfl : d = true := by simpa using hd
    simpa [received] using hsecond
  · simp at hsplit

/-- No call throws, and the request of the second client is lost. -/
theorem packet_between_pieces_lost :
    (∀ c, received packetBetween c = Message.wire [findAnn]) ∧
      Unbroken shared (packetBetween.foldl (onEvent peopleApi) (shared, [])).1 ∧
      callsOn (packetBetween.foldl (onEvent peopleApi) (shared, [])).1 true = [] :=
  ⟨fun c => (received_pieces c).1, by decide +kernel⟩

end GlobalsJs.Globalsd
