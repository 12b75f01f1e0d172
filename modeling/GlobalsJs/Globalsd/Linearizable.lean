import GlobalsJs.Globalsd.Connections
import GlobalsJs.Globalsd.Exchange

/-!
# The callbacks agree with one sequential execution

Whatever clients send and however their text is cut on its way, the daemon performs the requests
one after the other, each client's in the order in which they were sent, and every client's
callbacks are called with the answers of this one execution. `Consistent` is the invariant of a
run: it holds together what was sent, what was performed, what was written and what was read.
-/

namespace GlobalsJs.Globalsd
open Ecma LineReader

variable {σ ι κ : Type} [DecidableEq ι] {api : Api σ} {I : σ → Prop} {clients : ι → Client κ} {s₀ : σ}

def Server.answers (s : Server σ ι) (api : Api σ) (s₀ : σ) (c : ι) : List (List Json) :=
  answersTo c (sequential api s₀ s.order).2

omit [DecidableEq ι] in
theorem sequential_append (s : σ) (reqs more : List (ι × Json)) :
    sequential api s (reqs ++ more) = ((sequential api (sequential api s reqs).1 more).1,
      (sequential api s reqs).2 ++ (sequential api (sequential api s reqs).1 more).2) := by
  induction reqs generalizing s with
  | nil => rfl
  | cons r reqs ih =>
    obtain ⟨c, req⟩ := r
    rw [List.cons_append, sequential, ih]
    rfl

theorem answersTo_append (c : ι) (as bs : List (ι × List Json)) :
    answersTo c (as ++ bs) = answersTo c as ++ answersTo c bs := by
  rw [answersTo, List.filter_append, List.map_append]
  rfl

theorem answersTo_length (c : ι) (s : σ) (reqs : List (ι × Json)) :
    (answersTo c (sequential api s reqs).2).length = (reqs.filter (·.1 = c)).length := by
  induction reqs generalizing s with
  | nil => rfl
  | cons r reqs ih =>
    obtain ⟨d, req⟩ := r
    have hstep := ih (perform api s req).1
    rw [answersTo, List.length_map] at hstep ⊢
    by_cases hd : d = c
    · simpa [sequential, hd] using hstep
    · simpa [sequential, hd] using hstep

theorem responseLines_append (n : ℕ) (as bs : List (List Json)) :
    responseLines n (as ++ bs) = responseLines n as ++ responseLines (n + as.length) bs := by
  induction as generalizing n with
  | nil => rfl
  | cons vs as ih =>
    have hnext : n + (vs :: as).length = n + 1 + as.length := by
      rw [List.length_cons]
      omega
    rw [List.cons_append, responseLines, responseLines, ih, hnext, ← List.append_assoc]

theorem responseLines_wf {n : ℕ} {answers : List (List Json)} (h : ∀ vs ∈ answers, ∀ v ∈ vs, v.WF) :
    ∀ v ∈ responseLines n answers, v.WF := by
  induction answers generalizing n with
  | nil => exact fun v hv => absurd hv List.not_mem_nil
  | cons vs answers ih =>
    have hack : (ack (some (.ofInt n)) (some (.ofInt vs.length))).WF :=
      wf_ack (Json.wf_ofInt _) fun v hv => Option.some.inj hv ▸ Json.wf_ofInt _
    exact List.forall_mem_append.mpr ⟨List.forall_mem_cons.mpr ⟨hack, h vs List.mem_cons_self⟩,
      ih fun vs' hvs' => h vs' (List.mem_cons_of_mem vs hvs')⟩

theorem callsOn_calls {s t : Server σ ι} {c : ι} (vs : List Json)
    (h : t.calls = s.calls ++ vs.map fun v => ⟨c, v, true⟩) (d : ι) :
    callsOn t d = callsOn s d ++ if d = c then vs else [] := by
  by_cases hd : d = c
  · subst hd
    simp [callsOn, h, List.filter_map, Function.comp_def]
  · simp [callsOn, h, List.filter_map, Function.comp_def, Ne.symm hd, hd]

theorem answers_length (api : Api σ) (s₀ : σ) (s : Server σ ι) (c : ι) :
    (s.answers api s₀ c).length = (callsOn s c).length := by
  rw [Server.answers, answersTo_length, Server.order, List.filter_map, List.length_map, callsOn, List.length_map]
  rfl

theorem answers_extend (api : Api σ) (s₀ : σ) {s t : Server σ ι} {more : List (Call ι)} (h : t.calls = s.calls ++ more) (c : ι) :
    s.answers api s₀ c <+: t.answers api s₀ c := by
  rw [Server.answers, Server.answers, Server.order, Server.order, h, List.map_append, sequential_append,
    answersTo_append]
  exact List.prefix_append _ _

structure Served (api : Api σ) (I : σ → Prop) (clients : ι → Client κ) (s₀ : σ)
    (requests : ι → List (Sending κ)) (s : Server σ ι) : Prop where
  store : s.daemon.store = (sequential api s₀ s.order).1
  good : I s.daemon.store
  asked : ∀ c, callsOn s c <+: (clients c).messages (requests c)
  written : ∀ c, sent s.daemon c = wire newline ((responseLines 0 (s.answers api s₀ c)).map Json.stringify)
  values : ∀ c, ∀ vs ∈ s.answers api s₀ c, ∀ v ∈ vs, v.WF ∧ Transparent v

theorem sent_other {d e : Daemon σ ι} {socket c : ι} {vs : List Json} (hc : c ≠ socket)
    (h : e.written = d.written ++ lineWrites socket vs) : sent e c = sent d c := by
  have hnone : (lineWrites socket vs).filter (fun w => w.1 = c) = [] := by
    apply List.filter_eq_nil_iff.mpr
    intro w hw
    obtain ⟨v, -, hw⟩ := List.mem_flatMap.mp hw
    have hsocket : w.1 = socket := by
      simp only [List.mem_cons, List.not_mem_nil, or_false] at hw
      rcases hw with rfl | rfl <;> rfl
    simp [hsocket, Ne.symm hc]
  rw [sent, h, List.filter_append, hnone, List.append_nil, sent]

theorem Regular.of_name {client other : Client κ} {data : Json} (h : Regular api I client data)
    (hname : other.name = client.name) : Regular api I other data :=
  ⟨by rw [hname]; exact h.named, by rw [hname]; exact h.name_wf, h.data_wf, h.performs⟩

theorem Served.step {requests : ι → List (Sending κ)} {s : Server σ ι}
    (h : Served api I clients s₀ requests s) (hfresh : ∀ c, (clients c).Fresh)
    (hregular : ∀ c, ∀ r ∈ requests c, Regular api I (clients c) r.data) {c : ι} {req : Json}
    (hnext : callsOn s c ++ [req] <+: (clients c).messages (requests c)) :
    ∃ t, handle api c s req = (t, true) ∧ t.calls = s.calls ++ [⟨c, req, true⟩] ∧
      Served api I clients s₀ requests t := by
  obtain ⟨before, r, after, hrequests, hlen, rfl⟩ := Client.message_at hnext
  obtain ⟨hid, hname, -⟩ := (clients c).sendAll_fields before
  rw [(hfresh c).1, Nat.zero_add, hlen, ← answers_length api s₀] at hid
  have hr := (hregular c r (by simp [hrequests])).of_name hname
  generalize hreq : ((clients c).sendAll before).message r.ts r.data = req at hnext
  obtain ⟨⟨hgood, hvalues⟩, log, hrun⟩ := run_regular hr r.ts c s.daemon h.good
  rw [hreq, hid] at hrun
  rw [hreq] at hgood hvalues
  generalize hperform : perform api s.daemon.store req = p at hrun hgood hvalues
  refine ⟨⟨_, _⟩, by rw [handle, hrun]; rfl, rfl, ?_⟩
  have horder : ∀ d : Daemon σ ι, (Server.mk d (s.calls ++ [⟨c, req, true⟩])).order = s.order ++ [(c, req)] :=
    fun d => List.map_append
  have hsequential : sequential api s₀ (s.order ++ [(c, req)]) =
      (p.1, (sequential api s₀ s.order).2 ++ [(c, p.2)]) := by
    rw [sequential_append, ← h.store, sequential, hperform]
    rfl
  have hanswers : ∀ (d : Daemon σ ι) (c' : ι),
      (Server.mk d (s.calls ++ [⟨c, req, true⟩])).answers api s₀ c' =
        s.answers api s₀ c' ++ if c' = c then [p.2] else [] := by
    intro d c'
    rw [Server.answers, horder, hsequential, answersTo_append]
    by_cases hc : c' = c
    · rw [hc, if_pos rfl]
      simp [answersTo, Server.answers]
    · rw [if_neg hc]
      simp [answersTo, Server.answers, Ne.symm hc]
  refine ⟨by rw [horder, hsequential], hgood, fun c' => ?_, fun c' => ?_, fun c' => ?_⟩
  · rw [callsOn_calls (s := s) [req] rfl c']
    by_cases hc : c' = c
    · rw [if_pos hc, hc]
      exact hnext
    · rw [if_neg hc, List.append_nil]
      exact h.asked c'
  · rw [hanswers]
    by_cases hc : c' = c
    · rw [if_pos hc, hc, sent_lineWrites rfl, h.written, responseLines_append, List.map_append, wire_append,
        Nat.zero_add, responseLines, responseLines, List.append_nil]
    · rw [if_neg hc, List.append_nil, sent_other hc rfl]
      exact h.written c'
  · rw [hanswers]
    refine List.forall_mem_append.mpr ⟨h.values c', ?_⟩
    by_cases hc : c' = c
    · rw [if_pos hc]
      exact List.forall_mem_singleton.mpr hvalues
    · rw [if_neg hc]
      exact fun vs hvs => absurd hvs List.not_mem_nil

theorem Served.run {requests : ι → List (Sending κ)} {s : Server σ ι}
    (h : Served api I clients s₀ requests s) (hfresh : ∀ c, (clients c).Fresh)
    (hregular : ∀ c, ∀ r ∈ requests c, Regular api I (clients c) r.data) {c : ι} {more : List Json}
    (hnext : callsOn s c ++ more <+: (clients c).messages (requests c)) :
    ∃ t, Accepts (handle api c) s more t ∧ t.calls = s.calls ++ more.map (fun v => ⟨c, v, true⟩) ∧
      Served api I clients s₀ requests t := by
  induction more generalizing s with
  | nil => exact ⟨s, .nil s, by simp, h⟩
  | cons req more ih =>
    rw [← List.singleton_append, ← List.append_assoc] at hnext
    obtain ⟨t, hhandle, hcalls, ht⟩ := h.step hfresh hregular ((List.prefix_append _ more).trans hnext)
    have hon : callsOn t c = callsOn s c ++ [req] := by
      rw [callsOn_calls (s := s) [req] hcalls c, if_pos rfl]
    obtain ⟨u, hrest, hcalls', hu⟩ := ih ht (by rw [hon]; exact hnext)
    refine ⟨u, .cons hhandle hrest, ?_, hu⟩
    rw [hcalls', hcalls, List.append_assoc]
    rfl

/-- What was sent, performed, written and read so far. The text that the daemon keeps belongs to
at most one connection. -/
structure Consistent (api : Api σ) (I : σ → Prop) (clients : ι → Client κ) (s₀ : σ) (w : World σ ι κ) : Prop where
  sent : ∀ c, w.clients c = (clients c).sendAll (w.requests c)
  regular : ∀ c, ∀ r ∈ w.requests c, Regular api I (clients c) r.data
  served : Served api I clients s₀ w.requests w.server.1
  toServer : ∃ owner : Option ι, (owner = none → w.server.2 = []) ∧ ∀ c,
    Carries ((clients c).messages (w.requests c)) (callsOn w.server.1 c)
      (if owner = some c then w.server.2 else []) (w.toServer c)
  toClient : ∀ c, ∃ done, Accepts (handleObject (w.clients c)) Reader.initial done (w.readers c).1 ∧
    Carries (responseLines 0 (w.server.1.answers api s₀ c)) done (w.readers c).2 (w.toClient c)

theorem consistent_start (hI : I s₀) : Consistent api I clients s₀ (World.start clients s₀) where
  sent _ := rfl
  regular _ _ hr := absurd hr List.not_mem_nil
  served := ⟨rfl, hI, fun _ => List.prefix_refl _, fun _ => rfl, fun _ _ hvs => absurd hvs List.not_mem_nil⟩
  toServer := ⟨none, fun _ => rfl, fun _ => .start⟩
  toClient _ := ⟨[], .nil _, .start⟩

section
variable {w : World σ ι κ}

theorem Consistent.messages_wf (h : Consistent api I clients s₀ w) (c : ι) :
    ∀ v ∈ (clients c).messages (w.requests c), v.WF := by
  have hregular := h.regular c
  generalize clients c = self at hregular
  generalize w.requests c = rs at hregular
  induction rs generalizing self with
  | nil => exact fun v hv => absurd hv List.not_mem_nil
  | cons r rs ih =>
    have hr := hregular r List.mem_cons_self
    refine List.forall_mem_cons.mpr ⟨Client.message_wf hr r.ts, ih _ fun r' hr' => ?_⟩
    exact (hregular r' (List.mem_cons_of_mem r hr')).of_name rfl

theorem mem_messages {self : Client κ} {rs : List (Sending κ)} {v : Json} (h : v ∈ self.messages rs) :
    ∃ r ∈ rs, ∃ other : Client κ, v = other.message r.ts r.data := by
  induction rs generalizing self with
  | nil => cases h
  | cons r rs ih =>
    rcases List.mem_cons.mp h with rfl | h
    · exact ⟨r, List.mem_cons_self, self, rfl⟩
    · obtain ⟨r', hr', other⟩ := ih h
      exact ⟨r', List.mem_cons_of_mem r hr', other⟩

theorem Served.request_of {requests : ι → List (Sending κ)} {s : Server σ ι}
    (h : Served api I clients s₀ requests s) {k : Call ι} (hk : k ∈ s.calls) :
    ∃ r ∈ requests k.socket, ∃ other : Client κ, k.request = other.message r.ts r.data := by
  have hon : k.request ∈ callsOn s k.socket := List.mem_map_of_mem (List.mem_filter.mpr ⟨hk, by simp⟩)
  exact mem_messages ((h.asked k.socket).subset hon)

theorem stringify_last {v : Json} (hnum : ∀ n, v ≠ .num n) :
    ∃ init c, Json.stringify v = init ++ [c] ∧ Json.isSpace c = false := by
  cases v with
  | null => exact ⟨js "nul", 108, rfl, rfl⟩
  | bool b =>
    cases b with
    | false => exact ⟨js "fals", 101, rfl, rfl⟩
    | true => exact ⟨js "tru", 101, rfl, rfl⟩
  | num n => exact absurd rfl (hnum n)
  | str s => exact ⟨quote :: s.flatMap Json.escapeUnit, quote, rfl, rfl⟩
  | arr xs => exact ⟨lbracket :: Json.stringify.stringifyElems xs, rbracket, rfl, rfl⟩
  | obj ps => exact ⟨lbrace :: Json.stringify.stringifyProps ps, rbrace, rfl, rfl⟩

theorem not_torn_values {vs : List Json} (h : ∀ v ∈ vs, v.WF ∧ ∀ n, v ≠ .num n) (rest : JsString) :
    ¬ Torn (fun p => parses p = true) newline (vs.map Json.stringify) rest := by
  rintro ⟨done, p, q, more, hlines, -, hq, hp, -⟩
  have hmem : p ++ q ∈ vs.map Json.stringify := by simp [hlines]
  obtain ⟨v, hv, htext⟩ := List.mem_map.mp hmem
  obtain ⟨hwf, hnum⟩ := h v hv
  obtain ⟨u, hu⟩ := Option.isSome_iff_exists.mp hp
  have hspace := (Json.parse_opening hnum hu (by rw [← htext]; exact Json.parse_stringify hwf)).2
  -- the text ends with a unit that is not space
  obtain ⟨init, c, hlast, hc⟩ := stringify_last hnum
  have hend : (p ++ q).getLast? = some c := by rw [← htext, hlast, List.getLast?_concat]
  rw [List.getLast?_append_of_ne_nil _ hq, List.getLast?_eq_some_getLast hq] at hend
  have hblank := hspace _ (List.getLast_mem hq)
  rw [Option.some.inj hend, hc] at hblank
  cases hblank

theorem Consistent.messages_whole (h : Consistent api I clients s₀ w) (c : ι) (rest : JsString) :
    ¬ Torn (fun p => parses p = true) newline (((clients c).messages (w.requests c)).map Json.stringify) rest := by
  refine not_torn_values (fun v hv => ⟨h.messages_wf c v hv, fun n hn => ?_⟩) rest
  obtain ⟨r, -, other, rfl⟩ := mem_messages hv
  cases hn

theorem Consistent.send (h : Consistent api I clients s₀ w) (hfresh : ∀ c, (clients c).Fresh) {c : ι}
    {r : Sending κ} (hr : Regular api I (w.clients c) r.data) :
    Consistent api I clients s₀ (w.step api (.send c r)) := by
  have hname : (clients c).name = (w.clients c).name := by
    rw [h.sent c]
    exact ((clients c).sendAll_fields _).2.1.symm
  have hmessages : (clients c).messages (w.requests c ++ [r]) =
      (clients c).messages (w.requests c) ++ [(w.clients c).message r.ts r.data] := by
    rw [Client.messages_concat, h.sent c]
  have hclient : ((w.clients c).send r.ts r.data r.callback).1 = (clients c).sendAll (w.requests c ++ [r]) := by
    rw [Client.sendAll_concat, h.sent c]
  have htext : ((w.clients c).send r.ts r.data r.callback).2 =
      wire newline [Json.stringify ((w.clients c).message r.ts r.data)] := by
    rw [wire_cons]
    rfl
  refine ⟨fun d => ?_, fun d => ?_, ?_, ?_, fun d => ?_⟩
  · by_cases hd : d = c
    · subst hd
      simpa only [World.step, Function.update_self] using hclient
    · simpa only [World.step, Function.update_of_ne hd] using h.sent d
  · by_cases hd : d = c
    · subst hd
      simp only [World.step, Function.update_self]
      exact List.forall_mem_append.mpr ⟨h.regular d, List.forall_mem_singleton.mpr (hr.of_name hname)⟩
    · simpa only [World.step, Function.update_of_ne hd] using h.regular d
  · refine ⟨h.served.store, h.served.good, fun d => ?_, h.served.written, h.served.values⟩
    by_cases hd : d = c
    · subst hd
      simp only [World.step, Function.update_self, hmessages]
      exact (h.served.asked d).trans (List.prefix_append _ _)
    · simpa only [World.step, Function.update_of_ne hd] using h.served.asked d
  · obtain ⟨owner, hnone, hcarries⟩ := h.toServer
    refine ⟨owner, hnone, fun d => ?_⟩
    by_cases hd : d = c
    · subst hd
      simp only [World.step, Function.update_self, hmessages, htext]
      exact (hcarries d).send [(w.clients d).message r.ts r.data]
    · simpa only [World.step, Function.update_of_ne hd] using hcarries d
  · obtain ⟨done, haccepts, hcarries⟩ := h.toClient d
    refine ⟨done, ?_, hcarries⟩
    by_cases hd : d = c
    · subst hd
      simp only [World.step, Function.update_self, hclient]
      rw [h.sent d] at haccepts
      exact haccepts.mono (handleObject_extends (Client.extends_send (hfresh d) _ r))
    · simpa only [World.step, Function.update_of_ne hd] using haccepts

theorem Consistent.answers_read (h : Consistent api I clients s₀ w) (hfresh : ∀ c, (clients c).Fresh) (c : ι) :
    ∃ t, Accepts (handleObject (w.clients c)) Reader.initial (responseLines 0 (w.server.1.answers api s₀ c)) t ∧
      t.called = (clients c).expected (w.requests c) (w.server.1.answers api s₀ c) := by
  obtain ⟨-, -, hmode, hdefault⟩ := (clients c).sendAll_fields (w.requests c)
  have hcallback : ∀ r, ((clients c).sendAll (w.requests c)).callbackOf r = (clients c).callbackOf r := by
    intro r
    rw [Client.callbackOf, Client.callbackOf, hdefault]
  have hexpected : ((clients c).sendAll (w.requests c)).expected (w.requests c) (w.server.1.answers api s₀ c) =
      (clients c).expected (w.requests c) (w.server.1.answers api s₀ c) := by
    have hinvocations : ∀ callback vs, ((clients c).sendAll (w.requests c)).invocations callback vs =
        (clients c).invocations callback vs := by
      intro callback vs
      rw [Client.invocations, Client.invocations, hmode]
    rw [Client.expected, Client.expected]
    simp only [hcallback, hinvocations]
  have hlen : (w.server.1.answers api s₀ c).length ≤ (w.requests c).length := by
    rw [answers_length, ← (clients c).messages_length]
    exact (h.served.asked c).length_le
  rw [h.sent c]
  obtain ⟨t, ht, hcalled⟩ := accepts_responses 0 (w.requests c) (w.server.1.answers api s₀ c) Reader.initial
    (fun i r hr => by
      rw [Nat.zero_add, hcallback]
      exact (Client.outstanding_sendAll (hfresh c) _ _ _).mpr ⟨r, hr, rfl⟩)
    hlen fun vs hvs v hv => (h.served.values c vs hvs v hv).2
  refine ⟨t, ht, ?_⟩
  rw [hcalled, hexpected]
  rfl

theorem Consistent.receiveClient (h : Consistent api I clients s₀ w) (hfresh : ∀ c, (clients c).Fresh) {c : ι}
    {n : ℕ} (hclean : ¬ Torn (fun p => parses p = true) newline
      ((responseLines 0 (w.server.1.answers api s₀ c)).map Json.stringify) ((w.toClient c).drop n)) :
    Consistent api I clients s₀ (w.step api (.toClient c n)) := by
  refine ⟨h.sent, h.regular, h.served, h.toServer, fun d => ?_⟩
  by_cases hd : d = c
  · subst hd
    obtain ⟨done, haccepts, hcarries⟩ := h.toClient d
    obtain ⟨t, hall, -⟩ := h.answers_read hfresh d
    rw [← List.take_append_drop n (w.toClient d)] at hcarries
    have hrest : ∀ more, done ++ more <+: responseLines 0 (w.server.1.answers api s₀ d) →
        ∃ u, Accepts (handleObject (w.clients d)) (w.readers d).1 more u := by
      intro more hmore
      obtain ⟨later, hlater⟩ := hmore
      rw [← hlater] at hall
      obtain ⟨u, hu, -⟩ := hall.split
      obtain ⟨s, hs, hmore⟩ := hu.split
      rw [haccepts.unique hs]
      exact ⟨u, hmore⟩
    obtain ⟨more, u, hu, hfeed, hnext⟩ := hcarries.receive
      (responseLines_wf fun vs hvs v hv => (h.served.values d vs hvs v hv).1) hclean hrest
    refine ⟨done ++ more, ?_, ?_⟩
    · simp only [World.step, Function.update_self, Client.onData]
      rw [hfeed]
      exact haccepts.append hu
    · simp only [World.step, Function.update_self, Client.onData]
      exact hnext
  · simpa only [World.step, Function.update_of_ne hd] using h.toClient d

theorem Consistent.receiveServer (h : Consistent api I clients s₀ w) (hfresh : ∀ c, (clients c).Fresh) {c : ι}
    {n : ℕ} (hquiet : ∀ d ≠ c, ¬ Torn (fun _ => True) newline
      (((clients d).messages (w.requests d)).map Json.stringify) (w.toServer d)) :
    Consistent api I clients s₀ (w.step api (.toServer c n)) := by
  obtain ⟨owner, hnone, hcarries⟩ := h.toServer
  -- what is kept was sent by `c`, or nothing is kept
  have hkept : owner = some c ∨ w.server.2 = [] := by
    by_contra hboth
    obtain ⟨hother, hkept⟩ := not_or.mp hboth
    cases hcase : owner with
    | none => exact hkept (hnone hcase)
    | some d =>
      have hd := hcarries d
      rw [if_pos hcase] at hd
      refine hquiet d ?_ (hd.link.torn hkept)
      rintro rfl
      exact hother hcase
  have hmine := hcarries c
  have hsame : (if owner = some c then w.server.2 else []) = w.server.2 := by
    rcases hkept with howner | hnil
    · rw [if_pos howner]
    · rw [hnil, ite_self]
  rw [hsame, ← List.take_append_drop n (w.toServer c)] at hmine
  obtain ⟨more, t, ht, hfeed, hnext⟩ := hmine.receive (s := w.server.1) (k := handle api c)
    (h.messages_wf c) (h.messages_whole c _) fun more hmore =>
      (h.served.run hfresh h.regular hmore).imp fun t ht => ht.1
  obtain ⟨u, hu, hcalls, hserved⟩ := h.served.run hfresh h.regular hnext.read
  obtain rfl := ht.unique hu
  have hserver : (w.step api (.toServer c n)).server.1 = t := hfeed
  have hon := callsOn_calls _ hcalls
  refine ⟨h.sent, h.regular, ?_, ⟨some c, fun h => absurd h (Option.some_ne_none c), fun d => ?_⟩, fun d => ?_⟩
  · rw [hserver]
    exact hserved
  · rw [hserver, hon]
    by_cases hd : d = c
    · subst hd
      simp only [World.step, Function.update_self, if_pos]
      exact hnext
    · have hd' : some c ≠ some d := fun heq => hd (Option.some.inj heq).symm
      have hbefore := hcarries d
      have hempty : (if owner = some d then w.server.2 else []) = [] := by
        rcases hkept with howner | hnil
        · rw [howner, if_neg hd']
        · rw [hnil, ite_self]
      rw [hempty] at hbefore
      rw [if_neg hd, if_neg hd', List.append_nil]
      simpa only [World.step, Function.update_of_ne hd] using hbefore
  · obtain ⟨done, haccepts, hreading⟩ := h.toClient d
    refine ⟨done, haccepts, ?_⟩
    obtain ⟨new, hnew⟩ := answers_extend api s₀ hcalls d
    have hlines : responseLines 0 (t.answers api s₀ d) = responseLines 0 (w.server.1.answers api s₀ d) ++
        responseLines (w.server.1.answers api s₀ d).length new := by
      rw [← hnew, responseLines_append, Nat.zero_add]
    have hdrop : (Globalsd.sent t.daemon d).drop (Globalsd.sent w.server.1.daemon d).length =
        wire newline ((responseLines (w.server.1.answers api s₀ d).length new).map Json.stringify) := by
      rw [hserved.written, h.served.written, hlines, List.map_append, wire_append, List.drop_left]
    have htext : (w.step api (.toServer c n)).toClient d = w.toClient d ++
        (Globalsd.sent t.daemon d).drop (Globalsd.sent w.server.1.daemon d).length := by
      rw [← hserver]
      rfl
    rw [hserver, htext, hdrop, hlines]
    exact hreading.send _

theorem Consistent.step (h : Consistent api I clients s₀ w) (hfresh : ∀ c, (clients c).Fresh)
    {e : Event ι κ} (he : Allowed api (Regular api I) clients s₀ w e) : Consistent api I clients s₀ (w.step api e) := by
  cases e with
  | send c r => exact h.send hfresh he
  | toServer c n => exact h.receiveServer hfresh he
  | toClient c n => exact h.receiveClient hfresh he

theorem Consistent.run (h : Consistent api I clients s₀ w) (hfresh : ∀ c, (clients c).Fresh)
    {events : List (Event ι κ)} (he : Admissible api (Regular api I) clients s₀ w events) :
    Consistent api I clients s₀ (w.run api events) := by
  induction events generalizing w with
  | nil => exact h
  | cons e events ih => exact ih (h.step hfresh he.1) he.2

end

theorem requests_sent {Q : Client κ → Json → Prop} {P : Json → Prop} {w : World σ ι κ} {events : List (Event ι κ)}
    (hrun : Admissible api Q clients s₀ w events) (hQ : ∀ client data, Q client data → P data)
    (hw : ∀ c, ∀ r ∈ w.requests c, P r.data) : ∀ c, ∀ r ∈ (w.run api events).requests c, P r.data := by
  induction events generalizing w with
  | nil => exact hw
  | cons e events ih =>
    refine ih hrun.2 fun d => ?_
    cases e with
    | toServer c n => exact hw d
    | toClient c n => exact hw d
    | send c r =>
      by_cases hd : d = c
      · subst hd
        simp only [World.step, Function.update_self]
        exact List.forall_mem_append.mpr ⟨hw d, List.forall_mem_singleton.mpr (hQ _ _ hrun.1)⟩
      · simpa only [World.step, Function.update_of_ne hd] using hw d

theorem order_grows (w : World σ ι κ) (events : List (Event ι κ)) :
    w.server.1.order <+: (w.run api events).server.1.order := by
  induction events generalizing w with
  | nil => exact List.prefix_refl _
  | cons e events ih =>
    refine List.IsPrefix.trans ?_ (ih (w.step api e))
    cases e with
    | send c r => exact List.prefix_refl _
    | toClient c n => exact List.prefix_refl _
    | toServer c n =>
      apply List.IsPrefix.map
      refine feed_keeps (I := fun s : Server σ ι => w.server.1.calls <+: s.calls) (fun s p hs => ?_)
        (List.prefix_refl _) _
      rw [parsed]
      cases Json.parse p with
      | none => exact hs
      | some o => exact hs.trans (List.prefix_append _ _)

theorem Consistent.called {w : World σ ι κ} (h : Consistent api I clients s₀ w)
    (hfresh : ∀ c, (clients c).Fresh) (c : ι) : (w.readers c).1.called <+:
      (clients c).expected (w.requests c) (w.server.1.answers api s₀ c) := by
  obtain ⟨done, haccepts, hcarries⟩ := h.toClient c
  obtain ⟨t, hall, hcalled⟩ := h.answers_read hfresh c
  obtain ⟨later, hlater⟩ := hcarries.read
  rw [← hlater] at hall
  obtain ⟨s, hs, hrest⟩ := hall.split
  have hgrows : (w.readers c).1.called <+: t.called := by
    rw [haccepts.unique hs]
    exact hrest.keeps (I := fun r => s.called <+: r.called)
      (fun r v hr => hr.trans (called_grows r v)) (List.prefix_refl _)
  rw [hcalled] at hgrows
  exact hgrows

theorem Consistent.drained {w : World σ ι κ} (h : Consistent api I clients s₀ w)
    (hfresh : ∀ c, (clients c).Fresh) {c : ι} (hserver : w.toServer c = []) (hclient : w.toClient c = []) :
    callsOn w.server.1 c = (clients c).messages (w.requests c) ∧
      (w.readers c).1.called = (clients c).expected (w.requests c) (w.server.1.answers api s₀ c) := by
  obtain ⟨owner, -, hcarries⟩ := h.toServer
  have hasked := hcarries c
  rw [hserver] at hasked
  obtain ⟨done, haccepts, hreading⟩ := h.toClient c
  rw [hclient] at hreading
  obtain ⟨t, hall, hcalled⟩ := h.answers_read hfresh c
  rw [hreading.drained] at haccepts
  exact ⟨hasked.drained, by rw [haccepts.unique hall, hcalled]⟩

/-- The method never returns a number. -/
def Numberless (api : Api σ) (I : σ → Prop) (data : Json) : Prop :=
  ∀ f, method api (some data) = some f → ∀ s, I s → ∀ v ∈ (performBy f s).2, ∀ n, v ≠ .num n

omit [DecidableEq ι] in
theorem sequential_values {P : Json → Prop} {reqs : List (ι × Json)} {s : σ} (hs : I s)
    (hreqs : ∀ x ∈ reqs, ∀ s, I s → I (perform api s x.2).1 ∧ ∀ v ∈ (perform api s x.2).2, P v) :
    ∀ x ∈ (sequential api s reqs).2, ∀ v ∈ x.2, P v := by
  induction reqs generalizing s with
  | nil => exact fun x hx => absurd hx List.not_mem_nil
  | cons r reqs ih =>
    obtain ⟨hnext, hvalues⟩ := hreqs r List.mem_cons_self s hs
    exact List.forall_mem_cons.mpr ⟨hvalues, ih hnext fun x hx => hreqs x (List.mem_cons_of_mem r hx)⟩

theorem perform_message {data : Json} {f : σ → σ × Except JsError Returned} (hf : method api (some data) = some f)
    (self : Client κ) (ts : JsString) (s : σ) : perform api s (self.message ts data) = performBy f s := by
  have hdata : member (some (self.message ts data)) (js "data") = .ok (some data) := rfl
  rw [perform, hdata, Except.toOption, Option.bind_some, hf]

theorem Regular.perform {client : Client κ} {data : Json} (h : Regular api I client data) (other : Client κ)
    (ts : JsString) {s : σ} (hs : I s) : I (Globalsd.perform api s (other.message ts data)).1 ∧
      ∀ v ∈ (Globalsd.perform api s (other.message ts data)).2, v.WF ∧ Transparent v := by
  obtain ⟨f, hf, hperforms⟩ := h.performs
  obtain ⟨hstore, r, vs, hr, hvs, hvalues⟩ := hperforms s hs
  have hby : performBy f s = ((f s).1, vs) := by
    rw [performBy, hr]
    dsimp only
    rw [hvs]
    rfl
  rw [perform_message hf, hby]
  exact ⟨hstore, hvalues⟩

theorem Consistent.not_torn {w : World σ ι κ} (h : Consistent api I clients s₀ w) (hI : I s₀)
    (hnumberless : ∀ c, ∀ r ∈ w.requests c, Numberless api I r.data) (c : ι) (rest : JsString) :
    ¬ Torn (fun p => parses p = true) newline
      ((responseLines 0 (w.server.1.answers api s₀ c)).map Json.stringify) rest := by
  have hall : ∀ x ∈ (sequential api s₀ w.server.1.order).2, ∀ v ∈ x.2, ∀ n, v ≠ .num n := by
    refine sequential_values hI fun x hx s hs => ?_
    obtain ⟨k, hk, rfl⟩ := List.mem_map.mp hx
    obtain ⟨r, hr, other, hreq⟩ := h.served.request_of hk
    have hregular := h.regular _ r hr
    obtain ⟨f, hf, -⟩ := hregular.performs
    dsimp only
    rw [hreq]
    refine ⟨(hregular.perform other r.ts hs).1, ?_⟩
    rw [perform_message hf]
    exact hnumberless _ r hr f hf s hs
  have hvalues : ∀ vs ∈ w.server.1.answers api s₀ c, ∀ v ∈ vs, v.WF ∧ ∀ n, v ≠ .num n := by
    intro vs hvs v hv
    refine ⟨(h.served.values c vs hvs v hv).1, ?_⟩
    obtain ⟨x, hx, rfl⟩ := List.mem_map.mp hvs
    exact hall x (List.mem_filter.mp hx).1 v hv
  apply not_torn_values
  generalize w.server.1.answers api s₀ c = answers at hvalues
  intro v hv
  refine ⟨responseLines_wf (fun vs hvs v hv => (hvalues vs hvs v hv).1) v hv, ?_⟩
  clear hall
  generalize hn : (0 : ℕ) = n at hv
  clear hn
  induction answers generalizing n with
  | nil => cases hv
  | cons vs answers ih =>
    rcases List.mem_append.mp hv with hv | hv
    · rcases List.mem_cons.mp hv with rfl | hv
      · exact fun n hn => by cases hn
      · exact (hvalues vs List.mem_cons_self v hv).2
    · exact ih (fun vs' hvs' => hvalues vs' (List.mem_cons_of_mem vs hvs')) _ hv

theorem one_client_admissible {client : Client κ} (hfresh : client.Fresh) (hI : I s₀)
    {events : List (Event Unit κ)}
    (hsends : ∀ c r, .send c r ∈ events → Regular api I client r.data ∧ Numberless api I r.data) :
    Admissible api (Regular api I) (fun _ => client) s₀ (World.start (fun _ => client) s₀) events := by
  suffices hgen : ∀ w : World σ Unit κ, Consistent api I (fun _ => client) s₀ w →
      (∀ c, ∀ r ∈ w.requests c, Numberless api I r.data) → Admissible api (Regular api I) (fun _ => client) s₀ w events from
    hgen _ (consistent_start hI) fun _ _ hr => absurd hr List.not_mem_nil
  induction events with
  | nil => exact fun _ _ _ => trivial
  | cons e events ih =>
    intro w h hnumberless
    have hallowed : Allowed api (Regular api I) (fun _ => client) s₀ w e := by
      cases e with
      | send c r =>
        refine (hsends c r List.mem_cons_self).1.of_name ?_
        rw [h.sent c]
        exact (client.sendAll_fields _).2.1
      | toServer c n => exact fun d hd => absurd rfl hd
      | toClient c n => exact h.not_torn hI hnumberless c _
    refine ⟨hallowed, ih (fun c r hr => hsends c r (List.mem_cons_of_mem e hr)) _
      (h.step (fun _ => hfresh) hallowed) ?_⟩
    cases e with
    | toServer c n => exact hnumberless
    | toClient c n => exact hnumberless
    | send c r =>
      intro d
      simp only [World.step, Function.update_self]
      exact List.forall_mem_append.mpr ⟨hnumberless d,
        List.forall_mem_singleton.mpr (hsends c r List.mem_cons_self).2⟩

def directoryClient (c : Bool) : Client Bool :=
  ⟨.ofInt 11115, .str (js "localhost"), .str (if c then js "b" else js "a"), .batch, 0, [], false⟩

def askDirectory : Sending Bool :=
  ⟨js "now", .obj [(js "op", .str (js "global_directory")), (js "params", .arr [])], some true⟩

def overtaking : List (Event Bool Bool) :=
  [.send false askDirectory, .send true askDirectory, .toServer true 200, .toServer false 200,
    .toClient false 200]

theorem askDirectory_regular (c : Bool) :
    Regular directoryApi (fun _ => True) (directoryClient c) askDirectory.data where
  named := by cases c <;> decide
  name_wf := trivial
  data_wf := by
    simp only [askDirectory, Json.WF, Json.WFProps, Json.WFElems, keys, and_true, List.map_cons, List.map_nil]
    decide
  performs := by
    refine ⟨_, rfl, fun s _ => ⟨trivial, _, _, rfl, rfl, ?_⟩⟩
    refine List.forall_mem_singleton.mpr ⟨?_, (fun h => by cases h), fun ps hps => ?_⟩
    · simp [Json.WF, Json.WFProps, keys]
    · cases hps
      rfl

theorem overtaking_admissible : Admissible directoryApi (Regular directoryApi fun _ => True) directoryClient ()
    (World.start directoryClient ()) overtaking := by
  refine ⟨askDirectory_regular false, askDirectory_regular true, ?_, ?_, ?_, trivial⟩
  · intro d hd
    obtain rfl : d = false := by simpa using hd
    exact not_torn_start (by decide +kernel)
  · intro d hd
    obtain rfl : d = true := by simpa using hd
    exact not_torn_nil (by decide +kernel)
  · exact not_torn_nil (by decide +kernel)

theorem askDirectory_numberless : Numberless directoryApi (fun _ => True) askDirectory.data := by
  intro f hf s _
  obtain rfl := Option.some.inj hf
  exact List.forall_mem_singleton.mpr fun n hn => by cases hn

def inPieces : List (Event Unit Bool) :=
  .send () askDirectory :: (List.replicate 20 (.toServer () 7) ++ List.replicate 20 (.toClient () 5))

example : (((World.start (fun _ => directoryClient false) ()).run directoryApi inPieces).readers ()).1.called.map
    (fun i => (i.callback, i.data)) = [(true, .arr [.obj [(js "1", .str (js "foo"))]])] := by decide +kernel

end GlobalsJs.Globalsd
