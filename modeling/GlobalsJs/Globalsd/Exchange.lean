import GlobalsJs.Globalsd.World

/-!
# Both ends of a connection

What one regular request does at the daemon, and how a client takes the lines of the answers
in. More requests of the same client make no difference to answers that are on their way.
-/

namespace GlobalsJs.Globalsd
open Ecma LineReader

section
variable {σ : Type*} {k : σ → Json → σ × Bool}

theorem Accepts.unique {s t u : σ} {vs : List Json} (h : Accepts k s vs t) (h' : Accepts k s vs u) : t = u := by
  induction h with
  | nil =>
    cases h' with
    | nil => rfl
  | cons hv _ ih =>
    cases h' with
    | cons hv' h' =>
      rw [hv] at hv'
      obtain ⟨rfl, -⟩ := Prod.mk.inj hv'
      exact ih h'

theorem Accepts.mono {k' : σ → Json → σ × Bool} (hk : ∀ s v t, k s v = (t, true) → k' s v = (t, true))
    {s t : σ} {vs : List Json} (h : Accepts k s vs t) : Accepts k' s vs t := by
  induction h with
  | nil => exact .nil _
  | cons hv _ ih => exact .cons (hk _ _ _ hv) ih

theorem Accepts.keeps {I : σ → Prop} (hI : ∀ s v, I s → I (k s v).1) {s t : σ} {vs : List Json}
    (h : Accepts k s vs t) (hs : I s) : I t := by
  induction h with
  | nil => exact hs
  | @cons s _ _ v _ hv _ ih =>
    apply ih
    have hnext := hI s v hs
    rwa [hv] at hnext

theorem Accepts.smooth {s t : σ} {vs : List Json} (h : Accepts k s vs t) (hwf : ∀ v ∈ vs, v.WF) :
    Smooth (parsed k) s (vs.map Json.stringify) ∧ run (parsed k) s (vs.map Json.stringify) = t := by
  induction h with
  | nil => exact ⟨trivial, rfl⟩
  | @cons s s' t v vs hv _ ih =>
    have htext : parsed k s (Json.stringify v) = (s', true) := by
      rw [parsed, Json.parse_stringify (hwf v List.mem_cons_self)]
      exact hv
    obtain ⟨hsmooth, hrun⟩ := ih fun w hw => hwf w (List.mem_cons_of_mem v hw)
    constructor
    · refine ⟨by rw [htext], ?_⟩
      rw [htext]
      exact hsmooth
    · rw [List.map_cons, run, List.foldl_cons, htext]
      exact hrun

end

/-- A link for the texts of values, `done` of which were read. -/
structure Carries (vs done : List Json) (kept rest : JsString) : Prop where
  link : Link parses newline (vs.map Json.stringify) (done.map Json.stringify) kept rest
  read : done <+: vs

namespace Carries
variable {vs done : List Json} {kept rest : JsString}

theorem start : Carries [] [] [] [] := ⟨.start, List.prefix_refl _⟩

theorem send (h : Carries vs done kept rest) (new : List Json) :
    Carries (vs ++ new) done kept (rest ++ wire newline (new.map Json.stringify)) := by
  refine ⟨?_, h.read.trans (List.prefix_append vs new)⟩
  rw [List.map_append]
  apply h.link.send
  intro l hl
  rw [← List.map_append] at hl
  obtain ⟨v, -, rfl⟩ := List.mem_map.mp hl
  exact Json.stringify_ne_nil v

theorem drained (h : Carries vs done kept []) : done = vs := by
  have htexts := h.link.drained.1
  obtain ⟨more, rfl⟩ := h.read
  rw [List.map_append, eq_comm, List.append_right_eq_self, List.map_eq_nil_iff] at htexts
  rw [htexts, List.append_nil]

theorem receive {σ : Type*} {k : σ → Json → σ × Bool} {s : σ} {chunk : JsString} (hwf : ∀ v ∈ vs, v.WF)
    (h : Carries vs done kept (chunk ++ rest))
    (hclean : ¬ Torn (fun p => parses p = true) newline (vs.map Json.stringify) rest)
    (haccepts : ∀ more, done ++ more <+: vs → ∃ t, Accepts k s more t) :
    ∃ more t, Accepts k s more t ∧ (feed (parsed k) newline (s, kept) chunk).1 = t ∧
      Carries vs (done ++ more) (feed (parsed k) newline (s, kept) chunk).2 rest := by
  have hrefuse : ∀ s p, parses p = false → parsed k s p = (s, false) := by
    intro s p hp
    rw [parses, Option.isSome_eq_false_iff, Option.isNone_iff_eq_none] at hp
    rw [parsed, hp]
  have htexts : ∀ l ∈ vs.map Json.stringify, newline ∉ l ∧ l ≠ [] ∧ parses l = true := by
    intro l hl
    obtain ⟨v, hv, rfl⟩ := List.mem_map.mp hl
    refine ⟨Json.newline_notMem_stringify v, Json.stringify_ne_nil v, ?_⟩
    rw [parses, Json.parse_stringify (hwf v hv)]
    rfl
  -- lines that come next are the texts of values that come next
  have hvalues : ∀ lines, done.map Json.stringify ++ lines <+: vs.map Json.stringify →
      ∃ more, lines = more.map Json.stringify ∧ done ++ more <+: vs := by
    intro lines hlines
    obtain ⟨todo, rfl⟩ := h.read
    rw [List.map_append, List.prefix_append_right_inj] at hlines
    obtain ⟨more, hmore, rfl⟩ := List.prefix_map_iff.mp hlines
    exact ⟨more, rfl, (List.prefix_append_right_inj done).mpr hmore⟩
  have hmem : ∀ more, done ++ more <+: vs → ∀ v ∈ more, v.WF := fun more hmore v hv =>
    hwf v (hmore.subset (List.mem_append_right done hv))
  obtain ⟨lines, hfeed, hlink⟩ := h.link.receive hrefuse (fun l hl => (htexts l hl).1)
    (fun l hl => (htexts l hl).2) (s := s) hclean fun lines hlines => by
      obtain ⟨more, rfl, hmore⟩ := hvalues lines hlines
      obtain ⟨t, ht⟩ := haccepts more hmore
      exact (ht.smooth (hmem more hmore)).1
  obtain ⟨more, rfl, hmore⟩ := hvalues lines hlink.read
  obtain ⟨t, ht⟩ := haccepts more hmore
  refine ⟨more, t, ht, ?_, ?_, hmore⟩
  · rw [hfeed]
    exact (ht.smooth (hmem more hmore)).2
  · rw [hfeed, List.map_append]
    exact hlink

end Carries

section
variable {σ ι κ : Type} {api : Api σ} {I : σ → Prop}

theorem onRequest_method {req : Json} {data : Option Json} {f : σ → σ × Except JsError Returned}
    (hdata : member (some req) (js "data") = .ok data) (hf : method api data = some f) (socket : ι) :
    onRequest api req socket = (do
      logClient req
      let result ← call f
      respond socket req result) := by
  unfold method at hf
  cases hop : member data (js "op") with
  | error e => simp [hop, Except.toOption] at hf
  | ok op =>
    cases hcollection : member data (js "collection") with
    | error e => simp [hop, hcollection, Except.toOption] at hf
    | ok collection =>
      cases hparams : member data (js "params") with
      | error e => simp [hop, hcollection, hparams, Except.toOption] at hf
      | ok params =>
        cases op with
        | none => simp [hop, Except.toOption] at hf
        | some op =>
          have hvalid : valid data = .ok true := by
            rw [valid, hop]
            rfl
          simp only [hop, hcollection, hparams, Except.toOption, Option.bind_eq_bind, Option.bind_some] at hf
          unfold onRequest
          simp only [hdata, hvalid, hcollection, hop, hparams, liftM_ok, pure_bind, if_true]
          cases hopName : convert (some op) with
          | error e => simp [hopName] at hf
          | ok opName =>
            simp only [hopName, Option.bind_some] at hf
            by_cases hnamed : truthy collection = true
            · rw [if_pos hnamed] at hf
              cases hfound : api.collection opName with
              | none => simp [hfound] at hf
              | some operation =>
                cases hname : convert collection with
                | error e => simp [hfound, hname] at hf
                | ok name =>
                  simp only [hfound, hname, Option.bind_some, pure, Option.some.injEq] at hf
                  subst hf
                  simp only [hnamed, if_true, liftM_ok, pure_bind, hfound]
            · rw [if_neg hnamed] at hf
              cases hfound : api.db opName with
              | none => simp [hfound] at hf
              | some operation =>
                simp only [hfound, Option.bind_some, pure, Option.some.injEq] at hf
                subst hf
                simp only [hnamed, Bool.false_eq_true, if_false, liftM_ok, pure_bind, hfound]

theorem present_length {items : List (Option Json)} (h : items.all Option.isSome = true) :
    (items.filterMap id).length = items.length := by
  induction items with
  | nil => rfl
  | cons o items ih =>
    rw [List.all_cons, Bool.and_eq_true] at h
    cases o with
    | none => cases h.1
    | some v => exact congrArg (· + 1) (ih h.2)

theorem writes_present {socket : ι} {items : List (Option Json)} (h : items.all Option.isSome = true) :
    Writes (σ := σ) socket (items.forM (writeItem socket)) (items.filterMap id) (.ok ()) := by
  induction items with
  | nil => exact .pure
  | cons o items ih =>
    rw [List.all_cons, Bool.and_eq_true] at h
    cases o with
    | none => cases h.1
    | some v => exact (writes_line v).bind (ih h.2)

theorem respond_values {req header : Json} {id : Option Json} {socket : ι}
    (hheader : member (some req) (js "header") = .ok (some header))
    (hid : member (some header) (js "id") = .ok id) {r : Returned} {vs : List Json} (hr : r.values = some vs) :
    Writes (σ := σ) socket (respond socket req r) (ack id (some (.ofInt vs.length)) :: vs) (.ok ()) := by
  unfold respond
  simp only [hheader, hid, liftM_ok, pure_bind]
  cases r with
  | undefined => cases hr
  | unprintable => cases hr
  | list items =>
    rw [Returned.values] at hr
    split_ifs at hr with hall
    obtain rfl := Option.some.inj hr
    rw [present_length hall]
    exact (writes_line _).bind (writes_present hall)
  | json v =>
    cases v with
    | null => cases hr
    | arr xs =>
      obtain rfl : xs = vs := Option.some.inj hr
      exact (writes_line _).bind (writes_lines xs)
    | bool | num | str =>
      obtain rfl := Option.some.inj hr
      simp only [member, liftM_ok, pure_bind]
      exact (writes_line _).bind (writes_line _)
    | obj ps =>
      rw [Returned.values] at hr
      split_ifs at hr with hplain
      obtain rfl := Option.some.inj hr
      have hreads : member (some (.obj ps)) (js "forEach") = .ok none :=
        congrArg Except.ok (Option.isNone_iff_eq_none.mp hplain)
      simp only [hreads, liftM_ok, pure_bind]
      exact (writes_line _).bind (writes_line _)

theorem run_regular {self : Client κ} {data : Json} (h : Regular api I self data) (ts : JsString)
    (socket : ι) (d : Daemon σ ι) (hd : I d.store) :
    let r := perform api d.store (self.message ts data)
    (I r.1 ∧ ∀ v ∈ r.2, v.WF ∧ Transparent v) ∧ ∃ clients,
      (onRequest api (self.message ts data) socket).run.run d = (.ok (), {
        store := r.1
        clients
        written := d.written ++
          lineWrites socket (ack (some (.ofInt self.nextId)) (some (.ofInt r.2.length)) :: r.2) }) := by
  obtain ⟨f, hf, hperforms⟩ := h.performs
  obtain ⟨hstore, result, vs, hresult, hvs, hvalues⟩ := hperforms d.store hd
  have hdata : member (some (self.message ts data)) (js "data") = .ok (some data) := rfl
  have hperform : perform api d.store (self.message ts data) = ((f d.store).1, vs) := by
    rw [perform, hdata, Except.toOption, Option.bind_some, hf]
    dsimp only
    rw [performBy, hresult]
    dsimp only
    rw [hvs]
    rfl
  rw [hperform]
  refine ⟨⟨hstore, hvalues⟩, ?_⟩
  have hheader : member (some (self.message ts data)) (js "header") = .ok (some (.obj
    [(js "id", .ofInt self.nextId), (js "name", self.name), (js "ts", .str ts)])) := rfl
  have hlog : (logClient (ι := ι) (self.message ts data)).run.run d = (.ok (), { d with
      clients := pushClient self.name.toText (Json.stringify (self.message ts data)) d.clients }) := by
    have hname : member (some (.obj [(js "id", .ofInt self.nextId), (js "name", self.name),
      (js "ts", .str ts)])) (js "name") = .ok (some self.name) := rfl
    rw [run_logClient hheader hname, h.named, if_pos rfl]
  have hcall : ∀ d : Daemon σ ι, (call f).run.run d = ((f d.store).2, { d with store := (f d.store).1 }) :=
    fun _ => rfl
  refine ⟨pushClient self.name.toText (Json.stringify (self.message ts data)) d.clients, ?_⟩
  rw [onRequest_method hdata hf, run_bind, hlog]
  dsimp only
  rw [run_bind, hcall]
  dsimp only
  rw [hresult]
  exact respond_values hheader rfl hvs _

end

namespace Client
variable {κ : Type} {self : Client κ}

theorem sendAll_concat (self : Client κ) (rs : List (Sending κ)) (r : Sending κ) :
    self.sendAll (rs ++ [r]) = ((self.sendAll rs).send r.ts r.data r.callback).1 :=
  List.foldl_concat ..

theorem sendAll_fields (self : Client κ) (rs : List (Sending κ)) :
    (self.sendAll rs).nextId = self.nextId + rs.length ∧ (self.sendAll rs).name = self.name ∧
      (self.sendAll rs).resultMode = self.resultMode ∧
      (self.sendAll rs).default_datacb = self.default_datacb := by
  induction rs using List.reverseRecOn with
  | nil => exact ⟨rfl, rfl, rfl, rfl⟩
  | append_singleton rs r ih =>
    obtain ⟨hid, hname, hmode, hdefault⟩ := ih
    rw [sendAll_concat]
    refine ⟨?_, hname, hmode, hdefault⟩
    rw [List.length_append, List.length_singleton, ← Nat.add_assoc, ← hid]
    rfl

theorem messages_concat (self : Client κ) (rs : List (Sending κ)) (r : Sending κ) :
    self.messages (rs ++ [r]) = self.messages rs ++ [(self.sendAll rs).message r.ts r.data] := by
  induction rs generalizing self with
  | nil => rfl
  | cons r' rs ih =>
    rw [List.cons_append, messages, ih, messages, List.cons_append]
    rfl

theorem messages_length (self : Client κ) (rs : List (Sending κ)) : (self.messages rs).length = rs.length := by
  induction rs generalizing self with
  | nil => rfl
  | cons r rs ih => rw [messages, List.length_cons, List.length_cons, ih]

theorem message_at {rs : List (Sending κ)} {done : List Json} {req : Json}
    (h : done ++ [req] <+: self.messages rs) : ∃ before r after, rs = before ++ r :: after ∧
      before.length = done.length ∧ req = (self.sendAll before).message r.ts r.data := by
  induction rs generalizing self done with
  | nil =>
    have hlen := h.length_le
    rw [messages_length, List.length_append, List.length_singleton, List.length_nil] at hlen
    omega
  | cons r rs ih =>
    cases done with
    | nil => exact ⟨[], r, rs, rfl, rfl, (List.cons_prefix_cons.mp h).1⟩
    | cons m done =>
      obtain ⟨before, r', after, rfl, hlen, hreq⟩ := ih (List.cons_prefix_cons.mp h).2
      exact ⟨r :: before, r', after, rfl, by rw [List.length_cons, List.length_cons, hlen], hreq⟩

theorem message_wf {api : Api σ} {I : σ → Prop} {data : Json} (h : Regular api I self data) (ts : JsString) :
    (self.message ts data).WF := by
  have hkeys : (keys [(js "id", Json.ofInt self.nextId), (js "name", self.name), (js "ts", .str ts)]).Nodup := by
    change [js "id", js "name", js "ts"].Nodup
    decide
  have hkeys' : ∀ header : Json, (keys [(js "header", header), (js "data", data)]).Nodup := by
    intro header
    change [js "header", js "data"].Nodup
    decide
  exact ⟨hkeys' _, ⟨hkeys, Json.wf_ofInt _, h.name_wf, trivial, trivial⟩, h.data_wf, trivial⟩

theorem outstanding_send (ts : JsString) (data : Json) (callback : Option κ) (id : ℕ) (c : κ) :
    (self.send ts data callback).1.Outstanding id c ↔
      if id = self.nextId then c = callback.getD self.default_datacb else self.Outstanding id c := by
  simp only [Client.Outstanding, Client.send, lookup_assign, natText_inj]
  split_ifs
  · rw [Option.some_inj, eq_comm]
  · rfl

theorem outstanding_sendAll (hfresh : self.Fresh) (rs : List (Sending κ)) (id : ℕ) (c : κ) :
    (self.sendAll rs).Outstanding id c ↔ ∃ r, rs[id]? = some r ∧ c = self.callbackOf r := by
  induction rs using List.reverseRecOn with
  | nil =>
    have hnone : self.dataCallbacks.lookup (natText id) = none := by rw [hfresh.2]; rfl
    have hsame : self.sendAll [] = self := rfl
    rw [hsame, Client.Outstanding, hnone]
    simp
  | append_singleton rs r ih =>
    obtain ⟨hid, -, -, hdefault⟩ := sendAll_fields self rs
    rw [hfresh.1, Nat.zero_add] at hid
    rw [sendAll_concat, outstanding_send, hid, hdefault, ih]
    split_ifs with hlast
    · rw [hlast, List.getElem?_concat_length]
      simp [callbackOf]
    · by_cases hlt : id < rs.length
      · rw [List.getElem?_append_left hlt]
      · have hout : (rs ++ [r])[id]? = none := by
          rw [List.getElem?_eq_none_iff, List.length_append, List.length_singleton]
          omega
        have hout' : rs[id]? = none := List.getElem?_eq_none_iff.mpr (by omega)
        rw [hout, hout']

end Client

section
variable {κ : Type} {self other : Client κ}

structure Client.Extends (client other : Client κ) : Prop where
  mode : other.resultMode = client.resultMode
  callbacks : ∀ key c, client.dataCallbacks.lookup key = some c → other.dataCallbacks.lookup key = some c

theorem Client.extends_send (hfresh : self.Fresh) (rs : List (Sending κ)) (r : Sending κ) :
    (self.sendAll rs).Extends (self.sendAll (rs ++ [r])) := by
  refine ⟨?_, fun key c hkey => ?_⟩
  · rw [(sendAll_fields self _).2.2.1, (sendAll_fields self _).2.2.1]
  · obtain ⟨hid, -⟩ := sendAll_fields self rs
    rw [hfresh.1, Nat.zero_add] at hid
    rw [sendAll_concat, Client.send]
    dsimp only
    rw [lookup_assign, hid, if_neg ?_]
    · exact hkey
    · rintro rfl
      -- the new number was not given to another request
      obtain ⟨r', hr', -⟩ := (outstanding_sendAll hfresh rs rs.length c).mp hkey
      rw [List.getElem?_eq_none_iff.mpr (le_refl _)] at hr'
      cases hr'

def Follows {α : Type} (p q : Decode κ α) : Prop :=
  ∀ s a t, p.run.run s = (.ok a, t) → q.run.run s = (.ok a, t)

theorem Follows.refl {α : Type} (p : Decode κ α) : Follows p p := fun _ _ _ h => h

theorem Follows.bind {α β : Type} {p q : Decode κ α} {f g : α → Decode κ β} (hp : Follows p q)
    (hf : ∀ a, Follows (f a) (g a)) : Follows (p >>= f) (q >>= g) := by
  intro s b t h
  rw [run_bind] at h ⊢
  rcases hrun : p.run.run s with ⟨a | a, u⟩
  · rw [hrun] at h
    cases h
  · rw [hrun] at h
    rw [hp s a u hrun]
    exact hf a u b t h

theorem follows_callBack (h : self.Extends other) (info data : Json) :
    Follows (callBack self info data) (callBack other info data) := by
  intro s a t hrun
  unfold callBack at hrun ⊢
  rw [run_bind, run_get] at hrun ⊢
  dsimp only at hrun ⊢
  cases hfound : self.dataCallbacks.lookup (textOf s.current_result_msg_id) with
  | none =>
    rw [hfound] at hrun
    cases hrun
  | some c =>
    rw [hfound] at hrun
    rw [h.callbacks _ c hfound]
    exact hrun

theorem follows_onObject (h : self.Extends other) (o : Json) : Follows (onObject self o) (onObject other o) := by
  unfold onObject
  rw [h.mode]
  refine (Follows.refl _).bind fun isACK => ?_
  cases isACK with
  | true =>
    rw [if_pos rfl, if_pos rfl]
    refine (Follows.refl _).bind fun ack => (Follows.refl _).bind fun size => (Follows.refl _).bind fun _ => ?_
    refine (Follows.refl _).bind fun id => (Follows.refl _).bind fun _ => ?_
    split_ifs
    · exact (follows_callBack h _ _).bind fun _ => .refl _
    · exact .refl _
  | false =>
    rw [if_neg Bool.false_ne_true, if_neg Bool.false_ne_true]
    refine (Follows.refl _).bind fun _ => ?_
    cases self.resultMode with
    | stream => exact follows_callBack h _ _
    | batch =>
      refine (Follows.refl _).bind fun _ => (Follows.refl _).bind fun s => ?_
      split_ifs
      · exact follows_callBack h _ _
      · exact .refl _

theorem handleObject_extends (h : self.Extends other) (s : Reader κ) (v : Json) (t : Reader κ)
    (hv : handleObject self s v = (t, true)) : handleObject other s v = (t, true) := by
  unfold handleObject at hv ⊢
  rcases hrun : (onObject self v).run.run s with ⟨e | a, u⟩
  · rw [hrun] at hv
    cases hv
  · rw [hrun] at hv
    rw [follows_onObject h v s a u hrun]
    exact hv

theorem called_grows (s : Reader κ) (v : Json) : s.called <+: (handleObject self s v).1.called := by
  suffices h : Keeps (fun t : Reader κ => s.called <+: t.called) (onObject self v) from h s (List.prefix_refl _)
  have hcall : ∀ info data, Keeps (fun t : Reader κ => s.called <+: t.called) (callBack self info data) := by
    intro info data t ht
    unfold callBack
    rw [run_bind, run_get]
    dsimp only
    cases self.dataCallbacks.lookup (textOf t.current_result_msg_id) with
    | none => exact ht
    | some c => exact ht.trans (List.prefix_append _ _)
  have hother : ∀ g : Reader κ → Reader κ, (∀ t, (g t).called = t.called) →
      Keeps (fun t : Reader κ => s.called <+: t.called) (modify g) := by
    intro g hg
    apply Keeps.modify
    intro t ht
    rwa [hg]
  unfold onObject
  refine (Keeps.lift _).bind fun isACK => ?_
  split_ifs
  · refine (Keeps.lift _).bind fun ack => (Keeps.lift _).bind fun size => ?_
    refine Keeps.bind (hother _ fun _ => rfl) fun _ => (Keeps.lift _).bind fun id => ?_
    refine Keeps.bind (hother _ fun _ => rfl) fun _ => ?_
    split_ifs
    · exact (hcall _ _).bind fun _ => hother _ fun _ => rfl
    · exact hother _ fun _ => rfl
  · refine Keeps.bind (hother _ fun _ => rfl) fun _ => ?_
    cases self.resultMode with
    | stream => exact hcall _ _
    | batch =>
      refine Keeps.bind (hother _ fun _ => rfl) fun _ t ht => ?_
      rw [run_bind, run_get]
      dsimp only
      split_ifs
      · exact hcall _ _ t ht
      · exact ht

theorem accepts_responses (n : ℕ) (rs : List (Sending κ)) (answers : List (List Json)) (s : Reader κ)
    (hout : ∀ i r, rs[i]? = some r → self.Outstanding (n + i) (self.callbackOf r))
    (hlen : answers.length ≤ rs.length) (hplain : ∀ vs ∈ answers, ∀ v ∈ vs, Transparent v) :
    ∃ t, Accepts (handleObject self) s (responseLines n answers) t ∧
      t.called = s.called ++ self.expected rs answers := by
  induction answers generalizing n rs s with
  | nil => exact ⟨s, .nil s, by simp [Client.expected]⟩
  | cons vs answers ih =>
    cases rs with
    | nil => exact absurd hlen (by simp)
    | cons r rs =>
      have hack : get [(ackProp, Json.obj [(js "id", .ofInt n), (js "result_count", .ofInt vs.length)])]
          ackProp = some (.obj [(js "id", .ofInt n), (js "result_count", .ofInt vs.length)]) := rfl
      obtain ⟨t, ht, htcalled⟩ := accepts_answer s (hout 0 r rfl) hack rfl rfl
        fun v hv => (isACKObject_eq_false_iff v).mpr (hplain vs List.mem_cons_self v hv)
      obtain ⟨u, hu, hucalled⟩ := ih (n + 1) rs t
        (fun i r' hr' => by rw [Nat.add_assoc, Nat.add_comm 1]; exact hout (i + 1) r' hr')
        (Nat.le_of_succ_le_succ hlen) fun vs' hvs' => hplain vs' (List.mem_cons_of_mem vs hvs')
      refine ⟨u, ht.append hu, ?_⟩
      have hexpected : self.expected (r :: rs) (vs :: answers) =
          self.invocations (self.callbackOf r) vs ++ self.expected rs answers := by
        rw [Client.expected, List.zipWith_cons_cons, List.flatten_cons]
        rfl
      rw [hucalled, htcalled, hexpected, ← List.append_assoc]
      rfl

end

end GlobalsJs.Globalsd
