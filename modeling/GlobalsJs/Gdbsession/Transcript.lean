import GlobalsJs.Gdbsession.Memory
import GlobalsJs.Gdbsession.Prompt

/-!
# Sessions

A session is a list of lines. What a line says depends on the mode: at the main prompt it is a command,
and in `%G` a global, a pattern or nothing, which leads back. Over a lawful database the shell does what
the lines say, one after the other.
-/

namespace GlobalsJs.Gdbsession

open Ecma Pieces Calls

structure RefText where
  name : JsString
  name_units : lparen ∉ name ∧ equals ∉ name
  subscripts : List JsString
  subscripts_units : ∀ s ∈ subscripts, lparen ∉ s ∧ rparen ∉ s ∧ comma ∉ s ∧ equals ∉ s

namespace RefText
variable (r : RefText)

def setText {word : JsString} (hword : space ∉ word) (data : JsString) : SetText :=
  ⟨word, hword, r.name, r.name_units, r.subscripts, r.subscripts_units, data⟩

/-- The node without data: the name, and the subscripts in parentheses if there are any. -/
def text : JsString :=
  if r.subscripts = [] then r.name
  else r.name ++ lparen :: ([comma].intercalate r.subscripts ++ [rparen])

theorem text_set {word : JsString} (hword : space ∉ word) (data : JsString) :
    (r.setText hword data).text = word ++ space :: (r.text ++ equals :: data) := rfl

theorem notMem_text : equals ∉ r.text := (r.setText (by decide : space ∉ js "S") []).notMem_place

theorem split_text : (r.text.splitOn lparen).getD 0 [] = r.name ∧
    readSubscripts (r.text.splitOn lparen) = if r.subscripts = [] then none else some r.subscripts := by
  rw [text]
  by_cases hsubscripts : r.subscripts = []
  · rw [if_pos hsubscripts, if_pos hsubscripts, List.splitOn_eq_singleton r.name_units.1]
    exact ⟨rfl, rfl⟩
  · have hspec : ∀ u : CodeUnit, u ≠ comma → (∀ s ∈ r.subscripts, u ∉ s) →
        u ∉ [comma].intercalate r.subscripts := fun u hu => notMem_intercalate hu
    have hopen := hspec lparen (by decide) fun s hs => (r.subscripts_units s hs).1
    have hclose := hspec rparen (by decide) fun s hs => (r.subscripts_units s hs).2.1
    have hinner : lparen ∉ [comma].intercalate r.subscripts ++ [rparen] := by
      simpa [show lparen ≠ rparen by decide] using hopen
    rw [if_neg hsubscripts, if_neg hsubscripts, List.splitOn_append_cons_self_of_not_mem r.name_units.1,
      List.splitOn_eq_singleton hinner, readSubscripts_closed hclose r.name,
      List.splitOn_intercalate comma (fun s hs => (r.subscripts_units s hs).2.2.1) hsubscripts]
    exact ⟨rfl, rfl⟩

theorem parse_kill {word : JsString} (hword : space ∉ word) :
    parse_glb_ref (word ++ space :: r.text) = some ⟨r.name, r.subscripts, none⟩ := by
  have hblank : space ∈ word ++ space :: r.text := by simp
  have hdrop : (word ++ space :: r.text).drop ((word ++ space :: r.text).idxOf space + 1) = r.text := by
    rw [List.idxOf_append_of_notMem hword, List.idxOf_cons_self, Nat.add_zero, List.append_cons]
    exact List.drop_left' (by simp)
  obtain ⟨hname, hread⟩ := r.split_text
  rw [parse_glb_ref, if_neg (not_not.mpr hblank), hdrop]
  simp only [List.splitOn_eq_singleton r.notMem_text, List.getD_cons_zero, hname, hread]
  by_cases hsubscripts : r.subscripts = []
  · rw [if_pos hsubscripts, hsubscripts]
    rfl
  · rw [if_neg hsubscripts]
    rfl

theorem nodeOf_text : nodeOf r.text = ⟨some r.name, some (r.subscripts.map .str), none, none⟩ := by
  obtain ⟨hname, hread⟩ := r.split_text
  rw [nodeOf, hread]
  by_cases hsubscripts : r.subscripts = []
  · have htext : r.text = r.name := if_pos hsubscripts
    rw [if_pos hsubscripts, hsubscripts, htext]
    rfl
  · rw [if_neg hsubscripts]
    simp only [hname]

theorem nodeOf_at {κ : Type} {co : Collation κ} (haccepts : co.accepts ⟨r.name, r.subscripts, none⟩) :
    (nodeOf r.text).At co r.name (r.subscripts.map co.sub) := by
  have htexts : (nodeOf r.text).texts = r.subscripts := by
    rw [nodeOf_text, Node.texts, Option.getD_some, List.map_map]
    exact List.map_id r.subscripts
  refine ⟨by rw [nodeOf_text], by rw [htexts], ?_⟩
  rwa [htexts]

end RefText

inductive Mode
  | main
  | globals

def Shell.prompt (sh : Shell) : Mode → JsString
  | .main => sh.main_prompt
  | .globals => gprompt

/-- What is done to the globals, or printed of them. -/
inductive Action
  | nothing
  | set (name : JsString) (subscripts : List JsString) (data : JsString)
  | kill (name : JsString) (subscripts : List JsString)
  | dump (name : JsString) (subscripts : List JsString)

def Action.apply {κ : Type} [DecidableEq κ] (co : Collation κ) (t : Nodes κ) : Action → Nodes κ
  | .nothing | .dump _ _ => t
  | .set name subscripts data => t.set name (subscripts.map co.sub) data
  | .kill name subscripts => t.kill name (subscripts.map co.sub)

inductive Typed {κ : Type} (co : Collation κ) (sh : Shell) (line : JsString) : Mode → Action → Mode → Prop
  | set (r : RefText) (word data : JsString) (hword : space ∉ word) (hdata : equals ∉ data)
    (hline : command line = word ++ space :: (r.text ++ equals :: data))
    (hfirst : sh.first (command line) ∈ [js "S", js "SET"])
    (haccepts : co.accepts ⟨r.name, r.subscripts, some data⟩) :
    Typed co sh line .main (.set r.name r.subscripts data) .main
  | kill (r : RefText) (word : JsString) (hword : space ∉ word)
    (hline : command line = word ++ space :: r.text)
    (hfirst : sh.first (command line) ∈ [js "K", js "KILL"])
    (haccepts : co.accepts ⟨r.name, r.subscripts, none⟩) :
    Typed co sh line .main (.kill r.name r.subscripts) .main
  | help (hfirst : sh.first (command line) ∈ [js "?", js "HELP"]) : Typed co sh line .main .nothing .main
  | unknown (hfirst : COMMANDS (sh.first (command line)) = none) : Typed co sh line .main .nothing .main
  | enter (hfirst : sh.first (command line) ∈ [js "D", js "DO"])
    (hprogram : programName (command line) = js "^%G") : Typed co sh line .main .nothing .globals
  | leave (hline : command line = js "undefined") : Typed co sh line .globals .nothing .main
  | directory (hline : command line = [question] ∨ star ∈ command line) :
    Typed co sh line .globals .nothing .globals
  | dump (r : RefText) (hline : command line = r.text) (hname : r.text ≠ js "undefined")
    (hpattern : r.text ≠ [question] ∧ star ∉ r.text) (haccepts : co.accepts ⟨r.name, r.subscripts, none⟩) :
    Typed co sh line .globals (.dump r.name r.subscripts) .globals

inductive Transcript {κ : Type} (co : Collation κ) (sh : Shell) : Mode → List (JsString × Action) → Prop
  | nil (m : Mode) : Transcript co sh m []
  | cons {m m' : Mode} {line : JsString} {a : Action} {rest : List (JsString × Action)} :
    Typed co sh line m a m' → Transcript co sh m' rest → Transcript co sh m ((line, a) :: rest)

def Session.In {σ : Type} (s : Session σ) : Mode → Prop
  | .main => s.STATE = none ∧ s.percent_G_first = true
  | .globals => s.STATE = some (.program .percent_G) ∧ s.percent_G_first = false

section
variable {σ κ : Type} {db : Cache σ} {view : σ → Nodes κ} (sh : Shell)

def Looks {α : Type} (db : Cache σ) (view : σ → Nodes κ) (p : Act α) : Prop :=
  ∀ s : Session σ, ∃ out d a, view d = view s.database ∧
    Prog.run (answer db) p s = ({ s with written := s.written ++ out, database := d }, .ok a)

theorem Looks.bind {α β : Type} {p : Act α} {f : α → Act β} (hp : Looks db view p)
    (hf : ∀ a, Looks db view (f a)) : Looks db view (p >>= f) := by
  intro s
  obtain ⟨out, d, a, hview, hrun⟩ := hp s
  obtain ⟨out', d', b, hview', hrun'⟩ := hf a { s with written := s.written ++ out, database := d }
  exact ⟨out ++ out', d', b, hview'.trans hview, by rw [Prog.run_bind_ok hrun, hrun', List.append_assoc]⟩

variable (db view)

theorem looks_write (text : JsString) : Looks db view (write text) :=
  fun s => ⟨[.text text], s.database, (), rfl, rfl⟩

theorem looks_dir (o : Output) : Looks db view (dir o) := fun s => ⟨[o], s.database, (), rfl, rfl⟩

theorem looks_log (text : JsString) : Looks db view (log text) :=
  (looks_write db view text).bind fun _ => looks_write db view _

theorem looks_forM {β : Type} (xs : List β) (text : β → JsString) :
    Looks db view (xs.forM fun x => write (text x)) := by
  induction xs with
  | nil =>
    refine fun s => ⟨[], s.database, ⟨⟩, rfl, ?_⟩
    rw [List.append_nil]
    rfl
  | cons x xs ih => exact (looks_write db view _).bind fun _ => ih

variable {db view}

theorem looks_cache {c : CacheCall}
    (hc : ∀ d, (∃ r, (db c d).2 = .ok r) ∧ view (db c d).1 = view d) : Looks db view (cache c) := by
  intro s
  obtain ⟨⟨r, hr⟩, hview⟩ := hc s.database
  refine ⟨[], _, r, hview, ?_⟩
  rw [List.append_nil]
  exact run_cache (by exact Prod.ext rfl hr)

theorem Looks.toMain {p : Act Unit} (hp : Looks db view p) (s : Session σ) : ∃ out d,
    view d = view s.database ∧ Prog.run (answer db) (p >>= fun _ => toMain sh) s =
      (⟨none, s.percent_G_first, s.written ++ (out ++ [.text sh.main_prompt]), d⟩, .ok ()) := by
  obtain ⟨out, d, _, hview, hrun⟩ := hp s
  refine ⟨out, d, hview, ?_⟩
  rw [Prog.run_bind_ok hrun, ← List.append_assoc]
  rfl

theorem run_HELP (s : Session σ) : ∃ out d, view d = view s.database ∧
    Prog.run (answer db) (HELP sh) s =
      (⟨none, s.percent_G_first, s.written ++ (out ++ [.text sh.main_prompt]), d⟩, .ok ()) := by
  have hlooks : Looks db view (do
      log sh.ABOUT
      log DESCRIPTION
      log (js "availble commands:")
      commandTable.forM fun c => write (c.1 ++ [space])
      log (js "\navailble programs:")
      programTable.forM fun p => write (p.1 ++ [space])
      log []) := by
    refine (looks_log db view _).bind fun _ => (looks_log db view _).bind fun _ => ?_
    refine (looks_log db view _).bind fun _ => (looks_forM db view _ _).bind fun _ => ?_
    refine (looks_log db view _).bind fun _ => (looks_forM db view _ _).bind fun _ => ?_
    exact looks_log db view _
  have hrun := hlooks.toMain sh s
  simp only [bind_assoc] at hrun
  exact hrun

end

section
variable {σ κ : Type} [LinearOrder κ] {db : Cache σ} {view : σ → Nodes κ} {co : Collation κ} (sh : Shell)

/-- The line was carried out: the globals are as the action leaves them, what it prints of them was
printed before the prompt, and the last that is written is the prompt of the mode that it ends in. -/
structure Meets (view : σ → Nodes κ) (co : Collation κ) (t : Nodes κ) (a : Action) (st : Step σ) : Prop where
  result : st.result = .ok ()
  before : view st.before.database = t
  after : view st.after.database = a.apply co t
  prompt : ∃ m out, st.after.In m ∧ st.after.written = st.before.written ++ (out ++ [.text (sh.prompt m)])
  printed : ∀ name subscripts, a = .dump name subscripts →
    ∃ shown, Dump co t name (subscripts.map co.sub) shown ∧
      st.after.written = st.before.written ++ (printed shown ++ [.text gprompt])

variable (db) in
theorem run_command {s : Session σ} {line : JsString} {h : Handler} (hs : s.STATE = none)
    (hcommand : COMMANDS (sh.first (command line)) = some h) :
    Prog.run (answer db) (processInputMain sh line) s =
      Prog.run (answer db) (callHandler sh true (command line) h) { s with STATE := some h } := by
  have hsome : sh.dispatched s line = some h := by rw [Shell.dispatched, hs]; exact hcommand
  obtain ⟨asMethod, hkept, -, hrun⟩ := run_dispatched db sh hsome
  cases asMethod with
  | true => exact hrun
  | false =>
    have hnone := hkept rfl
    rw [hs] at hnone
    cases hnone

theorem run_KILL {cmd : JsString} {glo_ref : GlbRef} (hparse : parse_glb_ref cmd = some glo_ref) {s : Session σ}
    {opened killed closed : σ} {result ok : Option Json}
    (hconnect : db (.connect sh.conninfo) s.database = (opened, .ok ()))
    (hkill : db (.kill glo_ref) opened = (killed, .ok result)) (hmember : member result (js "ok") = .ok ok)
    (hclose : db .close killed = (closed, .ok ())) :
    ∃ out, Prog.run (answer db) (KILL sh cmd) s =
      (⟨none, s.percent_G_first, s.written ++ (out ++ [.text sh.main_prompt]), closed⟩, .ok ()) := by
  have hwrite : ∀ (text : JsString) (t : Session σ), Prog.run (answer db) (write text) t =
      ({ t with written := t.written ++ [.text text] }, .ok ()) := fun _ _ => rfl
  have hdir : ∀ (o : Output) (t : Session σ), Prog.run (answer db) (dir o) t =
      ({ t with written := t.written ++ [o] }, .ok ()) := fun _ _ => rfl
  have hmain : ∀ t : Session σ, Prog.run (answer db) (toMain sh) t =
      (⟨none, t.percent_G_first, t.written ++ [.text sh.main_prompt], t.database⟩, .ok ()) := fun _ => rfl
  obtain ⟨out, hopen⟩ := run_open_connection sh db hconnect
  obtain ⟨out', hshow⟩ := run_showFailure db hmember
    (⟨s.STATE, s.percent_G_first, s.written ++ out ++ [.text (js "about to kill-->")] ++ [.glo_ref glo_ref], killed⟩ :
      Session σ)
  rw [KILL, hparse]
  dsimp only
  rw [Prog.run_bind_ok hopen, Prog.run_bind_ok (hwrite _ _), Prog.run_bind_ok (hdir _ _),
    Prog.run_bind_ok (run_cache (by exact hkill)), Prog.run_bind_ok hshow,
    Prog.run_bind_ok (run_cache (by exact hclose)), hmain]
  exact ⟨out ++ [.text (js "about to kill-->")] ++ [.glo_ref glo_ref] ++ out', by simp only [List.append_assoc]⟩

theorem looks_global_directory_dump (law : LawfulNodes db view co) (global : JsString) :
    Looks db view (global_directory_dump sh global) := by
  refine (looks_cache fun d => ⟨⟨(), (law.connect d _).1⟩, (law.connect d _).2⟩).bind fun _ => ?_
  refine Looks.bind ?_ fun _ => looks_cache fun d => ⟨⟨(), (law.close d).1⟩, (law.close d).2⟩
  refine (looks_cache fun d => law.global_directory d _).bind fun names => ?_
  refine (looks_log db view _).bind fun _ => (looks_write db view _).bind fun _ => ?_
  refine (looks_dir db view _).bind fun _ => (looks_log db view _).bind fun _ => ?_
  exact (looks_log db view _).bind fun _ => (looks_write db view _).bind fun _ => looks_log db view _

theorem lawful_SET (law : LawfulNodes db view co) (r : RefText) {word data : JsString} (hword : space ∉ word)
    (hdata : equals ∉ data) (haccepts : co.accepts ⟨r.name, r.subscripts, some data⟩) (s : Session σ) :
    ∃ out d, view d = (view s.database).set r.name (r.subscripts.map co.sub) data ∧
      Prog.run (answer db) (SET sh (word ++ space :: (r.text ++ equals :: data))) s =
        (⟨none, s.percent_G_first, s.written ++ (out ++ [.text sh.main_prompt]), d⟩, .ok ()) := by
  obtain ⟨hconnect, hviewc⟩ := law.connect s.database sh.conninfo
  obtain ⟨⟨result, ok, hset, hmember⟩, hviews⟩ :=
    law.set (db (.connect sh.conninfo) s.database).1 r.name r.subscripts data haccepts
  obtain ⟨hclose, hviewx⟩ :=
    law.close (db (.set ⟨r.name, r.subscripts, some data⟩) (db (.connect sh.conninfo) s.database).1).1
  have hpiece : piece equals 1 data = data := piece_one_eq_iff.mpr hdata
  obtain ⟨out, hrun⟩ := run_SET sh db (r.setText hword data) (Prod.ext rfl hconnect)
    (Prod.ext rfl (by rw [show (r.setText hword data).data = data from rfl, hpiece]; exact hset)) hmember
    (Prod.ext rfl (by rw [show (r.setText hword data).data = data from rfl, hpiece]; exact hclose))
  rw [← r.text_set hword data]
  refine ⟨out, _, ?_, hrun⟩
  rw [show (r.setText hword data).data = data from rfl, hpiece]
  exact hviewx.trans (hviews.trans (by rw [hviewc]))

theorem lawful_KILL (law : LawfulNodes db view co) (r : RefText) {word : JsString} (hword : space ∉ word)
    (haccepts : co.accepts ⟨r.name, r.subscripts, none⟩) (s : Session σ) :
    ∃ out d, view d = (view s.database).kill r.name (r.subscripts.map co.sub) ∧
      Prog.run (answer db) (KILL sh (word ++ space :: r.text)) s =
        (⟨none, s.percent_G_first, s.written ++ (out ++ [.text sh.main_prompt]), d⟩, .ok ()) := by
  obtain ⟨hconnect, hviewc⟩ := law.connect s.database sh.conninfo
  obtain ⟨⟨result, ok, hkill, hmember⟩, hviewk⟩ :=
    law.kill (db (.connect sh.conninfo) s.database).1 r.name r.subscripts haccepts
  obtain ⟨hclose, hviewx⟩ :=
    law.close (db (.kill ⟨r.name, r.subscripts, none⟩) (db (.connect sh.conninfo) s.database).1).1
  obtain ⟨out, hrun⟩ := run_KILL sh (r.parse_kill hword) (Prod.ext rfl hconnect) (Prod.ext rfl hkill) hmember
    (Prod.ext rfl hclose)
  exact ⟨out, _, hviewx.trans (hviewk.trans (by rw [hviewc])), hrun⟩

theorem meets_of_run {line : JsString} {s t : Session σ} {a : Action} {m : Mode}
    (hline : Prog.run (answer db) (processInputMain sh line) s = (t, .ok ()))
    (hview : view t.database = a.apply co (view s.database)) (hin : t.In m)
    (hwritten : ∃ out, t.written = s.written ++ (out ++ [.text (sh.prompt m)]))
    (hprinted : ∀ name subscripts, a = .dump name subscripts →
      ∃ shown, Dump co (view s.database) name (subscripts.map co.sub) shown ∧
        t.written = s.written ++ (printed shown ++ [.text gprompt])) :
    Meets sh view co (view s.database) a (step sh db s line) ∧ (step sh db s line).after.In m := by
  obtain ⟨out, hwritten⟩ := hwritten
  have hafter : (step sh db s line).after = t := by rw [step_after, hline]
  have hresult : (step sh db s line).result = .ok () := by rw [step_result, hline]
  constructor
  · constructor
    · exact hresult
    · rfl
    · rw [hafter]
      exact hview
    · rw [hafter]
      exact ⟨m, out, hin, hwritten⟩
    · rw [hafter]
      exact hprinted
  · rw [hafter]
    exact hin

theorem meets_command {line : JsString} {s : Session σ} (hs : s.In .main) {h : Handler} {keys : List JsString}
    (hkeys : ∀ key ∈ keys, COMMANDS key = some h) (hfirst : sh.first (command line) ∈ keys) {a : Action}
    (hprints : ∀ name subscripts, a ≠ .dump name subscripts)
    (hrun : ∃ out d, view d = a.apply co (view s.database) ∧
      Prog.run (answer db) (callHandler sh true (command line) h) { s with STATE := some h } =
        (⟨none, s.percent_G_first, s.written ++ (out ++ [.text sh.main_prompt]), d⟩, .ok ())) :
    Meets sh view co (view s.database) a (step sh db s line) ∧ (step sh db s line).after.In .main := by
  obtain ⟨out, d, hview, hrun⟩ := hrun
  have hline := (run_command db sh hs.1 (hkeys _ hfirst)).trans hrun
  exact meets_of_run sh hline hview ⟨rfl, hs.2⟩ ⟨out, rfl⟩ fun name subscripts ha => absurd ha (hprints name subscripts)

variable (db) in
theorem run_globals {s : Session σ} (hs : s.In .globals) (line : JsString) :
    Prog.run (answer db) (processInputMain sh line) s =
      Prog.run (answer db) (if command line = js "undefined" then do
          setState none
          setPercentGFirst true
          write sh.main_prompt
        else do
          showGlobals sh (command line)
          write gprompt) s := by
  have hstate : Prog.run (answer db) getState s = (s, .ok s.STATE) := rfl
  have hfirst : Prog.run (answer db) percent_G_first s = (s, .ok s.percent_G_first) := rfl
  rw [processInputMain, Prog.run_bind_ok hstate, hs.1]
  dsimp only
  rw [callHandler, callProgram, percent_G, Prog.run_bind_ok hfirst, hs.2]
  rfl

theorem typed_meets (law : LawfulNodes db view co) {line : JsString} {m m' : Mode} {a : Action}
    (htyped : Typed co sh line m a m') {s : Session σ} (hs : s.In m)
    (hfuel : ∀ name, {q | (view s.database name q).isSome}.ncard < sh.fuel) :
    Meets sh view co (view s.database) a (step sh db s line) ∧ (step sh db s line).after.In m' := by
  cases htyped with
  | set r word data hword hdata hline hfirst haccepts =>
    refine meets_command sh hs (h := .SET) (by decide) hfirst (by simp) ?_
    rw [hline]
    exact lawful_SET sh law r hword hdata haccepts { s with STATE := some .SET }
  | kill r word hword hline hfirst haccepts =>
    refine meets_command sh hs (h := .KILL) (by decide) hfirst (by simp) ?_
    rw [hline]
    exact lawful_KILL sh law r hword haccepts { s with STATE := some .KILL }
  | help hfirst =>
    refine meets_command sh hs (h := .HELP) (by decide) hfirst (by simp) ?_
    exact run_HELP sh { s with STATE := some .HELP }
  | unknown hfirst =>
    have hnone : sh.dispatched s line = none := by rw [Shell.dispatched, hs.1]; exact hfirst
    have hline := run_undispatched db sh hnone
    exact meets_of_run sh hline rfl ⟨rfl, hs.2⟩ ⟨[], rfl⟩ (by simp)
  | enter hfirst hprogram =>
    have hkeys : ∀ key ∈ [js "D", js "DO"], COMMANDS key = some .DO := by decide
    have hG : PROGRAMS (programName (command line)) = some .percent_G := by rw [hprogram]; decide
    have hline : Prog.run (answer db) (processInputMain sh line) s =
        (⟨some (.program .percent_G), false, s.written ++ [.text gprompt], s.database⟩, .ok ()) := by
      have hask : Prog.run (answer db) percent_G_first { s with STATE := some (.program .percent_G) } =
          ({ s with STATE := some (.program .percent_G) }, .ok true) := by
        rw [← hs.2]
        rfl
      rw [run_command db sh hs.1 (hkeys _ hfirst), callHandler, run_DO db sh hG, callProgram, percent_G,
        Prog.run_bind_ok hask]
      rfl
    exact meets_of_run sh hline rfl ⟨rfl, rfl⟩ ⟨[], rfl⟩ (by simp)
  | leave hline =>
    have hrun := run_globals db sh hs line
    rw [if_pos hline] at hrun
    exact meets_of_run sh hrun rfl ⟨rfl, rfl⟩ ⟨[], rfl⟩ (by simp)
  | directory hline =>
    have hname : command line ≠ js "undefined" := by
      intro heq
      rw [heq] at hline
      exact absurd hline (by decide)
    obtain ⟨out, d, u, hview, hshow⟩ := looks_global_directory_dump sh law (command line) s
    have hrun := run_globals db sh hs line
    rw [if_neg hname, showGlobals, if_pos hline, Prog.run_bind_ok hshow] at hrun
    exact meets_of_run sh hrun hview hs ⟨out, List.append_assoc _ _ _⟩ (by simp)
  | dump r hline hname hpattern haccepts =>
    obtain ⟨shown, d, hdump, hview, hshow⟩ := run_global_dump sh law (r.nodeOf_at haccepts) (hfuel r.name)
    have hrun := run_globals db sh hs line
    have hnot : ¬ (r.text = [question] ∨ star ∈ r.text) := not_or.mpr hpattern
    rw [hline, if_neg hname, showGlobals, if_neg hnot, Prog.run_bind_ok hshow] at hrun
    have hwritten : (s.written ++ printed shown) ++ [.text gprompt] = s.written ++ (printed shown ++ [.text gprompt]) :=
      List.append_assoc _ _ _
    refine meets_of_run sh hrun hview hs ⟨printed shown, hwritten⟩ fun name subscripts ha => ?_
    cases ha
    exact ⟨shown, hdump, hwritten⟩

/-- One step for each line, and each does what its line says to the globals that the lines before it left. -/
inductive Followed (sh : Shell) (view : σ → Nodes κ) (co : Collation κ) :
    Nodes κ → List (JsString × Action) → List (Step σ) → Prop
  | nil (t : Nodes κ) : Followed sh view co t [] []
  | cons {t : Nodes κ} {line : JsString} {a : Action} {rest : List (JsString × Action)} {st : Step σ}
    {sts : List (Step σ)} : st.line = line → Meets sh view co t a st → Followed sh view co (a.apply co t) rest sts →
      Followed sh view co t ((line, a) :: rest) (st :: sts)

variable (co) in
theorem ncard_apply (a : Action) (t : Nodes κ) (name : JsString) (hfinite : {q | (t name q).isSome}.Finite) :
    {q | (a.apply co t name q).isSome}.ncard ≤ {q | (t name q).isSome}.ncard + 1 := by
  have hsub : ∃ path, {q | (a.apply co t name q).isSome} ⊆ insert path {q | (t name q).isSome} := by
    cases a with
    | nothing | dump n subscripts => exact ⟨[], fun q hq => .inr hq⟩
    | set n subscripts data =>
      refine ⟨subscripts.map co.sub, fun q hq => ?_⟩
      rw [Set.mem_ofPred_eq, Action.apply, Nodes.set] at hq
      split_ifs at hq with hhere
      · exact .inl hhere.2
      · exact .inr hq
    | kill n subscripts =>
      refine ⟨[], fun q hq => .inr ?_⟩
      rw [Set.mem_ofPred_eq, Action.apply, Nodes.kill] at hq
      split_ifs at hq
      · cases hq
      · exact hq
  obtain ⟨path, hsub⟩ := hsub
  exact (Set.ncard_le_ncard hsub (hfinite.insert path)).trans (Set.ncard_insert_le _ _)

theorem steps_followed (law : LawfulNodes db view co) {m : Mode} {script : List (JsString × Action)}
    (hscript : Transcript co sh m script) {s : Session σ} (hs : s.In m)
    (hfuel : ∀ name, {q | (view s.database name q).isSome}.ncard + script.length ≤ sh.fuel) :
    Followed sh view co (view s.database) script (steps sh db s (script.map Prod.fst)) := by
  induction hscript generalizing s with
  | nil m => exact .nil _
  | @cons m m' line a rest htyped hrest ih =>
    have hrounds : ∀ name, {q | (view s.database name q).isSome}.ncard + (rest.length + 1) ≤ sh.fuel := hfuel
    obtain ⟨hmeets, hin⟩ := typed_meets sh law htyped hs fun name => by have := hrounds name; omega
    have hgoes : (step sh db s line).isLast = false := by rw [Step.isLast, hmeets.result]
    rw [List.map_cons, steps]
    dsimp only
    rw [if_neg (by rw [hgoes]; exact Bool.false_ne_true)]
    refine .cons rfl hmeets ?_
    rw [← hmeets.after]
    refine ih hin fun name => ?_
    have hadds := ncard_apply co a (view s.database) name (law.finite s.database name)
    have hname := hrounds name
    rw [hmeets.after]
    omega

/-- In a session whose lines can be read, every line ends with a prompt, what is set and killed is as the
lines say, and a global that is displayed shows the nodes that the lines before it left. -/
theorem session_follows (law : LawfulNodes db view co) {script : List (JsString × Action)}
    (hscript : Transcript co sh .main script) (d : σ)
    (hfuel : ∀ name, {q | (view d name q).isSome}.ncard + script.length ≤ sh.fuel) :
    Followed sh view co (view d) script (steps sh db (.start d) (script.map Prod.fst)) :=
  steps_followed sh law hscript (s := .start d) ⟨rfl, rfl⟩ hfuel

end

theorem session_follows_x :
    let sh : Shell := ⟨js "gdbsession", js "/globals/mgr", .ascii, 6⟩
    let script : List (JsString × Action) :=
      [(js "(SET x(10)=ten\n)", .set (js "x") [js "10"] (js "ten")),
        (js "(s x(9)=nine\n)", .set (js "x") [js "9"] (js "nine")), (js "(D ^%G\n)", .nothing),
        (js "(x\n)", .dump (js "x") []), (js "(undefined\n)", .nothing),
        (js "(KILL x(10)\n)", .kill (js "x") [js "10"])]
    Followed sh Memory.view Memory.collation (Memory.view []) script
      (steps sh Memory.cache (.start []) (script.map Prod.fst)) := by
  intro sh script
  refine session_follows sh Memory.lawful ?_ [] fun name => ?_
  · refine .cons (.set ⟨js "x", by decide, [js "10"], by decide⟩ (js "SET") (js "ten") (by decide) (by decide)
      (by decide) (by decide) trivial) ?_
    refine .cons (.set ⟨js "x", by decide, [js "9"], by decide⟩ (js "s") (js "nine") (by decide) (by decide)
      (by decide) (by decide) trivial) ?_
    refine .cons (.enter (by decide) (by decide)) (.cons ?_ (.cons (.leave (by decide)) ?_))
    · exact .dump ⟨js "x", by decide, [], by decide⟩ (by decide) (by decide) (by decide) trivial
    · refine .cons (.kill ⟨js "x", by decide, [js "10"], by decide⟩ (js "KILL") (by decide) (by decide)
        (by decide) trivial) (.nil _)
  · have hnone : {q | (Memory.view [] name q).isSome} = ∅ :=
      Set.eq_empty_iff_forall_notMem.mpr fun q hq => Bool.false_ne_true hq
    rw [hnone, Set.ncard_empty]
    exact le_refl 6

end GlobalsJs.Gdbsession
