import GlobalsJs.Gdbsession.Session

/-!
# The mode of the shell

Every command but `DO` sets `STATE` back before it ends. `DO` sets it to the program that it
starts, and leaves it alone when there is no such program, so that the lines that follow are given
to `DO` again.
-/

namespace GlobalsJs.Gdbsession

open Ecma Pieces Calls

def Call.Steady : Call → Prop
  | .setState _ => False
  | _ => True

abbrev Steady {α : Type} (p : Act α) : Prop := Prog.Only Call.Steady p

theorem steady_write (text : JsString) : Steady (write text) := .call trivial .ret

theorem steady_dir (o : Output) : Steady (dir o) := .call trivial .ret

theorem steady_log (text : JsString) : Steady (log text) :=
  (steady_write text).bind fun _ => steady_write _

theorem steady_writeAll {β : Type} (xs : List β) (text : β → JsString) :
    Steady (xs.forM fun x => write (text x)) := .forM fun _ _ => steady_write _

theorem steady_cache (c : CacheCall) : Steady (cache c) := .call trivial fun _ => .lift _

section Functions
variable (sh : Shell)

theorem steady_open_connection : Steady (open_connection sh) :=
  (steady_log _).bind fun _ => (steady_dir _).bind fun _ => steady_cache _

theorem steady_showFailure (result : Option Json) : Steady (showFailure result) := by
  refine (Prog.Only.lift _).bind fun ok => ?_
  split_ifs
  · exact .pure _
  · exact steady_dir _

theorem steady_global_directory_dump (global : JsString) : Steady (global_directory_dump sh global) := by
  refine (steady_cache _).bind fun _ => Prog.Only.bind ?_ fun _ => steady_cache _
  refine (steady_cache _).bind fun names => (steady_log _).bind fun _ => (steady_write _).bind fun _ => ?_
  refine (steady_dir _).bind fun _ => (steady_log _).bind fun _ => (steady_log _).bind fun _ => ?_
  exact (steady_write _).bind fun _ => steady_log _

theorem steady_spin (fuel : ℕ) (glo_ref : Node) : Steady (spin fuel glo_ref) := by
  induction fuel generalizing glo_ref with
  | zero => exact .throw _
  | succ fuel ih =>
    refine (steady_cache _).bind fun next => ?_
    split_ifs
    · exact .pure _
    · exact .pure _
    · exact (steady_log _).bind fun _ => ih _

theorem steady_dumpNode (dd glo_ref : Node) : Steady (dumpNode dd glo_ref) := by
  rw [dumpNode]
  split_ifs
  · exact (steady_cache _).bind fun _ => (steady_log _).bind fun _ => .pure _
  · exact .pure _

theorem steady_dumpRest (dd glo_ref : Node) : Steady (dumpRest sh dd glo_ref) := by
  rw [dumpRest]
  split_ifs
  · exact .pure _
  · exact steady_spin _ _

theorem steady_global_dump (global : JsString) : Steady (global_dump sh global) :=
  (steady_cache _).bind fun _ => (steady_cache _).bind fun dd => (steady_dumpNode dd _).bind fun glo_ref =>
    (steady_dumpRest sh dd glo_ref).bind fun _ => steady_cache _

theorem steady_showGlobals (global : JsString) : Steady (showGlobals sh global) := by
  rw [showGlobals]
  split_ifs
  · exact steady_global_directory_dump sh global
  · exact steady_global_dump sh global

end Functions

variable {σ α : Type} (db : Cache σ)

theorem run_steady {p : Act α} (hp : Steady p) (s : Session σ) :
    (Prog.run (answer db) p s).1.STATE = s.STATE := by
  refine hp.keeps (I := fun t : Session σ => t.STATE = s.STATE) (fun c hc t ht => ?_) rfl
  cases c with
  | setState h => cases hc
  | state | first | setFirst b | write o | cache c => exact ht

def ToMain (p : Act Unit) : Prop := ∀ s : Session σ,
  match Prog.run (answer db) p s with
  | (t, .ok _) => t.STATE = none
  | (t, .error _) => t.STATE = s.STATE

theorem ToMain.bind {p : Act α} {f : α → Act Unit} (hp : Steady p) (hf : ∀ a, ToMain db (f a)) :
    ToMain db (p >>= f) := by
  intro s
  have hkept := run_steady db hp s
  rw [Prog.run_bind]
  generalize Prog.run (answer db) p s = r at hkept
  obtain ⟨t, x⟩ := r
  cases x with
  | error e => exact hkept
  | ok a =>
    have hrest := hf a t
    rwa [hkept] at hrest

variable (sh : Shell)

theorem toMain_toMain : ToMain db (toMain sh) := by
  intro s
  rfl

theorem toMain_HELP : ToMain db (HELP sh) := by
  refine .bind db (steady_log _) fun _ => .bind db (steady_log _) fun _ => .bind db (steady_log _) fun _ => ?_
  refine .bind db (steady_writeAll _ _) fun _ => .bind db (steady_log _) fun _ => ?_
  refine .bind db (steady_writeAll _ _) fun _ => ?_
  exact .bind db (steady_log _) fun _ => toMain_toMain db sh

theorem toMain_SET (cmd : JsString) : ToMain db (SET sh cmd) := by
  rw [SET]
  cases parse_glb_ref cmd with
  | none => exact toMain_toMain db sh
  | some glo_ref =>
    refine .bind db (steady_dir _) fun _ => .bind db (steady_open_connection sh) fun _ => ?_
    refine .bind db (steady_cache _) fun result => .bind db (steady_showFailure result) fun _ => ?_
    exact .bind db (steady_cache _) fun _ => toMain_toMain db sh

theorem toMain_KILL (cmd : JsString) : ToMain db (KILL sh cmd) := by
  rw [KILL]
  cases parse_glb_ref cmd with
  | none => exact toMain_toMain db sh
  | some glo_ref =>
    refine .bind db (steady_open_connection sh) fun _ => .bind db (steady_write _) fun _ => ?_
    refine .bind db (steady_dir _) fun _ => .bind db (steady_cache _) fun result => ?_
    exact .bind db (steady_showFailure result) fun _ => .bind db (steady_cache _) fun _ => toMain_toMain db sh

theorem run_percent_G (cmd : JsString) (s : Session σ) :
    (Prog.run (answer db) (percent_G sh cmd) s).1.STATE = none ∨
      (Prog.run (answer db) (percent_G sh cmd) s).1.STATE = s.STATE := by
  have hfirst : Prog.run (answer db) (percent_G sh cmd) s =
      Prog.run (answer db) (if s.percent_G_first then do write gprompt; setPercentGFirst false
        else if cmd = js "undefined" then do setState none; setPercentGFirst true; write sh.main_prompt
        else do showGlobals sh cmd; write gprompt) s := rfl
  rw [hfirst]
  split_ifs
  · exact .inr rfl
  · exact .inl rfl
  · exact .inr (run_steady db ((steady_showGlobals sh cmd).bind fun _ => steady_write _) s)

/-- The next line is read as a command or by `%G`. -/
def Session.AtPrompt (s : Session σ) : Prop := s.STATE = none ∨ s.STATE = some (.program .percent_G)

/-- The function that is called with the line. -/
def Shell.dispatched (s : Session σ) (line : JsString) : Option Handler :=
  match s.STATE with
  | some h => some h
  | none => COMMANDS (sh.first (command line))

/-- The line starts `%G`, or names a member of every object whose call raises an error. -/
def Starts (line : JsString) : Prop :=
  programName (command line) ∈ [js "^%G", js "__proto__", js "__defineGetter__", js "__defineSetter__"]

theorem PROGRAMS_starts {line : JsString} (h : Starts line) :
    PROGRAMS (programName (command line)) = some .percent_G ∨
      ∃ m : ObjectMember, PROGRAMS (programName (command line)) = some (.inherited m) ∧ ∀ b, m.raises b := by
  have hall : ∀ key ∈ [js "^%G", js "__proto__", js "__defineGetter__", js "__defineSetter__"],
      PROGRAMS key = some .percent_G ∨
        ∃ m ∈ ObjectMember.all, PROGRAMS key = some (.inherited m) ∧ ∀ b, m.raises b := by decide
  rcases hall _ h with hprogram | ⟨m, -, hm⟩
  · exact .inl hprogram
  · exact .inr ⟨m, hm⟩

theorem PROGRAMS_not_starts {line : JsString} (h : ¬ Starts line) :
    PROGRAMS (programName (command line)) = none ∨
      ∃ m : ObjectMember, PROGRAMS (programName (command line)) = some (.inherited m) ∧ m.raises true = false := by
  have hown : programTable.lookup (programName (command line)) = none := by
    have hkey : programName (command line) ≠ js "^%G" := fun hkey => h (by rw [Starts, hkey]; decide)
    rw [programTable, List.lookup_cons, beq_false_of_ne hkey]
    rfl
  rw [PROGRAMS, hown, Option.none_or]
  cases hnamed : ObjectMember.named (programName (command line)) with
  | none => exact .inl rfl
  | some m =>
    refine .inr ⟨m, rfl, ?_⟩
    have hname : m.name = programName (command line) := by simpa using List.find?_some hnamed
    rw [Starts, ← hname] at h
    revert h
    cases m <;> decide

theorem COMMANDS_own {cmd : JsString} {h : Handler} (hcommand : COMMANDS (sh.first cmd) = some h) (p : Program) :
    h ≠ .program p := by
  have hsmall : ∀ m : ObjectMember, ∃ c ∈ m.name, 97 ≤ c ∧ c ≤ 122 := by
    intro m
    cases m <;> decide
  have hnamed : ObjectMember.named (sh.first cmd) = none := by
    cases hm : ObjectMember.named (sh.first cmd) with
    | none => rfl
    | some m =>
      have hname : m.name = sh.first cmd := by simpa using List.find?_some hm
      obtain ⟨c, hc, hrange⟩ := hsmall m
      exact absurd hrange (sh.casing.upper _ c (hname ▸ hc))
  rw [COMMANDS, hnamed, Option.map_none, Option.or_none, List.lookup_eq_some_iff] at hcommand
  obtain ⟨before, after, htable, -⟩ := hcommand
  have hown : ∀ e ∈ commandTable, e.2 ∈ [Handler.SET, .KILL, .DO, .HALT, .HELP] := by decide
  have hmem := hown (sh.first cmd, h) (by rw [htable]; simp)
  rintro rfl
  simp at hmem

theorem run_undispatched {s : Session σ} {line : JsString} (hnone : sh.dispatched s line = none) :
    Prog.run (answer db) (processInputMain sh line) s = Prog.run (answer db) (toMain sh) s := by
  have hstate : Prog.run (answer db) getState s = (s, .ok s.STATE) := rfl
  rw [Shell.dispatched] at hnone
  rw [processInputMain, Prog.run_bind_ok hstate]
  cases hs : s.STATE with
  | some h =>
    rw [hs] at hnone
    cases hnone
  | none =>
    rw [hs] at hnone
    dsimp only at hnone ⊢
    rw [hnone]

theorem run_dispatched {s : Session σ} {line : JsString} {h : Handler} (hsome : sh.dispatched s line = some h) :
    ∃ asMethod, (asMethod = false → s.STATE = some h) ∧
      (asMethod = true → COMMANDS (sh.first (command line)) = some h) ∧
      Prog.run (answer db) (processInputMain sh line) s =
        Prog.run (answer db) (callHandler sh asMethod (command line) h) { s with STATE := some h } := by
  have hstate : Prog.run (answer db) getState s = (s, .ok s.STATE) := rfl
  rw [Shell.dispatched] at hsome
  rw [processInputMain, Prog.run_bind_ok hstate]
  cases hs : s.STATE with
  | some h' =>
    rw [hs] at hsome
    obtain rfl := Option.some.inj hsome
    have hself : { s with STATE := some h' } = s := by rw [← hs]
    exact ⟨false, fun _ => rfl, Bool.noConfusion, by rw [hself]⟩
  | none =>
    rw [hs] at hsome
    refine ⟨true, Bool.noConfusion, fun _ => hsome, ?_⟩
    dsimp only at hsome ⊢
    rw [hsome]
    rfl

structure Session.Settled (s : Session σ) : Prop where
  not_do : s.STATE ≠ some .DO
  raises : ∀ m, s.STATE = some (.program (.inherited m)) → m.raises false

theorem settled_of_none {s : Session σ} (hs : s.STATE = none) : s.Settled := by
  constructor
  · simp [hs]
  · simp [hs]

theorem settled_of_some {s : Session σ} {h : Handler} (hdo : h ≠ .DO)
    (hraises : ∀ m, h = .program (.inherited m) → m.raises false) (hs : s.STATE = none ∨ s.STATE = some h) :
    s.Settled := by
  rcases hs with hs | hs
  · exact settled_of_none hs
  · constructor
    · rw [hs]
      exact fun heq => hdo (Option.some.inj heq)
    · intro m hm
      exact hraises m (Option.some.inj (hs.symm.trans hm))

structure ComesBack (mode : Option Handler) (r : Session σ × Except Stop Unit) : Prop where
  mode : r.1.STATE = none ∨ r.1.STATE = mode
  prompt : r.2 = .ok () → r.1.AtPrompt

structure Keeps (r : Session σ × Except Stop Unit) : Prop where
  settled : r.1.Settled
  prompt : r.2 = .ok () → r.1.AtPrompt

theorem ComesBack.keeps {h : Handler} {r : Session σ × Except Stop Unit} (hr : ComesBack (some h) r)
    (hdo : h ≠ .DO) (hraises : ∀ m, h = .program (.inherited m) → m.raises false) : Keeps r :=
  ⟨settled_of_some hdo hraises hr.mode, hr.prompt⟩

variable {db} in
theorem ToMain.comesBack {p : Act Unit} (hp : ToMain db p) (s : Session σ) :
    ComesBack s.STATE (Prog.run (answer db) p s) := by
  have hs := hp s
  generalize Prog.run (answer db) p s = r at hs
  obtain ⟨t, x⟩ := r
  cases x with
  | ok u => exact ⟨.inl hs, fun _ => .inl hs⟩
  | error e =>
    refine ⟨.inr hs, fun hok => ?_⟩
    cases hok

theorem run_callHandler {h : Handler} (hdo : h ≠ .DO) {asMethod : Bool}
    (hraises : ∀ m, h = .program (.inherited m) → m.raises asMethod) (cmd : JsString) {s : Session σ}
    (hs : s.STATE = some h) : ComesBack (some h) (Prog.run (answer db) (callHandler sh asMethod cmd h) s) := by
  rw [← hs]
  cases h with
  | SET => exact (toMain_SET db sh cmd).comesBack s
  | KILL => exact (toMain_KILL db sh cmd).comesBack s
  | DO => exact absurd rfl hdo
  | HALT =>
    refine ⟨.inr rfl, fun hok => ?_⟩
    cases hok
  | HELP => exact (toMain_HELP db sh).comesBack s
  | program p =>
    cases p with
    | percent_G =>
      have hleft := run_percent_G db sh cmd s
      exact ⟨hleft, fun _ => hleft.imp_right fun hstate => hstate.trans hs⟩
    | inherited m =>
      have hraise : callHandler sh asMethod cmd (.program (.inherited m)) = raise .typeError := by
        rw [callHandler, callProgram, if_pos (hraises m rfl)]
      rw [hraise]
      refine ⟨.inr rfl, fun hok => ?_⟩
      cases hok

theorem run_DO {cmd : JsString} {p : Program} (hp : PROGRAMS (programName cmd) = some p) (s : Session σ) :
    Prog.run (answer db) (DO sh cmd) s =
      Prog.run (answer db) (callProgram sh true cmd p) { s with STATE := some (.program p) } := by
  rw [DO, hp]
  rfl

theorem run_DO_starts {line : JsString} (hstarts : Starts line) (s : Session σ) :
    Keeps (Prog.run (answer db) (DO sh (command line)) s) := by
  have hcall : ∀ p : Program, PROGRAMS (programName (command line)) = some p →
      (∀ b m, p = .inherited m → m.raises b) → Keeps (Prog.run (answer db) (DO sh (command line)) s) := by
    intro p hp hraises
    have hraises' : ∀ b m, Handler.program p = .program (.inherited m) → m.raises b :=
      fun b m heq => hraises b m (Handler.program.inj heq)
    have hback := run_callHandler db sh (h := .program p) (by simp) (hraises' true) (command line)
      (s := { s with STATE := some (.program p) }) rfl
    rw [run_DO db sh hp]
    exact hback.keeps (by simp) (hraises' false)
  rcases PROGRAMS_starts hstarts with hp | ⟨m, hp, hm⟩
  · exact hcall _ hp fun b m heq => by cases heq
  · refine hcall _ hp fun b m' heq => ?_
    cases heq
    exact hm b

theorem run_DO_not_starts {line : JsString} (hstarts : ¬ Starts line) {s : Session σ} (hs : s.STATE = some .DO) :
    (Prog.run (answer db) (DO sh (command line)) s).2 = .ok () ∧
      ¬ (Prog.run (answer db) (DO sh (command line)) s).1.AtPrompt := by
  rcases PROGRAMS_not_starts hstarts with hp | ⟨m, hp, hm⟩
  · have hrun : Prog.run (answer db) (DO sh (command line)) s = (s, .ok ()) := by
      rw [DO, hp]
      rfl
    rw [hrun]
    refine ⟨rfl, ?_⟩
    simp [Session.AtPrompt, hs]
  · have hcall : callProgram sh true (command line) (.inherited m) = pure () := by
      rw [callProgram, hm]
      rfl
    rw [run_DO db sh hp, hcall]
    refine ⟨rfl, ?_⟩
    simp [Session.AtPrompt]

theorem run_line {s : Session σ} (hs : s.Settled) {line : JsString}
    (hstarts : sh.dispatched s line = some .DO → Starts line) :
    Keeps (Prog.run (answer db) (processInputMain sh line) s) := by
  cases hd : sh.dispatched s line with
  | none =>
    rw [run_undispatched db sh hd]
    exact ⟨settled_of_none rfl, ((toMain_toMain db sh).comesBack s).prompt⟩
  | some h =>
    obtain ⟨asMethod, hkept, hcommand, hrun⟩ := run_dispatched db sh hd
    rw [hrun]
    by_cases hdo : h = .DO
    · subst hdo
      exact run_DO_starts db sh (hstarts hd) _
    · have hraises : ∀ m, h = .program (.inherited m) → m.raises asMethod ∧ m.raises false := by
        intro m heq
        cases asMethod with
        | false => exact and_self_iff.mpr (hs.raises m (heq ▸ hkept rfl))
        | true => exact absurd heq (COMMANDS_own sh (hcommand rfl) _)
      have hback := run_callHandler db sh hdo (fun m heq => (hraises m heq).1) (command line)
        (s := { s with STATE := some h }) rfl
      exact hback.keeps hdo fun m heq => (hraises m heq).2

theorem step_not_starts {s : Session σ} {line : JsString} (hdo : sh.dispatched s line = some .DO)
    (hstarts : ¬ Starts line) :
    (step sh db s line).result = .ok () ∧ ¬ (step sh db s line).after.AtPrompt := by
  obtain ⟨asMethod, -, -, hrun⟩ := run_dispatched db sh hdo
  rw [step_after, step_result, hrun]
  exact run_DO_not_starts db sh hstarts rfl

theorem steps_settled {s : Session σ} (hs : s.Settled) {lines : List JsString}
    (hstarts : ∀ st ∈ steps sh db s lines, sh.dispatched st.before st.line = some .DO → Starts st.line) :
    ∀ st ∈ steps sh db s lines, st.result = .ok () → st.after.AtPrompt := by
  induction lines generalizing s with
  | nil => exact fun st hst => absurd hst List.not_mem_nil
  | cons line lines ih =>
    rw [steps] at hstarts ⊢
    have hkeeps := run_line db sh hs (hstarts _ List.mem_cons_self)
    have hrest : ∀ st ∈ (if (step sh db s line).isLast then [] else steps sh db (step sh db s line).after lines),
        sh.dispatched st.before st.line = some .DO → Starts st.line :=
      fun st hst => hstarts st (List.mem_cons_of_mem _ hst)
    intro st hst
    rcases List.mem_cons.mp hst with rfl | hst
    · exact hkeeps.prompt
    · split_ifs at hst hrest
      · cases hst
      · exact ih hkeeps.settled hrest st hst

theorem eq_step_of_mem {s : Session σ} {lines : List JsString} {st : Step σ} (hst : st ∈ steps sh db s lines) :
    st = step sh db st.before st.line := by
  induction lines generalizing s with
  | nil => cases hst
  | cons line lines ih =>
    rw [steps] at hst
    rcases List.mem_cons.mp hst with rfl | hst
    · rfl
    · split_ifs at hst
      · cases hst
      · exact ih hst

/-- In every session the shell is at a prompt after each line that ends if each line that is given
to `DO` starts `%G` or raises an error, and only then. -/
theorem at_prompt_iff (database : σ) (lines : List JsString) :
    (∀ st ∈ steps sh db (.start database) lines, st.result = .ok () → st.after.AtPrompt) ↔
      ∀ st ∈ steps sh db (.start database) lines,
        sh.dispatched st.before st.line = some .DO → Starts st.line := by
  constructor
  · intro hprompt st hst hdo
    by_contra hstarts
    have hstep := step_not_starts db sh hdo hstarts
    rw [← eq_step_of_mem db sh hst] at hstep
    exact hstep.2 (hprompt st hst hstep.1)
  · exact steps_settled db sh (settled_of_none rfl)

/-- After `DO foo` the lines that follow are given to `DO`. -/
theorem do_foo_not_at_prompt :
    let sh : Shell := ⟨js "gdbsession", js "/globals/mgr", .ascii, 0⟩
    let db : Cache Unit := fun _ u => (u, .error .typeError)
    ¬ ∀ st ∈ steps sh db (.start ()) [js "(DO foo\n)"], st.result = .ok () → st.after.AtPrompt := by
  intro sh db hprompt
  have hstep := hprompt (step sh db (.start ()) (js "(DO foo\n)")) List.mem_cons_self rfl
  have hmode : (step sh db (.start ()) (js "(DO foo\n)")).after.STATE = some .DO := rfl
  rw [Session.AtPrompt, hmode] at hstep
  revert hstep
  decide

end GlobalsJs.Gdbsession
