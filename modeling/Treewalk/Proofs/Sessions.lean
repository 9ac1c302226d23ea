import Treewalk.CommandLine.Session
import Treewalk.Proofs.Joining

namespace Treewalk

namespace Effect

def onto (printed : ByteArray) (x : Effect ByteArray) : Effect ByteArray :=
  { x with output := printed ++ x.output }

theorem execAll_onto (ss : List Statement) (environment : Environment) (printed : ByteArray)
    (log : Array Record) :
    ofExec (Statement.execAll ss ⟨environment, printed, log⟩) =
      (ofExec (Statement.execAll ss ⟨environment, ByteArray.empty, #[]⟩)).onto printed := by
  have follows : Sink.Corresponds fun o o' : ByteArray => o' = printed ++ o := by
    rintro o o' bytes rfl
    exact ⟨ByteArray.append_assoc, rfl⟩
  have alike : Machine.Alike (fun o o' : ByteArray => o' = printed ++ o)
      ⟨environment, ByteArray.empty, #[]⟩ ⟨environment, printed, log⟩ := ⟨rfl, ByteArray.append_empty.symm⟩
  have hexec := Statement.execAll_mirrors (f := id) follows ss _ _ alike
  rw [Statement.mapLinesAll_id] at hexec
  obtain ⟨hr, he, ho⟩ := ofExec_matches hexec
  have hid := congrArg result (mapLine_id (ofExec (Statement.execAll ss ⟨environment, ByteArray.empty, #[]⟩)))
  rw [onto, ← ho, ← he, ← hid]
  exact congrArg (Effect.mk · _ _) hr

theorem run_onto {source source' : String}
    (h : (Program.ofSource source').accepted = (Program.ofSource source).accepted)
    (environment : Environment) (printed : ByteArray) (log : Array Record) :
    of (Machine.run source' ⟨environment, printed, log⟩) =
      (of (Machine.run source ⟨environment, ByteArray.empty, #[]⟩)).onto printed := by
  rw [of_run, of_run, h]
  cases (Program.ofSource source).accepted with
  | ok ss => exact execAll_onto ss environment printed log
  | error ds => exact congrArg (Effect.mk _ _) ByteArray.append_empty.symm

end Effect

namespace CommandLine

def transcript (environment : Environment) : List String → List (Effect ByteArray)
  | [] => []
  | line :: lines =>
      let x := Effect.of (Machine.run line ⟨environment, ByteArray.empty, #[]⟩)
      x :: transcript x.environment lines

def prompted : List (Effect ByteArray) → ByteArray
  | [] => "> ".toUTF8
  | x :: xs => "> ".toUTF8 ++ x.output ++ prompted xs

def untilFailure : List (Effect ByteArray) → ByteArray
  | [] => .empty
  | x :: xs =>
      match x.result with
      | .ok _ => x.output ++ untilFailure xs
      | .error _ => x.output

namespace Session

theorem foldl_tell (rs : List Record) (say : Record → String) (s : Session) :
    ∃ told, rs.foldl (fun s r => s.tell (say r)) s = { s with told } := by
  induction rs generalizing s with
  | nil => exact ⟨s.told, rfl⟩
  | cons r rs ih => exact ih (s.tell (say r))

theorem tellLog_eq (s : Session) :
    ∃ told, s.tellLog = { s with machine := { s.machine with log := #[] }, told } :=
  foldl_tell _ _ _

theorem handle_keeps (s : Session) (hs : s.options.printTrees = false) (source : String) :
    (s.handle source).1.machine.environment = (Effect.of (Machine.run source s.machine)).environment ∧
      (s.handle source).1.machine.output = (Effect.of (Machine.run source s.machine)).output ∧
      (s.handle source).1.options = s.options := by
  have hact : act s.options source = Machine.run source := if_neg (by simp [hs])
  unfold handle
  rw [hact]
  cases Machine.run source s.machine with
  | ok _ m =>
    obtain ⟨told, htold⟩ := tellLog_eq { s with machine := m }
    dsimp only
    rw [htold]
    exact ⟨rfl, rfl, rfl⟩
  | error failure m =>
    obtain ⟨told, htold⟩ := tellLog_eq { s with machine := m }
    dsimp only
    rw [htold]
    exact ⟨rfl, rfl, rfl⟩

-- The source that is typed may differ from the one that is run, as a typed line ends with a line break.
theorem ask_handle (s : Session) (hs : s.options.printTrees = false) {source typed : String}
    (h : (Program.ofSource typed).accepted = (Program.ofSource source).accepted) :
    let x := Effect.of (Machine.run source ⟨s.machine.environment, ByteArray.empty, #[]⟩)
    (s.ask.handle typed).1.machine.environment = x.environment ∧
      (s.ask.handle typed).1.machine.output = s.machine.output ++ "> ".toUTF8 ++ x.output ∧
      (s.ask.handle typed).1.options = s.options := by
  intro x
  obtain ⟨henvironment, houtput, hoptions⟩ := s.ask.handle_keeps hs typed
  have hrun := Effect.run_onto h s.machine.environment (s.machine.output ++ "> ".toUTF8) s.machine.log
  refine ⟨henvironment.trans ?_, houtput.trans ?_, hoptions⟩
  · exact (congrArg Effect.environment hrun :)
  · exact (congrArg Effect.output hrun :)

end Session

theorem fromUTF8_toUTF8 (text : String) : String.fromUTF8? text.toUTF8 = some text := by
  exact dif_pos text.isValidUTF8

theorem accepted_line {line : String} {ss : List Statement}
    (h : (Program.ofSource line).accepted = .ok ss) :
    (Program.ofSource (line ++ "\n")).accepted = (Program.ofSource line).accepted := by
  have hempty : (Program.ofSource "").accepted = .ok [] := by rfl
  have hline := Program.accepted_newLine h ""
  rw [hempty, String.append_empty] at hline
  rw [hline, h]
  exact congrArg Except.ok (List.append_nil ss)

theorem accepted_lines {lines : List String}
    (h : ∀ line ∈ lines, ∃ ss, (Program.ofSource line).accepted = .ok ss) :
    ∃ ss, (Program.ofSource ("\n".intercalate lines)).accepted = .ok ss := by
  induction lines with
  | nil => exact ⟨[], rfl⟩
  | cons line lines ih =>
    obtain ⟨⟨sa, ha⟩, hlines⟩ := List.forall_mem_cons.mp h
    cases lines with
    | nil =>
      rw [String.intercalate_singleton]
      exact ⟨sa, ha⟩
    | cons next lines =>
      obtain ⟨sb, hb⟩ := ih hlines
      rw [String.intercalate_cons_cons, Program.accepted_newLine ha, hb]
      exact ⟨_, rfl⟩

theorem prompt_output (s : Session) (hs : s.options.printTrees = false) (lines : List String)
    (h : ∀ line ∈ lines, ∃ ss, (Program.ofSource line).accepted = .ok ss) :
    (s.prompt (lines.map fun line => (line ++ "\n").toUTF8)).output =
      s.machine.output ++ prompted (transcript s.machine.environment lines) := by
  induction lines generalizing s with
  | nil => rfl
  | cons line lines ih =>
    obtain ⟨⟨ss, hline⟩, hlines⟩ := List.forall_mem_cons.mp h
    have hanswer : s.ask.answer (line ++ "\n").toUTF8 = .ok (s.ask.handle (line ++ "\n")).1 := by
      rw [Session.answer, fromUTF8_toUTF8]
    obtain ⟨henvironment, houtput, hoptions⟩ := s.ask_handle hs (accepted_line hline)
    rw [List.map_cons, Session.prompt, hanswer]
    dsimp only
    rw [ih _ (hoptions ▸ hs) hlines, henvironment, houtput, transcript, prompted]
    simp only [ByteArray.append_assoc]

theorem lines_output (lines : List String)
    (h : ∀ line ∈ lines, ∃ ss, (Program.ofSource line).accepted = .ok ss) (environment : Environment)
    (printed : ByteArray) (log : Array Record) :
    (Effect.of (Machine.run ("\n".intercalate lines) ⟨environment, printed, log⟩)).output =
      printed ++ untilFailure (transcript environment lines) := by
  induction lines generalizing environment printed log with
  | nil => exact ByteArray.append_empty.symm
  | cons line lines ih =>
    obtain ⟨⟨sa, ha⟩, hlines⟩ := List.forall_mem_cons.mp h
    have hfirst := Effect.run_onto (rfl : (Program.ofSource line).accepted = _) environment printed log
    cases lines with
    | nil =>
      rw [String.intercalate_singleton, hfirst, transcript, transcript, untilFailure, untilFailure]
      cases (Effect.of (Machine.run line ⟨environment, ByteArray.empty, #[]⟩)).result with
      | ok => exact congrArg (printed ++ ·) ByteArray.append_empty.symm
      | error => rfl
    | cons next lines =>
      obtain ⟨sb, hb⟩ := accepted_lines hlines
      rw [String.intercalate_cons_cons, Effect.run_newLine ha hb, transcript, untilFailure]
      cases hr : Machine.run line ⟨environment, printed, log⟩ with
      | ok _ m =>
        rw [hr] at hfirst
        obtain ⟨hresult, hvariables, houtput⟩ := Effect.mk.inj hfirst
        rw [← hresult, ← hvariables]
        dsimp only
        rw [← ByteArray.append_assoc, ← houtput]
        exact ih hlines m.environment m.output m.log
      | error failure m =>
        rw [hr] at hfirst
        obtain ⟨hresult, -, houtput⟩ := Effect.mk.inj hfirst
        rw [← hresult]
        exact houtput

theorem script_output (s : Session) (hs : s.options.printTrees = false) (path : String)
    (lines : List String) (h : ∀ line ∈ lines, ∃ ss, (Program.ofSource line).accepted = .ok ss) :
    (s.runScript path (.ok ("\n".intercalate lines).toUTF8)).output =
      s.machine.output ++ untilFailure (transcript s.machine.environment lines) := by
  unfold Session.runScript
  dsimp only
  rw [fromUTF8_toUTF8]
  obtain ⟨-, ho, -⟩ := Session.handle_keeps
    { s with machine := { s.machine with
      log := s.machine.log.push (.read ("\n".intercalate lines).utf8ByteSize path) } } hs
    ("\n".intercalate lines)
  exact ho.trans (lines_output lines h ..)

theorem newLine_joins_sources (a b : String) (sa : List Statement)
    (ha : (Program.ofSource a).accepted = .ok sa) :
    (∀ sb, (Program.ofSource b).accepted = .ok sb →
      (Program.ofSource (a ++ "\n" ++ b)).accepted =
        .ok (sa ++ sb.map (Statement.mapLines (· + (1 + a.toList.count '\n'))))) ∧
    (∀ ds, (Program.ofSource b).accepted = .error ds →
      (Program.ofSource (a ++ "\n" ++ b)).accepted =
        .error (ds.map (Diagnostic.mapLine (· + (1 + a.toList.count '\n'))))) ∧
    (∀ sb, (Program.ofSource b).accepted = .ok sb → ∀ (W : Type) [Sink W] (m : Machine W),
      Effect.of (Machine.run (a ++ "\n" ++ b) m) =
        match Machine.run a m with
        | .ok _ m' => (Effect.of (Machine.run b m')).mapLine (· + (1 + a.toList.count '\n'))
        | .error failure m' => Effect.of (.error failure m')) ∧
    ∀ (options : Options) (path : String) (lines : List String), options.printTrees = false →
      (∀ line ∈ lines, ∃ ss, (Program.ofSource line).accepted = .ok ss) →
      ((Session.new options).prompt (lines.map fun line => (line ++ "\n").toUTF8)).output =
          prompted (transcript .initial lines) ∧
        ((Session.new options).runScript path (.ok ("\n".intercalate lines).toUTF8)).output =
          untilFailure (transcript .initial lines) := by
  have hjoined := Program.accepted_newLine ha b
  refine ⟨fun sb hb => ?_, fun ds hb => ?_, fun sb hb W _ m => Effect.run_newLine ha hb m,
    fun options path lines htrees h => ⟨?_, ?_⟩⟩
  · rw [hjoined, hb]
    rfl
  · rw [hjoined, hb]
    rfl
  · rw [prompt_output _ htrees lines h]
    exact ByteArray.empty_append
  · rw [script_output _ htrees path lines h]
    exact ByteArray.empty_append

theorem newLine_joins_sources_failing :
    let a := "var s = \"a\"; // set\n"
    let lines := ["var s = \"a\"; // set", "print s;", "print t;", "print s;"]
    (Program.ofSource a).accepted = .ok [.declare "s" (some (.literal (.string "a") 1)) 1] ∧
      (Program.ofSource (a ++ "\n" ++ "print s;\nprint t;")).accepted =
        .ok [.declare "s" (some (.literal (.string "a") 1)) 1, .print (.variable "s" 3) 3,
          .print (.variable "t" 4) 4] ∧
      (Program.ofSource (a ++ "\n" ++ "print 1")).accepted =
        .error [⟨.unexpectedToken .endOfInput "Expect ';' after value.", 3⟩] ∧
      ((Session.new .initial).prompt (lines.map fun line => (line ++ "\n").toUTF8)).output =
        "> > a\n> > a\n> ".toUTF8 ∧
      ((Session.new .initial).runScript "lines" (.ok ("\n".intercalate lines).toUTF8)).output =
        "a\n".toUTF8 := by
  intro a lines
  have ha : (Program.ofSource a).accepted = .ok [.declare "s" (some (.literal (.string "a") 1)) 1] := by
    decide +kernel
  have hb : (Program.ofSource "print s;\nprint t;").accepted =
      .ok [.print (.variable "s" 1) 1, .print (.variable "t" 2) 2] := by
    decide +kernel
  have hb' : (Program.ofSource "print 1").accepted =
      .error [⟨.unexpectedToken .endOfInput "Expect ';' after value.", 1⟩] := by
    decide +kernel
  have hlines : ∀ line ∈ lines, ∃ ss, (Program.ofSource line).accepted = .ok ss := by
    have hok : ∀ line ∈ lines, (Program.ofSource line).diagnostics = [] := by decide +kernel
    intro line hline
    refine ⟨(Program.ofSource line).statements, ?_⟩
    rw [Program.accepted, hok line hline]
    rfl
  obtain ⟨hok, -, -, hscript⟩ := newLine_joins_sources a "print s;\nprint t;" _ ha
  obtain ⟨-, herror, -⟩ := newLine_joins_sources a "print 1" _ ha
  obtain ⟨hprompt, hrun⟩ := hscript .initial "lines" lines rfl hlines
  exact ⟨ha, (hok _ hb).trans (by decide +kernel), (herror _ hb').trans (by decide +kernel),
    hprompt.trans (by decide +kernel), hrun.trans (by decide +kernel)⟩

end CommandLine

end Treewalk
