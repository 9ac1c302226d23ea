import Treewalk.Proofs.Execution.Agreement
import Treewalk.Proofs.Grammar.Lines

namespace Treewalk

namespace Verdict

def ofTokens (ts : List Token) (reported : List Diagnostic) : Except (List Diagnostic) (List Statement) :=
  Diagnostic.keep (reported ++ (Statement.parse ts).diagnostics) (Statement.parse ts).statements

def mapLines (f : Nat → Nat) :
    Except (List Diagnostic) (List Statement) → Except (List Diagnostic) (List Statement)
  | .ok ss => .ok (ss.map (Statement.mapLines f))
  | .error ds => .error (ds.map (Diagnostic.mapLine f))

theorem keep_mapLines (f : Nat → Nat) (ds : List Diagnostic) (ss : List Statement) :
    mapLines f (Diagnostic.keep ds ss) =
      Diagnostic.keep (ds.map (Diagnostic.mapLine f)) (ss.map (Statement.mapLines f)) := by
  cases ds <;> rfl

theorem ofTokens_mapLines (f : Nat → Nat) {ts : List Token} (h : Token.Ended ts) (ds : List Diagnostic) :
    mapLines f (ofTokens ts ds) = ofTokens (ts.map (Token.mapLine f)) (ds.map (Diagnostic.mapLine f)) := by
  have hparse := Statement.parse_relined f h
  rw [ofTokens, ofTokens, keep_mapLines, hparse.statements, hparse.diagnostics, List.map_append]

end Verdict

theorem Program.accepted_eq (source : String) :
    (ofSource source).accepted = Verdict.ofTokens (scan source).tokens (scan source).diagnostics := rfl

theorem Program.accepted_mapLines (f : Nat → Nat) (source : String) :
    Verdict.mapLines f (ofSource source).accepted =
      Verdict.ofTokens ((scan source).tokens.map (Token.mapLine f))
        ((scan source).diagnostics.map (Diagnostic.mapLine f)) :=
  Verdict.ofTokens_mapLines f (scan_terminated source).ended _

theorem Effect.run_mapLine {W : Type} [Sink W] (f : Nat → Nat) (source : String) {m m' : Machine W}
    (h : m.Alike Eq m') :
    (of (Machine.run source m)).mapLine f =
      match Verdict.mapLines f (Program.ofSource source).accepted with
      | .ok ss => ofExec (Statement.execAll ss m')
      | .error ds => ⟨.error (.static ds), m'.environment, m'.output⟩ := by
  rw [of_run]
  cases (Program.ofSource source).accepted with
  | ok ss =>
    have hexec := execAll_mapLines f ss h
    rw [Statement.mapLinesAll_eq_map] at hexec
    exact hexec.symm
  | error ds =>
    rw [h.environment, ← h.output]
    rfl

theorem layout_makes_no_difference (a b : String)
    (htokens : (scan a).tokens.map (Token.mapLine fun _ => 0) =
      (scan b).tokens.map (Token.mapLine fun _ => 0))
    (herrors : (scan a).diagnostics.map Diagnostic.complaint =
      (scan b).diagnostics.map Diagnostic.complaint) :
    Verdict.mapLines (fun _ => 0) (Program.ofSource a).accepted =
        Verdict.mapLines (fun _ => 0) (Program.ofSource b).accepted ∧
      ∀ (W : Type) [Sink W] (environment : Environment) (output : W) (log log' : Array Record),
        (Effect.of (Machine.run a ⟨environment, output, log⟩)).mapLine (fun _ => 0) =
          (Effect.of (Machine.run b ⟨environment, output, log'⟩)).mapLine (fun _ => 0) := by
  have hcomplaint (ds : List Diagnostic) : ds.map (Diagnostic.mapLine fun _ => 0) =
      (ds.map Diagnostic.complaint).map fun complaint => ⟨complaint, 0⟩ := by
    rw [List.map_map]
    rfl
  have hverdict : Verdict.mapLines (fun _ => 0) (Program.ofSource a).accepted =
      Verdict.mapLines (fun _ => 0) (Program.ofSource b).accepted := by
    rw [Program.accepted_mapLines, Program.accepted_mapLines, htokens, hcomplaint, hcomplaint, herrors]
  refine ⟨hverdict, fun W _ environment output log log' => ?_⟩
  have alike (log : Array Record) :
      Machine.Alike Eq (⟨environment, output, log⟩ : Machine W) ⟨environment, output, #[]⟩ := ⟨rfl, rfl⟩
  rw [Effect.run_mapLine _ a (alike log), Effect.run_mapLine _ b (alike log'), hverdict]

theorem layout_makes_no_difference_spread :
    let a := "\x7bvar s=\"a\";print s+t;\x7d"
    let b := "\x7b // open\n  var s =\n\"a\";\n\tprint s\n+ t; \x7d\n"
    (scan a).tokens.map (Token.mapLine fun _ => 0) = (scan b).tokens.map (Token.mapLine fun _ => 0) ∧
      (scan a).diagnostics.map Diagnostic.complaint = (scan b).diagnostics.map Diagnostic.complaint ∧
      (Effect.of (Machine.run a (.new ByteArray.empty))).mapLine (fun _ => 0) =
        (Effect.of (Machine.run b (.new ByteArray.empty))).mapLine (fun _ => 0) := by
  intro a b
  have htokens : (scan a).tokens.map (Token.mapLine fun _ => 0) =
      (scan b).tokens.map (Token.mapLine fun _ => 0) := by
    decide +kernel
  have herrors : (scan a).diagnostics.map Diagnostic.complaint =
      (scan b).diagnostics.map Diagnostic.complaint := by
    decide +kernel
  have hsame := (layout_makes_no_difference a b htokens herrors).2
  exact ⟨htokens, herrors, hsame ByteArray .initial .empty #[] #[]⟩

end Treewalk
