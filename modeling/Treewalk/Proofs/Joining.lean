import Treewalk.Proofs.Layout
import Treewalk.Proofs.Lexical.Seam

namespace Treewalk

def Verdict.after (ss : List Statement) :
    Except (List Diagnostic) (List Statement) → Except (List Diagnostic) (List Statement)
  | .ok ts => .ok (ss ++ ts)
  | .error ds => .error ds

theorem Verdict.after_keep (ss ts : List Statement) (ds : List Diagnostic) :
    after ss (Diagnostic.keep ds ts) = Diagnostic.keep ds (ss ++ ts) := by
  cases ds <;> rfl

namespace Program

variable {a : String} {sa : List Statement}

theorem row_of_accepted {body : List Token} {q : Token} (h : (ofSource a).accepted = .ok sa)
    (hts : (scan a).tokens = body ++ [q]) :
    Row DerivesDeclaration body sa ∧ Statement.nestingAll sa ≤ 128 := by
  obtain ⟨hds, rfl⟩ := Diagnostic.keep_eq_ok h
  obtain ⟨-, hparse⟩ := List.append_eq_nil_iff.mp hds
  obtain ⟨used, hused, hrow, hn, hbefore, hend⟩ := Statement.parse_sound hparse
  obtain ⟨us, e, hus, he, hb⟩ := scan_terminated a
  obtain ⟨rfl, -⟩ := List.append_inj' (hts.symm.trans hus) rfl
  obtain rfl := Token.eq_of_split hb hbefore he hend (hus.symm.trans hused)
  exact ⟨hrow, hn⟩

theorem accepted_newLine (h : (ofSource a).accepted = .ok sa) (b : String) :
    (ofSource (a ++ "\n" ++ b)).accepted =
      Verdict.after sa (Verdict.mapLines (· + (1 + a.toList.count '\n')) (ofSource b).accepted) := by
  have hscan : (scan a).diagnostics = [] := (List.append_eq_nil_iff.mp (Diagnostic.keep_eq_ok h).1).1
  obtain ⟨body, line, hts, htokens, hdiagnostics⟩ := scan_newLine a b hscan
  obtain ⟨hrow, hn⟩ := row_of_accepted h hts
  rw [accepted_mapLines, accepted_eq, htokens, hdiagnostics]
  obtain ⟨hss, hds⟩ := Statement.parse_row hrow hn
    ((scan b).tokens.map (Token.mapLine (· + (1 + a.toList.count '\n'))))
  rw [Verdict.ofTokens, Verdict.ofTokens, hss, hds, Verdict.after_keep]

end Program

namespace Effect

variable {W : Type}

theorem of_eq_ofExec {r : EStateM.Result Failure (Machine W) Unit}
    {r' : EStateM.Result Abort (Machine W) Unit} (h : of r = ofExec r') :
    (∃ m m', r = .ok () m ∧ r' = .ok () m' ∧ m'.Alike Eq m) ∨
      ∃ stop m m', r = .error (.ofAbort stop) m ∧ r' = .error stop m' ∧ m'.Alike Eq m := by
  cases r with
  | ok _ m =>
    cases r' with
    | ok _ m' =>
      obtain ⟨-, he, ho⟩ := Effect.mk.inj h
      exact .inl ⟨m, m', rfl, rfl, he, ho.symm⟩
    | error stop m' => cases (Effect.mk.inj h).1
  | error failure m =>
    cases r' with
    | ok _ m' => cases (Effect.mk.inj h).1
    | error stop m' =>
      obtain ⟨hr, he, ho⟩ := Effect.mk.inj h
      cases hr
      exact .inr ⟨stop, m, m', rfl, rfl, he, ho.symm⟩

theorem run_newLine [Sink W] {a b : String} {sa sb : List Statement}
    (ha : (Program.ofSource a).accepted = .ok sa)
    (hb : (Program.ofSource b).accepted = .ok sb) (m : Machine W) :
    of (Machine.run (a ++ "\n" ++ b) m) =
      match Machine.run a m with
      | .ok _ m' => (of (Machine.run b m')).mapLine (· + (1 + a.toList.count '\n'))
      | .error failure m' => of (.error failure m') := by
  have hjoined := Program.accepted_newLine ha b
  have hfirst := of_run a m
  have hsecond (m' : Machine W) := of_run b m'
  rw [hb] at hjoined hsecond
  rw [ha] at hfirst
  rw [of_run, hjoined]
  change ofExec (Statement.execAll (sa ++ sb.map (Statement.mapLines _)) m) = _
  rw [Statement.execAll_append, ← Statement.mapLinesAll_eq_map]
  simp only [bind, EStateM.bind]
  rcases of_eq_ofExec hfirst with ⟨m', n, hr, he, hn⟩ | ⟨stop, m', n, hr, he, hn⟩
  · rw [hr, he]
    dsimp only
    rw [hsecond, ← execAll_mapLines _ sb (m := m') ⟨rfl, rfl⟩]
    exact execAll_alike _ ⟨hn.environment.symm, hn.output.symm⟩
  · rw [hr, he]
    change Effect.mk _ n.environment n.output = Effect.mk _ m'.environment m'.output
    rw [hn.environment, hn.output]

end Effect

end Treewalk
