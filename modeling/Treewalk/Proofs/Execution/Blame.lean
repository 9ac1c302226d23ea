import Treewalk.Proofs.Joining
import Treewalk.Proofs.Lexical.Passages

namespace Treewalk

open Machine

inductive Token.Raises (t : Token) : RuntimeError → Prop
  | number : t.kind = .symbol .minus → t.Raises ⟨.expectedNumber, t.line⟩
  | numbers {s : Symbol} : t.kind = .symbol s →
      s ∈ [.minus, .star, .slash, .greater, .greaterEqual, .less, .lessEqual] →
      t.Raises ⟨.expectedNumbers, t.line⟩
  | addition : t.kind = .symbol .plus → t.Raises ⟨.invalidAddition, t.line⟩
  | undefined : t.kind = .identifier → t.Raises ⟨.undefinedVariable t.lexeme, t.line⟩
  | output (reason : String) : t.kind = .keyword .print → t.Raises ⟨.output reason, t.line⟩

section Causes

variable {t : Token} {s : Symbol} {cause : Cause} {name : String} {line : Nat} {e : RuntimeError}

theorem Token.Raises.line_eq (h : t.Raises e) : t.line = e.line := by
  cases h <;> rfl

theorem Value.add_error {a b : Value} (h : a.add b = .error cause) : cause = .invalidAddition := by
  unfold Value.add at h
  split at h <;> cases h
  rfl

theorem Value.onNumbers_error {f : Float → Float → Value} {a b : Value} (h : a.onNumbers f b = .error cause) :
    cause = .expectedNumbers := by
  unfold Value.onNumbers at h
  split at h <;> cases h
  rfl

theorem Token.raises_prefixOperator {op : UnaryOp} {v : Value} (ht : t.kind = .symbol s)
    (hop : (s, op) ∈ prefixOperators) (h : op.apply v = .error cause) : t.Raises ⟨cause, t.line⟩ := by
  cases hop with
  | head => cases h
  | tail _ hop =>
    obtain ⟨⟩ := List.mem_singleton.mp hop
    cases v with
    | number x => cases h
    | _ =>
      cases h
      exact .number ht

theorem Token.raises_operator {n : Nonterminal} {op : BinaryOp} {a b : Value} (ht : t.kind = .symbol s)
    (hop : (s, op) ∈ n.operators) (h : op.apply a b = .error cause) : t.Raises ⟨cause, t.line⟩ := by
  have on_numbers {f : Float → Float → Value} (hf : a.onNumbers f b = .error cause)
      (hs : s ∈ [.minus, .star, .slash, .greater, .greaterEqual, .less, .lessEqual]) :
      t.Raises ⟨cause, t.line⟩ := by
    obtain rfl := Value.onNumbers_error hf
    exact .numbers ht hs
  obtain ⟨hkind, -⟩ := Nonterminal.mem_operators_iff.mp hop
  cases s with
  | plus =>
    cases hkind
    obtain rfl := Value.add_error h
    exact .addition ht
  | minus | star | slash | greater | greaterEqual | less | lessEqual =>
    cases hkind
    exact on_numbers h (by decide)
  | equalEqual | bangEqual =>
    cases hkind
    cases h
  | _ => cases hkind

theorem Environment.error_of_find {env : Environment} {α : Type} {use : ScopeId × Value → α}
    (h : (env.find name line).map use = .error (.error e)) : e = ⟨.undefinedVariable name, line⟩ := by
  unfold Environment.find at h
  split at h <;> cases h
  rfl

end Causes

def RaisedFrom {W α : Type} (ts : List Token) (act : Exec W α) : Prop :=
  ∀ m e m', act m = .error (.error e) m' → ∃ t ∈ ts, t.Raises e

namespace RaisedFrom

variable {W α β : Type} {ts us : List Token} {act : Exec W α} {line : Nat}

theorem mono (h : RaisedFrom ts act) (hts : ts ⊆ us) : RaisedFrom us act := by
  intro m e m' he
  obtain ⟨t, ht, hraises⟩ := h m e m' he
  exact ⟨t, hts ht, hraises⟩

theorem pure (a : α) : RaisedFrom ts (pure a : Exec W α) :=
  nofun

theorem bind {next : α → Exec W β} (h : RaisedFrom ts act) (hnext : ∀ a, RaisedFrom ts (next a)) :
    RaisedFrom ts (act >>= next) := by
  intro m e m' he
  simp only [Bind.bind, EStateM.bind] at he
  cases hact : act m with
  | ok a k =>
    rw [hact] at he
    exact hnext a k e m' he
  | error stop k =>
    rw [hact] at he
    cases he
    exact h m e m' hact

theorem ending {act last : Exec W Unit} (h : RaisedFrom ts act) (hlast : RaisedFrom ts last) :
    RaisedFrom ts (tryFinally act last) := by
  intro m e m' he
  simp only [tryFinally, tryFinally', Functor.map, EStateM.map] at he
  cases hact : act m with
  | ok a k =>
    rw [hact] at he
    dsimp only at he
    cases hend : last k with
    | ok _ n =>
      rw [hend] at he
      cases he
    | error stop n =>
      rw [hend] at he
      cases he
      exact hlast k e m' hend
  | error stop k =>
    rw [hact] at he
    dsimp only at he
    cases hend : last k with
    | ok _ n =>
      rw [hend] at he
      cases he
      exact h m e k hact
    | error stop n =>
      rw [hend] at he
      cases he
      exact hlast k e m' hend

theorem tell (r : Record) : RaisedFrom ts (tell r : Exec W Unit) :=
  nofun

theorem printLine [Sink W] {t : Token} (ht : t.kind = .keyword .print) (text : String) :
    RaisedFrom [t] (printLine text t.line : Exec W Unit) := by
  intro m e m' he
  unfold Machine.printLine at he
  split at he
  · cases he
  · cases he
    exact ⟨t, List.mem_singleton_self t, .output _ ht⟩

theorem raising {t : Token} {result : Except Cause Value}
    (h : ∀ cause, result = .error cause → t.Raises ⟨cause, t.line⟩) :
    RaisedFrom [t] (onEnvironment (raiseOn t.line result) : Exec W Value) := by
  intro m e m' he
  cases result with
  | ok v => cases he
  | error cause =>
    cases he
    exact ⟨t, List.mem_singleton_self t, h cause rfl⟩

theorem reading {x : Token} (hx : x.kind = .identifier) :
    RaisedFrom [x] (reading x.lexeme x.line : Exec W Value) := by
  intro m e m' he
  rw [reading_apply] at he
  split at he
  · cases he
  · rename_i hfails
    cases he
    rw [Environment.error_of_find hfails]
    exact ⟨x, List.mem_singleton_self x, .undefined hx⟩

theorem assigning {x : Token} (hx : x.kind = .identifier) (v : Value) :
    RaisedFrom [x] (assigning x.lexeme x.line v : Exec W Value) := by
  intro m e m' he
  rw [assigning_apply] at he
  split at he
  · cases he
  · rename_i hfails
    cases he
    rw [Environment.error_of_find hfails]
    exact ⟨x, List.mem_singleton_self x, .undefined hx⟩

theorem declaring (name : String) (line : Nat) (v : Value) :
    RaisedFrom ts (declaring name line v : Exec W Unit) := by
  intro m e m' he
  rw [declaring_apply, Environment.define] at he
  by_cases hcurrent : m.environment.current.index < m.environment.scopes.size
  · rw [if_pos hcurrent] at he
    cases he
  · rw [if_neg hcurrent] at he
    cases he

theorem entering : RaisedFrom ts (entering : Exec W ScopeId) := by
  intro m e m' he
  simp only [Machine.entering, onEnvironment, Environment.enter, Bind.bind, EStateM.bind] at he
  cases hdepth : m.environment.push.depth <;> rw [hdepth] at he <;> cases he

theorem leaving (enclosing : ScopeId) : RaisedFrom ts (leaving enclosing : Exec W Unit) := by
  intro m e m' he
  simp only [Machine.leaving, onEnvironment, Environment.leave, Bind.bind, EStateM.bind] at he
  cases hdepth : m.environment.depth <;> rw [hdepth] at he <;> cases he

theorem inNewScope {act : Exec W Unit} (h : RaisedFrom ts act) : RaisedFrom ts (inNewScope act) := by
  rw [inNewScope_eq]
  exact entering.bind fun enclosing => h.ending (leaving enclosing)

end RaisedFrom

variable {W : Type} {ts : List Token}

theorem Derives.eval_raises {n : Nonterminal} {e : Expr} (h : Derives n ts e) :
    RaisedFrom ts (onEnvironment e.eval : Exec W Value) := by
  induction h with
  | constant _ => exact .pure _
  | name hx => exact .reading hx
  | group _ _ _ ih => exact ih.mono (by simp)
  | unary ht hop _ ih =>
    rw [Expr.eval, onEnvironment_bind]
    refine (ih.mono (by simp)).bind fun v => ?_
    exact (RaisedFrom.raising fun _ => Token.raises_prefixOperator ht hop).mono (by simp)
  | binary _ ht hop _ _ ihl ihr =>
    simp only [Expr.eval, onEnvironment_bind]
    refine (ihl.mono (by simp)).bind fun a => (ihr.mono (by simp)).bind fun b => ?_
    exact (RaisedFrom.raising fun _ => Token.raises_operator ht hop).mono (by simp)
  | assign hx _ _ ih =>
    rw [Expr.eval, onEnvironment_bind]
    refine (ih.mono (by simp)).bind fun v => ?_
    exact (RaisedFrom.assigning hx v).mono (by simp)
  | tighter _ _ ih => exact ih

mutual

theorem DerivesDeclaration.exec_raises [Sink W] {ts : List Token} {s : Statement} :
    DerivesDeclaration ts s → RaisedFrom ts (s.exec : Exec W Unit)
  | .var _ _ _ => by
    rw [Statement.exec]
    exact .declaring _ _ _
  | .init _ _ _ h _ => by
    rw [Statement.exec]
    exact (h.eval_raises.mono fun t ht => by simp [ht]).bind fun v => .declaring _ _ v
  | .statement h => h.exec_raises

theorem DerivesStatement.exec_raises [Sink W] {ts : List Token} {s : Statement} :
    DerivesStatement ts s → RaisedFrom ts (s.exec : Exec W Unit)
  | .print hp h _ => by
    rw [Statement.exec]
    refine (h.eval_raises.mono (by simp)).bind fun v => ?_
    exact (RaisedFrom.printLine hp v.text).mono (by simp)
  | .block _ h _ => by
    rw [Statement.exec]
    exact (RaisedFrom.mono (Row.execAll_raises h) (by simp)).inNewScope
  | .expression h _ => by
    rw [Statement.exec]
    exact (RaisedFrom.tell _).bind fun _ => (h.eval_raises.mono (by simp)).bind fun v => .pure ()

theorem Row.execAll_raises [Sink W] {ts : List Token} {ss : List Statement} :
    Row DerivesDeclaration ts ss → RaisedFrom ts (Statement.execAll ss : Exec W Unit)
  | .nil => by
    rw [Statement.execAll]
    exact .pure ()
  | .cons h hs => by
    rw [Statement.execAll]
    exact (h.exec_raises.mono (by simp)).bind fun _ => RaisedFrom.mono (Row.execAll_raises hs) (by simp)

end

theorem run_raises [Sink W] (source : String) (m m' : Machine W) (e : RuntimeError)
    (h : Machine.run source m = .error (.runtime e) m') :
    (∃ t ∈ (scan source).tokens, t.line = e.line ∧ t.Raises e) ∧
      1 ≤ e.line ∧ e.line ≤ 1 + source.toList.count '\n' := by
  have hrun := Effect.of_run source m
  cases hss : (Program.ofSource source).accepted with
  | error ds =>
    rw [hss, h] at hrun
    cases hrun
  | ok ss =>
    rw [hss] at hrun
    rcases Effect.of_eq_ofExec hrun with ⟨_, _, hok, -⟩ | ⟨stop, _, k, herror, hexec, -⟩
    · cases h.symm.trans hok
    · obtain ⟨body, q, hts, -⟩ := scan_terminated source
      obtain ⟨hrow, -⟩ := Program.row_of_accepted hss hts
      cases stop with
      | fault f => cases h.symm.trans herror
      | error e' =>
        cases h.symm.trans herror
        obtain ⟨t, ht, hraises⟩ := hrow.execAll_raises m e k hexec
        have hmem : t ∈ (scan source).tokens := by
          rw [hts]
          exact List.mem_append_left _ ht
        refine ⟨⟨t, hmem, hraises.line_eq, hraises⟩, ?_⟩
        rw [← hraises.line_eq]
        exact scan_line_le source hmem

theorem run_raises_in_block :
    let source := "var s = \"a\nb\";\n\x7b\n  print\n  nil\n  <\n  s; \x7d"
    ∃ m', Machine.run source (.new ByteArray.empty) = .error (.runtime ⟨.expectedNumbers, 6⟩) m' ∧
      (∃ t ∈ (scan source).tokens, t.line = 6 ∧ t.Raises ⟨.expectedNumbers, 6⟩) ∧
      1 ≤ 6 ∧ 6 ≤ 1 + source.toList.count '\n' := by
  intro source
  have hresult : (Effect.of (Machine.run source (.new ByteArray.empty))).result =
      .error (.runtime ⟨.expectedNumbers, 6⟩) := by
    decide +kernel
  cases hrun : Machine.run source (.new ByteArray.empty) with
  | ok _ m' =>
    rw [hrun] at hresult
    cases hresult
  | error failure m' =>
    rw [hrun] at hresult
    cases hresult
    exact ⟨m', rfl, run_raises source _ m' _ hrun⟩

end Treewalk
