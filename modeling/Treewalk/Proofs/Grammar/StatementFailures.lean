import Treewalk.Proofs.Grammar.Failures
import Treewalk.Proofs.Grammar.Programs

namespace Treewalk

open TokenParser

def TokenKind.inExpression : TokenKind → Bool
  | .number | .string | .identifier | .keyword .true | .keyword .false | .keyword .nil => true
  | .symbol .leftBrace | .symbol .rightBrace | .symbol .semicolon | .symbol .comma | .symbol .dot => false
  | .symbol _ => true
  | _ => false

theorem TokenKind.ne_of_inExpression {kind : TokenKind} (h : kind.inExpression) :
    kind ≠ .symbol .semicolon ∧ kind ≠ .endOfInput := by
  constructor <;> rintro rfl <;> cases h

theorem Constant.inExpression {t : Token} {v : Value} (h : Constant t v) : t.kind.inExpression := by
  cases h <;> simp_all [TokenKind.inExpression]

theorem prefixOperators_inExpression {s : Symbol} {op : UnaryOp} (h : (s, op) ∈ prefixOperators) :
    (TokenKind.symbol s).inExpression := by
  have table : ∀ x ∈ prefixOperators, (TokenKind.symbol x.1).inExpression := by decide
  exact table (s, op) h

theorem Nonterminal.operators_inExpression {n : Nonterminal} {s : Symbol} {op : BinaryOp}
    (h : (s, op) ∈ n.operators) : (TokenKind.symbol s).inExpression := by
  have table : ∀ x ∈ n.operators, (TokenKind.symbol x.1).inExpression := by
    cases n <;> decide
  exact table (s, op) h

theorem Derives.inExpression {n : Nonterminal} {ts : List Token} {e : Expr} (h : Derives n ts e) :
    ∀ t ∈ ts, t.kind.inExpression := by
  induction h with
  | constant hc => simpa using hc.inExpression
  | name hx => simp [hx, TokenKind.inExpression]
  | group hl _ hr ih => simpa [hl, hr, TokenKind.inExpression, or_imp, forall_and] using ih
  | unary hk hs _ ih => simpa [hk, prefixOperators_inExpression hs] using ih
  | binary _ hk hs _ _ ihl ihr =>
    simpa [hk, Nonterminal.operators_inExpression hs, or_imp, forall_and] using ⟨ihl, ihr⟩
  | assign hx hq _ ih => simpa [hx, hq, TokenKind.inExpression] using ih
  | tighter _ _ ih => exact ih

theorem Fails.inExpression {next : Token} {room : Nat} {n : Nonterminal} {ts : List Token}
    {d : Diagnostic} (h : Fails next room n ts d) : ∀ t ∈ ts, t.kind.inExpression := by
  induction h with
  | missing | groupTooDeep | unaryTooDeep => exact List.forall_mem_nil _
  | inGroup hl _ ih => simpa [hl, TokenKind.inExpression] using ih
  | unclosed hl hd _ _ _ => simpa [hl, TokenKind.inExpression] using hd.inExpression
  | inUnary hk hs _ ih => simpa [hk, prefixOperators_inExpression hs] using ih
  | right _ hk hs hl _ _ ih =>
    simpa [hk, Nonterminal.operators_inExpression hs, or_imp, forall_and] using ⟨hl.inExpression, ih⟩
  | assignTooDeep hd _ hq =>
    simpa [hq, TokenKind.inExpression, or_imp, forall_and] using hd.inExpression
  | value hd _ hq _ ih =>
    simpa [hq, TokenKind.inExpression, or_imp, forall_and] using ⟨hd.inExpression, ih⟩
  | target hd _ _ hq hv _ _ =>
    simpa [hq, TokenKind.inExpression, or_imp, forall_and] using ⟨hd.inExpression, hv.inExpression⟩
  | tighter _ _ ih => exact ih

inductive FailsClause (next : Token) (room : Nat) (expectation : String) : List Token → Diagnostic → Prop
  | inside {ts : List Token} {d : Diagnostic} :
      Fails next room .assignment ts d → FailsClause next room expectation ts d
  | unclosed {ts : List Token} {e : Expr} :
      Derives .assignment ts e → e.nesting ≤ room → Nonterminal.assignment.Ends [next] →
      next.kind ≠ .symbol .semicolon → FailsClause next room expectation ts (.unexpected next expectation)

inductive FailsSimple (next : Token) (room : Nat) : List Token → Diagnostic → Prop
  | unnamed {v : Token} :
      v.kind = .keyword .var → next.kind ≠ .identifier →
      FailsSimple next room [v] (.unexpected next "Expect variable name.")
  | bare {v x : Token} :
      v.kind = .keyword .var → x.kind = .identifier → next.kind ≠ .symbol .equal →
      next.kind ≠ .symbol .semicolon →
      FailsSimple next room [v, x] (.unexpected next "Expect ';' after variable declaration.")
  | initial {v x i : Token} {ts : List Token} {d : Diagnostic} :
      v.kind = .keyword .var → x.kind = .identifier → i.kind = .symbol .equal →
      FailsClause next room "Expect ';' after variable declaration." ts d →
      FailsSimple next room (v :: x :: i :: ts) d
  | print {p : Token} {ts : List Token} {d : Diagnostic} :
      p.kind = .keyword .print → FailsClause next room "Expect ';' after value." ts d →
      FailsSimple next room (p :: ts) d
  | expression {ts : List Token} {d : Diagnostic} :
      (Token.peek (ts ++ [next])).kind.leadsStatement = false →
      FailsClause next room "Expect ';' after expression." ts d → FailsSimple next room ts d

theorem FailsClause.inExpression {next : Token} {room : Nat} {expectation : String} {ts : List Token}
    {d : Diagnostic} (h : FailsClause next room expectation ts d) : ∀ t ∈ ts, t.kind.inExpression := by
  cases h with
  | inside hf => exact hf.inExpression
  | unclosed hd _ _ _ => exact hd.inExpression

theorem FailsSimple.plain {next : Token} {room : Nat} {ts : List Token} {d : Diagnostic}
    (h : FailsSimple next room ts d) :
    ∀ t ∈ ts, t.kind ≠ .symbol .semicolon ∧ t.kind ≠ .endOfInput := by
  have inside {us : List Token} (hus : ∀ t ∈ us, t.kind.inExpression) :
      ∀ t ∈ us, t.kind ≠ .symbol .semicolon ∧ t.kind ≠ .endOfInput :=
    fun t ht => TokenKind.ne_of_inExpression (hus t ht)
  cases h with
  | unnamed hv _ => simp [hv]
  | bare hv hx _ _ => simp [hv, hx]
  | initial hv hx hi hf => simpa [hv, hx, hi] using inside hf.inExpression
  | print hp hf => simpa [hp] using inside hf.inExpression
  | expression _ hf => exact inside hf.inExpression

theorem Token.peek_append_singleton (ts rest : List Token) :
    peek (ts ++ [peek rest]) = peek (ts ++ rest) := by
  cases ts <;> rfl

namespace Statement

variable {room : Nat} {ts rest : List Token} {d : Diagnostic}

section Clause

variable {expectation : String} {make : Expr → Statement}

theorem clause_error (h : (do
      let e ← (Grammar.ofRoom room).expression
      let _ ← semicolon expectation
      return make e : TokenParser Statement) ts = .error d rest) :
    ∃ used, ts = used ++ rest ∧ FailsClause (Token.peek rest) room expectation used d := by
  rcases bind_eq_error.mp h with he | ⟨e, mid, he, hclose⟩
  · obtain ⟨used, hts, hf⟩ := Grammar.expression_eq_error_iff.mp he
    exact ⟨used, hts, .inside hf⟩
  · rcases bind_eq_error.mp hclose with hq | ⟨_, _, _, hend⟩
    · obtain ⟨hk, rfl, rfl⟩ := expect_eq_error hq
      obtain ⟨used, hts, hd, hn, hends⟩ := Grammar.expression_eq_ok_iff.mp he
      exact ⟨used, hts, .unclosed hd hn hends hk⟩
    · exact absurd hend pure_ne_error

theorem clause_of_fails {used : List Token}
    (h : FailsClause (Token.peek rest) room expectation used d) : (do
      let e ← (Grammar.ofRoom room).expression
      let _ ← semicolon expectation
      return make e : TokenParser Statement) (used ++ rest) = .error d rest := by
  cases h with
  | inside hf => exact bind_of_error (Grammar.expression_eq_error_iff.mpr ⟨used, rfl, hf⟩)
  | unclosed hd hn hends hk =>
    have he : (Grammar.ofRoom room).expression (used ++ rest) = .ok _ rest :=
      Grammar.expression_eq_ok_iff.mpr ⟨used, rfl, hd, hn, hends⟩
    rw [bind_of_ok he]
    exact bind_of_error (expect_of_ne _ hk)

end Clause

theorem parseDeclare_eq_initial {g : Grammar} {x i : Token} (hx : x.kind = .identifier)
    (hi : i.kind = .symbol .equal) : parseDeclare g (x :: i :: ts) = (do
      let e ← g.expression
      let _ ← semicolon "Expect ';' after variable declaration."
      return .declare x.lexeme (some e) x.line : TokenParser Statement) ts := by
  unfold parseDeclare
  rw [bind_of_ok (expect_cons _ hx), bind_of_ok (accept_cons hi)]
  simp only [bind, EStateM.bind, Functor.map, EStateM.map]
  cases g.expression ts <;> rfl

theorem parseDeclare_eq_bare {g : Grammar} {x : Token} (hx : x.kind = .identifier)
    (hi : (Token.peek ts).kind ≠ .symbol .equal) : parseDeclare g (x :: ts) = (do
      let _ ← semicolon "Expect ';' after variable declaration."
      return .declare x.lexeme none x.line : TokenParser Statement) ts := by
  unfold parseDeclare
  rw [bind_of_ok (expect_cons _ hx), bind_of_ok (accept_none hi)]
  rfl

theorem parseDeclare_error {v : Token} (hv : v.kind = .keyword .var)
    (h : parseDeclare (Grammar.ofRoom room) ts = .error d rest) :
    ∃ used, v :: ts = used ++ rest ∧ FailsSimple (Token.peek rest) room used d := by
  by_cases hx : (Token.peek ts).kind = .identifier
  · obtain ⟨x, us, rfl⟩ : ∃ x us, ts = x :: us := ⟨_, _, Token.eq_cons_of_peek_kind (by simp) hx⟩
    rw [Token.peek_cons] at hx
    by_cases hi : (Token.peek us).kind = .symbol .equal
    · obtain ⟨i, us, rfl⟩ : ∃ i vs, us = i :: vs := ⟨_, _, Token.eq_cons_of_peek_kind (by simp) hi⟩
      rw [Token.peek_cons] at hi
      rw [parseDeclare_eq_initial hx hi] at h
      obtain ⟨used, rfl, hf⟩ := clause_error h
      exact ⟨v :: x :: i :: used, rfl, .initial hv hx hi hf⟩
    · rw [parseDeclare_eq_bare hx hi] at h
      rcases bind_eq_error.mp h with hq | ⟨_, _, _, hend⟩
      · obtain ⟨hk, rfl, rfl⟩ := expect_eq_error hq
        exact ⟨[v, x], rfl, .bare hv hx hi hk⟩
      · exact absurd hend pure_ne_error
  · unfold parseDeclare at h
    rw [bind_of_error (expect_of_ne _ hx)] at h
    cases h
    exact ⟨[v], rfl, .unnamed hv hx⟩

section Attempt

variable {inner : Option (List Token → Parsed)}

theorem Attempt.ofParser_of_error {p : TokenParser Statement} (h : p ts = .error d rest) :
    ofParser p ts = ⟨.error d, [], rest⟩ := by
  unfold ofParser
  rw [h]

theorem Attempt.ofParser_eq_error {p : TokenParser Statement} (h : (ofParser p ts).result = .error d) :
    p ts = .error d (ofParser p ts).rest := by
  unfold ofParser at h ⊢
  split at h <;> simp_all

theorem attempt_ok {s : Statement} (hl : (Token.peek ts).kind ≠ .symbol .leftBrace)
    (h : (attempt (.ofRoom room) inner ts).result = .ok s) :
    ∃ rest, Taken room ts rest s ∧ attempt (.ofRoom room) inner ts = ⟨.ok s, [], rest⟩ := by
  rcases attempt_cases (.ofRoom room) inner ts with
    ⟨v, us, rfl, hv, heq⟩ | ⟨p, us, rfl, hp, heq⟩ | ⟨l, us, rfl, hl', heq⟩ | ⟨-, heq⟩
  · rw [heq] at h ⊢
    have he := Attempt.ofParser_eq_ok h
    exact ⟨_, parseDeclare_sound hv he, Attempt.ofParser_of_ok he⟩
  · rw [heq] at h ⊢
    have he := Attempt.ofParser_eq_ok h
    exact ⟨_, parsePrint_sound hp he, Attempt.ofParser_of_ok he⟩
  · exact absurd hl' hl
  · rw [heq] at h ⊢
    have he := Attempt.ofParser_eq_ok h
    exact ⟨_, parseExpression_sound he, Attempt.ofParser_of_ok he⟩

theorem attempt_error (hl : (Token.peek ts).kind ≠ .symbol .leftBrace)
    (h : (attempt (.ofRoom room) inner ts).result = .error d) :
    ∃ used rest, ts = used ++ rest ∧ FailsSimple (Token.peek rest) room used d ∧
      attempt (.ofRoom room) inner ts = ⟨.error d, [], rest⟩ := by
  have settle {p : TokenParser Statement} {us : List Token}
      (heq : attempt (.ofRoom room) inner ts = .ofParser p us)
      (hp : ∀ rest, p us = .error d rest →
        ∃ used, ts = used ++ rest ∧ FailsSimple (Token.peek rest) room used d) :
      ∃ used rest, ts = used ++ rest ∧ FailsSimple (Token.peek rest) room used d ∧
        attempt (.ofRoom room) inner ts = ⟨.error d, [], rest⟩ := by
    rw [heq] at h ⊢
    have he := Attempt.ofParser_eq_error h
    obtain ⟨used, hts, hf⟩ := hp _ he
    exact ⟨used, _, hts, hf, Attempt.ofParser_of_error he⟩
  rcases attempt_cases (.ofRoom room) inner ts with
    ⟨v, us, rfl, hv, heq⟩ | ⟨p, us, rfl, hp, heq⟩ | ⟨l, us, rfl, hl', heq⟩ | ⟨hlead, heq⟩
  · exact settle heq fun rest he => parseDeclare_error hv he
  · refine settle heq fun rest he => ?_
    obtain ⟨used, rfl, hf⟩ := clause_error he
    exact ⟨p :: used, rfl, .print hp hf⟩
  · exact absurd hl' hl
  · refine settle heq fun rest he => ?_
    unfold parseExpression at he
    rw [peek_bind] at he
    obtain ⟨used, rfl, hf⟩ := clause_error he
    refine ⟨used, rfl, .expression ?_ hf⟩
    rwa [Token.peek_append_singleton]

theorem attempt_of_fails {used : List Token} (h : FailsSimple (Token.peek rest) room used d) :
    attempt (.ofRoom room) inner (used ++ rest) = ⟨.error d, [], rest⟩ := by
  cases h with
  | unnamed hv hx =>
    refine (attempt_var hv).trans (Attempt.ofParser_of_error ?_)
    unfold parseDeclare
    exact bind_of_error (expect_of_ne _ hx)
  | bare hv hx hi hq =>
    refine (attempt_var hv).trans (Attempt.ofParser_of_error ?_)
    change parseDeclare (Grammar.ofRoom room) (_ :: rest) = _
    rw [parseDeclare_eq_bare hx hi]
    exact bind_of_error (expect_of_ne _ hq)
  | initial hv hx hi hf =>
    refine (attempt_var hv).trans (Attempt.ofParser_of_error ?_)
    exact (parseDeclare_eq_initial hx hi).trans (clause_of_fails hf)
  | print hp hf =>
    exact (attempt_print hp).trans (Attempt.ofParser_of_error (clause_of_fails hf))
  | expression hlead hf =>
    rw [Token.peek_append_singleton] at hlead
    rw [attempt_expression hlead]
    refine Attempt.ofParser_of_error ?_
    unfold parseExpression
    rw [peek_bind]
    exact clause_of_fails hf

theorem attemptBlock_unclosed {one : List Token → Parsed} {brace : Token}
    (hk : (Token.peek (parseAll endsBlock one ts).rest).kind ≠ .symbol .rightBrace) :
    attemptBlock (some one) brace ts =
      ⟨.error (.unexpected (Token.peek (parseAll endsBlock one ts).rest) "Expect '\x7d' after block."),
        (parseAll endsBlock one ts).records, (parseAll endsBlock one ts).rest⟩ := by
  change close brace (parseAll endsBlock one ts) = _
  rw [close, Attempt.ofParser_of_error (bind_of_error (expect_of_ne _ hk)), List.append_nil]

theorem Parsed.ofAttempt_of_error {a : Attempt} (h : a.result = .error d) :
    ofAttempt a = ⟨[], a.records ++ [.reported d], resume a.rest⟩ := by
  unfold ofAttempt
  rw [h]

end Attempt

end Statement

end Treewalk
