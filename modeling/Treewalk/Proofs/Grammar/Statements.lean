import Treewalk.Proofs.Grammar.Expressions

namespace Treewalk

open TokenParser

def TokenKind.opensExpression : TokenKind → Bool
  | .number | .string | .identifier | .keyword .true | .keyword .false | .keyword .nil => true
  | .symbol .leftParen | .symbol .bang | .symbol .minus => true
  | _ => false

def TokenKind.leadsStatement : TokenKind → Bool
  | .keyword .var | .keyword .print | .symbol .leftBrace => true
  | _ => false

theorem TokenKind.leadsStatement_of_opensExpression {kind : TokenKind} (h : kind.opensExpression) :
    kind.leadsStatement = false := by
  unfold opensExpression at h
  split at h <;> simp_all [leadsStatement]

theorem Constant.opensExpression {t : Token} {v : Value} (h : Constant t v) :
    t.kind.opensExpression := by
  cases h <;> simp_all [TokenKind.opensExpression]

theorem Derives.head {n : Nonterminal} {ts : List Token} {e : Expr} (h : Derives n ts e) :
    ∃ t us, ts = t :: us ∧ t.kind.opensExpression := by
  induction h with
  | constant hc => exact ⟨_, _, rfl, hc.opensExpression⟩
  | name hx => exact ⟨_, _, rfl, by rw [hx]; rfl⟩
  | group hl _ _ _ => exact ⟨_, _, rfl, by rw [hl]; rfl⟩
  | @unary t s op ts e hk hs _ _ =>
    refine ⟨t, ts, rfl, ?_⟩
    rw [hk]
    revert hs
    cases s <;> cases op <;> decide
  | binary _ _ _ _ _ ihl _ =>
    obtain ⟨t, us, rfl, ht⟩ := ihl
    exact ⟨t, _, rfl, ht⟩
  | assign hx _ _ _ => exact ⟨_, _, rfl, by rw [hx]; rfl⟩
  | tighter _ _ ih => exact ih

namespace DerivesDeclaration

variable {ts : List Token} {s : Statement}

theorem head (h : DerivesDeclaration ts s) :
    ∃ t us, ts = t :: us ∧ Statement.endsBlock t.kind = false := by
  cases h with
  | var hv _ _ => exact ⟨_, _, rfl, by rw [hv]; rfl⟩
  | init hv _ _ _ _ => exact ⟨_, _, rfl, by rw [hv]; rfl⟩
  | statement h =>
    cases h with
    | print hp _ _ => exact ⟨_, _, rfl, by rw [hp]; rfl⟩
    | block hl _ _ => exact ⟨_, _, rfl, by rw [hl]; rfl⟩
    | @expression t q ts e he _ =>
      obtain ⟨t', us, heq, ht⟩ := he.head
      cases heq
      refine ⟨t, ts ++ [q], rfl, ?_⟩
      cases hk : t.kind with
      | symbol s => cases s <;> simp_all [TokenKind.opensExpression, Statement.endsBlock]
      | _ => simp_all [TokenKind.opensExpression, Statement.endsBlock]

end DerivesDeclaration

namespace Statement

variable {g : Grammar} {room : Nat} {ts rest : List Token} {s : Statement} {e : Expr}

theorem parseDeclare_cases (h : parseDeclare g ts = .ok s rest) :
    (∃ x q, x.kind = .identifier ∧ q.kind = .symbol .semicolon ∧ ts = x :: q :: rest ∧
      s = .declare x.lexeme none x.line) ∨
    ∃ x i q mid e, x.kind = .identifier ∧ i.kind = .symbol .equal ∧ q.kind = .symbol .semicolon ∧
      ts = x :: i :: mid ∧ g.expression mid = .ok e (q :: rest) ∧
      s = .declare x.lexeme (some e) x.line := by
  unfold parseDeclare semicolon at h
  obtain ⟨x, mid, hx, hinit⟩ := bind_eq_ok.mp h
  obtain ⟨hkx, rfl⟩ := expect_eq_ok (by simp) hx
  obtain ⟨o, mid', hi, hval⟩ := bind_eq_ok.mp hinit
  rcases accept_eq_ok (by simp) hi with ⟨i, rfl, hki, rfl⟩ | ⟨rfl, rfl, -⟩
  · obtain ⟨initial, mid'', hv, hclose⟩ := bind_eq_ok.mp hval
    obtain ⟨e, rfl, he⟩ := map_eq_ok.mp hv
    obtain ⟨q, mid''', hq, hend⟩ := bind_eq_ok.mp hclose
    obtain ⟨hkq, rfl⟩ := expect_eq_ok (by simp) hq
    obtain ⟨rfl, rfl⟩ := pure_eq_ok.mp hend
    exact .inr ⟨x, i, q, mid', e, hkx, hki, hkq, rfl, he, rfl⟩
  · obtain ⟨initial, mid'', hv, hclose⟩ := bind_eq_ok.mp hval
    obtain ⟨rfl, rfl⟩ := pure_eq_ok.mp hv
    obtain ⟨q, mid''', hq, hend⟩ := bind_eq_ok.mp hclose
    obtain ⟨hkq, rfl⟩ := expect_eq_ok (by simp) hq
    obtain ⟨rfl, rfl⟩ := pure_eq_ok.mp hend
    exact .inl ⟨x, q, hkx, hkq, rfl, rfl⟩

theorem parsePrint_cases {line : Nat} (h : parsePrint g line ts = .ok s rest) :
    ∃ q e, q.kind = .symbol .semicolon ∧ g.expression ts = .ok e (q :: rest) ∧ s = .print e line := by
  unfold parsePrint semicolon at h
  obtain ⟨e, mid, he, hclose⟩ := bind_eq_ok.mp h
  obtain ⟨q, mid', hq, hend⟩ := bind_eq_ok.mp hclose
  obtain ⟨hkq, rfl⟩ := expect_eq_ok (by simp) hq
  obtain ⟨rfl, rfl⟩ := pure_eq_ok.mp hend
  exact ⟨q, e, hkq, he, rfl⟩

theorem parseExpression_cases (h : parseExpression g ts = .ok s rest) :
    ∃ q e, q.kind = .symbol .semicolon ∧ g.expression ts = .ok e (q :: rest) ∧
      s = .expression e (Token.peek ts).line := by
  unfold parseExpression semicolon at h
  rw [peek_bind] at h
  obtain ⟨e, mid, he, hclose⟩ := bind_eq_ok.mp h
  obtain ⟨q, mid', hq, hend⟩ := bind_eq_ok.mp hclose
  obtain ⟨hkq, rfl⟩ := expect_eq_ok (by simp) hq
  obtain ⟨rfl, rfl⟩ := pure_eq_ok.mp hend
  exact ⟨q, e, hkq, he, rfl⟩

theorem parseDeclare_var {x q : Token} (hx : x.kind = .identifier) (hq : q.kind = .symbol .semicolon) :
    parseDeclare g (x :: q :: rest) = .ok (.declare x.lexeme none x.line) rest := by
  unfold parseDeclare semicolon
  rw [bind_of_ok (expect_cons _ hx), bind_of_ok (accept_none (by rw [Token.peek_cons, hq]; simp))]
  exact bind_of_ok (expect_cons _ hq)

theorem parseDeclare_init {x i q : Token} (hx : x.kind = .identifier) (hi : i.kind = .symbol .equal)
    (hq : q.kind = .symbol .semicolon) (he : g.expression ts = .ok e (q :: rest)) :
    parseDeclare g (x :: i :: ts) = .ok (.declare x.lexeme (some e) x.line) rest := by
  unfold parseDeclare semicolon
  rw [bind_of_ok (expect_cons _ hx), bind_of_ok (accept_cons hi)]
  dsimp only
  rw [bind_of_ok (map_eq_ok.mpr ⟨e, rfl, he⟩)]
  exact bind_of_ok (expect_cons _ hq)

theorem parsePrint_of_ok {q : Token} {line : Nat} (hq : q.kind = .symbol .semicolon)
    (he : g.expression ts = .ok e (q :: rest)) : parsePrint g line ts = .ok (.print e line) rest := by
  unfold parsePrint semicolon
  rw [bind_of_ok he]
  exact bind_of_ok (expect_cons _ hq)

theorem parseExpression_of_ok {q : Token} (hq : q.kind = .symbol .semicolon)
    (he : g.expression ts = .ok e (q :: rest)) :
    parseExpression g ts = .ok (.expression e (Token.peek ts).line) rest := by
  unfold parseExpression semicolon
  rw [peek_bind, bind_of_ok he]
  exact bind_of_ok (expect_cons _ hq)

end Statement

end Treewalk
