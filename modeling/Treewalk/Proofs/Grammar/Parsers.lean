import Treewalk.Proofs.Grammar.Operators

namespace Treewalk

open TokenParser

namespace Grammar

variable {inner : Option Grammar} {g : Grammar} {ts rest : List Token} {e : Expr}

theorem primary_cases (h : primary inner ts = .ok e rest) :
    (∃ t v, Constant t v ∧ ts = t :: rest ∧ e = .literal v t.line) ∨
    (∃ x, x.kind = .identifier ∧ ts = x :: rest ∧ e = .variable x.lexeme x.line) ∨
    (∃ g l r mid e', inner = some g ∧ l.kind = .symbol .leftParen ∧ r.kind = .symbol .rightParen ∧
      ts = l :: mid ∧ g.expression mid = .ok e' (r :: rest) ∧ e = .group e' l.line) := by
  have take {kind : TokenKind} {e' : Expr} (hk : (Token.peek ts).kind = kind) (hne : kind ≠ .endOfInput)
      (h : (advance >>= fun _ => pure e' : TokenParser Expr) ts = .ok e rest) :
      ts = Token.peek ts :: rest ∧ e = e' := by
    rw [advance_bind, pure_eq_ok] at h
    exact ⟨h.2 ▸ Token.eq_cons_of_peek_kind hne hk, h.1.symm⟩
  unfold primary at h
  rw [peek_bind] at h
  -- A match that picks the parser can be split only where it is an argument.
  change EStateM.run _ ts = _ at h
  split at h
  · next hk hl => exact .inl ⟨_, _, .number hk hl, take hk (by simp) h⟩
  · next hk hl => exact .inl ⟨_, _, .string hk hl, take hk (by simp) h⟩
  · next hk => exact .inl ⟨_, _, .yes hk, take hk (by simp) h⟩
  · next hk => exact .inl ⟨_, _, .no hk, take hk (by simp) h⟩
  · next hk => exact .inl ⟨_, _, .nil hk, take hk (by simp) h⟩
  · next hk => exact .inr (.inl ⟨_, hk, take hk (by simp) h⟩)
  · next hk =>
    obtain ⟨g, mid, hg, hin⟩ := bind_eq_ok.mp h
    obtain ⟨rfl, rfl⟩ := enter_eq_ok hg
    rw [advance_bind] at hin
    obtain ⟨e', mid', he, hclose⟩ := bind_eq_ok.mp hin
    obtain ⟨r, mid'', hx, hend⟩ := bind_eq_ok.mp hclose
    obtain ⟨hr, rfl⟩ := expect_eq_ok (by simp) hx
    obtain ⟨rfl, rfl⟩ := pure_eq_ok.mp hend
    exact .inr (.inr ⟨g, _, r, _, e', rfl, hk, hr, Token.eq_cons_of_peek_kind (by simp) hk, he, rfl⟩)
  · exact absurd h throw_ne_ok

theorem primary_constant {t : Token} {v : Value} (h : Constant t v) :
    primary inner (t :: rest) = .ok (.literal v t.line) rest := by
  unfold primary
  rw [peek_bind, Token.peek_cons]
  cases h with
  | number hk hl => rw [hk, hl]; rfl
  | string hk hl => rw [hk, hl]; rfl
  | yes hk | no hk | nil hk => rw [hk]; rfl

theorem primary_variable {x : Token} (h : x.kind = .identifier) :
    primary inner (x :: rest) = .ok (.variable x.lexeme x.line) rest := by
  unfold primary
  rw [peek_bind, Token.peek_cons, h]
  rfl

theorem primary_group {l r : Token} (hl : l.kind = .symbol .leftParen)
    (hr : r.kind = .symbol .rightParen)
    (he : g.expression ts = .ok e (r :: rest)) :
    primary (some g) (l :: ts) = .ok (.group e l.line) rest := by
  unfold primary
  rw [peek_bind, Token.peek_cons, hl]
  dsimp only
  rw [enter_bind_some, advance_bind, List.tail_cons, Rules.closing, bind_of_ok he, bind_of_ok (expect_cons _ hr)]
  rfl

theorem unary_cases (h : unary inner ts = .ok e rest) :
    (∃ g t s op mid e', inner = some g ∧ t.kind = .symbol s ∧ (s, op) ∈ prefixOperators ∧ ts = t :: mid ∧
      g.operand mid = .ok e' rest ∧ e = .unary op e' t.line) ∨ primary inner ts = .ok e rest := by
  unfold unary prefixed at h
  rw [peek_bind] at h
  change EStateM.run _ ts = _ at h
  split at h
  · next op hop =>
    obtain ⟨s, hk, hs⟩ := prefix_operator_iff.mp hop
    obtain ⟨g, mid, hg, hin⟩ := bind_eq_ok.mp h
    obtain ⟨rfl, rfl⟩ := enter_eq_ok hg
    rw [advance_bind] at hin
    obtain ⟨e', mid', he, hend⟩ := bind_eq_ok.mp hin
    obtain ⟨rfl, rfl⟩ := pure_eq_ok.mp hend
    exact .inl ⟨g, _, s, op, _, e', rfl, hk, hs, Token.eq_cons_of_peek_kind (by simp) hk, he, rfl⟩
  · exact .inr h

theorem unary_operator {t : Token} {s : Symbol} {op : UnaryOp} (hk : t.kind = .symbol s)
    (hs : (s, op) ∈ prefixOperators) (he : g.operand ts = .ok e rest) :
    unary (some g) (t :: ts) = .ok (.unary op e t.line) rest := by
  unfold unary prefixed
  rw [peek_bind, Token.peek_cons, prefix_operator_iff.mpr ⟨s, hk, hs⟩]
  dsimp only
  rw [enter_bind_some, advance_bind, List.tail_cons, bind_of_ok he]
  rfl

theorem unary_primary (h : UnaryOp.ofKind? (Token.peek ts).kind = none) :
    unary inner ts = primary inner ts := by
  unfold unary prefixed
  rw [peek_bind, h]

theorem assignment_cases {target : TokenParser Expr} (h : assignment inner target ts = .ok e rest) :
    (target ts = .ok e rest ∧ (Token.peek rest).kind ≠ .symbol .equal) ∨
    ∃ g name line q mid v, inner = some g ∧ q.kind = .symbol .equal ∧
      target ts = .ok (.variable name line) (q :: mid) ∧ g.expression mid = .ok v rest ∧
      e = .assign name v line := by
  unfold assignment at h
  obtain ⟨left, mid, ht, hq⟩ := bind_eq_ok.mp h
  obtain ⟨o, mid', ha, hin⟩ := bind_eq_ok.mp hq
  rcases accept_eq_ok (by simp) ha with ⟨q, rfl, hk, rfl⟩ | ⟨rfl, rfl, hne⟩
  · obtain ⟨g, mid'', hg, hval⟩ := bind_eq_ok.mp hin
    obtain ⟨rfl, rfl⟩ := enter_eq_ok hg
    obtain ⟨v, mid''', hv, hend⟩ := bind_eq_ok.mp hval
    cases left with
    | «variable» name line =>
      obtain ⟨rfl, rfl⟩ := pure_eq_ok.mp hend
      exact .inr ⟨g, name, line, q, _, v, rfl, hk, ht, hv, rfl⟩
    | _ => exact absurd hend throw_ne_ok
  · obtain ⟨rfl, rfl⟩ := pure_eq_ok.mp hin
    exact .inl ⟨ht, hne⟩

theorem assignment_target {target : TokenParser Expr} (ht : target ts = .ok e rest)
    (h : (Token.peek rest).kind ≠ .symbol .equal) : assignment inner target ts = .ok e rest := by
  unfold assignment
  rw [bind_of_ok ht, bind_of_ok (accept_none h)]
  rfl

theorem assignment_assign {target : TokenParser Expr} {name : String} {line : Nat} {q : Token}
    {mid : List Token} (hq : q.kind = .symbol .equal)
    (ht : target ts = .ok (.variable name line) (q :: mid))
    (he : g.expression mid = .ok e rest) :
    assignment (some g) target ts = .ok (.assign name e line) rest := by
  unfold assignment
  rw [bind_of_ok ht, bind_of_ok (accept_cons hq)]
  dsimp only
  rw [enter_bind_some, bind_of_ok he]
  rfl

section Chain

variable {p : Precedence} {operand : TokenParser Expr} {left : Expr} {fuel : Nat}

theorem extend_end {n : Nonterminal} (hn : n.precedence? = some p)
    (h : ∀ s op, (s, op) ∈ n.operators → (Token.peek ts).kind ≠ .symbol s) :
    extend p operand fuel left ts = .ok left ts := by
  cases fuel with
  | zero => rfl
  | succ fuel =>
    unfold extend joined
    rw [peek_bind, Nonterminal.no_operator hn h]
    rfl

theorem extend_operator {n : Nonterminal} (hn : n.precedence? = some p) {t : Token} {s : Symbol}
    {op : BinaryOp} {right : Expr} (hk : t.kind = .symbol s) (hs : (s, op) ∈ n.operators)
    (hr : operand ts = .ok right rest) :
    extend p operand (fuel + 1) left (t :: ts) =
      extend p operand fuel (.binary op left right t.line) rest := by
  rw [extend, joined, peek_bind, Token.peek_cons, (Nonterminal.binary_operator_iff hn).mpr ⟨s, hk, hs⟩]
  dsimp only
  rw [advance_bind, List.tail_cons, bind_of_ok hr]

theorem extend_cases {n : Nonterminal} (hn : n.precedence? = some p)
    (h : extend p operand (fuel + 1) left ts = .ok e rest) :
    (e = left ∧ rest = ts) ∨
    ∃ t s op mid mid' right, t.kind = .symbol s ∧ (s, op) ∈ n.operators ∧ ts = t :: mid ∧
      operand mid = .ok right mid' ∧
      extend p operand fuel (.binary op left right t.line) mid' = .ok e rest := by
  rw [extend, joined, peek_bind] at h
  change EStateM.run _ ts = _ at h
  split at h
  · next op hop =>
    obtain ⟨s, hk, hs⟩ := (Nonterminal.binary_operator_iff hn).mp hop
    change (advance >>= _ : TokenParser Expr) ts = _ at h
    rw [advance_bind] at h
    obtain ⟨right, mid', hr, hext⟩ := bind_eq_ok.mp h
    exact .inr ⟨_, s, op, _, mid', right, hk, hs, Token.eq_cons_of_peek_kind (by simp) hk, hr, hext⟩
  · obtain ⟨rfl, rfl⟩ := pure_eq_ok.mp h
    exact .inl ⟨rfl, rfl⟩

theorem chain_of_operand (h : operand ts = .ok e rest) :
    chain p operand ts = extend p operand rest.length e rest := by
  unfold chain
  rw [bind_of_ok h, get_bind]

theorem chain_cases (h : chain p operand ts = .ok e rest) :
    ∃ left mid, operand ts = .ok left mid ∧ extend p operand mid.length left mid = .ok e rest := by
  unfold chain at h
  obtain ⟨left, mid, ho, h⟩ := bind_eq_ok.mp h
  exact ⟨left, mid, ho, h⟩

end Chain

def within : (room : Nat) → Option Grammar
  | 0 => none
  | room + 1 => some (ofRoom room)

theorem within_eq_some {room : Nat} (h : within room = some g) : ∃ k, room = k + 1 ∧ g = ofRoom k := by
  cases room with
  | zero => cases h
  | succ k => exact ⟨k, rfl, (Option.some.inj h).symm⟩

theorem ofRoom_eq_around (room : Nat) : ofRoom room = around (within room) := by
  cases room <;> rfl

def parser (room : Nat) : Nonterminal → TokenParser Expr
  | .assignment => (ofRoom room).expression
  | .equality => binary (ofRoom room).operand (tighter .equality)
  | .comparison => binary (ofRoom room).operand (tighter .comparison)
  | .term => binary (ofRoom room).operand (tighter .additive)
  | .factor => binary (ofRoom room).operand (tighter .multiplicative)
  | .unary => (ofRoom room).operand
  | .primary => primary (within room)

theorem parser_assignment (room : Nat) :
    parser room .assignment = assignment (within room) (parser room .equality) := by
  simp only [parser, ofRoom_eq_around, around]

theorem parser_unary (room : Nat) : parser room .unary = unary (within room) := by
  simp only [parser, ofRoom_eq_around, around]

theorem parser_binary {n m : Nonterminal} {p : Precedence} (room : Nat) (hp : n.precedence? = some p)
    (hm : n.tighter? = some m) : parser room n = chain p (parser room m) := by
  cases n <;> cases hp <;> cases hm <;> rfl

end Grammar

end Treewalk
