import Treewalk.Proofs.Grammar

namespace Treewalk

theorem prefix_operator_iff {kind : TokenKind} {op : UnaryOp} :
    UnaryOp.ofKind? kind = some op ↔ ∃ s, kind = .symbol s ∧ (s, op) ∈ prefixOperators := by
  cases kind with
  | symbol s => cases s <;> cases op <;> simp [UnaryOp.ofKind?, prefixOperators]
  | _ => simp [UnaryOp.ofKind?]

namespace Nonterminal

def precedence? : Nonterminal → Option Precedence
  | .equality => some .equality
  | .comparison => some .comparison
  | .term => some .additive
  | .factor => some .multiplicative
  | .assignment | .unary | .primary => none

theorem mem_operators_iff {n : Nonterminal} {s : Symbol} {op : BinaryOp} :
    (s, op) ∈ n.operators ↔
      BinaryOp.ofKind? (.symbol s) = some op ∧ n.precedence? = some op.precedence := by
  constructor
  · have table : ∀ x ∈ n.operators,
        BinaryOp.ofKind? (.symbol x.1) = some x.2 ∧ n.precedence? = some x.2.precedence := by
      cases n <;> decide
    exact table (s, op)
  · rintro ⟨h, hp⟩
    revert hp
    cases s <;> simp only [BinaryOp.ofKind?, Option.some.injEq, reduceCtorEq] at h <;> subst h <;>
      cases n <;> decide

theorem binary_operator_iff {n : Nonterminal} {p : Precedence} (h : n.precedence? = some p)
    {kind : TokenKind} {op : BinaryOp} :
    (BinaryOp.ofKind? kind).filter (·.precedence = p) = some op ↔
      ∃ s, kind = .symbol s ∧ (s, op) ∈ n.operators := by
  simp only [Option.filter_eq_some_iff, decide_eq_true_eq, mem_operators_iff, h, Option.some.injEq]
  cases kind with
  | symbol s => simp [eq_comm]
  | _ => simp [BinaryOp.ofKind?]

theorem no_operator {n : Nonterminal} {p : Precedence} (hn : n.precedence? = some p) {kind : TokenKind}
    (h : ∀ s op, (s, op) ∈ n.operators → kind ≠ .symbol s) :
    (BinaryOp.ofKind? kind).filter (·.precedence = p) = none := by
  rw [Option.eq_none_iff_forall_ne_some]
  intro op hop
  obtain ⟨s, hk, hs⟩ := (binary_operator_iff hn).mp hop
  exact h s op hs hk

def continuations : Nonterminal → List Symbol
  | .assignment =>
      [.equal, .bangEqual, .equalEqual, .greater, .greaterEqual, .less, .lessEqual, .minus, .plus,
        .slash, .star]
  | .equality =>
      [.bangEqual, .equalEqual, .greater, .greaterEqual, .less, .lessEqual, .minus, .plus, .slash, .star]
  | .comparison => [.greater, .greaterEqual, .less, .lessEqual, .minus, .plus, .slash, .star]
  | .term => [.minus, .plus, .slash, .star]
  | .factor => [.slash, .star]
  | .unary | .primary => []

def Ends (n : Nonterminal) (ts : List Token) : Prop :=
  ∀ s ∈ n.continuations, (Token.peek ts).kind ≠ .symbol s

theorem Ends.tighter {n m : Nonterminal} {ts : List Token} (h : n.tighter? = some m) (hn : n.Ends ts) :
    m.Ends ts := by
  have hsub : ∀ s ∈ m.continuations, s ∈ n.continuations := by
    cases n <;> simp only [tighter?, Option.some.injEq, reduceCtorEq] at h <;> subst h <;> decide
  exact fun s hs => hn s (hsub s hs)

theorem mem_continuations {n : Nonterminal} {s : Symbol} {op : BinaryOp} (h : (s, op) ∈ n.operators) :
    s ∈ n.continuations := by
  have table : ∀ x ∈ n.operators, x.1 ∈ n.continuations := by
    cases n <;> decide
  exact table (s, op) h

theorem Ends.of_symbol {n : Nonterminal} {t : Token} {s : Symbol} {ts : List Token}
    (ht : t.kind = .symbol s) (hs : s ∉ n.continuations) : n.Ends (t :: ts) := by
  intro s' hs' hk
  rw [Token.peek_cons, ht, TokenKind.symbol.injEq] at hk
  exact hs (hk ▸ hs')

theorem Ends.of_operator {n m : Nonterminal} {t : Token} {s : Symbol} {op : BinaryOp} {ts : List Token}
    (h : n.tighter? = some m) (ht : t.kind = .symbol s) (hs : (s, op) ∈ n.operators) :
    m.Ends (t :: ts) := by
  have table : ∀ x ∈ n.operators, x.1 ∉ m.continuations := by
    cases n <;> simp only [tighter?, Option.some.injEq, reduceCtorEq] at h <;> subst h <;> decide
  exact .of_symbol ht (table (s, op) hs)

end Nonterminal

end Treewalk
