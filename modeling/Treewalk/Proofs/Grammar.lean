import Treewalk.Proofs.TokenParser
import Treewalk.Statement.Parser

namespace Treewalk

inductive Nonterminal where
  | assignment | equality | comparison | term | factor | unary | primary
  deriving DecidableEq, Repr

namespace Nonterminal

def tighter? : Nonterminal → Option Nonterminal
  | .assignment => some .equality
  | .equality => some .comparison
  | .comparison => some .term
  | .term => some .factor
  | .factor => some .unary
  | .unary => some .primary
  | .primary => none

def operators : Nonterminal → List (Symbol × BinaryOp)
  | .equality => [(.bangEqual, .notEqual), (.equalEqual, .equal)]
  | .comparison =>
      [(.greater, .greater), (.greaterEqual, .greaterEqual), (.less, .less), (.lessEqual, .lessEqual)]
  | .term => [(.minus, .subtract), (.plus, .add)]
  | .factor => [(.slash, .divide), (.star, .multiply)]
  | .assignment | .unary | .primary => []

end Nonterminal

def prefixOperators : List (Symbol × UnaryOp) :=
  [(.bang, .not), (.minus, .negate)]

inductive Constant : Token → Value → Prop
  | number {t : Token} {x : Float} :
      t.kind = .number → t.literal = some (.number x) → Constant t (.number x)
  | string {t : Token} {s : String} :
      t.kind = .string → t.literal = some (.string s) → Constant t (.string s)
  | yes {t : Token} : t.kind = .keyword .true → Constant t (.boolean true)
  | no {t : Token} : t.kind = .keyword .false → Constant t (.boolean false)
  | nil {t : Token} : t.kind = .keyword .nil → Constant t .nil

inductive Derives : Nonterminal → List Token → Expr → Prop
  | constant {t : Token} {v : Value} : Constant t v → Derives .primary [t] (.literal v t.line)
  | name {x : Token} : x.kind = .identifier → Derives .primary [x] (.variable x.lexeme x.line)
  | group {l r : Token} {ts : List Token} {e : Expr} :
      l.kind = .symbol .leftParen → Derives .assignment ts e → r.kind = .symbol .rightParen →
      Derives .primary (l :: ts ++ [r]) (.group e l.line)
  | unary {t : Token} {s : Symbol} {op : UnaryOp} {ts : List Token} {e : Expr} :
      t.kind = .symbol s → (s, op) ∈ prefixOperators → Derives .unary ts e →
      Derives .unary (t :: ts) (.unary op e t.line)
  | binary {n m : Nonterminal} {t : Token} {s : Symbol} {op : BinaryOp} {ts us : List Token}
      {l r : Expr} :
      n.tighter? = some m → t.kind = .symbol s → (s, op) ∈ n.operators →
      Derives n ts l → Derives m us r → Derives n (ts ++ t :: us) (.binary op l r t.line)
  | assign {x q : Token} {ts : List Token} {e : Expr} :
      x.kind = .identifier → q.kind = .symbol .equal → Derives .assignment ts e →
      Derives .assignment (x :: q :: ts) (.assign x.lexeme e x.line)
  | tighter {n m : Nonterminal} {ts : List Token} {e : Expr} :
      n.tighter? = some m → Derives m ts e → Derives n ts e

theorem Derives.of_unary {ts : List Token} {e : Expr} (h : Derives .unary ts e) : Derives .assignment ts e :=
  .tighter rfl (.tighter rfl (.tighter rfl (.tighter rfl (.tighter rfl h))))

inductive Row (D : List Token → Statement → Prop) : List Token → List Statement → Prop
  | nil : Row D [] []
  | cons {ts us : List Token} {s : Statement} {ss : List Statement} :
      D ts s → Row D us ss → Row D (ts ++ us) (s :: ss)

mutual

inductive DerivesDeclaration : List Token → Statement → Prop
  | var {v x q : Token} :
      v.kind = .keyword .var → x.kind = .identifier → q.kind = .symbol .semicolon →
      DerivesDeclaration [v, x, q] (.declare x.lexeme none x.line)
  | init {v x i q : Token} {ts : List Token} {e : Expr} :
      v.kind = .keyword .var → x.kind = .identifier → i.kind = .symbol .equal →
      Derives .assignment ts e → q.kind = .symbol .semicolon →
      DerivesDeclaration (v :: x :: i :: ts ++ [q]) (.declare x.lexeme (some e) x.line)
  | statement {ts : List Token} {s : Statement} : DerivesStatement ts s → DerivesDeclaration ts s

inductive DerivesStatement : List Token → Statement → Prop
  | print {p q : Token} {ts : List Token} {e : Expr} :
      p.kind = .keyword .print → Derives .assignment ts e → q.kind = .symbol .semicolon →
      DerivesStatement (p :: ts ++ [q]) (.print e p.line)
  | block {l r : Token} {ts : List Token} {body : List Statement} :
      l.kind = .symbol .leftBrace → Row DerivesDeclaration ts body → r.kind = .symbol .rightBrace →
      DerivesStatement (l :: ts ++ [r]) (.block body l.line)
  | expression {t q : Token} {ts : List Token} {e : Expr} :
      Derives .assignment (t :: ts) e → q.kind = .symbol .semicolon →
      DerivesStatement (t :: ts ++ [q]) (.expression e t.line)

end

def DerivesProgram (ts : List Token) (ss : List Statement) : Prop :=
  ∃ us q, ts = us ++ [q] ∧ q.kind = .endOfInput ∧ Row DerivesDeclaration us ss

def Expr.nesting : Expr → Nat
  | .literal .. | .variable .. => 0
  | .group e _ | .unary _ e _ | .assign _ e _ => e.nesting + 1
  | .binary _ l r _ => max l.nesting r.nesting

namespace Statement

mutual

def nesting : Statement → Nat
  | .expression e _ | .print e _ => e.nesting
  | .declare _ initial _ => initial.elim 0 Expr.nesting
  | .block body _ => nestingAll body + 1

def nestingAll : List Statement → Nat
  | [] => 0
  | s :: ss => max s.nesting (nestingAll ss)

end

theorem nestingAll_le {ss : List Statement} {n : Nat} : nestingAll ss ≤ n ↔ ∀ s ∈ ss, s.nesting ≤ n := by
  induction ss with
  | nil => simp [nestingAll]
  | cons s ss ih => simp only [nestingAll, Nat.max_le, ih, List.mem_cons, forall_eq_or_imp]

end Statement

end Treewalk
