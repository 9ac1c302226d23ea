import Treewalk.Expr
import Treewalk.Token.Parser

namespace Treewalk

open TokenParser

def maxNesting : Nat := 128

structure Rules (m : Type → Type) where
  operand : m Expr
  expression : m Expr

abbrev Grammar := Rules TokenParser

section Rules

variable {m : Type → Type} [Monad m] [MonadStateOf (List Token) m] [MonadExceptOf Diagnostic m]

def Rules.closing (inner : Rules m) (line : Nat) : m Expr := do
  let e ← inner.expression
  let _ ← expect (.symbol .rightParen) "Expect ')' after expression."
  return .group e line

namespace Grammar

def primary (inner : Option (Rules m)) : m Expr := do
  let t ← peek
  match t.kind, t.literal with
  | .number, some (.number x) =>
      advance
      return .literal (.number x) t.line
  | .string, some (.string s) =>
      advance
      return .literal (.string s) t.line
  | .keyword .true, _ =>
      advance
      return .literal (.boolean true) t.line
  | .keyword .false, _ =>
      advance
      return .literal (.boolean false) t.line
  | .keyword .nil, _ =>
      advance
      return .literal .nil t.line
  | .identifier, _ =>
      advance
      return .variable t.lexeme t.line
  | .symbol .leftParen, _ =>
      let inner ← enter inner t
      advance
      inner.closing t.line
  | _, _ => throw (.about t .missingExpression)

def prefixed (inner : Option (Rules m)) (otherwise : m Expr) : m Expr := do
  let t ← peek
  match UnaryOp.ofKind? t.kind with
  | some op =>
      let inner ← enter inner t
      advance
      let e ← inner.operand
      return .unary op e t.line
  | none => otherwise

def unary (inner : Option (Rules m)) : m Expr :=
  prefixed inner (primary inner)

def joined (p : Precedence) (operand : m Expr) (further : Expr → m Expr) (left : Expr) : m Expr := do
  let t ← peek
  match (BinaryOp.ofKind? t.kind).filter (·.precedence = p) with
  | some op =>
      advance
      let right ← operand
      further (.binary op left right t.line)
  | none => return left

def extend (p : Precedence) (operand : m Expr) : (fuel : Nat) → Expr → m Expr
  | 0, left => return left
  | fuel + 1, left => joined p operand (extend p operand fuel) left

-- Each operator uses up a token, so their number bounds the number of operators.
def chain (p : Precedence) (operand : m Expr) : m Expr := do
  let left ← operand
  let rest ← get
  extend p operand rest.length left

def binary (operand : m Expr) : List Precedence → m Expr
  | [] => operand
  | p :: ps => chain p (binary operand ps)

def assignment (inner : Option (Rules m)) (target : m Expr) : m Expr := do
  let left ← target
  match ← accept (.symbol .equal) with
  | none => return left
  | some equals =>
      let inner ← enter inner equals
      let value ← inner.expression
      match left with
      | .variable name line => return .assign name value line
      | _ => throw (.about equals .invalidTarget)

end Grammar

end Rules

namespace Grammar

def tighter : Precedence → List Precedence
  | .equality => [.equality, .comparison, .additive, .multiplicative]
  | .comparison => [.comparison, .additive, .multiplicative]
  | .additive => [.additive, .multiplicative]
  | .multiplicative => [.multiplicative]

def around (inner : Option Grammar) : Grammar where
  operand := unary inner
  expression := assignment inner (binary (unary inner) (tighter .equality))

def ofRoom : (room : Nat) → Grammar
  | 0 => around none
  | room + 1 => around (some (ofRoom room))

def atDepth (depth : Nat) : Grammar :=
  ofRoom (maxNesting - depth)

end Grammar

namespace Expr

def parse (depth : Nat) : TokenParser Expr :=
  (Grammar.atDepth depth).expression

def parseBinary (p : Precedence) (depth : Nat) : TokenParser Expr :=
  Grammar.binary (Grammar.atDepth depth).operand (Grammar.tighter p)

end Expr

end Treewalk
