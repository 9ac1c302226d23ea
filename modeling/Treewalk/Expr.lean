import Treewalk.Operator

namespace Treewalk

inductive Expr where
  | literal (value : Value) (line : Nat)
  | group (inner : Expr) (line : Nat)
  | unary (op : UnaryOp) (operand : Expr) (line : Nat)
  | binary (op : BinaryOp) (left right : Expr) (line : Nat)
  | variable (name : String) (line : Nat)
  | assign (name : String) (value : Expr) (line : Nat)
  deriving DecidableEq, Repr

namespace Expr

def text : Expr → String
  | .literal v _ => v.sourceText
  | .group e _ => "(group " ++ e.text ++ ")"
  | .unary op e _ => "(" ++ op.text ++ " " ++ e.text ++ ")"
  | .binary op l r _ => "(" ++ op.text ++ " " ++ l.text ++ " " ++ r.text ++ ")"
  | .variable name _ => name
  | .assign name e _ => "(= " ++ name ++ " " ++ e.text ++ ")"

end Expr

end Treewalk
