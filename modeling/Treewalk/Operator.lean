import Treewalk.RuntimeError
import Treewalk.Token

namespace Treewalk

inductive UnaryOp where
  | negate
  | not
  deriving DecidableEq, Repr

namespace UnaryOp

def text : UnaryOp → String
  | .negate => "-"
  | .not => "!"

def ofKind? : TokenKind → Option UnaryOp
  | .symbol .minus => some .negate
  | .symbol .bang => some .not
  | _ => none

end UnaryOp

inductive BinaryOp where
  | add | subtract | multiply | divide
  | greater | greaterEqual | less | lessEqual
  | equal | notEqual
  deriving DecidableEq, Repr

inductive Precedence where
  | equality | comparison | additive | multiplicative
  deriving DecidableEq, Repr

namespace BinaryOp

def all : List BinaryOp :=
  [.add, .subtract, .multiply, .divide, .greater, .greaterEqual, .less, .lessEqual, .equal, .notEqual]

def text : BinaryOp → String
  | .add => "+"
  | .subtract => "-"
  | .multiply => "*"
  | .divide => "/"
  | .greater => ">"
  | .greaterEqual => ">="
  | .less => "<"
  | .lessEqual => "<="
  | .equal => "=="
  | .notEqual => "!="

def ofKind? : TokenKind → Option BinaryOp
  | .symbol .plus => some .add
  | .symbol .minus => some .subtract
  | .symbol .star => some .multiply
  | .symbol .slash => some .divide
  | .symbol .greater => some .greater
  | .symbol .greaterEqual => some .greaterEqual
  | .symbol .less => some .less
  | .symbol .lessEqual => some .lessEqual
  | .symbol .equalEqual => some .equal
  | .symbol .bangEqual => some .notEqual
  | _ => none

def precedence : BinaryOp → Precedence
  | .add | .subtract => .additive
  | .multiply | .divide => .multiplicative
  | .greater | .greaterEqual | .less | .lessEqual => .comparison
  | .equal | .notEqual => .equality

end BinaryOp

namespace Value

def toNumber : Value → Except Cause Float
  | .number x => .ok x
  | _ => .error .expectedNumber

def onNumbers (f : Float → Float → Value) : Value → Value → Except Cause Value
  | .number x, .number y => .ok (f x y)
  | _, _ => .error .expectedNumbers

def add : Value → Value → Except Cause Value
  | .number x, .number y => .ok (.number (x + y))
  | .string s, .string t => .ok (.string (s ++ t))
  | _, _ => .error .invalidAddition

end Value

namespace UnaryOp

def apply : UnaryOp → Value → Except Cause Value
  | .negate, v => v.toNumber.map fun x => .number (-x)
  | .not, v => .ok (.boolean !v.isTruthy)

end UnaryOp

namespace BinaryOp

def apply : BinaryOp → Value → Value → Except Cause Value
  | .add, a, b => a.add b
  | .subtract, a, b => a.onNumbers (fun x y => .number (x - y)) b
  | .multiply, a, b => a.onNumbers (fun x y => .number (x * y)) b
  | .divide, a, b => a.onNumbers (fun x y => .number (x / y)) b
  | .greater, a, b => a.onNumbers (fun x y => .boolean (y < x)) b
  | .greaterEqual, a, b => a.onNumbers (fun x y => .boolean (y ≤ x)) b
  | .less, a, b => a.onNumbers (fun x y => .boolean (x < y)) b
  | .lessEqual, a, b => a.onNumbers (fun x y => .boolean (x ≤ y)) b
  | .equal, a, b => .ok (.boolean (a.equal b))
  | .notEqual, a, b => .ok (.boolean !a.equal b)

end BinaryOp

end Treewalk
