import Treewalk.Value

namespace Treewalk

inductive Cause where
  | expectedNumber
  | expectedNumbers
  | invalidAddition
  | undefinedVariable (name : String)
  | output (reason : String)
  deriving DecidableEq, Repr

def Cause.message : Cause → String
  | .expectedNumber => "Operand must be a number."
  | .expectedNumbers => "Operands must be two numbers."
  | .invalidAddition => "Operands must be two numbers or two strings."
  | .undefinedVariable name => "Undefined variable '" ++ name ++ "'."
  | .output reason => "Failed to write output: " ++ reason

structure RuntimeError where
  cause : Cause
  line : Nat
  deriving DecidableEq, Repr

namespace RuntimeError

def message (e : RuntimeError) : String :=
  e.cause.message

def text (e : RuntimeError) : String :=
  e.message ++ "\n[line] " ++ toString e.line ++ "]"

end RuntimeError

end Treewalk
