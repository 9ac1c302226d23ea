import Treewalk.Environment

namespace Treewalk

def raiseOn (line : Nat) (result : Except Cause Value) : EStateM Abort Environment Value :=
  match result with
  | .ok v => return v
  | .error cause => throw (.error ⟨cause, line⟩)

namespace Expr

def eval : Expr → EStateM Abort Environment Value
  | .literal v _ => return v
  | .group e _ => e.eval
  | .unary op e line => do
      let v ← e.eval
      raiseOn line (op.apply v)
  | .binary op l r line => do
      let a ← l.eval
      let b ← r.eval
      raiseOn line (op.apply a b)
  | .variable name line => do
      MonadExcept.ofExcept ((← get).get name line)
  | .assign name e line => do
      let v ← e.eval
      set (← MonadExcept.ofExcept ((← get).assign name v line))
      return v

end Expr

end Treewalk
