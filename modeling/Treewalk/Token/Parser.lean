import Treewalk.Diagnostic

namespace Treewalk

abbrev TokenParser := EStateM Diagnostic (List Token)

namespace TokenParser

variable {m : Type → Type} [Monad m] [MonadStateOf (List Token) m]

def peek : m Token := do
  return Token.peek (← get)

def advance : m Unit :=
  modify List.tail

def accept (kind : TokenKind) : m (Option Token) := do
  let t ← peek
  if t.kind = kind then
    advance
    return some t
  else
    return none

variable [MonadExceptOf Diagnostic m]

def expect (kind : TokenKind) (expectation : String) : m Token := do
  match ← accept kind with
  | some t => return t
  | none => throw (.unexpected (← peek) expectation)

def enter {α : Type} (inner : Option α) (opener : Token) : m α :=
  match inner with
  | some a => return a
  | none => throw (.about opener .tooDeep)

end TokenParser

end Treewalk
