import Treewalk.Expr.Parser
import Treewalk.Record

namespace Treewalk

open TokenParser

namespace Statement

structure Attempt where
  result : Except Diagnostic Statement
  records : List Record
  rest : List Token

namespace Attempt

def ofParser (p : TokenParser Statement) (ts : List Token) : Attempt :=
  match p ts with
  | .ok s rest => ⟨.ok s, [], rest⟩
  | .error d rest => ⟨.error d, [], rest⟩

end Attempt

section Simple

variable {m : Type → Type} [Monad m] [MonadStateOf (List Token) m] [MonadExceptOf Diagnostic m]

def semicolon (expectation : String) : m Token :=
  expect (.symbol .semicolon) expectation

def parseDeclare (g : Rules m) : m Statement := do
  let name ← expect .identifier "Expect variable name."
  let initial ←
    match ← accept (.symbol .equal) with
    | some _ => some <$> g.expression
    | none => pure none
  let _ ← semicolon "Expect ';' after variable declaration."
  return .declare name.lexeme initial name.line

def parsePrint (g : Rules m) (line : Nat) : m Statement := do
  let e ← g.expression
  let _ ← semicolon "Expect ';' after value."
  return .print e line

def parseExpression (g : Rules m) : m Statement := do
  let first ← peek
  let e ← g.expression
  let _ ← semicolon "Expect ';' after expression."
  return .expression e first.line

end Simple

def skip : List Token → List Token
  | [] => []
  | t :: ts =>
      let next := (Token.peek ts).kind
      if t.kind = .symbol .semicolon ∨ next = .endOfInput ∨ next.startsStatement then ts else skip ts

def resume (ts : List Token) : List Token :=
  if (Token.peek ts).kind = .endOfInput then ts else skip ts

structure Parsed where
  statements : List Statement
  records : List Record
  rest : List Token

namespace Parsed

def nothing (ts : List Token) : Parsed :=
  ⟨[], [], ts⟩

def ofAttempt (a : Attempt) : Parsed :=
  match a.result with
  | .ok s => ⟨[s], a.records ++ [.parsed s], a.rest⟩
  | .error d => ⟨[], a.records ++ [.reported d], resume a.rest⟩

def append (p q : Parsed) : Parsed :=
  ⟨p.statements ++ q.statements, p.records ++ q.records, q.rest⟩

def diagnostics (p : Parsed) : List Diagnostic :=
  diagnosticsOf p.records

end Parsed

def endsBlock (kind : TokenKind) : Bool :=
  kind = .symbol .rightBrace || kind = .endOfInput

def close (brace : Token) (body : Parsed) : Attempt :=
  let closed := do
    let _ ← expect (.symbol .rightBrace) "Expect '\x7d' after block."
    return .block body.statements brace.line
  let a := Attempt.ofParser closed body.rest
  { a with records := body.records ++ a.records }

section Calls

-- What a call for a part of the tokens comes to is told in `f`.
variable {m f : Type → Type} [Monad f]

def rowIn (stop : TokenKind → Bool) (one further : List Token → f Parsed) (ts : List Token) : f Parsed :=
  if stop (Token.peek ts).kind then return .nothing ts
  else do
    let p ← one ts
    let q ← further p.rest
    return p.append q

def blockIn (body : Option (List Token → f Parsed)) (brace : Token) (ts : List Token) : f Attempt :=
  match body with
  | none => return ⟨.error (.about brace .tooDeep), [], ts⟩
  | some body => close brace <$> body ts

def attemptIn [Monad m] [MonadStateOf (List Token) m] [MonadExceptOf Diagnostic m]
    (simple : m Statement → List Token → f Attempt) (g : Rules m) (block : Token → List Token → f Attempt) :
    List Token → f Attempt
  | ts@(t :: rest) =>
      match t.kind with
      | .keyword .var => simple (parseDeclare g) rest
      | .keyword .print => simple (parsePrint g t.line) rest
      | .symbol .leftBrace => block t rest
      | _ => simple (parseExpression g) ts
  | [] => simple (parseExpression g) []

end Calls

section Rows

variable {f : Type → Type} [Monad f]

def manyIn (stop : TokenKind → Bool) (one : List Token → f Parsed) : (fuel : Nat) → List Token → f Parsed
  | 0, ts => return .nothing ts
  | fuel + 1, ts => rowIn stop one (manyIn stop one fuel) ts

-- Each statement uses up a token, so their number bounds the number of statements.
def allIn (stop : TokenKind → Bool) (one : List Token → f Parsed) (ts : List Token) : f Parsed :=
  manyIn stop one ts.length ts

def oneIn (settle : Attempt → f Parsed) : (room : Nat) → List Token → f Parsed
  | 0, ts => attemptIn (fun p us => return .ofParser p us) (Grammar.ofRoom 0) (blockIn none) ts >>= settle
  | room + 1, ts =>
      attemptIn (fun p us => return .ofParser p us) (Grammar.ofRoom (room + 1))
        (blockIn (some (allIn endsBlock (oneIn settle room)))) ts >>= settle

end Rows

def parseMany (stop : TokenKind → Bool) (one : List Token → Parsed) (fuel : Nat) (ts : List Token) : Parsed :=
  manyIn (f := Id) stop one fuel ts

def parseAll (stop : TokenKind → Bool) (one : List Token → Parsed) (ts : List Token) : Parsed :=
  parseMany stop one ts.length ts

def attemptBlock (inner : Option (List Token → Parsed)) (brace : Token) (ts : List Token) : Attempt :=
  blockIn (f := Id) (inner.map (parseAll endsBlock)) brace ts

def attempt (g : Grammar) (inner : Option (List Token → Parsed)) (ts : List Token) : Attempt :=
  attemptIn (f := Id) .ofParser g (attemptBlock inner) ts

def parseOne (room : Nat) (ts : List Token) : Parsed :=
  oneIn (f := Id) .ofAttempt room ts

def parseWithin (room : Nat) (ts : List Token) : Parsed :=
  parseAll (· = .endOfInput) (parseOne room) ts

def parse (ts : List Token) : Parsed :=
  parseWithin maxNesting ts

end Statement

end Treewalk
