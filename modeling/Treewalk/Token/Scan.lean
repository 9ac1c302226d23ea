import Treewalk.Diagnostic
import Treewalk.Token.Piece

namespace Treewalk

namespace Piece

def linesEnded (p : Piece) : Nat :=
  match p.kind with
  | some .newLine => 1
  | some .string | some .unterminatedString => p.text.count '\n'
  | _ => 0

def lineAfter (line : Nat) (ps : List Piece) : Nat :=
  ps.foldl (fun line p => line + p.linesEnded) line

def located : (line : Nat) → List Piece → List (Piece × Nat)
  | _, [] => []
  | line, p :: ps => (p, line + p.linesEnded) :: located (line + p.linesEnded) ps

def contents (text : List Char) : List Char :=
  text.tail.dropLast

def literal (kind : TokenKind) (text : List Char) : Option Literal :=
  match kind with
  | .number => some (.number (Number.ofChars text))
  | .string => some (.string (String.ofList (contents text)))
  | _ => none

def token? : Piece × Nat → Option Token
  | (⟨none, _⟩, _) => none
  | (⟨some .unterminatedString, _⟩, _) => none
  | (⟨some .comment, _⟩, _) => none
  | (⟨some .newLine, _⟩, _) => none
  | (⟨some .blank, _⟩, _) => none
  | (⟨some kind, text⟩, line) => some ⟨kind, String.ofList text, literal kind text, line⟩

def diagnostic? : Piece × Nat → Option Diagnostic
  | (⟨none, _⟩, line) => some ⟨.strayCharacter, line⟩
  | (⟨some .unterminatedString, _⟩, line) => some ⟨.openString, line⟩
  | _ => none

end Piece

structure Scanned where
  tokens : List Token
  diagnostics : List Diagnostic
  lines : Nat
  deriving DecidableEq, Repr

def Scanned.ofChars (cs : List Char) : Scanned :=
  let pieces := Piece.pieces cs
  let lines := Piece.lineAfter 1 pieces
  { tokens := (Piece.located 1 pieces).filterMap Piece.token? ++ [.endOfInput lines]
    diagnostics := (Piece.located 1 pieces).filterMap Piece.diagnostic?
    lines }

def scan (source : String) : Scanned :=
  .ofChars source.toList

end Treewalk
