import Treewalk.Number

namespace Treewalk

inductive Symbol where
  | leftParen | rightParen | leftBrace | rightBrace
  | comma | dot | minus | plus | semicolon | slash | star
  | bang | bangEqual | equal | equalEqual
  | greater | greaterEqual | less | lessEqual
  deriving DecidableEq, Repr

def Symbol.ofChar? : Char → Option Symbol
  | '(' => some .leftParen
  | ')' => some .rightParen
  | '\x7b' => some .leftBrace
  | '\x7d' => some .rightBrace
  | ',' => some .comma
  | '.' => some .dot
  | '-' => some .minus
  | '+' => some .plus
  | ';' => some .semicolon
  | '/' => some .slash
  | '*' => some .star
  | '!' => some .bang
  | '=' => some .equal
  | '>' => some .greater
  | '<' => some .less
  | _ => none

def Symbol.withEqual? : Symbol → Option Symbol
  | .bang => some .bangEqual
  | .equal => some .equalEqual
  | .greater => some .greaterEqual
  | .less => some .lessEqual
  | _ => none

inductive Keyword where
  | and | «class» | «else» | false | «for» | «fun» | «if» | nil
  | or | print | «return» | super | this | true | var | «while»
  deriving DecidableEq, Repr

namespace Keyword

def all : List Keyword :=
  [.and, .class, .else, .false, .for, .fun, .if, .nil,
    .or, .print, .return, .super, .this, .true, .var, .while]

def text : Keyword → String
  | .and => "and"
  | .class => "class"
  | .else => "else"
  | .false => "false"
  | .for => "for"
  | .fun => "fun"
  | .if => "if"
  | .nil => "nil"
  | .or => "or"
  | .print => "print"
  | .return => "return"
  | .super => "super"
  | .this => "this"
  | .true => "true"
  | .var => "var"
  | .while => "while"

def ofText? (s : String) : Option Keyword :=
  all.find? (·.text = s)

theorem ofText?_text (k : Keyword) : ofText? k.text = some k := by
  cases k <;> decide

theorem text_of_ofText? {s : String} {k : Keyword} (h : ofText? s = some k) : k.text = s := by
  simpa using List.find?_some h

def startsStatement : Keyword → Bool
  | .class | .fun | .var | .for | .if | .while | .print | .return => Bool.true
  | _ => Bool.false

end Keyword

inductive TokenKind where
  | symbol (s : Symbol)
  | keyword (k : Keyword)
  | identifier
  | string
  | number
  | unterminatedString
  | comment
  | newLine
  | blank
  | endOfInput
  deriving DecidableEq, Repr

def TokenKind.startsStatement : TokenKind → Bool
  | .keyword k => k.startsStatement
  | _ => false

inductive Literal where
  | number (x : Float)
  | string (s : String)
  deriving DecidableEq, Repr

structure Token where
  kind : TokenKind
  lexeme : String
  literal : Option Literal
  line : Nat
  deriving DecidableEq, Repr

namespace Token

def endOfInput (line : Nat) : Token :=
  ⟨.endOfInput, "", none, line⟩

def peek : List Token → Token
  | [] => endOfInput 0
  | t :: _ => t

@[simp] theorem peek_nil : peek [] = endOfInput 0 := rfl

@[simp] theorem peek_cons (t : Token) (ts : List Token) : peek (t :: ts) = t := rfl

end Token

end Treewalk
