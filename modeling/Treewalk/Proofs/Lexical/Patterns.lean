import Mathlib.Computability.Language
import Treewalk.Token.Piece

namespace Treewalk

open Computability

def Symbol.text : Symbol → String
  | .leftParen => "("
  | .rightParen => ")"
  | .leftBrace => "\x7b"
  | .rightBrace => "\x7d"
  | .comma => ","
  | .dot => "."
  | .minus => "-"
  | .plus => "+"
  | .semicolon => ";"
  | .slash => "/"
  | .star => "*"
  | .bang => "!"
  | .bangEqual => "!="
  | .equal => "="
  | .equalEqual => "=="
  | .greater => ">"
  | .greaterEqual => ">="
  | .less => "<"
  | .lessEqual => "<="

namespace Pattern

def Digit (c : Char) : Prop :=
  '0' ≤ c ∧ c ≤ '9'

def Letter (c : Char) : Prop :=
  'a' ≤ c ∧ c ≤ 'z' ∨ 'A' ≤ c ∧ c ≤ 'Z' ∨ c = '_'

def Blank (c : Char) : Prop :=
  c = ' ' ∨ c = '\t' ∨ c = '\r'

def exactly (s : String) : Language Char :=
  {s.toList}

def oneOf (p : Char → Prop) : Language Char :=
  {cs : List Char | ∃ c, p c ∧ cs = [c]}

def many (p : Char → Prop) : Language Char :=
  (oneOf p)∗

def run (p : Char → Prop) : Language Char :=
  oneOf p * many p

end Pattern

open Pattern in
def TokenKind.pattern : TokenKind → Language Char
  | .symbol s => exactly s.text
  | .keyword k => exactly k.text
  | .identifier => oneOf Letter * many (fun c => Letter c ∨ Digit c)
  | .string => exactly "\"" * many (· ≠ '"') * exactly "\""
  | .number => run Digit * (1 + exactly "." * run Digit)
  | .unterminatedString => exactly "\"" * many (· ≠ '"')
  | .comment => exactly "//" * many (· ≠ '\n')
  | .newLine => exactly "\n"
  | .blank => run Blank
  | .endOfInput => 0

namespace Pattern

theorem digit_iff {c : Char} : Digit c ↔ c.isDigit := by
  simp only [Digit, Char.isDigit, Bool.and_eq_true, decide_eq_true_eq, Char.le_def, ge_iff_le]

theorem letter_iff {c : Char} : Letter c ↔ Piece.startsName c := by
  delta Letter Piece.startsName Char.isAlpha Char.isUpper Char.isLower
  simp only [Bool.or_eq_true, Bool.and_eq_true, decide_eq_true_eq, Char.le_def, ge_iff_le]
  tauto

theorem letter_or_digit_iff {c : Char} : Letter c ∨ Digit c ↔ Piece.continuesName c := by
  rw [letter_iff, digit_iff]
  simp only [Piece.startsName, Piece.continuesName, Char.isAlphanum, Bool.or_eq_true]
  tauto

theorem blank_iff {c : Char} : Blank c ↔ Piece.isBlank c := by
  simp [Blank, Piece.isBlank, or_assoc]

theorem mem_exactly {s : String} {cs : List Char} : cs ∈ exactly s ↔ cs = s.toList :=
  Iff.rfl

theorem mem_oneOf {p : Char → Prop} {cs : List Char} : cs ∈ oneOf p ↔ ∃ c, p c ∧ cs = [c] :=
  Iff.rfl

theorem mem_many {p : Char → Prop} {cs : List Char} : cs ∈ many p ↔ ∀ c ∈ cs, p c := by
  constructor
  · intro h
    obtain ⟨L, rfl, hL⟩ := Language.mem_kstar.mp h
    intro c hc
    obtain ⟨w, hw, hcw⟩ := List.mem_flatten.mp hc
    obtain ⟨d, hd, rfl⟩ := mem_oneOf.mp (hL w hw)
    obtain rfl := List.mem_singleton.mp hcw
    exact hd
  · intro h
    refine Language.mem_kstar.mpr ⟨cs.map ([·]), (List.flatMap_singleton' cs).symm, ?_⟩
    intro w hw
    obtain ⟨c, hc, rfl⟩ := List.mem_map.mp hw
    exact ⟨c, h c hc, rfl⟩

theorem mem_exactly_mul {s : String} {L : Language Char} {cs : List Char} :
    cs ∈ exactly s * L ↔ ∃ t ∈ L, cs = s.toList ++ t := by
  simp only [Language.mem_mul, mem_exactly, exists_eq_left, eq_comm]

theorem mem_oneOf_mul {p : Char → Prop} {L : Language Char} {cs : List Char} :
    cs ∈ oneOf p * L ↔ ∃ c t, p c ∧ t ∈ L ∧ cs = c :: t := by
  simp only [Language.mem_mul, mem_oneOf]
  constructor
  · rintro ⟨_, ⟨c, hc, rfl⟩, t, ht, rfl⟩
    exact ⟨c, t, hc, ht, rfl⟩
  · rintro ⟨c, t, hc, ht, rfl⟩
    exact ⟨[c], ⟨c, hc, rfl⟩, t, ht, rfl⟩

theorem mem_run {p : Char → Prop} {cs : List Char} :
    cs ∈ run p ↔ ∃ c t, p c ∧ (∀ d ∈ t, p d) ∧ cs = c :: t := by
  simp only [run, mem_oneOf_mul, mem_many]

end Pattern

namespace TokenKind

open Pattern

variable {cs : List Char}

theorem mem_identifier : cs ∈ pattern .identifier ↔
    ∃ c t, Piece.startsName c ∧ (∀ d ∈ t, Piece.continuesName d) ∧ cs = c :: t := by
  simp only [pattern, mem_oneOf_mul, mem_many, letter_iff, ← letter_or_digit_iff]

theorem mem_unterminatedString : cs ∈ pattern .unterminatedString ↔
    ∃ body, (∀ c ∈ body, c ≠ '"') ∧ cs = '"' :: body := by
  simp only [pattern, mem_exactly_mul, mem_many]
  rfl

theorem mem_string : cs ∈ pattern .string ↔
    ∃ body, (∀ c ∈ body, c ≠ '"') ∧ cs = '"' :: body ++ ['"'] := by
  simp only [pattern, mul_assoc, mem_exactly_mul]
  simp only [Language.mem_mul, mem_many, mem_exactly]
  constructor
  · rintro ⟨_, ⟨body, hb, _, rfl, rfl⟩, rfl⟩
    exact ⟨body, hb, rfl⟩
  · rintro ⟨body, hb, rfl⟩
    exact ⟨_, ⟨body, hb, _, rfl, rfl⟩, rfl⟩

theorem mem_number : cs ∈ pattern .number ↔
    ∃ c t, c.isDigit ∧ (∀ d ∈ t, d.isDigit) ∧
      (cs = c :: t ∨ ∃ d u, d.isDigit ∧ (∀ x ∈ u, x.isDigit) ∧ cs = c :: t ++ '.' :: d :: u) := by
  rw [pattern, Language.mem_mul]
  simp only [Language.mem_add, Language.mem_one, mem_exactly_mul, mem_run, digit_iff]
  constructor
  · rintro ⟨_, ⟨c, t, hc, ht, rfl⟩, _, rfl | ⟨_, ⟨d, u, hd, hu, rfl⟩, rfl⟩, rfl⟩
    · exact ⟨c, t, hc, ht, .inl (List.append_nil _)⟩
    · exact ⟨c, t, hc, ht, .inr ⟨d, u, hd, hu, rfl⟩⟩
  · rintro ⟨c, t, hc, ht, rfl | ⟨d, u, hd, hu, rfl⟩⟩
    · exact ⟨_, ⟨c, t, hc, ht, rfl⟩, [], .inl rfl, List.append_nil _⟩
    · exact ⟨_, ⟨c, t, hc, ht, rfl⟩, _, .inr ⟨_, ⟨d, u, hd, hu, rfl⟩, rfl⟩, rfl⟩

theorem mem_comment : cs ∈ pattern .comment ↔
    ∃ body, (∀ c ∈ body, c ≠ '\n') ∧ cs = '/' :: '/' :: body := by
  simp only [pattern, mem_exactly_mul, mem_many]
  rfl

theorem mem_blank : cs ∈ pattern .blank ↔
    ∃ c t, Piece.isBlank c ∧ (∀ d ∈ t, Piece.isBlank d) ∧ cs = c :: t := by
  simp only [pattern, mem_run, blank_iff]

theorem keyword_le_identifier (k : Keyword) (h : cs ∈ pattern (.keyword k)) :
    cs ∈ pattern .identifier := by
  obtain rfl := mem_exactly.mp h
  rw [mem_identifier]
  cases k <;> exact ⟨_, _, by decide, List.all_eq_true.mp (by decide), rfl⟩

end TokenKind

end Treewalk
