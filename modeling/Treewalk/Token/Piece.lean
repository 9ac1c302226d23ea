import Treewalk.Token

namespace Treewalk

structure Piece where
  kind : Option TokenKind
  text : List Char
  deriving DecidableEq, Repr

namespace Piece

def isBlank (c : Char) : Bool :=
  c = ' ' || c = '\t' || c = '\r'

def startsName (c : Char) : Bool :=
  c.isAlpha || c = '_'

def continuesName (c : Char) : Bool :=
  c.isAlphanum || c = '_'

abbrev Cut := Piece × List Char

def run (kind : TokenKind) (start : List Char) (p : Char → Bool) (cs : List Char) : Cut :=
  (⟨some kind, start ++ cs.takeWhile p⟩, cs.dropWhile p)

def quoted (cs : List Char) : Cut :=
  let body := cs.takeWhile (· != '"')
  match cs.dropWhile (· != '"') with
  | [] => (⟨some .unterminatedString, '"' :: body⟩, [])
  | quote :: rest => (⟨some .string, '"' :: body ++ [quote]⟩, rest)

def number (c : Char) (cs : List Char) : Cut :=
  let whole := c :: cs.takeWhile Char.isDigit
  match cs.dropWhile Char.isDigit with
  | '.' :: d :: rest =>
      if d.isDigit then run .number (whole ++ ['.', d]) Char.isDigit rest
      else (⟨some .number, whole⟩, '.' :: d :: rest)
  | rest => (⟨some .number, whole⟩, rest)

def nameKind (text : List Char) : TokenKind :=
  (Keyword.ofText? (String.ofList text)).elim .identifier .keyword

def name (c : Char) (cs : List Char) : Cut :=
  let text := c :: cs.takeWhile continuesName
  (⟨some (nameKind text), text⟩, cs.dropWhile continuesName)

def symbol (c : Char) (cs : List Char) : Cut :=
  match Symbol.ofChar? c, cs with
  | some .slash, '/' :: rest => run .comment [c, '/'] (· != '\n') rest
  | some s, '=' :: rest =>
      match s.withEqual? with
      | some longer => (⟨some (.symbol longer), [c, '=']⟩, rest)
      | none => (⟨some (.symbol s), [c]⟩, cs)
  | some s, _ => (⟨some (.symbol s), [c]⟩, cs)
  | none, _ => (⟨none, [c]⟩, cs)

def first (c : Char) (cs : List Char) : Cut :=
  if c = '\n' then (⟨some .newLine, [c]⟩, cs)
  else if isBlank c then run .blank [c] isBlank cs
  else if c = '"' then quoted cs
  else if c.isDigit then number c cs
  else if startsName c then name c cs
  else symbol c cs

theorem text_run (kind : TokenKind) (start : List Char) (p : Char → Bool) (cs : List Char) :
    (run kind start p cs).1.text ++ (run kind start p cs).2 = start ++ cs := by
  simp [run]

theorem text_quoted (cs : List Char) : (quoted cs).1.text ++ (quoted cs).2 = '"' :: cs := by
  have h := List.takeWhile_append_dropWhile (p := (· != '"')) (l := cs)
  unfold quoted
  split <;> simp_all

theorem text_number (c : Char) (cs : List Char) :
    (number c cs).1.text ++ (number c cs).2 = c :: cs := by
  have h := List.takeWhile_append_dropWhile (p := Char.isDigit) (l := cs)
  unfold number
  split
  · split
    · rw [text_run]
      simp_all
    · simp_all
  · simp_all

theorem text_symbol (c : Char) (cs : List Char) :
    (symbol c cs).1.text ++ (symbol c cs).2 = c :: cs := by
  unfold symbol
  split
  · rw [text_run]
    rfl
  · split <;> rfl
  · rfl
  · rfl

theorem text_first (c : Char) (cs : List Char) : (first c cs).1.text ++ (first c cs).2 = c :: cs := by
  unfold first
  split
  · rfl
  · split
    · exact text_run ..
    · split
      · simp_all [text_quoted]
      · split
        · exact text_number c cs
        · split
          · simp [name]
          · exact text_symbol c cs

theorem first_text_ne_nil (c : Char) (cs : List Char) : (first c cs).1.text ≠ [] := by
  unfold first run quoted number name symbol run
  grind

theorem length_first_lt (c : Char) (cs : List Char) : (first c cs).2.length < (c :: cs).length := by
  have h := congrArg List.length (text_first c cs)
  have hpos := List.length_pos_iff.mpr (first_text_ne_nil c cs)
  simp only [List.length_append] at h
  omega

def cut : (fuel : Nat) → List Char → List Piece
  | 0, _ => []
  | _ + 1, [] => []
  | fuel + 1, c :: cs => (first c cs).1 :: cut fuel (first c cs).2

def pieces (cs : List Char) : List Piece :=
  cut cs.length cs

theorem cut_eq_pieces {fuel : Nat} {cs : List Char} (h : cs.length ≤ fuel) :
    cut fuel cs = pieces cs := by
  suffices ∀ n m : Nat, ∀ cs : List Char, cs.length ≤ n → cs.length ≤ m → cut n cs = cut m cs from
    this fuel cs.length cs h (Nat.le_refl _)
  intro n
  induction n with
  | zero =>
      intro m cs hn _
      cases m <;> simp_all [cut]
  | succ n ih =>
      intro m cs hn hm
      cases cs with
      | nil => cases m <;> rfl
      | cons c cs =>
          cases m with
          | zero => simp at hm
          | succ m =>
              have hlt := length_first_lt c cs
              simp only [List.length_cons] at hn hm hlt
              simp only [cut]
              rw [ih m _ (by omega) (by omega)]

@[simp] theorem pieces_nil : pieces [] = [] := rfl

theorem pieces_cons (c : Char) (cs : List Char) :
    pieces (c :: cs) = (first c cs).1 :: pieces (first c cs).2 := by
  have hlt := length_first_lt c cs
  simp only [List.length_cons] at hlt
  conv => lhs; rw [pieces, List.length_cons, cut]
  rw [cut_eq_pieces (by omega)]

end Piece

end Treewalk
