import Treewalk.Proofs.Lexical.LongestMatch
import Treewalk.Token.Scan

namespace Treewalk

def Token.BeforeEnd (ts : List Token) : Prop :=
  ∀ t ∈ ts, t.kind ≠ .endOfInput

def Token.Terminated (ts : List Token) : Prop :=
  ∃ us q, ts = us ++ [q] ∧ q.kind = .endOfInput ∧ BeforeEnd us

inductive LiteralOf : TokenKind → List Char → Option Literal → Prop
  | string (body : List Char) :
      LiteralOf .string ('"' :: body ++ ['"']) (some (.string (String.ofList body)))
  | number (text : List Char) : LiteralOf .number text (some (.number (Number.ofChars text)))
  | other {k : TokenKind} {text : List Char} (not_string : k ≠ .string) (not_number : k ≠ .number) :
      LiteralOf k text none

structure Reads (p : Piece) (t : Token) : Prop where
  kind : p.kind = some t.kind
  lexeme : t.lexeme.toList = p.text
  literal : LiteralOf t.kind p.text t.literal

inductive Refuses : Piece → Diagnostic → Prop
  | stray (c : Char) (line : Nat) : Refuses ⟨none, [c]⟩ ⟨.strayCharacter, line⟩
  | unterminated (text : List Char) (line : Nat) :
      Refuses ⟨some .unterminatedString, text⟩ ⟨.openString, line⟩

namespace Piece

def isTrivia (p : Piece) : Bool :=
  p.kind ∈ [some .comment, some .newLine, some .blank]

def isRefused (p : Piece) : Bool :=
  p.kind ∈ [none, some .unterminatedString]

def isToken (p : Piece) : Bool :=
  !p.isTrivia && !p.isRefused

variable {p : Piece} {line : Nat}

theorem literalOf_literal {k : TokenKind} {text : List Char} (h : text ∈ k.pattern) :
    LiteralOf k text (literal k text) := by
  cases k
  case string =>
    obtain ⟨body, -, rfl⟩ := TokenKind.mem_string.mp h
    have inside : contents ('"' :: body ++ ['"']) = body := List.dropLast_concat
    simpa only [literal, inside] using LiteralOf.string body
  case number => exact .number text
  all_goals exact .other nofun nofun

theorem token?_of_isToken {k : TokenKind} {text : List Char} (h : isToken ⟨some k, text⟩) :
    token? (⟨some k, text⟩, line) = some ⟨k, String.ofList text, literal k text, line⟩ := by
  cases k <;> first | rfl | cases h

theorem token?_reads (h : p.isToken) (fits : Fits p) :
    ∃ t, token? (p, line) = some t ∧ Reads p t := by
  obtain ⟨_ | k, text⟩ := p
  · cases h
  · exact ⟨_, token?_of_isToken h, rfl, String.toList_ofList, literalOf_literal (fits k rfl)⟩

theorem token?_of_not_isToken (h : ¬ p.isToken) : token? (p, line) = none := by
  obtain ⟨_ | k, text⟩ := p
  · rfl
  · cases k <;> first | rfl | exact absurd rfl h

theorem diagnostic?_refuses (h : p.isRefused) (single : p.kind = none → ∃ c, p.text = [c]) :
    ∃ d, diagnostic? (p, line) = some d ∧ Refuses p d := by
  obtain ⟨_ | k, text⟩ := p
  · obtain ⟨c, rfl⟩ := single rfl
    exact ⟨_, rfl, .stray c line⟩
  · obtain rfl : k = .unterminatedString := by simpa [isRefused] using h
    exact ⟨_, rfl, .unterminated text line⟩

theorem diagnostic?_of_not_isRefused (h : ¬ p.isRefused) : diagnostic? (p, line) = none := by
  obtain ⟨_ | k, text⟩ := p
  · exact absurd rfl h
  · cases k <;> first | rfl | exact absurd rfl h

theorem forall₂_filterMap {α β : Type} {R : β → α → Prop} {keep : β → Bool} {f : β → Option α} {xs : List β}
    (kept : ∀ x ∈ xs, keep x → ∃ a, f x = some a ∧ R x a) (dropped : ∀ x ∈ xs, ¬ keep x → f x = none) :
    List.Forall₂ R (xs.filter keep) (xs.filterMap f) := by
  induction xs with
  | nil => exact .nil
  | cons x xs ih =>
      have others := ih (fun y hy => kept y (.tail x hy)) (fun y hy => dropped y (.tail x hy))
      by_cases hx : keep x
      · obtain ⟨a, ha, hR⟩ := kept x (.head xs) hx
        rw [List.filter_cons_of_pos hx, List.filterMap_cons_some ha]
        exact .cons hR others
      · rw [List.filter_cons_of_neg hx, List.filterMap_cons_none (dropped x (.head xs) hx)]
        exact others

theorem map_fst_located (line : Nat) (ps : List Piece) : (located line ps).map Prod.fst = ps := by
  induction ps generalizing line with
  | nil => rfl
  | cons p ps ih => rw [located, List.map_cons, ih]

theorem forall₂_located {α : Type} {R : Piece → α → Prop} {keep : Piece → Bool}
    {f : Piece × Nat → Option α} {ps : List Piece}
    (kept : ∀ p ∈ ps, keep p → ∀ line, ∃ a, f (p, line) = some a ∧ R p a)
    (dropped : ∀ p ∈ ps, ¬ keep p → ∀ line, f (p, line) = none) (line : Nat) :
    List.Forall₂ R (ps.filter keep) ((located line ps).filterMap f) := by
  have piece {x : Piece × Nat} (hx : x ∈ located line ps) : x.1 ∈ ps := by
    rw [← map_fst_located line ps]
    exact List.mem_map_of_mem hx
  conv => lhs; rw [← map_fst_located line ps, List.filter_map]
  rw [List.forall₂_map_left_iff]
  exact forall₂_filterMap (fun x hx hk => kept x.1 (piece hx) hk x.2)
    (fun x hx hk => dropped x.1 (piece hx) hk x.2)

end Piece

theorem Reads.kind_ne_endOfInput {p : Piece} {t : Token} (h : Reads p t) (fits : p.Fits) :
    t.kind ≠ .endOfInput := by
  intro ht
  have hp := fits _ h.kind
  rw [ht] at hp
  exact hp

theorem Token.beforeEnd_of_reads {ps : List Piece} {ts : List Token} (h : List.Forall₂ Reads ps ts)
    (fits : ∀ p ∈ ps, p.Fits) : BeforeEnd ts := by
  induction h with
  | nil => exact nofun
  | cons first _ ih =>
      obtain ⟨fits_first, fits_others⟩ := List.forall_mem_cons.mp fits
      exact List.forall_mem_cons.mpr ⟨first.kind_ne_endOfInput fits_first, ih fits_others⟩

section

variable {cs : List Char} {ps : List Piece}

theorem NextPiece.fits {p : Piece} (h : NextPiece cs p) : p.Fits := by
  cases h with
  | matched _ fits => exact Piece.fits_some fits
  | stray => rintro _ ⟨⟩

theorem NextPiece.single {p : Piece} (h : NextPiece cs p) (hp : p.kind = none) :
    ∃ c, p.text = [c] := by
  cases h with
  | matched => cases hp
  | @stray c => exact ⟨c, rfl⟩

theorem Splits.exists_nextPiece (h : Splits cs ps) : ∀ p ∈ ps, ∃ rest, NextPiece rest p := by
  induction h with
  | nil => exact nofun
  | cons next _ ih => exact List.forall_mem_cons.mpr ⟨⟨_, next⟩, ih⟩

theorem Splits.reads (h : Splits cs ps) (line : Nat) :
    List.Forall₂ Reads (ps.filter Piece.isToken) ((Piece.located line ps).filterMap Piece.token?) := by
  refine Piece.forall₂_located (fun p hp ht _ => ?_)
    (fun p _ ht _ => Piece.token?_of_not_isToken ht) line
  obtain ⟨_, next⟩ := h.exists_nextPiece p hp
  exact Piece.token?_reads ht next.fits

theorem Splits.refuses (h : Splits cs ps) (line : Nat) :
    List.Forall₂ Refuses (ps.filter Piece.isRefused)
      ((Piece.located line ps).filterMap Piece.diagnostic?) := by
  refine Piece.forall₂_located (fun p hp hr _ => ?_)
    (fun p _ hr _ => Piece.diagnostic?_of_not_isRefused hr) line
  obtain ⟨_, next⟩ := h.exists_nextPiece p hp
  exact Piece.diagnostic?_refuses hr next.single

theorem Splits.beforeEnd (h : Splits cs ps) (line : Nat) :
    Token.BeforeEnd ((Piece.located line ps).filterMap Piece.token?) := by
  refine Token.beforeEnd_of_reads (h.reads line) fun p hp => ?_
  obtain ⟨_, next⟩ := h.exists_nextPiece p (List.mem_of_mem_filter hp)
  exact next.fits

end

theorem scan_terminated (source : String) : Token.Terminated (scan source).tokens :=
  ⟨_, _, rfl, rfl, (splits_pieces _).beforeEnd 1⟩

theorem scan_longest_match (source : String) :
    (∃! ps, Splits source.toList ps) ∧ ∀ ps, Splits source.toList ps →
      (∃ body line, (scan source).tokens = body ++ [.endOfInput line] ∧ Token.BeforeEnd body ∧
        List.Forall₂ Reads (ps.filter Piece.isToken) body) ∧
      List.Forall₂ Refuses (ps.filter Piece.isRefused) (scan source).diagnostics := by
  refine ⟨⟨_, splits_pieces _, fun qs h => splits_unique h⟩, fun ps h => ?_⟩
  obtain rfl := splits_unique h
  exact ⟨⟨_, _, rfl, h.beforeEnd 1, h.reads 1⟩, h.refuses 1⟩

end Treewalk
