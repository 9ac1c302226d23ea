import Mathlib.Data.List.TakeWhile
import Treewalk.Proofs.Lexical.Patterns

namespace Treewalk

inductive NextPiece (cs : List Char) : Piece → Prop
  | matched {k : TokenKind} {text : List Char} (start : text <+: cs) (fits : text ∈ k.pattern)
      (longest : ∀ k' text', text' <+: cs → text' ∈ TokenKind.pattern k' → text'.length ≤ text.length)
      (no_keyword : k = .identifier → ∀ w, text ∉ TokenKind.pattern (.keyword w)) :
      NextPiece cs ⟨some k, text⟩
  | stray {c : Char} (start : [c] <+: cs)
      (unmatched : ∀ k text, text <+: cs → text ∉ TokenKind.pattern k) : NextPiece cs ⟨none, [c]⟩

inductive Splits : List Char → List Piece → Prop
  | nil : Splits [] []
  | cons {p : Piece} {ps : List Piece} {rest : List Char} (next : NextPiece (p.text ++ rest) p)
      (others : Splits rest ps) : Splits (p.text ++ rest) (p :: ps)

namespace Symbol

theorem text_of_ofChar? {c : Char} {s : Symbol} (h : ofChar? c = some s) : s.text.toList = [c] := by
  unfold ofChar? at h
  split at h <;> cases h <;> rfl

theorem text_of_withEqual? {c : Char} {s l : Symbol} (hs : ofChar? c = some s)
    (hl : s.withEqual? = some l) : l.text.toList = [c, '='] := by
  have hc := text_of_ofChar? hs
  cases s <;> simp only [withEqual?, Option.some.injEq, reduceCtorEq] at hl <;> subst hl <;>
    cases hc <;> rfl

theorem text_cases (s : Symbol) :
    (∃ c, ofChar? c = some s ∧ s.text.toList = [c]) ∨
      ∃ c s', ofChar? c = some s' ∧ s'.withEqual? = some s ∧ s.text.toList = [c, '='] := by
  cases s
  case bangEqual => exact .inr ⟨'!', .bang, rfl, rfl, rfl⟩
  case equalEqual => exact .inr ⟨'=', .equal, rfl, rfl, rfl⟩
  case greaterEqual => exact .inr ⟨'>', .greater, rfl, rfl, rfl⟩
  case lessEqual => exact .inr ⟨'<', .less, rfl, rfl, rfl⟩
  all_goals exact .inl ⟨_, rfl, rfl⟩

end Symbol

theorem TokenKind.nil_notMem_pattern (k : TokenKind) : [] ∉ k.pattern := by
  intro h
  cases k with
  | symbol s =>
      obtain ⟨c, _, hc⟩ | ⟨c, _, _, _, hc⟩ := s.text_cases <;> cases hc.symm.trans h.symm
  | keyword w => cases w <;> cases h
  | identifier => obtain ⟨_, _, _, _, h⟩ := mem_identifier.mp h; cases h
  | string => obtain ⟨_, _, h⟩ := mem_string.mp h; cases h
  | number => obtain ⟨_, _, _, _, h | ⟨_, _, _, _, h⟩⟩ := mem_number.mp h <;> cases h
  | unterminatedString => obtain ⟨_, _, h⟩ := mem_unterminatedString.mp h; cases h
  | comment => obtain ⟨_, _, h⟩ := mem_comment.mp h; cases h
  | newLine => cases h
  | blank => obtain ⟨_, _, _, _, h⟩ := mem_blank.mp h; cases h
  | endOfInput => exact h

namespace Piece

section Classes

variable {c : Char} (cs : List Char)

theorem first_quote : first '"' cs = quoted cs := rfl

theorem first_blank (h : isBlank c) : first c cs = run .blank [c] isBlank cs := by
  have hn : c ≠ '\n' := by rintro rfl; cases h
  simp only [first, if_neg hn, if_pos h]

theorem not_space_of {p : Char → Bool} (hp : ['\n', ' ', '\t', '\r', '"'].all (!p ·)) (h : p c) :
    c ≠ '\n' ∧ ¬ isBlank c ∧ c ≠ '"' := by
  have absent : c ∉ ['\n', ' ', '\t', '\r', '"'] := by
    intro hc
    have hpc := List.all_eq_true.mp hp c hc
    rw [h] at hpc
    cases hpc
  simp only [List.mem_cons, List.not_mem_nil, or_false, not_or] at absent
  obtain ⟨hn, hs, ht, hr, hq⟩ := absent
  refine ⟨hn, fun hb => ?_, hq⟩
  obtain hb | hb | hb := Pattern.blank_iff.mpr hb
  · exact hs hb
  · exact ht hb
  · exact hr hb

theorem first_digit (h : c.isDigit) : first c cs = number c cs := by
  obtain ⟨hn, hb, hq⟩ := not_space_of (by decide) h
  simp only [first, if_neg hn, if_neg hb, if_neg hq, if_pos h]

theorem not_isDigit_of_startsName (h : startsName c) : ¬ c.isDigit := by
  intro hd
  obtain ⟨h0, h9⟩ := Pattern.digit_iff.mpr hd
  simp only [Char.le_def, UInt32.le_iff_toNat_le] at h0 h9
  obtain ⟨ha, -⟩ | ⟨hA, -⟩ | rfl := Pattern.letter_iff.mpr h
  · simp only [Char.le_def, UInt32.le_iff_toNat_le] at ha
    exact absurd (ha.trans h9) (by decide)
  · simp only [Char.le_def, UInt32.le_iff_toNat_le] at hA
    exact absurd (hA.trans h9) (by decide)
  · cases hd

theorem first_name (h : startsName c) : first c cs = name c cs := by
  obtain ⟨hn, hb, hq⟩ := not_space_of (by decide) h
  simp only [first, if_neg hn, if_neg hb, if_neg hq, if_neg (not_isDigit_of_startsName h), if_pos h]

theorem first_symbol {s : Symbol} (h : Symbol.ofChar? c = some s) : first c cs = symbol c cs := by
  unfold Symbol.ofChar? at h
  split at h <;> first | rfl | cases h

end Classes

def Fits (p : Piece) : Prop :=
  ∀ k, p.kind = some k → p.text ∈ k.pattern

section Fits

variable {c : Char} {k : TokenKind} {text cs : List Char}

theorem fits_some (h : text ∈ k.pattern) : Fits ⟨some k, text⟩ := by
  rintro _ ⟨⟩
  exact h

theorem ne_of_mem_takeWhile {d x : Char} (hx : x ∈ cs.takeWhile (· != d)) : x ≠ d := by
  simpa using List.mem_takeWhile_imp hx

theorem fits_quoted : Fits (quoted cs).1 := by
  unfold quoted
  split
  · exact fits_some (TokenKind.mem_unterminatedString.mpr ⟨_, fun _ => ne_of_mem_takeWhile, rfl⟩)
  case h_2 quote rest h =>
    have hq : quote = '"' := by
      have := List.head?_dropWhile_not (· != '"') cs
      simpa [h] using this
    subst hq
    exact fits_some (TokenKind.mem_string.mpr ⟨_, fun _ => ne_of_mem_takeWhile, rfl⟩)

theorem fits_number (h : c.isDigit) : Fits (number c cs).1 := by
  have whole : c :: cs.takeWhile Char.isDigit ∈ TokenKind.pattern .number :=
    TokenKind.mem_number.mpr ⟨c, _, h, fun _ => List.mem_takeWhile_imp, .inl rfl⟩
  unfold number
  split
  case h_1 d rest _ =>
    split
    case isTrue hd =>
      refine fits_some (TokenKind.mem_number.mpr ⟨c, cs.takeWhile Char.isDigit, h, ?_, .inr ?_⟩)
      · exact fun _ => List.mem_takeWhile_imp
      · exact ⟨d, rest.takeWhile Char.isDigit, hd, fun _ => List.mem_takeWhile_imp, by simp⟩
    case isFalse => exact fits_some whole
  case h_2 => exact fits_some whole

theorem fits_name (h : startsName c) : Fits (name c cs).1 := by
  refine fits_some ?_
  unfold nameKind
  cases hw : Keyword.ofText? (String.ofList (c :: cs.takeWhile continuesName)) with
  | none => exact TokenKind.mem_identifier.mpr ⟨c, _, h, fun _ => List.mem_takeWhile_imp, rfl⟩
  | some w => exact Pattern.mem_exactly.mpr (by rw [Keyword.text_of_ofText? hw, String.toList_ofList])

theorem fits_symbol : Fits (symbol c cs).1 := by
  unfold symbol
  split
  case h_1 rest hs =>
    obtain ⟨rfl⟩ := Symbol.text_of_ofChar? hs
    exact fits_some (TokenKind.mem_comment.mpr ⟨_, fun _ => ne_of_mem_takeWhile, rfl⟩)
  case h_2 s rest _ hs =>
    split
    case h_1 l hl => exact fits_some (Symbol.text_of_withEqual? hs hl).symm
    case h_2 => exact fits_some (Symbol.text_of_ofChar? hs).symm
  case h_3 hs _ _ => exact fits_some (Symbol.text_of_ofChar? hs).symm
  case h_4 => rintro _ ⟨⟩

theorem fits_first (c : Char) (cs : List Char) : Fits (first c cs).1 := by
  unfold first
  split
  case isTrue hn => exact fits_some (hn ▸ rfl)
  split
  case isTrue hb =>
    exact fits_some (TokenKind.mem_blank.mpr ⟨c, _, hb, fun _ => List.mem_takeWhile_imp, rfl⟩)
  split
  case isTrue => exact fits_quoted
  split
  case isTrue hd => exact fits_number hd
  split
  case isTrue hs => exact fits_name hs
  case isFalse => exact fits_symbol

end Fits

def Covers (k : TokenKind) (text : List Char) (p : Piece) : Prop :=
  ∃ k' more, p = ⟨some k', text ++ more⟩ ∧
    (more = [] → k' = k ∨ k = .identifier ∧ k' = nameKind text)

section Covers

variable {c : Char} {k : TokenKind} {text body t rest : List Char}

theorem covers_self (k : TokenKind) (text more : List Char) : Covers k text ⟨some k, text ++ more⟩ :=
  ⟨k, more, rfl, fun _ => .inl rfl⟩

theorem covers_run {p : Char → Bool} (start : List Char) (h : ∀ d ∈ body, p d) :
    Covers k (start ++ body) (run k start p (body ++ rest)).1 := by
  simp only [run, List.takeWhile_append_of_pos h, ← List.append_assoc]
  exact covers_self k (start ++ body) _

theorem takeWhile_ne_append (h : ∀ d ∈ body, d ≠ c) (rest : List Char) :
    (body ++ rest).takeWhile (· != c) = body ++ rest.takeWhile (· != c) :=
  List.takeWhile_append_of_pos (by simpa using h)

theorem dropWhile_ne_append (h : ∀ d ∈ body, d ≠ c) (rest : List Char) :
    (body ++ rest).dropWhile (· != c) = rest.dropWhile (· != c) :=
  List.dropWhile_append_of_pos (by simpa using h)

theorem covers_quoted_closed (h : ∀ d ∈ body, d ≠ '"') :
    Covers .string ('"' :: body ++ ['"']) (quoted (body ++ '"' :: rest)).1 := by
  simp only [quoted, takeWhile_ne_append h, dropWhile_ne_append h]
  simpa using covers_self .string ('"' :: body ++ ['"']) []

theorem covers_quoted_open (h : ∀ d ∈ body, d ≠ '"') :
    Covers .unterminatedString ('"' :: body) (quoted (body ++ rest)).1 := by
  simp only [quoted, takeWhile_ne_append h, dropWhile_ne_append h]
  split
  case h_1 => exact covers_self .unterminatedString ('"' :: body) _
  case h_2 quote _ _ =>
    exact ⟨.string, rest.takeWhile (· != '"') ++ [quote], by simp, fun h => absurd h (by simp)⟩

theorem covers_number_whole (h : ∀ d ∈ t, d.isDigit) :
    Covers .number (c :: t) (number c (t ++ rest)).1 := by
  simp only [number, List.takeWhile_append_of_pos h, List.dropWhile_append_of_pos h]
  split
  case h_1 d rest' _ =>
    split
    case isTrue =>
      simpa [run] using covers_self .number (c :: t)
        (rest.takeWhile Char.isDigit ++ '.' :: d :: rest'.takeWhile Char.isDigit)
    case isFalse => exact covers_self .number (c :: t) _
  case h_2 => exact covers_self .number (c :: t) _

theorem covers_number_fraction {d : Char} {u : List Char} (ht : ∀ x ∈ t, x.isDigit) (hd : d.isDigit)
    (hu : ∀ x ∈ u, x.isDigit) :
    Covers .number (c :: t ++ '.' :: d :: u) (number c (t ++ '.' :: d :: u ++ rest)).1 := by
  have point : ¬ '.'.isDigit := by decide
  have fraction : Covers .number _ (run .number (c :: t ++ ['.', d]) Char.isDigit (u ++ rest)).1 :=
    covers_run _ hu
  simp only [number, List.append_assoc, List.cons_append, List.takeWhile_append_of_pos ht,
    List.dropWhile_append_of_pos ht, List.takeWhile_cons_of_neg point,
    List.dropWhile_cons_of_neg point, if_pos hd]
  simpa using fraction

theorem covers_identifier (h : ∀ d ∈ t, continuesName d) :
    Covers .identifier (c :: t) (name c (t ++ rest)).1 := by
  simp only [name, List.takeWhile_append_of_pos h]
  refine ⟨_, rest.takeWhile continuesName, rfl, fun hm => .inr ⟨rfl, ?_⟩⟩
  rw [hm, List.append_nil]

theorem nameKind_of_keyword {w : Keyword} (h : text ∈ TokenKind.pattern (.keyword w)) :
    nameKind text = .keyword w := by
  obtain rfl := Pattern.mem_exactly.mp h
  rw [nameKind, String.ofList_toList, Keyword.ofText?_text]
  rfl

theorem nameKind_of_no_keyword (h : ∀ w, text ∉ TokenKind.pattern (.keyword w)) :
    nameKind text = .identifier := by
  unfold nameKind
  cases hw : Keyword.ofText? (String.ofList text) with
  | none => rfl
  | some w =>
      refine absurd (Pattern.mem_exactly.mpr ?_) (h w)
      rw [Keyword.text_of_ofText? hw, String.toList_ofList]

theorem covers_keyword {w : Keyword} (ht : ∀ d ∈ t, continuesName d)
    (hw : c :: t ∈ TokenKind.pattern (.keyword w)) :
    Covers (.keyword w) (c :: t) (name c (t ++ rest)).1 := by
  simp only [name, List.takeWhile_append_of_pos ht]
  refine ⟨_, rest.takeWhile continuesName, rfl, fun hm => .inl ?_⟩
  rw [hm, List.append_nil, nameKind_of_keyword hw]

theorem covers_symbol {s : Symbol} (h : Symbol.ofChar? c = some s) :
    Covers (.symbol s) [c] (symbol c rest).1 := by
  unfold symbol
  rw [h]
  split
  case h_1 => exact ⟨.comment, _ :: _, rfl, nofun⟩
  case h_2 s' _ _ hs =>
    obtain ⟨⟩ := hs
    split
    · exact ⟨_, ['='], rfl, nofun⟩
    · exact covers_self (.symbol s) [c] []
  case h_3 hs _ _ =>
    obtain ⟨⟩ := hs
    exact covers_self (.symbol s) [c] []
  case h_4 hs => cases hs

theorem covers_symbol_equal {s l : Symbol} (hs : Symbol.ofChar? c = some s)
    (hl : s.withEqual? = some l) : Covers (.symbol l) [c, '='] (symbol c ('=' :: rest)).1 := by
  have cut : symbol c ('=' :: rest) = (⟨some (.symbol l), [c, '=']⟩, rest) := by
    unfold symbol
    rw [hs]
    cases s <;> cases hl <;> rfl
  rw [cut]
  exact covers_self (.symbol l) [c, '='] []

theorem covers_first (h : c :: t ∈ k.pattern) (rest : List Char) :
    Covers k (c :: t) (first c (t ++ rest)).1 := by
  cases k with
  | symbol s =>
      have text : c :: t = s.text.toList := h
      obtain ⟨d, hs, hd⟩ | ⟨d, s', hs, hl, hd⟩ := s.text_cases
      · obtain ⟨⟩ := text.trans hd
        rw [first_symbol _ hs]
        exact covers_symbol hs
      · obtain ⟨⟩ := text.trans hd
        rw [first_symbol _ hs]
        exact covers_symbol_equal hs hl
  | keyword w =>
      obtain ⟨_, _, hc, ht, ⟨⟩⟩ := TokenKind.mem_identifier.mp (TokenKind.keyword_le_identifier w h)
      rw [first_name _ hc]
      exact covers_keyword ht h
  | identifier =>
      obtain ⟨_, _, hc, ht, ⟨⟩⟩ := TokenKind.mem_identifier.mp h
      rw [first_name _ hc]
      exact covers_identifier ht
  | string =>
      obtain ⟨body, hb, ⟨⟩⟩ := TokenKind.mem_string.mp h
      change Covers .string _ (quoted (body ++ ['"'] ++ rest)).1
      rw [List.append_assoc]
      exact covers_quoted_closed hb
  | number =>
      obtain ⟨_, _, hc, ht, ⟨⟨⟩⟩ | ⟨d, u, hd, hu, ⟨⟩⟩⟩ := TokenKind.mem_number.mp h
      · rw [first_digit _ hc]
        exact covers_number_whole ht
      · rw [first_digit _ hc]
        exact covers_number_fraction ht hd hu
  | unterminatedString =>
      obtain ⟨body, hb, ⟨⟩⟩ := TokenKind.mem_unterminatedString.mp h
      rw [first_quote]
      exact covers_quoted_open hb
  | comment =>
      obtain ⟨body, hb, ⟨⟩⟩ := TokenKind.mem_comment.mp h
      exact covers_run ['/', '/'] (by simpa using hb)
  | newLine =>
      obtain ⟨⟩ : c :: t = ['\n'] := h
      exact covers_self .newLine ['\n'] []
  | blank =>
      obtain ⟨_, _, hc, ht, ⟨⟩⟩ := TokenKind.mem_blank.mp h
      rw [first_blank _ hc]
      exact covers_run [c] ht
  | endOfInput => exact absurd h (Set.notMem_empty _)

end Covers

theorem first_of_kind_none {c : Char} {cs : List Char} (h : (first c cs).1.kind = none) :
    (first c cs).1 = ⟨none, [c]⟩ := by
  unfold first run quoted number name symbol run at *
  grind

end Piece

section Next

variable {c : Char} {cs : List Char} {p : Piece}

open Piece

theorem TokenKind.split_of_mem_pattern {k : TokenKind} {text : List Char} (hk : text ∈ k.pattern)
    (hs : text <+: c :: cs) : ∃ t rest, text = c :: t ∧ cs = t ++ rest := by
  obtain ⟨rest, hs⟩ := hs
  cases text with
  | nil => exact absurd hk k.nil_notMem_pattern
  | cons d t =>
      obtain ⟨⟩ := hs
      exact ⟨t, rest, rfl, rfl⟩

theorem first_of_nextPiece (h : NextPiece (c :: cs) p) : (first c cs).1 = p := by
  have start : (first c cs).1.text <+: c :: cs := ⟨_, text_first c cs⟩
  cases h with
  | matched hs fits longest no_keyword =>
      obtain ⟨t, rest, rfl, rfl⟩ := TokenKind.split_of_mem_pattern fits hs
      obtain ⟨k', more, hp, hk⟩ := covers_first fits rest
      have fits' := fits_first c (t ++ rest)
      rw [hp] at start fits' ⊢
      have hle := longest k' _ start (fits' k' rfl)
      obtain rfl : more = [] := by
        rw [List.length_append] at hle
        exact List.eq_nil_of_length_eq_zero (by omega)
      rw [List.append_nil]
      obtain rfl | ⟨rfl, rfl⟩ := hk rfl
      · rfl
      · rw [nameKind_of_no_keyword (no_keyword rfl)]
  | stray hs unmatched =>
      obtain ⟨rest, ⟨⟩⟩ := hs
      refine first_of_kind_none (Option.eq_none_iff_forall_ne_some.mpr fun k hk => ?_)
      exact unmatched k _ start (fits_first _ _ k hk)

theorem text_ne_nil_of_nextPiece (h : NextPiece cs p) : p.text ≠ [] := by
  cases h with
  | @matched k text _ fits =>
      rintro rfl
      exact k.nil_notMem_pattern fits
  | stray => exact List.cons_ne_nil _ _

theorem nextPiece_first (c : Char) (cs : List Char) : NextPiece (c :: cs) (first c cs).1 := by
  have start : (first c cs).1.text <+: c :: cs := ⟨_, text_first c cs⟩
  have covered : ∀ k text, text <+: c :: cs → text ∈ TokenKind.pattern k →
      Covers k text (first c cs).1 := by
    intro k text hs hk
    obtain ⟨t, rest, rfl, rfl⟩ := TokenKind.split_of_mem_pattern hk hs
    exact covers_first hk rest
  have fits := fits_first c cs
  cases hk : (first c cs).1.kind with
  | none =>
      rw [first_of_kind_none hk]
      refine .stray (List.prefix_append [c] cs) fun k text hs ht => ?_
      obtain ⟨k', more, hp, -⟩ := covered k text hs ht
      rw [hp] at hk
      cases hk
  | some k =>
      have piece : (first c cs).1 = ⟨some k, (first c cs).1.text⟩ := by rw [← hk]
      rw [piece]
      refine .matched start (fits k hk) (fun k' text hs ht => ?_) ?_
      · obtain ⟨_, more, hp, -⟩ := covered k' text hs ht
        rw [hp, List.length_append]
        exact Nat.le_add_right ..
      · rintro rfl w hw
        obtain ⟨k', more, hp, hkw⟩ := covered _ _ start hw
        have hmore : more = [] := List.self_eq_append_right.mp (congrArg Piece.text hp)
        have hk' : k' = .identifier := Option.some.inj ((congrArg Piece.kind hp).symm.trans hk)
        obtain h | ⟨h, -⟩ := hkw hmore
        · cases hk'.symm.trans h
        · cases h

end Next

theorem splits_pieces (cs : List Char) : Splits cs (Piece.pieces cs) := by
  induction hn : cs.length using Nat.strong_induction_on generalizing cs with
  | _ n ih =>
      cases cs with
      | nil => exact .nil
      | cons c cs =>
          have others := ih _ (hn ▸ Piece.length_first_lt c cs) _ rfl
          have next := nextPiece_first c cs
          rw [Piece.pieces_cons]
          rw [← Piece.text_first c cs] at next ⊢
          exact .cons next others

theorem splits_unique {cs : List Char} {ps : List Piece} (h : Splits cs ps) :
    ps = Piece.pieces cs := by
  induction h with
  | nil => rfl
  | @cons p ps rest next _ ih =>
      cases hcs : p.text ++ rest with
      | nil => exact absurd (List.append_eq_nil_iff.mp hcs).1 (text_ne_nil_of_nextPiece next)
      | cons c cs =>
          rw [hcs] at next
          have hp := first_of_nextPiece next
          have hrest : (Piece.first c cs).2 = rest := by
            have split := (Piece.text_first c cs).trans hcs.symm
            rw [hp] at split
            exact List.append_cancel_left split
          rw [Piece.pieces_cons, hp, hrest, ih]

end Treewalk
