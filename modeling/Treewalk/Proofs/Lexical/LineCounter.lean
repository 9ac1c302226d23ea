import Treewalk.Proofs.Lexical.Tokens

namespace Treewalk

theorem TokenKind.newLine_notMem {k : TokenKind} {text : List Char} (h : text ∈ k.pattern)
    (hk : k ∉ [.newLine, .string, .unterminatedString]) : '\n' ∉ text := by
  have absent {p : Char → Bool} (hp : p '\n' = false) {t : List Char} (ht : ∀ c ∈ t, p c) : '\n' ∉ t := by
    intro hmem
    exact absurd (ht _ hmem) (hp ▸ Bool.false_ne_true)
  have name {t : List Char} (ht : t ∈ pattern .identifier) : '\n' ∉ t := by
    obtain ⟨c, u, hc, hu, rfl⟩ := mem_identifier.mp ht
    exact List.not_mem_cons_of_ne_of_not_mem (by rintro rfl; cases hc) (absent (by decide) hu)
  cases k with
  | symbol s =>
    obtain rfl := Pattern.mem_exactly.mp h
    cases s <;> decide
  | keyword w => exact name (keyword_le_identifier w h)
  | identifier => exact name h
  | number =>
    obtain ⟨c, t, hc, ht, rfl | ⟨d, u, hd, hu, rfl⟩⟩ := mem_number.mp h
    · exact absent (by decide) (List.forall_mem_cons.mpr ⟨hc, ht⟩)
    · have hwhole := absent (by decide) (List.forall_mem_cons.mpr ⟨hc, ht⟩)
      have hfraction := absent (by decide) (List.forall_mem_cons.mpr ⟨hd, hu⟩)
      exact List.not_mem_append hwhole (List.not_mem_cons_of_ne_of_not_mem (by decide) hfraction)
  | comment =>
    obtain ⟨body, hbody, rfl⟩ := mem_comment.mp h
    have hno : '\n' ∉ body := fun hmem => hbody _ hmem rfl
    simp [hno]
  | blank =>
    obtain ⟨c, t, hc, ht, rfl⟩ := mem_blank.mp h
    exact absent (by decide) (List.forall_mem_cons.mpr ⟨hc, ht⟩)
  | endOfInput => exact h.elim
  | newLine | string | unterminatedString => simp at hk

section

variable {cs rest : List Char} {c : Char} {p : Piece} {ps : List Piece}

theorem NextPiece.stray_ne_newLine (h : NextPiece (c :: rest) ⟨none, [c]⟩) : c ≠ '\n' := by
  rintro rfl
  cases h with
  | stray _ unmatched => exact unmatched .newLine ['\n'] ⟨rest, rfl⟩ rfl

theorem NextPiece.linesEnded (h : NextPiece (p.text ++ rest) p) : p.linesEnded = p.text.count '\n' := by
  cases h with
  | @stray c start unmatched =>
    have hc : c ≠ '\n' := NextPiece.stray_ne_newLine (.stray start unmatched)
    exact (List.count_eq_zero.mpr (by simpa using hc.symm)).symm
  | @matched k text _ fits =>
    by_cases hk : k ∈ [.newLine, .string, .unterminatedString]
    · simp only [List.mem_cons, List.not_mem_nil, or_false] at hk
      rcases hk with rfl | rfl | rfl
      · obtain rfl := Pattern.mem_exactly.mp fits
        rfl
      · rfl
      · rfl
    · rw [List.count_eq_zero.mpr (TokenKind.newLine_notMem fits hk)]
      cases k with
      | newLine | string | unterminatedString => simp at hk
      | _ => rfl

theorem Splits.lineAfter (h : Splits cs ps) (line : Nat) : Piece.lineAfter line ps = line + cs.count '\n' := by
  induction h generalizing line with
  | nil => rfl
  | @cons p ps rest next _ ih =>
    calc Piece.lineAfter line (p :: ps)
      _ = Piece.lineAfter (line + p.linesEnded) ps := rfl
      _ = line + p.text.count '\n' + rest.count '\n' := by rw [ih, next.linesEnded]
      _ = line + (p.text ++ rest).count '\n' := by rw [List.count_append, Nat.add_assoc]

end

theorem scan_tokens (source : String) : (scan source).tokens =
    (Piece.located 1 (Piece.pieces source.toList)).filterMap Piece.token? ++
      [.endOfInput (1 + source.toList.count '\n')] := by
  rw [← (splits_pieces source.toList).lineAfter 1]
  rfl

end Treewalk
