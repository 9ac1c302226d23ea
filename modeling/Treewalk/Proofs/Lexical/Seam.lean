import Treewalk.Proofs.Lexical.LineCounter
import Treewalk.Proofs.Lines

namespace Treewalk

namespace Piece

variable {p : Char → Bool} {c : Char} {cs rest : List Char}

section First

theorem takeWhile_newLine (hp : p '\n' = false) (cs rest : List Char) :
    (cs ++ '\n' :: rest).takeWhile p = cs.takeWhile p := by
  induction cs with
  | nil => simp [hp]
  | cons c cs ih => simp only [List.cons_append, List.takeWhile_cons, ih]

theorem dropWhile_newLine (hp : p '\n' = false) (cs rest : List Char) :
    (cs ++ '\n' :: rest).dropWhile p = cs.dropWhile p ++ '\n' :: rest := by
  induction cs with
  | nil => simp [hp]
  | cons c cs ih =>
    simp only [List.cons_append, List.dropWhile_cons, ih]
    split <;> rfl

def before (cut : Cut) (rest : List Char) : Cut :=
  (cut.1, cut.2 ++ '\n' :: rest)

theorem run_newLine (hp : p '\n' = false) (kind : TokenKind) (start : List Char) :
    run kind start p (cs ++ '\n' :: rest) = before (run kind start p cs) rest := by
  rw [run, takeWhile_newLine hp, dropWhile_newLine hp]
  rfl

theorem quoted_newLine (h : (quoted cs).1.kind ≠ some .unterminatedString) :
    quoted (cs ++ '\n' :: rest) = before (quoted cs) rest := by
  cases hd : cs.dropWhile (· != '"') with
  | nil =>
    unfold quoted at h
    rw [hd] at h
    exact absurd rfl h
  | cons quote tail =>
    have hclosed : (cs.takeWhile (· != '"')).length ≠ cs.length := by
      intro hlen
      have hsplit := congrArg List.length (List.takeWhile_append_dropWhile (p := (· != '"')) (l := cs))
      rw [hd, List.length_append, hlen, List.length_cons] at hsplit
      omega
    unfold quoted
    rw [List.takeWhile_append, if_neg hclosed, List.dropWhile_append, hd]
    rfl

theorem number_newLine : number c (cs ++ '\n' :: rest) = before (number c cs) rest := by
  unfold number
  rw [takeWhile_newLine (by decide), dropWhile_newLine (by decide)]
  dsimp only
  match cs.dropWhile Char.isDigit with
  | [] => rfl
  | [d] =>
    by_cases hd : d = '.'
    · subst hd
      rfl
    · simp [hd, before]
  | d :: d' :: tail =>
    by_cases hd : d = '.'
    · subst hd
      by_cases hd' : d'.isDigit
      · simp only [List.cons_append, hd', if_true]
        exact run_newLine (by decide) ..
      · simp only [List.cons_append, hd', Bool.false_eq_true, if_false]
        rfl
    · simp [hd, before]

theorem name_newLine : name c (cs ++ '\n' :: rest) = before (name c cs) rest := by
  unfold name
  rw [takeWhile_newLine (by decide), dropWhile_newLine (by decide)]
  rfl

theorem symbol_newLine : symbol c (cs ++ '\n' :: rest) = before (symbol c cs) rest := by
  unfold symbol
  cases hs : Symbol.ofChar? c with
  | none => rfl
  | some s =>
    cases cs with
    | nil => cases s <;> rfl
    | cons d cs =>
      by_cases hslash : d = '/'
      · subst hslash
        cases s with
        | slash => exact run_newLine (by decide) ..
        | _ => rfl
      · by_cases hequal : d = '='
        · subst hequal
          cases s <;> rfl
        · cases s <;> simp [hslash, hequal, before]

theorem first_newLine (h : (first c cs).1.kind ≠ some .unterminatedString) :
    first c (cs ++ '\n' :: rest) = before (first c cs) rest := by
  unfold first at h ⊢
  by_cases hn : c = '\n'
  · rw [if_pos hn, if_pos hn]
    rfl
  rw [if_neg hn] at h ⊢
  rw [if_neg hn]
  by_cases hb : isBlank c
  · rw [if_pos hb, if_pos hb]
    exact run_newLine (by decide) ..
  rw [if_neg hb] at h ⊢
  rw [if_neg hb]
  by_cases hq : c = '"'
  · rw [if_pos hq] at h ⊢
    rw [if_pos hq]
    exact quoted_newLine h
  rw [if_neg hq, if_neg hq]
  by_cases hd : c.isDigit
  · rw [if_pos hd, if_pos hd]
    exact number_newLine
  rw [if_neg hd, if_neg hd]
  by_cases hs : startsName c
  · rw [if_pos hs, if_pos hs]
    exact name_newLine
  rw [if_neg hs, if_neg hs]
  exact symbol_newLine

end First

section Pieces

theorem pieces_newLine (cs rest : List Char)
    (h : ∀ p ∈ pieces cs, p.kind ≠ some .unterminatedString) :
    pieces (cs ++ '\n' :: rest) = pieces cs ++ ⟨some .newLine, ['\n']⟩ :: pieces rest := by
  match cs with
  | [] => exact pieces_cons '\n' rest
  | c :: cs =>
    have hlt := length_first_lt c cs
    rw [pieces_cons] at h
    obtain ⟨hfirst, hothers⟩ := List.forall_mem_cons.mp h
    rw [List.cons_append, pieces_cons, pieces_cons, first_newLine hfirst, List.cons_append]
    exact congrArg _ (pieces_newLine _ rest hothers)
termination_by cs.length
decreasing_by exact hlt

theorem located_append (line : Nat) (ps qs : List Piece) :
    located line (ps ++ qs) = located line ps ++ located (lineAfter line ps) qs := by
  induction ps generalizing line with
  | nil => rfl
  | cons p ps ih =>
    rw [List.cons_append, located, located, ih]
    rfl

theorem located_raise (line k : Nat) (ps : List Piece) :
    located (line + k) ps = (located line ps).map fun x => (x.1, x.2 + k) := by
  induction ps generalizing line with
  | nil => rfl
  | cons p ps ih => simp only [located, Nat.add_right_comm line k, ih, List.map_cons]

theorem token?_mapLine (f : Nat → Nat) (x : Piece × Nat) :
    token? (x.1, f x.2) = (token? x).map (Token.mapLine f) := by
  obtain ⟨⟨kind, text⟩, line⟩ := x
  match kind with
  | none => rfl
  | some kind => cases kind <;> rfl

theorem diagnostic?_mapLine (f : Nat → Nat) (x : Piece × Nat) :
    diagnostic? (x.1, f x.2) = (diagnostic? x).map (Diagnostic.mapLine f) := by
  obtain ⟨⟨kind, text⟩, line⟩ := x
  match kind with
  | none => rfl
  | some kind => cases kind <;> rfl

theorem filterMap_raise {α : Type} {read : Piece × Nat → Option α} {g : (Nat → Nat) → α → α}
    (h : ∀ f x, read (x.1, f x.2) = (read x).map (g f)) (line k : Nat) (ps : List Piece) :
    (located (line + k) ps).filterMap read = ((located line ps).filterMap read).map (g (· + k)) := by
  rw [located_raise, List.filterMap_map, List.map_filterMap]
  exact List.filterMap_congr fun x _ => h (· + k) x

theorem kind_of_clean {ps : List Piece} {line : Nat} (h : (located line ps).filterMap diagnostic? = []) :
    ∀ p ∈ ps, p.kind ≠ some .unterminatedString := by
  induction ps generalizing line with
  | nil => exact List.forall_mem_nil _
  | cons p ps ih =>
    rw [located, List.filterMap_cons] at h
    obtain ⟨kind, text⟩ := p
    refine List.forall_mem_cons.mpr ⟨?_, ?_⟩
    · rintro rfl
      cases h
    · split at h
      · exact ih h
      · cases h

end Pieces

end Piece

theorem scan_newLine (a b : String) (h : (scan a).diagnostics = []) :
    ∃ body line, (scan a).tokens = body ++ [.endOfInput line] ∧
      (scan (a ++ "\n" ++ b)).tokens =
        body ++ (scan b).tokens.map (Token.mapLine (· + (1 + a.toList.count '\n'))) ∧
      (scan (a ++ "\n" ++ b)).diagnostics =
        (scan b).diagnostics.map (Diagnostic.mapLine (· + (1 + a.toList.count '\n'))) := by
  have hchars : (a ++ "\n" ++ b).toList = a.toList ++ '\n' :: b.toList := by simp
  have hpieces : Piece.pieces (a.toList ++ '\n' :: b.toList) =
      Piece.pieces a.toList ++ ⟨some .newLine, ['\n']⟩ :: Piece.pieces b.toList :=
    Piece.pieces_newLine _ _ (Piece.kind_of_clean h)
  have hlocated : Piece.located 1 (Piece.pieces (a.toList ++ '\n' :: b.toList)) =
      Piece.located 1 (Piece.pieces a.toList) ++
        (⟨some .newLine, ['\n']⟩, 1 + (1 + a.toList.count '\n')) ::
          Piece.located (1 + (1 + a.toList.count '\n')) (Piece.pieces b.toList) := by
    have hline : 1 + a.toList.count '\n' + 1 = 1 + (1 + a.toList.count '\n') := by omega
    rw [hpieces, Piece.located_append, (splits_pieces a.toList).lineAfter, ← hline]
    rfl
  have hend : 1 + (a.toList ++ '\n' :: b.toList).count '\n' =
      1 + b.toList.count '\n' + (1 + a.toList.count '\n') := by
    rw [List.count_append, List.count_cons_self]
    omega
  refine ⟨_, _, scan_tokens a, ?_, ?_⟩
  · rw [scan_tokens, scan_tokens, hchars, hlocated, hend, List.filterMap_append, List.filterMap_cons, List.map_append,
      List.append_assoc, Piece.filterMap_raise Piece.token?_mapLine]
    rfl
  · have hnone : (scan a).diagnostics = [] := h
    unfold scan Scanned.ofChars at hnone ⊢
    dsimp only at hnone ⊢
    rw [hchars, hlocated, List.filterMap_append, List.filterMap_cons, hnone,
      Piece.filterMap_raise Piece.diagnostic?_mapLine]
    rfl

end Treewalk
