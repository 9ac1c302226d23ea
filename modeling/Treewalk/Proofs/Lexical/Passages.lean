import Treewalk.Proofs.Lexical.LineCounter

namespace Treewalk

structure Passage where
  before : List Char
  piece : Piece
  after : List Char

namespace Passage

def ofPieces (before : List Char) : List Piece → List Passage
  | [] => []
  | p :: ps => ⟨before, p, ps.flatMap Piece.text⟩ :: ofPieces (before ++ p.text) ps

def endLine (x : Passage) : Nat :=
  1 + (x.before ++ x.piece.text).count '\n'

def located (x : Passage) : Piece × Nat :=
  (x.piece, x.endLine)

inductive Refused (source : List Char) : Passage → Diagnostic → Prop
  | stray (before after : List Char) (c : Char) :
      Refused source ⟨before, ⟨none, [c]⟩, after⟩ ⟨.strayCharacter, 1 + before.count '\n'⟩
  | unterminated (before text : List Char) :
      Refused source ⟨before, ⟨some .unterminatedString, text⟩, []⟩ ⟨.openString, 1 + source.count '\n'⟩

theorem ofPieces_pairwise (before : List Char) (ps : List Piece) :
    (ofPieces before ps).Pairwise (fun x y => x.before ++ x.piece.text <+: y.before) ∧
      ∀ x ∈ ofPieces before ps, before <+: x.before := by
  induction ps generalizing before with
  | nil => exact ⟨.nil, List.forall_mem_nil _⟩
  | cons p ps ih =>
    obtain ⟨hpairs, hbefore⟩ := ih (before ++ p.text)
    refine ⟨.cons hbefore hpairs, List.forall_mem_cons.mpr ⟨List.prefix_rfl, fun x hx => ?_⟩⟩
    exact (List.prefix_append before p.text).trans (hbefore x hx)

end Passage

namespace Splits

variable {cs : List Char} {ps : List Piece}

theorem text (h : Splits cs ps) : ps.flatMap Piece.text = cs := by
  induction h with
  | nil => rfl
  | cons _ _ ih => rw [List.flatMap_cons, ih]

theorem passages (h : Splits cs ps) (before : List Char) :
    ∀ x ∈ Passage.ofPieces before ps, x.before ++ x.piece.text ++ x.after = before ++ cs ∧
      NextPiece (x.piece.text ++ x.after) x.piece := by
  induction h generalizing before with
  | nil => exact List.forall_mem_nil _
  | @cons p ps rest next others ih =>
    refine List.forall_mem_cons.mpr ⟨?_, fun x hx => ?_⟩
    · dsimp only
      rw [others.text, List.append_assoc]
      exact ⟨rfl, next⟩
    · obtain ⟨hx, hnext⟩ := ih (before ++ p.text) x hx
      exact ⟨hx.trans (List.append_assoc ..), hnext⟩

theorem located (h : Splits cs ps) (before : List Char) :
    Piece.located (1 + before.count '\n') ps = (Passage.ofPieces before ps).map Passage.located := by
  induction h generalizing before with
  | nil => rfl
  | @cons p ps rest next others ih =>
    have hline : 1 + before.count '\n' + p.linesEnded = 1 + (before ++ p.text).count '\n' := by
      rw [next.linesEnded, List.count_append, Nat.add_assoc]
    rw [Piece.located, Passage.ofPieces, List.map_cons, hline, ih]
    rfl

end Splits

section

variable {text rest : List Char}

-- Whatever follows an open string carries it on or closes it.
theorem NextPiece.nothing_after_unterminated (h : NextPiece (text ++ rest) ⟨some .unterminatedString, text⟩) :
    rest = [] := by
  cases h with
  | matched _ fits longest =>
    obtain ⟨body, hbody, rfl⟩ := TokenKind.mem_unterminatedString.mp fits
    cases rest with
    | nil => rfl
    | cons d rest =>
      have start : '"' :: body ++ [d] <+: '"' :: body ++ d :: rest := ⟨rest, by simp⟩
      have longer : ∃ k, '"' :: body ++ [d] ∈ TokenKind.pattern k := by
        by_cases hd : d = '"'
        · exact ⟨.string, TokenKind.mem_string.mpr ⟨body, hbody, by rw [hd]⟩⟩
        · refine ⟨.unterminatedString, TokenKind.mem_unterminatedString.mpr ⟨body ++ [d], ?_, rfl⟩⟩
          exact List.forall_mem_append.mpr ⟨hbody, List.forall_mem_singleton.mpr hd⟩
      obtain ⟨k, hk⟩ := longer
      have hle := longest k _ start hk
      rw [List.length_append] at hle
      exact absurd hle (Nat.not_succ_le_self _)

end

theorem Piece.line_of_token? {x : Piece × Nat} {t : Token} (h : token? x = some t) : t.line = x.2 := by
  obtain ⟨⟨kind, text⟩, line⟩ := x
  match kind with
  | none => cases h
  | some kind => cases kind <;> cases h <;> rfl

theorem Piece.line_of_diagnostic? {x : Piece × Nat} {d : Diagnostic} (h : diagnostic? x = some d) : d.line = x.2 := by
  obtain ⟨⟨kind, text⟩, line⟩ := x
  match kind with
  | none =>
    cases h
    rfl
  | some kind =>
    cases kind with
    | unterminatedString =>
      cases h
      rfl
    | _ => cases h

theorem Piece.kind_of_openString {x : Piece × Nat} {d : Diagnostic} (h : diagnostic? x = some d)
    (hd : d.complaint = .openString) : x.1.kind = some .unterminatedString := by
  obtain ⟨⟨kind, text⟩, line⟩ := x
  match kind with
  | none =>
    cases h
    cases hd
  | some kind =>
    cases kind with
    | unterminatedString => rfl
    | _ => cases h

namespace Splits

variable {source : List Char} {ps : List Piece}

theorem reads_at (h : Splits source ps) :
    List.Forall₂ (fun x t => Reads x.piece t ∧ t.line = x.endLine)
      ((Passage.ofPieces [] ps).filter (·.piece.isToken))
      ((Passage.ofPieces [] ps).filterMap (Piece.token? ∘ Passage.located)) := by
  refine Piece.forall₂_filterMap (fun x hx ht => ?_) fun x _ ht => Piece.token?_of_not_isToken ht
  obtain ⟨t, ht, hreads⟩ : ∃ t, Piece.token? x.located = some t ∧ Reads x.piece t :=
    Piece.token?_reads ht (h.passages [] x hx).2.fits
  exact ⟨t, ht, hreads, Piece.line_of_token? ht⟩

theorem refuses_at (h : Splits source ps) :
    List.Forall₂ (Passage.Refused source) ((Passage.ofPieces [] ps).filter (·.piece.isRefused))
      ((Passage.ofPieces [] ps).filterMap (Piece.diagnostic? ∘ Passage.located)) := by
  refine Piece.forall₂_filterMap (fun x hx hr => ?_) fun x _ hr => Piece.diagnostic?_of_not_isRefused hr
  obtain ⟨hsource, next⟩ := h.passages [] x hx
  obtain ⟨before, ⟨kind, text⟩, after⟩ := x
  cases kind with
  | none =>
    obtain ⟨c, rfl⟩ : ∃ c, text = [c] := next.single rfl
    refine ⟨_, rfl, ?_⟩
    have hline : (Passage.mk before ⟨none, [c]⟩ after).endLine = 1 + before.count '\n' := by
      simp [Passage.endLine, next.stray_ne_newLine]
    rw [hline]
    exact .stray before after c
  | some k =>
    obtain rfl : k = .unterminatedString := by simpa [Piece.isRefused] using hr
    obtain rfl : after = [] := next.nothing_after_unterminated
    refine ⟨_, rfl, ?_⟩
    have hline : (Passage.mk before ⟨some .unterminatedString, text⟩ []).endLine = 1 + source.count '\n' := by
      rw [List.append_nil, List.nil_append] at hsource
      rw [← hsource]
      rfl
    rw [hline]
    exact .unterminated before text

theorem openString_last (h : Splits source ps) (line : Nat) :
    ((Piece.located line ps).filterMap Piece.diagnostic?).Pairwise fun d _ => d.complaint ≠ .openString := by
  rw [List.pairwise_filterMap]
  induction h generalizing line with
  | nil => exact .nil
  | @cons p ps rest next others ih =>
    refine .cons (fun y hy d hd _ _ hopen => ?_) (ih _)
    obtain ⟨kind, text⟩ := p
    obtain rfl : kind = some .unterminatedString := Piece.kind_of_openString hd hopen
    obtain rfl := next.nothing_after_unterminated
    rw [splits_unique others] at hy
    cases hy

end Splits

section Scan

variable (source : String)

def Passage.ofSource : List Passage :=
  ofPieces [] (Piece.pieces source.toList)

theorem tokens_at_passages : (scan source).tokens =
    (Passage.ofSource source).filterMap (Piece.token? ∘ Passage.located) ++
      [.endOfInput (1 + source.toList.count '\n')] := by
  rw [scan_tokens, ← List.filterMap_map, Passage.ofSource, ← (splits_pieces source.toList).located []]
  rfl

theorem diagnostics_at_passages : (scan source).diagnostics =
    (Passage.ofSource source).filterMap (Piece.diagnostic? ∘ Passage.located) := by
  rw [← List.filterMap_map, Passage.ofSource, ← (splits_pieces source.toList).located []]
  rfl

theorem Passage.line_le {x : Passage} (h : x ∈ ofSource source) :
    1 ≤ x.endLine ∧ x.endLine ≤ 1 + source.toList.count '\n' := by
  have hsource := ((splits_pieces source.toList).passages [] x h).1
  rw [List.nil_append] at hsource
  refine ⟨Nat.le_add_right .., Nat.add_le_add_left ?_ 1⟩
  rw [← hsource]
  exact (List.sublist_append_left ..).count_le _

theorem scan_line_le {t : Token} (h : t ∈ (scan source).tokens) :
    1 ≤ t.line ∧ t.line ≤ 1 + source.toList.count '\n' := by
  rw [tokens_at_passages, List.mem_append, List.mem_filterMap, List.mem_singleton] at h
  rcases h with ⟨x, hx, ht⟩ | rfl
  · rw [Piece.line_of_token? ht]
    exact Passage.line_le source hx
  · exact ⟨Nat.le_add_right .., Nat.le_refl _⟩

theorem Passage.ofSource_ordered : (ofSource source).Pairwise fun x y => x.endLine ≤ y.endLine := by
  refine (ofPieces_pairwise [] (Piece.pieces source.toList)).1.imp fun {x y} hxy => Nat.add_le_add_left ?_ 1
  exact (hxy.trans (List.prefix_append ..)).sublist.count_le _

theorem scan_lines_ordered : (scan source).tokens.Pairwise fun t u => t.line ≤ u.line := by
  rw [tokens_at_passages, List.pairwise_append, List.pairwise_filterMap]
  refine ⟨(Passage.ofSource_ordered source).imp fun hxy t ht u hu => ?_, .cons (List.forall_mem_nil _) .nil,
    fun t ht u hu => ?_⟩
  · rw [Piece.line_of_token? ht, Piece.line_of_token? hu]
    exact hxy
  · have hmem : t ∈ (scan source).tokens := by
      rw [tokens_at_passages]
      exact List.mem_append_left _ ht
    obtain rfl := List.mem_singleton.mp hu
    exact (scan_line_le source hmem).2

theorem scan_diagnostics_ordered : (scan source).diagnostics.Pairwise fun d d' => d.line ≤ d'.line := by
  rw [diagnostics_at_passages, List.pairwise_filterMap]
  refine (Passage.ofSource_ordered source).imp fun hxy d hd d' hd' => ?_
  rw [Piece.line_of_diagnostic? hd, Piece.line_of_diagnostic? hd']
  exact hxy

theorem scan_lines :
    ∃ ps, Splits source.toList ps ∧
      (∀ x ∈ Passage.ofPieces [] ps, x.before ++ x.piece.text ++ x.after = source.toList) ∧
      (∃ body, (scan source).tokens = body ++ [.endOfInput (1 + source.toList.count '\n')] ∧
        List.Forall₂ (fun x t => Reads x.piece t ∧ t.line = 1 + (x.before ++ x.piece.text).count '\n')
          ((Passage.ofPieces [] ps).filter (·.piece.isToken)) body) ∧
      List.Forall₂ (Passage.Refused source.toList) ((Passage.ofPieces [] ps).filter (·.piece.isRefused))
        (scan source).diagnostics ∧
      (∀ d ∈ (scan source).diagnostics.dropLast, d.complaint ≠ .openString) ∧
      (scan source).tokens.Pairwise fun t u => t.line ≤ u.line := by
  have split := splits_pieces source.toList
  refine ⟨_, split, fun x hx => (split.passages [] x hx).1, ⟨_, tokens_at_passages source, split.reads_at⟩, ?_, ?_,
    scan_lines_ordered source⟩
  · rw [diagnostics_at_passages]
    exact split.refuses_at
  · have hlast : (scan source).diagnostics.Pairwise fun d _ => d.complaint ≠ .openString := split.openString_last 1
    intro d hd
    rcases List.eq_nil_or_concat (scan source).diagnostics with hnil | ⟨init, last, hconcat⟩
    · rw [hnil] at hd
      cases hd
    · rw [List.concat_eq_append] at hconcat
      rw [hconcat, List.dropLast_concat] at hd
      rw [hconcat, List.pairwise_append] at hlast
      exact hlast.2.2 d hd last (List.mem_singleton_self last)

end Scan

end Treewalk
