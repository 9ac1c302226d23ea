import Treewalk.Proofs.Lexical.Seam

namespace Treewalk

open Computability

namespace Pattern

def Space (c : Char) : Prop :=
  Blank c ∨ c = '\n'

def spacing : Language Char :=
  oneOf Space + exactly "//" * many (· ≠ '\n') * exactly "\n"

def separator : Language Char :=
  oneOf Space * spacing∗

theorem mem_spacing {cs : List Char} : cs ∈ spacing ↔
    (∃ c, Space c ∧ cs = [c]) ∨ ∃ body, (∀ c ∈ body, c ≠ '\n') ∧ cs = '/' :: '/' :: body ++ ['\n'] := by
  rw [spacing, Language.mem_add, mem_oneOf, mul_assoc, mem_exactly_mul]
  refine or_congr Iff.rfl ?_
  constructor
  · rintro ⟨_, ⟨body, hbody, _, rfl, rfl⟩, rfl⟩
    exact ⟨body, mem_many.mp hbody, rfl⟩
  · rintro ⟨body, hbody, rfl⟩
    exact ⟨body ++ ['\n'], ⟨body, mem_many.mpr hbody, ['\n'], rfl, rfl⟩, rfl⟩

theorem mem_separator {cs : List Char} : cs ∈ separator ↔
    ∃ (c : Char) (words : List (List Char)), Space c ∧ (∀ word ∈ words, word ∈ spacing) ∧
      cs = c :: words.flatten := by
  rw [separator, mem_oneOf_mul]
  constructor
  · rintro ⟨c, t, hc, ht, rfl⟩
    obtain ⟨words, rfl, hwords⟩ := Language.mem_kstar.mp ht
    exact ⟨c, words, hc, hwords, rfl⟩
  · rintro ⟨c, words, hc, hwords, rfl⟩
    exact ⟨c, words.flatten, hc, Language.mem_kstar.mpr ⟨words, rfl, hwords⟩, rfl⟩

theorem Space.not_of {c : Char} (h : Space c) {p : Char → Bool} (hp : [' ', '\t', '\r', '\n'].all (!p ·)) :
    ¬ p c := by
  have hc : c ∈ [' ', '\t', '\r', '\n'] := by
    rcases h with (rfl | rfl | rfl) | rfl <;> decide
  simpa using List.all_eq_true.mp hp c hc

theorem Space.notMem_symbol {c : Char} (h : Space c) (s : Symbol) : c ∉ s.text.toList := by
  rcases h with (rfl | rfl | rfl) | rfl <;> cases s <;> decide

end Pattern

inductive SetApart : List String → String → Prop
  | nil : SetApart [] ""
  | single (text : String) : SetApart [text] text
  | cons {text other separator joined : String} {texts : List String}
      (apart : separator.toList ∈ Pattern.separator) (others : SetApart (other :: texts) joined) :
      SetApart (text :: other :: texts) (text ++ separator ++ joined)

namespace TokenKind

open Pattern

variable {k : TokenKind} {c w : Char} {t text more : List Char}

theorem head_of_isToken (hk : Piece.isToken ⟨some k, c :: t⟩) (h : c :: t ∈ k.pattern) :
    ¬ Space c ∧ (c = '"' → k = .string) ∧ (c = '/' → t = []) := by
  have of_class {p : Char → Bool} (hp : p c) (hspace : [' ', '\t', '\r', '\n'].all (!p ·))
      (hquote : ¬ p '"') (hslash : ¬ p '/') :
      ¬ Space c ∧ (c = '"' → k = .string) ∧ (c = '/' → t = []) := by
    refine ⟨fun hc => hc.not_of hspace hp, ?_, ?_⟩
    · rintro rfl
      exact absurd hp hquote
    · rintro rfl
      exact absurd hp hslash
  cases k with
  | symbol s =>
    have htext : c :: t = s.text.toList := h
    refine ⟨fun hc => hc.notMem_symbol s (htext ▸ List.mem_cons_self), ?_, ?_⟩
    · rintro rfl
      cases s <;> cases htext
    · rintro rfl
      cases s <;> cases htext
      rfl
  | keyword w =>
    obtain ⟨_, _, hc, _, ⟨⟩⟩ := mem_identifier.mp (keyword_le_identifier w h)
    exact of_class hc (by decide) (by decide) (by decide)
  | identifier =>
    obtain ⟨_, _, hc, _, ⟨⟩⟩ := mem_identifier.mp h
    exact of_class hc (by decide) (by decide) (by decide)
  | string =>
    obtain ⟨body, _, ⟨⟩⟩ := mem_string.mp h
    refine ⟨fun hc => ?_, fun _ => rfl, nofun⟩
    exact hc.not_of (p := (· = '"')) (by decide) (by decide)
  | number =>
    obtain ⟨d, u, hd, _, hcs⟩ := mem_number.mp h
    obtain rfl : c = d := by
      rcases hcs with hcs | ⟨_, _, _, _, hcs⟩ <;> exact (List.cons.inj hcs).1
    exact of_class hd (by decide) (by decide) (by decide)
  | unterminatedString | comment | newLine | blank => cases hk
  | endOfInput => exact absurd h (Set.notMem_empty _)

-- Of what starts like a token, only strings and comments hold white space. A longer string would hold the quote that
-- closes this one, and a token that starts with a slash is the slash alone, to which white space adds no second.
theorem notMem_into_space (hk : Piece.isToken ⟨some k, text⟩) (h : text ∈ k.pattern) (hw : Space w)
    (k' : TokenKind) : text ++ w :: more ∉ k'.pattern := by
  intro h'
  cases text with
  | nil => exact k.nil_notMem_pattern h
  | cons c t =>
    obtain ⟨hspace, hquote, hslash⟩ := head_of_isToken hk h
    have hmem : w ∈ t ++ w :: more := List.mem_append_right t List.mem_cons_self
    have in_string (body : List Char) (hc : c = '"') (hb : ∀ d ∈ body, d ≠ '"') : ¬ t <+: body := by
      obtain rfl := hquote hc
      obtain ⟨inside, _, hcs⟩ := mem_string.mp h
      rintro ⟨_, rfl⟩
      refine hb '"' ?_ rfl
      rw [(List.cons.inj hcs).2]
      simp
    cases k' with
    | symbol s =>
      have htext : c :: t ++ w :: more = s.text.toList := h'
      exact hw.notMem_symbol s (htext ▸ List.mem_cons_of_mem c hmem)
    | keyword x =>
      obtain ⟨_, _, _, hrest, hcs⟩ := mem_identifier.mp (keyword_le_identifier x h')
      obtain ⟨rfl, rfl⟩ := List.cons.inj hcs
      exact hw.not_of (by decide) (hrest w hmem)
    | identifier =>
      obtain ⟨_, _, _, hrest, hcs⟩ := mem_identifier.mp h'
      obtain ⟨rfl, rfl⟩ := List.cons.inj hcs
      exact hw.not_of (by decide) (hrest w hmem)
    | string =>
      obtain ⟨body, hbody, hcs⟩ := mem_string.mp h'
      obtain ⟨hc, hcs⟩ : c = '"' ∧ t ++ w :: more = body ++ ['"'] := List.cons.inj hcs
      have hlength := congrArg List.length hcs
      rw [List.length_append, List.length_append, List.length_cons, List.length_singleton] at hlength
      have hstart : t <+: body ++ ['"'] := hcs ▸ List.prefix_append t (w :: more)
      exact in_string body hc hbody
        (List.prefix_of_prefix_length_le hstart (List.prefix_append ..) (by omega))
    | number =>
      obtain ⟨d, u, _, hu, hcs⟩ := mem_number.mp h'
      rcases hcs with hcs | ⟨e, v, he, hv, hcs⟩
      · rw [(List.cons.inj hcs).2.symm] at hu
        exact hw.not_of (by decide) (hu w hmem)
      · have hcs : c :: (t ++ w :: more) = d :: (u ++ '.' :: e :: v) := hcs
        rw [(List.cons.inj hcs).2, List.mem_append, List.mem_cons, List.mem_cons] at hmem
        rcases hmem with hw' | rfl | rfl | hw'
        · exact hw.not_of (by decide) (hu w hw')
        · exact hw.not_of (p := (· = '.')) (by decide) (by decide)
        · exact hw.not_of (by decide) he
        · exact hw.not_of (by decide) (hv w hw')
    | unterminatedString =>
      obtain ⟨body, hbody, hcs⟩ := mem_unterminatedString.mp h'
      obtain ⟨hc, rfl⟩ := List.cons.inj hcs
      exact in_string _ hc hbody (List.prefix_append ..)
    | comment =>
      obtain ⟨body, _, hcs⟩ := mem_comment.mp h'
      obtain ⟨hc, hcs⟩ := List.cons.inj hcs
      rw [hslash hc] at hcs
      obtain ⟨rfl, -⟩ := List.cons.inj hcs
      exact hw.not_of (p := (· = '/')) (by decide) (by decide)
    | newLine =>
      have hcs : c :: (t ++ w :: more) = ['\n'] := h'
      rw [(List.cons.inj hcs).2] at hmem
      cases hmem
    | blank =>
      obtain ⟨_, _, hc, _, hcs⟩ := mem_blank.mp h'
      obtain ⟨rfl, -⟩ := List.cons.inj hcs
      exact hspace (.inl (blank_iff.mpr hc))
    | endOfInput => exact absurd h' (Set.notMem_empty _)

end TokenKind

namespace NextPiece

variable {cs : List Char} {p : Piece}

theorem before (h : NextPiece cs p) (hp : p.isToken) {rest : List Char}
    (hrest : ∀ w more, rest = w :: more → Pattern.Space w) : NextPiece (p.text ++ rest) p := by
  cases h with
  | stray => cases hp
  | @matched k text _ fits longest no_keyword =>
    refine .matched (List.prefix_append text rest) fits (fun k' text' hstart hfits => ?_) no_keyword
    by_contra hlonger
    have hwhole : text <+: text' :=
      List.prefix_of_prefix_length_le (List.prefix_append text rest) hstart (by omega)
    obtain ⟨_ | ⟨w, more⟩, rfl⟩ := hwhole
    · rw [List.append_nil] at hlonger
      exact hlonger (Nat.le_refl _)
    · obtain ⟨after, hafter⟩ := (List.prefix_append_right_inj text).mp hstart
      exact TokenKind.notMem_into_space hp fits (hrest w _ hafter.symm) k' hfits

theorem pieces_eq {rest : List Char} (h : NextPiece (p.text ++ rest) p) :
    Piece.pieces (p.text ++ rest) = p :: Piece.pieces rest :=
  (splits_unique (.cons h (splits_pieces rest))).symm

end NextPiece

namespace Piece

def meaningful (cs : List Char) : List Piece :=
  (pieces cs).filter (!·.isTrivia)

section Meaningful

variable {c : Char} {cs rest : List Char}

theorem meaningful_of_trivia (h : (first c cs).1.isTrivia) :
    meaningful (c :: cs) = meaningful (first c cs).2 := by
  rw [meaningful, pieces_cons, List.filter_cons_of_neg (by simpa using h)]
  rfl

theorem meaningful_blank (h : isBlank c) : meaningful (c :: cs) = meaningful (cs.dropWhile isBlank) := by
  have hfirst := first_blank cs h
  rw [meaningful_of_trivia (by rw [hfirst]; rfl), hfirst]
  rfl

theorem meaningful_dropWhile (cs : List Char) : meaningful (cs.dropWhile isBlank) = meaningful cs := by
  cases cs with
  | nil => rfl
  | cons c cs =>
    by_cases hc : isBlank c
    · rw [List.dropWhile_cons_of_pos hc, meaningful_blank hc]
    · rw [List.dropWhile_cons_of_neg hc]

theorem meaningful_newLine (cs : List Char) : meaningful ('\n' :: cs) = meaningful cs :=
  meaningful_of_trivia rfl

theorem meaningful_space (h : Pattern.Space c) (cs : List Char) : meaningful (c :: cs) = meaningful cs := by
  rcases h with hc | rfl
  · rw [meaningful_blank (Pattern.blank_iff.mp hc), meaningful_dropWhile]
  · exact meaningful_newLine cs

theorem meaningful_comment {body : List Char} (h : ∀ d ∈ body, d ≠ '\n') (cs : List Char) :
    meaningful ('/' :: '/' :: body ++ '\n' :: cs) = meaningful cs := by
  have hfirst : first '/' ('/' :: body ++ '\n' :: cs) = (⟨some .comment, '/' :: '/' :: body⟩, '\n' :: cs) := by
    change run .comment ['/', '/'] (· != '\n') (body ++ '\n' :: cs) = _
    rw [run, takeWhile_ne_append h, dropWhile_ne_append h]
    simp
  rw [List.cons_append, meaningful_of_trivia (by rw [hfirst]; rfl), hfirst]
  exact meaningful_newLine cs

theorem meaningful_spacing (h : cs ∈ Pattern.spacing) (rest : List Char) :
    meaningful (cs ++ rest) = meaningful rest := by
  rcases Pattern.mem_spacing.mp h with ⟨c, hc, rfl⟩ | ⟨body, hbody, rfl⟩
  · exact meaningful_space hc rest
  · rw [List.append_assoc]
    exact meaningful_comment hbody rest

theorem meaningful_separator (h : cs ∈ Pattern.separator) (rest : List Char) :
    meaningful (cs ++ rest) = meaningful rest := by
  obtain ⟨c, words, hc, hwords, rfl⟩ := Pattern.mem_separator.mp h
  rw [List.cons_append, meaningful_space hc]
  clear h
  induction words with
  | nil => rfl
  | cons word words ih =>
    obtain ⟨hword, hothers⟩ := List.forall_mem_cons.mp hwords
    rw [List.flatten_cons, List.append_assoc, meaningful_spacing hword, ih hothers]

theorem meaningful_token {p : Piece} {rest : List Char} (hp : p.isToken)
    (h : NextPiece (p.text ++ rest) p) : meaningful (p.text ++ rest) = p :: meaningful rest := by
  rw [meaningful, h.pieces_eq]
  exact List.filter_cons_of_pos (Bool.and_eq_true_iff.mp hp).1

-- The end of input has a lexeme too, an empty one, which may be set apart like the others.
theorem meaningful_setApart {ps : List Piece} (h : ∀ p ∈ ps, p.isToken ∧ ∃ cs, NextPiece cs p)
    {ends : List String} (hends : ends = [] ∨ ends = [""]) {joined : String}
    (hjoined : SetApart (ps.map (String.ofList ·.text) ++ ends) joined) :
    meaningful joined.toList = ps := by
  induction ps generalizing joined with
  | nil =>
    rcases hends with rfl | rfl <;> cases hjoined <;> rfl
  | cons p ps ih =>
    obtain ⟨⟨hp, cs, next⟩, hps⟩ := List.forall_mem_cons.mp h
    rw [List.map_cons, List.cons_append] at hjoined
    generalize htexts : ps.map (String.ofList ·.text) ++ ends = texts at hjoined ih
    cases hjoined with
    | single =>
      obtain ⟨hnil, -⟩ := List.append_eq_nil_iff.mp htexts
      obtain rfl := List.map_eq_nil_iff.mp hnil
      have halone : NextPiece (p.text ++ []) p := next.before hp nofun
      rw [String.toList_ofList, ← List.append_nil p.text, meaningful_token hp halone]
      rfl
    | @cons _ other separator joined texts apart others =>
      obtain ⟨w, _, hw, -, hseparator⟩ := Pattern.mem_separator.mp apart
      have hspace (w' : Char) (more' : List Char) (heq : separator.toList ++ joined.toList = w' :: more') :
          Pattern.Space w' := by
        rw [hseparator] at heq
        obtain ⟨rfl, -⟩ := List.cons.inj heq
        exact hw
      rw [String.toList_append, String.toList_append, String.toList_ofList, List.append_assoc,
        meaningful_token hp (next.before hp hspace), meaningful_separator apart, ih hps others]

end Meaningful

theorem tokens_mapLine_zero (line : Nat) (ps : List Piece) :
    ((located line ps).filterMap token?).map (Token.mapLine fun _ => 0) =
      (ps.filter isToken).filterMap fun p => token? (p, 0) := by
  have hread : (fun x => (token? x).map (Token.mapLine fun _ => 0)) = (fun p => token? (p, 0)) ∘ Prod.fst :=
    funext fun x => (token?_mapLine (fun _ => 0) x).symm
  rw [List.map_filterMap, hread, ← List.filterMap_map, map_fst_located, List.filterMap_filter]
  refine List.filterMap_congr fun p _ => ?_
  split
  · rfl
  · rename_i hp
    exact token?_of_not_isToken hp

theorem filter_isToken (cs : List Char) :
    (pieces cs).filter isToken = (meaningful cs).filter isToken := by
  rw [meaningful, List.filter_filter]
  refine List.filter_congr fun p _ => ?_
  rw [isToken, Bool.and_right_comm, Bool.and_self]

theorem filter_isRefused (cs : List Char) :
    (pieces cs).filter isRefused = (meaningful cs).filter isRefused := by
  rw [meaningful, List.filter_filter]
  refine List.filter_congr fun p _ => ?_
  obtain ⟨_ | k, text⟩ := p
  · rfl
  · cases k <;> rfl

end Piece

theorem scan_of_meaningful {source joined : String}
    (h : Piece.meaningful joined.toList = (Piece.pieces source.toList).filter Piece.isToken) :
    (scan joined).diagnostics = [] ∧ (scan joined).tokens.map (Token.mapLine fun _ => 0) =
      (scan source).tokens.map (Token.mapLine fun _ => 0) := by
  have hrefused : (Piece.pieces joined.toList).filter Piece.isRefused = [] := by
    rw [Piece.filter_isRefused, h]
    refine List.filter_eq_nil_iff.mpr fun p hp hr => ?_
    have hs := (Bool.and_eq_true_iff.mp (List.mem_filter.mp hp).2).2
    rw [hr] at hs
    cases hs
  have htokens : (Piece.pieces joined.toList).filter Piece.isToken =
      (Piece.pieces source.toList).filter Piece.isToken := by
    rw [Piece.filter_isToken, h, List.filter_filter]
    exact List.filter_congr fun p _ => Bool.and_self _
  constructor
  · have hrefuses := (splits_pieces joined.toList).refuses 1
    rw [hrefused] at hrefuses
    exact List.forall₂_nil_left_iff.mp hrefuses
  · unfold scan Scanned.ofChars
    dsimp only
    rw [List.map_append, List.map_append, Piece.tokens_mapLine_zero, Piece.tokens_mapLine_zero, htokens]
    rfl

theorem lexemes_of_reads {ps : List Piece} {ts : List Token} (h : List.Forall₂ Reads ps ts) :
    ts.map Token.lexeme = ps.map (String.ofList ·.text) := by
  induction h with
  | nil => rfl
  | cons reads _ ih => rw [List.map_cons, List.map_cons, ih, ← reads.lexeme, String.ofList_toList]

theorem lexemes_scan (source : String) :
    (scan source).tokens.map Token.lexeme =
      ((Piece.pieces source.toList).filter Piece.isToken).map (String.ofList ·.text) ++ [""] := by
  rw [← lexemes_of_reads ((splits_pieces source.toList).reads 1)]
  exact List.map_append

theorem rescan_lexemes (source joined : String)
    (h : SetApart ((scan source).tokens.map Token.lexeme) joined ∨
      SetApart ((scan source).tokens.dropLast.map Token.lexeme) joined) :
    (scan joined).diagnostics = [] ∧ (scan joined).tokens.map (Token.mapLine fun _ => 0) =
      (scan source).tokens.map (Token.mapLine fun _ => 0) := by
  have hpieces : ∀ p ∈ (Piece.pieces source.toList).filter Piece.isToken,
      p.isToken ∧ ∃ cs, NextPiece cs p := by
    intro p hp
    obtain ⟨hp, ht⟩ := List.mem_filter.mp hp
    exact ⟨ht, (splits_pieces _).exists_nextPiece p hp⟩
  rw [List.map_dropLast, lexemes_scan, List.dropLast_concat] at h
  apply scan_of_meaningful
  rcases h with h | h
  · exact Piece.meaningful_setApart hpieces (.inr rfl) h
  · exact Piece.meaningful_setApart hpieces (.inl rfl) ((List.append_nil _).symm ▸ h)

theorem rescan_lexemes_commented :
    let source := "print 1.@/\"a\n//b\";\"open"
    let joined := "print \n1 // one\n. /\t// two\n\n\"a\n//b\"\r;\n"
    SetApart ((scan source).tokens.map Token.lexeme) joined ∧ (scan joined).diagnostics = [] ∧
      (scan joined).tokens.map (Token.mapLine fun _ => 0) =
        (scan source).tokens.map (Token.mapLine fun _ => 0) := by
  intro source joined
  have hlexemes : (scan source).tokens.map Token.lexeme = ["print", "1", ".", "/", "\"a\n//b\"", ";", ""] := by
    decide +kernel
  have hjoined : joined = "print" ++ " \n" ++ ("1" ++ " // one\n" ++ ("." ++ " " ++ ("/" ++ "\t// two\n\n" ++
      ("\"a\n//b\"" ++ "\r" ++ (";" ++ "\n" ++ ""))))) := by
    decide +kernel
  have happart : SetApart ((scan source).tokens.map Token.lexeme) joined := by
    rw [hlexemes, hjoined]
    have apart (c : Char) (words : List (List Char)) (hc : c ∈ [' ', '\t', '\r', '\n'])
        (hwords : ∀ word ∈ words, word ∈ [['\n'], "// one\n".toList, "// two\n".toList]) :
        c :: words.flatten ∈ Pattern.separator := by
      refine Pattern.mem_separator.mpr ⟨c, words, ?_, fun word hword => Pattern.mem_spacing.mpr ?_, rfl⟩
      · simpa [Pattern.Space, Pattern.Blank, or_assoc] using hc
      · rcases hwords word hword with _ | ⟨_, _ | ⟨_, _ | ⟨_, ⟨⟩⟩⟩⟩
        · exact .inl ⟨'\n', .inr rfl, rfl⟩
        · exact .inr ⟨[' ', 'o', 'n', 'e'], by simp, rfl⟩
        · exact .inr ⟨[' ', 't', 'w', 'o'], by simp, rfl⟩
    refine .cons (apart ' ' [['\n']] ?_ ?_) (.cons (apart ' ' ["// one\n".toList] ?_ ?_)
      (.cons (apart ' ' [] ?_ ?_) (.cons (apart '\t' ["// two\n".toList, ['\n']] ?_ ?_)
        (.cons (apart '\r' [] ?_ ?_) (.cons (apart '\n' [] ?_ ?_) (.single "")))))) <;> decide
  exact ⟨happart, rescan_lexemes source joined (.inl happart)⟩

end Treewalk
