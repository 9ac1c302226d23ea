import Treewalk.Proofs.Grammar.Recovery

namespace Treewalk

structure Segment where
  body : List Token
  semicolon : Token
  closed : semicolon.kind = .symbol .semicolon
  plain : ∀ t ∈ body,
    t.kind ∉ [.symbol .semicolon, .symbol .leftBrace, .symbol .rightBrace, .endOfInput]
  keywords : ∀ t ∈ body.tail, t.kind.startsStatement = false

namespace Segment

def tokens (s : Segment) : List Token :=
  s.body ++ [s.semicolon]

theorem ne_of_mem_body {s : Segment} {t : Token} (h : t ∈ s.body) :
    t.kind ≠ .symbol .semicolon ∧ t.kind ≠ .symbol .leftBrace ∧ t.kind ≠ .endOfInput := by
  have hplain := s.plain t h
  simp only [List.mem_cons, List.not_mem_nil, or_false, not_or] at hplain
  exact ⟨hplain.1, hplain.2.1, hplain.2.2.2⟩

theorem peek_tokens (s : Segment) (more : List Token) :
    (Token.peek (s.tokens ++ more)).kind ≠ .symbol .leftBrace ∧
      (Token.peek (s.tokens ++ more)).kind ≠ .endOfInput := by
  obtain ⟨body, q, closed, plain, keywords⟩ := s
  cases body with
  | nil => simp [tokens, closed]
  | cons t body =>
    have ht := ne_of_mem_body (s := ⟨t :: body, q, closed, plain, keywords⟩) (List.mem_cons_self ..)
    exact ht.2

end Segment

theorem DerivesDeclaration.semicolon_last {ts : List Token} {s : Statement} (h : DerivesDeclaration ts s)
    (hl : (Token.peek ts).kind ≠ .symbol .leftBrace) :
    ∃ us q, ts = us ++ [q] ∧ q.kind = .symbol .semicolon ∧ ∀ t ∈ us, t.kind ≠ .symbol .semicolon := by
  have inside {us : List Token} {e : Expr} (hd : Derives .assignment us e) :
      ∀ t ∈ us, t.kind ≠ .symbol .semicolon :=
    fun t ht => (TokenKind.ne_of_inExpression (hd.inExpression t ht)).1
  cases h with
  | @var v x q hv hx hq => exact ⟨[v, x], q, rfl, hq, by simp [hv, hx]⟩
  | @init v x i q ts e hv hx hi hd hq =>
    exact ⟨v :: x :: i :: ts, q, rfl, hq, by simpa [hv, hx, hi] using inside hd⟩
  | statement h =>
    cases h with
    | @print p q ts e hp hd hq => exact ⟨p :: ts, q, rfl, hq, by simpa [hp] using inside hd⟩
    | block hl' _ _ => exact absurd hl' hl
    | @expression t q ts e hd hq => exact ⟨t :: ts, q, rfl, hq, inside hd⟩

namespace Statement

theorem derives_segment {s : Segment} {room : Nat} {st : Statement} {rest : List Token}
    (h : Taken room s.tokens rest st) : DerivesDeclaration s.tokens st := by
  obtain ⟨used, hts, hd, -, -⟩ := h
  have hl : (Token.peek used).kind ≠ .symbol .leftBrace := by
    obtain ⟨t, us, rfl, -⟩ := hd.head
    have hpeek := (s.peek_tokens []).1
    rwa [List.append_nil, hts] at hpeek
  obtain ⟨us, q, rfl, hq, hus⟩ := hd.semicolon_last hl
  rw [List.append_assoc, List.singleton_append] at hts
  have hhead : (Token.peek (q :: rest)).kind = .symbol .semicolon := hq
  have hbody : s.body = us :=
    Token.eq_of_split (fun t ht => (Segment.ne_of_mem_body ht).1) hus s.closed hhead hts
  rw [Segment.tokens, hbody] at hts ⊢
  have hlast := List.append_cancel_left hts
  rw [List.cons.injEq] at hlast
  rwa [hlast.1]

theorem fails_in_segment {s : Segment} {room : Nat} {used rest : List Token} {d : Diagnostic}
    (hts : s.tokens = used ++ rest) (h : FailsSimple (Token.peek rest) room used d) :
    ∃ left, s.body = used ++ left ∧ rest = left ++ [s.semicolon] := by
  rcases List.eq_nil_or_concat rest with rfl | ⟨left, t, rfl⟩
  · have hmem : s.semicolon ∈ used := by
      rw [List.append_nil] at hts
      simp [← hts, Segment.tokens]
    exact absurd s.closed (h.plain _ hmem).1
  · rw [Segment.tokens, List.concat_eq_append, ← List.append_assoc] at hts
    obtain ⟨hbody, hlast⟩ := List.append_inj' hts rfl
    exact ⟨left, hbody, by rw [hlast, List.concat_eq_append]⟩

theorem segment_settles (s : Segment) (room : Nat) :
    ∃ ss ds, ((∃ st, ss = [st] ∧ ds = []) ∨ ∃ d, ss = [] ∧ ds = [d]) ∧
      Yields (parseOne room) s.tokens ss ds := by
  have hl := (s.peek_tokens []).1
  rw [List.append_nil] at hl
  cases hr : (attempt (.ofRoom room) (oneWithin room) s.tokens).result with
  | ok st =>
    obtain ⟨rest, htaken, -⟩ := attempt_ok hl hr
    have hd := derives_segment htaken
    obtain ⟨_, -, -, hn, -⟩ := htaken
    exact ⟨[st], [], .inl ⟨st, rfl, rfl⟩, yields_of_derives hd hn⟩
  | error d =>
    obtain ⟨used, rest, hts, hf, -⟩ := attempt_error hl hr
    obtain ⟨left, hbody, rfl⟩ := fails_in_segment hts hf
    have hplain : ∀ t ∈ left, t.kind ≠ .symbol .semicolon ∧ t.kind ≠ .endOfInput := by
      intro t ht
      have hne := Segment.ne_of_mem_body (s := s) (t := t) (by simp [hbody, ht])
      exact ⟨hne.1, hne.2.2⟩
    have htail : ∀ t ∈ left.tail, t.kind.startsStatement = false := by
      intro t ht
      refine s.keywords t ?_
      rw [hbody, List.tail_append]
      split
      · exact ht
      · exact List.mem_append_right _ (List.mem_of_mem_tail ht)
    have hyields := yields_of_fails s.closed hf hplain htail
    rw [List.append_assoc, ← hts] at hyields
    exact ⟨[], [d], .inr ⟨d, rfl, rfl⟩, hyields⟩

theorem segments_parse_independently (segments : List Segment) (e e' : Token)
    (he : e.kind = .endOfInput) (he' : e'.kind = .endOfInput) :
    (parse (segments.flatMap Segment.tokens ++ [e])).statements =
        segments.flatMap (fun s => (parse (s.tokens ++ [e'])).statements) ∧
      (parse (segments.flatMap Segment.tokens ++ [e])).diagnostics =
        segments.flatMap (fun s => (parse (s.tokens ++ [e'])).diagnostics) ∧
      ∀ s ∈ segments,
        (∃ st, (parse (s.tokens ++ [e'])).statements = [st] ∧ (parse (s.tokens ++ [e'])).diagnostics = []) ∨
          ∃ d, (parse (s.tokens ++ [e'])).statements = [] ∧ (parse (s.tokens ++ [e'])).diagnostics = [d] := by
  have hend : parse [e] = .nothing [e] := parse_end he
  have hend' : parse [e'] = .nothing [e'] := parse_end he'
  induction segments with
  | nil =>
    rw [List.flatMap_nil, List.nil_append, hend]
    exact ⟨rfl, rfl, List.forall_mem_nil _⟩
  | cons s segments ih =>
    obtain ⟨hss, hds, hall⟩ := ih
    obtain ⟨ss, ds, hone, h⟩ := segment_settles s maxNesting
    obtain ⟨hs, hd⟩ := h.parse_append (s.peek_tokens (segments.flatMap Segment.tokens ++ [e])).2
    obtain ⟨hs', hd'⟩ := h.parse_append (s.peek_tokens [e']).2
    rw [hend'] at hs' hd'
    have halone : (parse (s.tokens ++ [e'])).statements = ss ∧ (parse (s.tokens ++ [e'])).diagnostics = ds :=
      ⟨hs'.trans (List.append_nil _), hd'.trans (List.append_nil _)⟩
    refine ⟨?_, ?_, List.forall_mem_cons.mpr ⟨?_, hall⟩⟩
    · rw [List.flatMap_cons, List.flatMap_cons, List.append_assoc, hs, hss, halone.1]
    · rw [List.flatMap_cons, List.flatMap_cons, List.append_assoc, hd, hds, halone.2]
    · rw [halone.1, halone.2]
      exact hone

theorem segments_parse_independently_mixed :
    let semicolon : Token := ⟨.symbol .semicolon, ";", none, 1⟩
    let sound : Segment :=
      ⟨(scan "var x = nil").tokens.dropLast, semicolon, rfl, by decide +kernel, by decide +kernel⟩
    let noTarget : Segment :=
      ⟨(scan "(x) = nil").tokens.dropLast, semicolon, rfl, by decide +kernel, by decide +kernel⟩
    let empty : Segment := ⟨[], semicolon, rfl, List.forall_mem_nil _, List.forall_mem_nil _⟩
    (parse ([noTarget, sound, empty].flatMap Segment.tokens ++ [.endOfInput 1])).statements =
        [.declare "x" (some (.literal .nil 1)) 1] ∧
      (parse ([noTarget, sound, empty].flatMap Segment.tokens ++ [.endOfInput 1])).diagnostics =
        [⟨.invalidTarget (.lexeme "="), 1⟩, ⟨.missingExpression (.lexeme ";"), 1⟩] := by
  intro semicolon sound noTarget empty
  obtain ⟨hss, hds, -⟩ := segments_parse_independently [noTarget, sound, empty] (.endOfInput 1)
    (.endOfInput 2) rfl rfl
  rw [hss, hds]
  exact ⟨by decide +kernel, by decide +kernel⟩

end Statement

end Treewalk
