import Treewalk.Proofs.Grammar.Recovery

namespace Treewalk

inductive FailsFirst (next : Token) : Nat → List Token → Diagnostic → Prop
  | simple {room : Nat} {ts : List Token} {d : Diagnostic} :
      FailsSimple next room ts d → FailsFirst next room ts d
  | tooDeep {l : Token} :
      l.kind = .symbol .leftBrace → FailsFirst next 0 [l] (.about l .tooDeep)
  | unclosed {room : Nat} {l : Token} {us : List Token} {ss : List Statement} :
      l.kind = .symbol .leftBrace → Row DerivesDeclaration us ss → Statement.nestingAll ss ≤ room →
      next.kind = .endOfInput →
      FailsFirst next (room + 1) (l :: us) (.unexpected next "Expect '\x7d' after block.")
  | inside {room : Nat} {l : Token} {us ts : List Token} {ss : List Statement} {d : Diagnostic} :
      l.kind = .symbol .leftBrace → Row DerivesDeclaration us ss → Statement.nestingAll ss ≤ room →
      Statement.endsBlock (Token.peek (ts ++ [next])).kind = false → FailsFirst next room ts d →
      FailsFirst next (room + 1) (l :: us ++ ts) d

inductive Breaks (next : Token) : List Token → Diagnostic → Prop
  | intro {us ts : List Token} {ss : List Statement} {d : Diagnostic} :
      Row DerivesDeclaration us ss → Statement.nestingAll ss ≤ 128 →
      (Token.peek (ts ++ [next])).kind ≠ .endOfInput → FailsFirst next 128 ts d → Breaks next (us ++ ts) d

namespace Statement

variable {room : Nat} {ts : List Token} {d : Diagnostic}

section Many

variable {stop : TokenKind → Bool} {one : List Token → Parsed} {fuel : Nat}

theorem parseMany_first (ho : Sound one room) (h : (parseMany stop one fuel ts).diagnostics.head? = some d) :
    ∃ us ss rest, ts = us ++ rest ∧ Row DerivesDeclaration us ss ∧ nestingAll ss ≤ room ∧
      stop (Token.peek rest).kind = false ∧ (one rest).diagnostics.head? = some d := by
  induction fuel generalizing ts with
  | zero => cases h
  | succ fuel ih =>
    cases hs : stop (Token.peek ts).kind with
    | true =>
      rw [parseMany_stop hs] at h
      cases h
    | false =>
      rw [parseMany_step hs, Parsed.diagnostics_append] at h
      cases hone : (one ts).diagnostics with
      | nil =>
        obtain ⟨s, -, used, hts, hd, hn, -⟩ := ho ts hone
        rw [hone, List.nil_append] at h
        obtain ⟨us, ss, rest, hrest, hrow, hns, hstop, hfirst⟩ := ih h
        refine ⟨used ++ us, s :: ss, rest, ?_, .cons hd hrow, Nat.max_le.mpr ⟨hn, hns⟩, hstop, hfirst⟩
        rw [List.append_assoc, ← hrest, ← hts]
      | cons first others =>
        rw [hone] at h
        exact ⟨[], [], ts, rfl, .nil, Nat.zero_le _, hs, hone ▸ h⟩

end Many

def FailsFirstSoundly (room : Nat) : Prop :=
  ∀ ts d, (parseOne room ts).diagnostics.head? = some d →
    ∃ used rest, ts = used ++ rest ∧ FailsFirst (Token.peek rest) room used d

theorem simple_fails_first (hl : (Token.peek ts).kind ≠ .symbol .leftBrace)
    (h : (parseOne room ts).diagnostics.head? = some d) :
    ∃ used rest, ts = used ++ rest ∧ FailsFirst (Token.peek rest) room used d := by
  rw [parseOne_eq] at h
  cases hr : (attempt (.ofRoom room) (oneWithin room) ts).result with
  | ok s =>
    obtain ⟨rest, -, heq⟩ := attempt_ok hl hr
    rw [Parsed.diagnostics_of_ok hr, heq] at h
    cases h
  | error d' =>
    obtain ⟨used, rest, hts, hf, heq⟩ := attempt_error hl hr
    rw [Parsed.diagnostics_of_error hr, heq] at h
    cases h
    exact ⟨used, rest, hts, .simple hf⟩

theorem block_diagnostics (hl : (Token.peek ts).kind = .symbol .leftBrace) :
    (parseOne (room + 1) ts).diagnostics =
      (parseAll endsBlock (parseOne room) ts.tail).diagnostics ++
        if (Token.peek (parseAll endsBlock (parseOne room) ts.tail).rest).kind = .symbol .rightBrace then []
        else [.unexpected (Token.peek (parseAll endsBlock (parseOne room) ts.tail).rest)
          "Expect '\x7d' after block."] := by
  rw [parseOne_eq, attempt_brace hl]
  change (Parsed.ofAttempt (attemptBlock (some (parseOne room)) _ _)).diagnostics = _
  split
  · next hk =>
    rw [attemptBlock_of_close hk (Token.eq_cons_of_peek_kind (by simp) hk), Parsed.diagnostics_of_ok rfl]
    exact (List.append_nil _).symm
  · next hk =>
    rw [attemptBlock_unclosed hk, Parsed.diagnostics_of_error rfl]
    rfl

theorem block_fails_first (ih : FailsFirstSoundly room) (hl : (Token.peek ts).kind = .symbol .leftBrace)
    (h : (parseOne (room + 1) ts).diagnostics.head? = some d) :
    ∃ used rest, ts = used ++ rest ∧ FailsFirst (Token.peek rest) (room + 1) used d := by
  have hts := Token.eq_cons_of_peek_kind (by simp) hl
  rw [block_diagnostics hl] at h
  cases hbody : (parseAll endsBlock (parseOne room) ts.tail).diagnostics with
  | nil =>
    obtain ⟨used, hused, hrow, hn, -, hend⟩ :=
      parseMany_sound rfl (parseOne_sound room) (Nat.le_refl _) hbody
    rw [hbody, List.nil_append] at h
    split at h
    · cases h
    · next hk =>
      cases h
      refine ⟨Token.peek ts :: used, _, hts.trans (congrArg _ hused), .unclosed hl hrow hn ?_⟩
      have hend : endsBlock (Token.peek (parseAll endsBlock (parseOne room) ts.tail).rest).kind := hend
      rw [endsBlock, Bool.or_eq_true, decide_eq_true_eq, decide_eq_true_eq] at hend
      exact hend.resolve_left hk
  | cons first others =>
    have hfirst : (parseAll endsBlock (parseOne room) ts.tail).diagnostics.head? = some d := by
      rw [hbody] at h ⊢
      exact h
    obtain ⟨us, ss, mid, hmid, hrow, hn, hopen, hone⟩ := parseMany_first (parseOne_sound room) hfirst
    obtain ⟨used, rest, rfl, hf⟩ := ih mid d hone
    refine ⟨Token.peek ts :: us ++ used, rest, ?_, .inside hl hrow hn ?_ hf⟩
    · rw [List.cons_append, List.cons_append, List.append_assoc, ← hmid]
      exact hts
    · rwa [Token.peek_append_singleton]

theorem parseOne_fails_first (room : Nat) : FailsFirstSoundly room := by
  induction room with
  | zero =>
    intro ts d h
    by_cases hl : (Token.peek ts).kind = .symbol .leftBrace
    · rw [parseOne_eq, attempt_brace hl] at h
      cases h
      exact ⟨[Token.peek ts], ts.tail, Token.eq_cons_of_peek_kind (by simp) hl, .tooDeep hl⟩
    · exact simple_fails_first hl h
  | succ room ih =>
    intro ts d h
    by_cases hl : (Token.peek ts).kind = .symbol .leftBrace
    · exact block_fails_first ih hl h
    · exact simple_fails_first hl h

theorem parse_breaks (h : (parse ts).diagnostics.head? = some d) :
    ∃ used rest, ts = used ++ rest ∧ Breaks (Token.peek rest) used d := by
  obtain ⟨us, ss, mid, rfl, hrow, hn, hopen, hfirst⟩ := parseMany_first (parseOne_sound maxNesting) h
  obtain ⟨used, rest, rfl, hf⟩ := parseOne_fails_first maxNesting mid d hfirst
  refine ⟨us ++ used, rest, (List.append_assoc ..).symm, .intro hrow hn ?_ hf⟩
  rw [Token.peek_append_singleton]
  exact of_decide_eq_false hopen

theorem parseOne_of_fails_first {used rest : List Token} (h : FailsFirst (Token.peek rest) room used d) :
    (parseOne room (used ++ rest)).diagnostics.head? = some d := by
  generalize hnext : Token.peek rest = next at h
  induction h with
  | simple hf =>
    subst hnext
    rw [parseOne_eq, attempt_of_fails hf, Parsed.diagnostics_of_error rfl]
    rfl
  | @tooDeep l hl =>
    rw [List.singleton_append, parseOne_eq, attempt_block hl]
    rfl
  | @unclosed room l us ss hl hrow hn hend =>
    subst hnext
    have hstop : endsBlock (Token.peek rest).kind := by
      rw [hend]
      rfl
    obtain ⟨-, hds, hrest⟩ := parseAll_row rfl (fun _ h => h) hrow hn rest
    rw [parseAll_stop hstop] at hds hrest
    have hpeek : (Token.peek (l :: us ++ rest)).kind = .symbol .leftBrace := hl
    have htail : (l :: us ++ rest).tail = us ++ rest := rfl
    rw [block_diagnostics hpeek, htail, hds, hrest]
    have hk : (Token.peek (Parsed.nothing rest).rest).kind ≠ .symbol .rightBrace := by
      simp [Parsed.nothing, hend]
    rw [if_neg hk]
    rfl
  | @inside room l us ts ss d hl hrow hn hopen hf ih =>
    have hopen : endsBlock (Token.peek (ts ++ rest)).kind = false := by
      rwa [← hnext, Token.peek_append_singleton] at hopen
    obtain ⟨-, hds, -⟩ := parseAll_row rfl (fun _ h => h) hrow hn (ts ++ rest)
    have hpeek : (Token.peek (l :: us ++ ts ++ rest)).kind = .symbol .leftBrace := hl
    have htail : (l :: us ++ ts ++ rest).tail = us ++ (ts ++ rest) := by simp
    rw [block_diagnostics hpeek, htail, hds, parseAll_step (parseOne_advances room) rfl hopen,
      Parsed.diagnostics_append, List.append_assoc, List.head?_append, ih]
    rfl

theorem parse_of_breaks {used rest : List Token} (h : Breaks (Token.peek rest) used d) :
    (parse (used ++ rest)).diagnostics.head? = some d := by
  cases h with
  | @intro us ts ss _ hrow hn hopen hf =>
    rw [Token.peek_append_singleton] at hopen
    obtain ⟨-, hds⟩ := parse_row hrow hn (ts ++ rest)
    have hone : (parseOne maxNesting (ts ++ rest)).diagnostics.head? = some d := parseOne_of_fails_first hf
    rw [List.append_assoc, hds, parse_step hopen, Parsed.diagnostics_append, List.head?_append, hone]
    rfl

end Statement

end Treewalk
