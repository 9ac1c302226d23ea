import Treewalk.Proofs.Grammar.Recovery

namespace Treewalk

namespace Token

def upToEnd : List Token → List Token
  | [] => [endOfInput 0]
  | t :: ts => if t.kind = .endOfInput then [t] else t :: upToEnd ts

variable {ts used rest : List Token}

theorem peek_upToEnd (ts : List Token) : peek (upToEnd ts) = peek ts := by
  cases ts with
  | nil => rfl
  | cons t ts =>
    unfold upToEnd
    split <;> rfl

theorem upToEnd_cons {t : Token} (ht : t.kind ≠ .endOfInput) (ts : List Token) :
    upToEnd (t :: ts) = t :: upToEnd ts :=
  if_neg ht

theorem upToEnd_append (h : BeforeEnd used) : upToEnd (used ++ rest) = used ++ upToEnd rest := by
  induction used with
  | nil => rfl
  | cons t used ih =>
    obtain ⟨ht, hused⟩ := List.forall_mem_cons.mp h
    rw [List.cons_append, upToEnd_cons ht, ih hused, List.cons_append]

theorem upToEnd_end {e : Token} (he : e.kind = .endOfInput) (rest : List Token) : upToEnd (e :: rest) = [e] :=
  if_pos he

theorem tail_upToEnd (h : (peek ts).kind ≠ .endOfInput) : (upToEnd ts).tail = upToEnd ts.tail := by
  cases ts with
  | nil => exact absurd rfl h
  | cons t ts => rw [upToEnd_cons (t := t) h, List.tail_cons, List.tail_cons]

end Token

open Token

namespace Statement

variable {ts : List Token}

theorem skip_upToEnd (h : (peek ts).kind ≠ .endOfInput) : skip (upToEnd ts) = upToEnd (skip ts) := by
  induction ts with
  | nil => exact absurd rfl h
  | cons t ts ih =>
    rw [upToEnd_cons (t := t) h, skip, skip, peek_upToEnd]
    split
    · rfl
    · next hgoes => exact ih fun hend => hgoes (.inr (.inl hend))

theorem resume_upToEnd (ts : List Token) : resume (upToEnd ts) = upToEnd (resume ts) := by
  rw [resume, resume, peek_upToEnd]
  split
  · rfl
  · next h => exact skip_upToEnd h

def Attempt.upToEnd (a : Attempt) : Attempt :=
  { a with rest := Token.upToEnd a.rest }

def Parsed.upToEnd (p : Parsed) : Parsed :=
  { p with rest := Token.upToEnd p.rest }

theorem Parsed.ofAttempt_upToEnd (a : Attempt) : ofAttempt a.upToEnd = (ofAttempt a).upToEnd := by
  cases hr : a.result with
  | ok s =>
    rw [ofAttempt_of_ok hr, ofAttempt_of_ok (a := a.upToEnd) hr]
    rfl
  | error d =>
    rw [ofAttempt_of_error hr, ofAttempt_of_error (a := a.upToEnd) hr, Attempt.upToEnd, resume_upToEnd]
    rfl

def ReadsUpToEnd (one : List Token → Parsed) : Prop :=
  ∀ ts, one (upToEnd ts) = (one ts).upToEnd

section Many

variable {stop : TokenKind → Bool} {one : List Token → Parsed}

theorem parseMany_upToEnd (h : ReadsUpToEnd one) (fuel : Nat) (ts : List Token) :
    parseMany stop one fuel (upToEnd ts) = (parseMany stop one fuel ts).upToEnd := by
  induction fuel generalizing ts with
  | zero => rfl
  | succ fuel ih =>
    cases hs : stop (peek ts).kind with
    | true =>
      rw [parseMany_stop hs, parseMany_stop (by rwa [peek_upToEnd])]
      rfl
    | false =>
      rw [parseMany_step hs, parseMany_step (by rwa [peek_upToEnd]), h ts]
      exact congrArg ((one ts).append ·) (ih (one ts).rest)

-- The two lists differ in length, so they are first given the same fuel.
theorem parseAll_upToEnd (ha : Advances one) (hstop : stop .endOfInput) (h : ReadsUpToEnd one) (ts : List Token) :
    parseAll stop one (upToEnd ts) = (parseAll stop one ts).upToEnd := by
  let fuel := max ts.length (upToEnd ts).length
  calc parseAll stop one (upToEnd ts)
    _ = parseMany stop one fuel (upToEnd ts) := parseMany_eq_of_le ha hstop le_rfl (Nat.le_max_right ..)
    _ = (parseMany stop one fuel ts).upToEnd := parseMany_upToEnd h fuel ts
    _ = (parseAll stop one ts).upToEnd :=
      congrArg Parsed.upToEnd (parseMany_eq_of_le ha hstop (Nat.le_max_left ..) le_rfl)

theorem parseMany_stops (ha : Advances one) (hstop : stop .endOfInput) {fuel : Nat} (hf : ts.length ≤ fuel) :
    stop (peek (parseMany stop one fuel ts).rest).kind := by
  induction fuel generalizing ts with
  | zero =>
    obtain rfl := List.eq_nil_of_length_eq_zero (Nat.le_zero.mp hf)
    exact hstop
  | succ fuel ih =>
    cases hs : stop (peek ts).kind with
    | true =>
      rw [parseMany_stop hs]
      exact hs
    | false =>
      have hlt := ha.length_lt (kind_ne_end_of_not_stop hstop hs)
      rw [parseMany_step hs]
      exact ih (by omega)

end Many

section One

variable {room : Nat}

theorem attemptBlock_upToEnd {inner : Option (List Token → Parsed)}
    (hin : ∀ one, inner = some one → Advances one ∧ ReadsUpToEnd one) (brace : Token) (ts : List Token) :
    attemptBlock inner brace (upToEnd ts) = (attemptBlock inner brace ts).upToEnd := by
  cases inner with
  | none => rfl
  | some one =>
    obtain ⟨ha, ho⟩ := hin one rfl
    have hbody : parseAll endsBlock one (upToEnd ts) = (parseAll endsBlock one ts).upToEnd :=
      parseAll_upToEnd ha rfl ho ts
    have hpeek : peek (parseAll endsBlock one (upToEnd ts)).rest = peek (parseAll endsBlock one ts).rest := by
      rw [hbody]
      exact peek_upToEnd _
    by_cases hk : (peek (parseAll endsBlock one ts).rest).kind = .symbol .rightBrace
    · rw [attemptBlock_of_close hk (eq_cons_of_peek_kind (by simp) hk),
        attemptBlock_of_close (hpeek ▸ hk) (eq_cons_of_peek_kind (by simp) (hpeek ▸ hk)), hbody]
      exact congrArg (Attempt.mk _ _) (tail_upToEnd (by simp [hk]))
    · rw [attemptBlock_unclosed hk, attemptBlock_unclosed (hpeek ▸ hk), hpeek, hbody]
      rfl

theorem attempt_upToEnd (hin : ∀ one, oneWithin room = some one → Advances one ∧ ReadsUpToEnd one)
    (ts : List Token) :
    attempt (.ofRoom room) (oneWithin room) (upToEnd ts) =
      (attempt (.ofRoom room) (oneWithin room) ts).upToEnd := by
  by_cases hl : (peek ts).kind = .symbol .leftBrace
  · rw [attempt_brace hl, attempt_brace (by rwa [peek_upToEnd]), peek_upToEnd, tail_upToEnd (by simp [hl])]
    exact attemptBlock_upToEnd hin _ _
  · cases hr : (attempt (.ofRoom room) (oneWithin room) ts).result with
    | ok s =>
      obtain ⟨rest, ⟨used, rfl, hd, hn, hb⟩, heq⟩ := attempt_ok hl hr
      obtain ⟨records, -, hcut⟩ : ∃ records, diagnosticsOf records = [] ∧
          attempt (.ofRoom room) (oneWithin room) (used ++ upToEnd rest) = ⟨.ok s, records, upToEnd rest⟩ :=
        attempt_complete (fun k _ => parseOne_complete k) hd hn
      rw [← upToEnd_append hb] at hcut
      obtain ⟨left, -, hplain⟩ := attempt_ok (by rwa [peek_upToEnd]) (congrArg Attempt.result hcut)
      obtain ⟨-, rfl, -⟩ := Attempt.mk.inj (hcut.symm.trans hplain)
      rw [heq, hcut]
      rfl
    | error d =>
      obtain ⟨used, rest, rfl, hf, heq⟩ := attempt_error hl hr
      have hb : BeforeEnd used := fun t ht => (hf.plain t ht).2
      rw [← peek_upToEnd rest] at hf
      rw [heq, upToEnd_append hb, attempt_of_fails hf]
      rfl

theorem parseOne_upToEnd (room : Nat) : ReadsUpToEnd (parseOne room) := by
  have level {room : Nat} (hin : ∀ one, oneWithin room = some one → Advances one ∧ ReadsUpToEnd one) :
      ReadsUpToEnd (parseOne room) := by
    intro ts
    rw [parseOne_eq, parseOne_eq, attempt_upToEnd hin, Parsed.ofAttempt_upToEnd]
  induction room with
  | zero => exact level nofun
  | succ room ih =>
    refine level fun one hone => ?_
    cases hone
    exact ⟨parseOne_advances room, ih⟩

theorem oneWithin_advances {one : List Token → Parsed} (h : oneWithin room = some one) : Advances one := by
  cases room with
  | zero => cases h
  | succ room =>
    cases h
    exact parseOne_advances room

theorem parse_upToEnd (ts : List Token) : parse (upToEnd ts) = (parse ts).upToEnd :=
  parseAll_upToEnd (parseOne_advances maxNesting) rfl (parseOne_upToEnd maxNesting) ts

theorem parse_leaves (ts : List Token) :
    Leaves ts (parse ts).rest ∧ (peek (parse ts).rest).kind = .endOfInput := by
  have hstops : decide ((peek (parse ts).rest).kind = .endOfInput) = true :=
    @parseMany_stops ts (· = .endOfInput) _ (parseOne_advances maxNesting) rfl _ le_rfl
  exact ⟨parseMany_leaves (parseOne_advances maxNesting) _, of_decide_eq_true hstops⟩

end One

end Statement

def TokenParser.rest {α : Type} (p : TokenParser α) (ts : List Token) : List Token :=
  match p ts with
  | .ok _ rest => rest
  | .error _ rest => rest

namespace Grammar

variable {room : Nat} {n : Nonterminal} {ts rest : List Token} {d : Diagnostic} {e : Expr}

theorem leaves_of_ok (h : parser room n ts = .ok e rest) : Leaves ts rest := by
  obtain ⟨used, hts, hd, -, -⟩ := parser_eq_ok_iff.mp h
  exact ⟨used, hts, hd.kind_ne_endOfInput⟩

theorem leaves_of_fails (hn : n ≠ .primary) (h : parser room n ts = .error d rest) : Leaves ts rest := by
  obtain ⟨used, hts, hf⟩ := parser_fails room hn h
  exact ⟨used, hts, fun t ht => (TokenKind.ne_of_inExpression (hf.inExpression t ht)).2⟩

theorem primary_leaves (h : parser room .primary ts = .error d rest) : Leaves ts rest := by
  obtain ⟨-, -, rfl⟩ | ⟨-, -, -, rfl⟩ | ⟨g, l, mid, hg, hl, rfl, hin⟩ := primary_error_cases h
  · exact .refl ts
  · exact .refl ts
  · have htail : Leaves (l :: mid) mid := leaves_tail (by simp [hl])
    obtain ⟨k, rfl, rfl⟩ := within_eq_some hg
    obtain hin | ⟨e, hin, -, -⟩ := hin
    · exact htail.trans (leaves_of_fails (n := .assignment) nofun hin)
    · exact htail.trans (leaves_of_ok (n := .assignment) hin)

theorem parser_leaves (room : Nat) (n : Nonterminal) (ts : List Token) : Leaves ts ((parser room n).rest ts) := by
  unfold TokenParser.rest
  cases h : parser room n ts with
  | ok e rest => exact leaves_of_ok h
  | error d rest =>
    by_cases hn : n = .primary
    · subst hn
      exact primary_leaves h
    · exact leaves_of_fails hn h

end Grammar

namespace Statement

theorem nothing_read_past_end (ts : List Token) (hts : ∀ t ∈ ts, t.kind ≠ .endOfInput) :
    (∀ (e : Token) (rest : List Token), e.kind = .endOfInput →
      (parse (ts ++ e :: rest)).statements = (parse (ts ++ [e])).statements ∧
        (parse (ts ++ e :: rest)).diagnostics = (parse (ts ++ [e])).diagnostics) ∧
      ((parse ts).statements = (parse (ts ++ [.endOfInput 0])).statements ∧
        (parse ts).diagnostics = (parse (ts ++ [.endOfInput 0])).diagnostics) ∧
      ∀ us : List Token, (Leaves us (parse us).rest ∧ (peek (parse us).rest).kind = .endOfInput) ∧
        Leaves us (resume us) ∧
        ∀ room, Leaves us (parseOne room us).rest ∧
          Leaves us (attempt (.ofRoom room) (oneWithin room) us).rest ∧
          ∀ n, Leaves us ((Grammar.parser room n).rest us) := by
  have cut {us vs : List Token} (h : upToEnd us = upToEnd vs) :
      (parse us).statements = (parse vs).statements ∧ (parse us).diagnostics = (parse vs).diagnostics := by
    have hcut : (parse us).upToEnd = (parse vs).upToEnd := by
      rw [← parse_upToEnd, ← parse_upToEnd, h]
    exact ⟨(congrArg Parsed.statements hcut :), (congrArg Parsed.diagnostics hcut :)⟩
  have hend {e : Token} (he : e.kind = .endOfInput) (rest : List Token) :
      upToEnd (ts ++ e :: rest) = ts ++ [e] := by
    rw [upToEnd_append hts, upToEnd_end he]
  refine ⟨fun e rest he => cut ?_, cut ?_, fun us => ⟨parse_leaves us, resume_leaves us, fun room => ?_⟩⟩
  · rw [hend he, hend he]
  · have hnone : upToEnd (ts ++ []) = ts ++ [.endOfInput 0] := upToEnd_append hts
    rw [← List.append_nil ts, hnone, List.append_nil, hend rfl]
  · exact ⟨(parseOne_advances room).leaves us, attempt_leaves room (fun _ => oneWithin_advances) us,
      fun n => Grammar.parser_leaves room n us⟩

theorem nothing_read_past_end_unclosed :
    let ts := (scan "\x7b print nil; \x7b x = ").tokens.dropLast
    let rest := (scan "true; \x7d \x7d print x;").tokens
    (∀ t ∈ ts, t.kind ≠ .endOfInput) ∧
      (parse (ts ++ .endOfInput 7 :: rest)).diagnostics =
        [⟨.missingExpression .endOfInput, 7⟩, ⟨.unexpectedToken .endOfInput "Expect '\x7d' after block.", 7⟩,
          ⟨.unexpectedToken .endOfInput "Expect '\x7d' after block.", 7⟩] ∧
      (parse (ts ++ .endOfInput 7 :: rest)).statements = [] ∧
      (parse ts).diagnostics =
        [⟨.missingExpression .endOfInput, 0⟩, ⟨.unexpectedToken .endOfInput "Expect '\x7d' after block.", 0⟩,
          ⟨.unexpectedToken .endOfInput "Expect '\x7d' after block.", 0⟩] := by
  intro ts rest
  have hts : ∀ t ∈ ts, t.kind ≠ .endOfInput := by decide +kernel
  obtain ⟨hbarrier, ⟨-, hnone⟩, -⟩ := nothing_read_past_end ts hts
  obtain ⟨hss, hds⟩ := hbarrier (.endOfInput 7) rest rfl
  refine ⟨hts, hds.trans ?_, hss.trans ?_, hnone.trans ?_⟩
  · decide +kernel
  · decide +kernel
  · decide +kernel

end Statement

end Treewalk
