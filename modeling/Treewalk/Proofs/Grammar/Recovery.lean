import Treewalk.Proofs.Grammar.StatementFailures

namespace Treewalk

open TokenParser

namespace Token

def Leaves (ts rest : List Token) : Prop :=
  ∃ used, ts = used ++ rest ∧ BeforeEnd used

namespace Leaves

variable {ts us vs : List Token}

theorem refl (ts : List Token) : Leaves ts ts :=
  ⟨[], rfl, List.forall_mem_nil _⟩

theorem trans (h : Leaves ts us) (h' : Leaves us vs) : Leaves ts vs := by
  obtain ⟨used, rfl, hb⟩ := h
  obtain ⟨used', rfl, hb'⟩ := h'
  exact ⟨used ++ used', (List.append_assoc ..).symm, List.forall_mem_append.mpr ⟨hb, hb'⟩⟩

theorem length_le (h : Leaves ts us) : us.length ≤ ts.length := by
  obtain ⟨used, rfl, -⟩ := h
  simp

theorem eq_of_length_le (h : Leaves ts us) (hlen : ts.length ≤ us.length) : us = ts := by
  obtain ⟨used, rfl, -⟩ := h
  rw [List.length_append] at hlen
  have hnil : used = [] := List.eq_nil_of_length_eq_zero (by omega)
  rw [hnil, List.nil_append]

end Leaves

theorem leaves_tail {ts : List Token} (h : (peek ts).kind ≠ .endOfInput) : Leaves ts ts.tail := by
  cases ts with
  | nil => exact absurd rfl h
  | cons t ts => exact ⟨[t], rfl, by simpa [BeforeEnd] using h⟩

end Token

namespace Statement

section Skip

variable {ts rest xs : List Token} {q : Token}

theorem skip_leaves (h : (Token.peek ts).kind ≠ .endOfInput) : Token.Leaves ts.tail (skip ts) := by
  induction ts with
  | nil => exact absurd rfl h
  | cons t ts ih =>
    unfold skip
    dsimp only
    split
    · exact .refl ts
    · next hstop =>
      have hnext : (Token.peek ts).kind ≠ .endOfInput := fun hk => hstop (.inr (.inl hk))
      exact (Token.leaves_tail hnext).trans (ih hnext)

theorem resume_leaves (ts : List Token) : Token.Leaves ts (resume ts) := by
  unfold resume
  split
  · exact .refl ts
  · next h => exact (Token.leaves_tail h).trans (skip_leaves h)

theorem resume_ne (h : (Token.peek ts).kind ≠ .endOfInput) : resume ts ≠ ts := by
  unfold resume
  rw [if_neg h]
  intro heq
  have hlen := (skip_leaves h).length_le
  cases ts with
  | nil => exact h rfl
  | cons t ts =>
    rw [heq] at hlen
    exact absurd hlen (by simp)

theorem skip_segment (hq : q.kind = .symbol .semicolon)
    (hplain : ∀ t ∈ xs, t.kind ≠ .symbol .semicolon ∧ t.kind ≠ .endOfInput)
    (htail : ∀ t ∈ xs.tail, t.kind.startsStatement = false) : skip (xs ++ q :: rest) = rest := by
  induction xs with
  | nil => simp [skip, hq]
  | cons x xs ih =>
    have hx := (hplain x (by simp)).1
    have hnext : (Token.peek (xs ++ q :: rest)).kind ≠ .endOfInput ∧
        (Token.peek (xs ++ q :: rest)).kind.startsStatement = false := by
      cases xs with
      | nil => simp [hq, TokenKind.startsStatement]
      | cons y ys => exact ⟨(hplain y (by simp)).2, htail y (by simp)⟩
    rw [List.cons_append, skip, if_neg (by simp [hx, hnext])]
    exact ih (fun t ht => hplain t (by simp [ht])) fun t ht => htail t (List.mem_of_mem_tail ht)

theorem resume_segment (hq : q.kind = .symbol .semicolon)
    (hplain : ∀ t ∈ xs, t.kind ≠ .symbol .semicolon ∧ t.kind ≠ .endOfInput)
    (htail : ∀ t ∈ xs.tail, t.kind.startsStatement = false) : resume (xs ++ q :: rest) = rest := by
  have hend : (Token.peek (xs ++ q :: rest)).kind ≠ .endOfInput := by
    cases xs with
    | nil => simp [hq]
    | cons x xs => exact (hplain x (by simp)).2
  rw [resume, if_neg hend, skip_segment hq hplain htail]

end Skip

structure Advances (one : List Token → Parsed) : Prop where
  leaves : ∀ ts, Token.Leaves ts (one ts).rest
  ne : ∀ ts, (Token.peek ts).kind ≠ .endOfInput → (one ts).rest ≠ ts

theorem Advances.length_lt {one : List Token → Parsed} (h : Advances one) {ts : List Token}
    (hts : (Token.peek ts).kind ≠ .endOfInput) : (one ts).rest.length < ts.length :=
  Nat.lt_of_not_le fun hle => h.ne ts hts ((h.leaves ts).eq_of_length_le hle)

section Many

variable {stop : TokenKind → Bool} {one : List Token → Parsed} {ts : List Token}

theorem kind_ne_end_of_not_stop (hstop : stop .endOfInput) (hs : stop (Token.peek ts).kind = false) :
    (Token.peek ts).kind ≠ .endOfInput := by
  intro hk
  rw [hk, hstop] at hs
  cases hs

theorem parseMany_leaves (h : Advances one) (fuel : Nat) :
    Token.Leaves ts (parseMany stop one fuel ts).rest := by
  induction fuel generalizing ts with
  | zero => exact .refl ts
  | succ fuel ih =>
    cases hs : stop (Token.peek ts).kind with
    | true =>
      rw [parseMany_stop hs]
      exact .refl ts
    | false =>
      rw [parseMany_step hs]
      exact (h.leaves ts).trans ih

theorem parseMany_eq_of_le (h : Advances one) (hstop : stop .endOfInput) {n m : Nat} (hn : ts.length ≤ n)
    (hm : ts.length ≤ m) : parseMany stop one n ts = parseMany stop one m ts := by
  induction n generalizing m ts with
  | zero =>
    obtain rfl := List.eq_nil_of_length_eq_zero (Nat.le_zero.mp hn)
    rw [parseMany_stop hstop, parseMany_stop hstop]
  | succ n ih =>
    cases hs : stop (Token.peek ts).kind with
    | true => rw [parseMany_stop hs, parseMany_stop hs]
    | false =>
      have hlt := h.length_lt (kind_ne_end_of_not_stop hstop hs)
      obtain ⟨m, rfl⟩ : ∃ k, m = k + 1 := Nat.exists_eq_add_one_of_ne_zero (by omega)
      rw [parseMany_step hs, parseMany_step hs, ih (m := m) (by omega) (by omega)]

theorem parseAll_stop (hs : stop (Token.peek ts).kind) : parseAll stop one ts = .nothing ts :=
  parseMany_stop hs

theorem parseAll_step (h : Advances one) (hstop : stop .endOfInput)
    (hs : stop (Token.peek ts).kind = false) :
    parseAll stop one ts = (one ts).append (parseAll stop one (one ts).rest) := by
  have hlt := h.length_lt (kind_ne_end_of_not_stop hstop hs)
  obtain ⟨n, hn⟩ : ∃ n, ts.length = n + 1 := Nat.exists_eq_add_one_of_ne_zero (by omega)
  unfold parseAll
  rw [hn, parseMany_step hs, parseMany_eq_of_le h hstop (by omega) (Nat.le_refl _)]

end Many

section Progress

variable {room : Nat} {inner : Option (List Token → Parsed)} {ts : List Token}

theorem attemptBlock_leaves (hin : ∀ one, inner = some one → Advances one) (l : Token) (ts : List Token) :
    Token.Leaves ts (attemptBlock inner l ts).rest := by
  cases inner with
  | none => exact .refl ts
  | some one =>
    have hbody : Token.Leaves ts (parseAll endsBlock one ts).rest := parseMany_leaves (hin one rfl) _
    by_cases hk : (Token.peek (parseAll endsBlock one ts).rest).kind = .symbol .rightBrace
    · rw [attemptBlock_of_close hk (Token.eq_cons_of_peek_kind (by simp) hk)]
      exact hbody.trans (Token.leaves_tail (by simp [hk]))
    · rw [attemptBlock_unclosed hk]
      exact hbody

theorem attempt_brace {g : Grammar} (hl : (Token.peek ts).kind = .symbol .leftBrace) :
    attempt g inner ts = attemptBlock inner (Token.peek ts) ts.tail := by
  cases ts with
  | nil => cases hl
  | cons l ts => exact attempt_block hl

theorem attempt_leaves (room : Nat) (hin : ∀ one, inner = some one → Advances one) (ts : List Token) :
    Token.Leaves ts (attempt (.ofRoom room) inner ts).rest := by
  by_cases hl : (Token.peek ts).kind = .symbol .leftBrace
  · rw [attempt_brace hl]
    exact (Token.leaves_tail (by simp [hl])).trans (attemptBlock_leaves hin _ _)
  · cases hr : (attempt (.ofRoom room) inner ts).result with
    | ok s =>
      obtain ⟨rest, ⟨used, hts, -, -, hb⟩, heq⟩ := attempt_ok hl hr
      rw [heq]
      exact ⟨used, hts, hb⟩
    | error d =>
      obtain ⟨used, rest, hts, hf, heq⟩ := attempt_error hl hr
      rw [heq]
      exact ⟨used, hts, fun t ht => (hf.plain t ht).2⟩

theorem attempt_ne {s : Statement} (hin : ∀ one, inner = some one → Advances one)
    (h : (attempt (.ofRoom room) inner ts).result = .ok s) :
    (attempt (.ofRoom room) inner ts).rest ≠ ts := by
  intro heq
  by_cases hl : (Token.peek ts).kind = .symbol .leftBrace
  · have hlen := (attemptBlock_leaves hin (Token.peek ts) ts.tail).length_le
    rw [← attempt_brace hl, heq, Token.eq_cons_of_peek_kind (by simp) hl] at hlen
    exact absurd hlen (by simp)
  · obtain ⟨rest, ⟨used, rfl, hd, -⟩, hrest⟩ := attempt_ok hl h
    obtain ⟨t, us, rfl, -⟩ := hd.head
    rw [hrest] at heq
    exact absurd (congrArg List.length heq) (by simp; omega)

theorem parseOne_advances_of (hin : ∀ one, oneWithin room = some one → Advances one) :
    Advances (parseOne room) where
  leaves ts := by
    have hleaves := attempt_leaves room hin ts
    rw [parseOne_eq]
    cases hr : (attempt (.ofRoom room) (oneWithin room) ts).result with
    | ok s =>
      rw [Parsed.ofAttempt_of_ok hr]
      exact hleaves
    | error d =>
      rw [Parsed.ofAttempt_of_error hr]
      exact hleaves.trans (resume_leaves _)
  ne ts hts := by
    have hleaves := attempt_leaves room hin ts
    rw [parseOne_eq]
    cases hr : (attempt (.ofRoom room) (oneWithin room) ts).result with
    | ok s =>
      rw [Parsed.ofAttempt_of_ok hr]
      exact attempt_ne hin hr
    | error d =>
      rw [Parsed.ofAttempt_of_error hr]
      intro heq
      have hle := (resume_leaves (attempt (.ofRoom room) (oneWithin room) ts).rest).length_le
      rw [show resume _ = ts from heq] at hle
      rw [hleaves.eq_of_length_le hle] at heq
      exact resume_ne hts heq

theorem parseOne_advances (room : Nat) : Advances (parseOne room) := by
  induction room with
  | zero => exact parseOne_advances_of nofun
  | succ room ih =>
    refine parseOne_advances_of fun one hone => ?_
    cases hone
    exact ih

theorem parse_end (h : (Token.peek ts).kind = .endOfInput) : parse ts = .nothing ts :=
  parseAll_stop (decide_eq_true h)

theorem parse_step (h : (Token.peek ts).kind ≠ .endOfInput) :
    parse ts = (parseOne maxNesting ts).append (parse (parseOne maxNesting ts).rest) :=
  parseAll_step (parseOne_advances maxNesting) (by simp) (decide_eq_false h)

end Progress

structure Yields (one : List Token → Parsed) (ts : List Token) (ss : List Statement)
    (ds : List Diagnostic) : Prop where
  statements : ∀ more, (one (ts ++ more)).statements = ss
  diagnostics : ∀ more, (one (ts ++ more)).diagnostics = ds
  rest : ∀ more, (one (ts ++ more)).rest = more

section Yields

variable {room : Nat} {ts more : List Token} {ss : List Statement} {ds : List Diagnostic}

theorem yields_of_derives {s : Statement} (h : DerivesDeclaration ts s) (hn : s.nesting ≤ room) :
    Yields (parseOne room) ts [s] [] where
  statements more := (parseOne_complete room ts more s h hn).1
  diagnostics more := (parseOne_complete room ts more s h hn).2.1
  rest more := (parseOne_complete room ts more s h hn).2.2

theorem yields_of_fails {used left : List Token} {q : Token} {d : Diagnostic}
    (hq : q.kind = .symbol .semicolon) (hf : FailsSimple (Token.peek (left ++ [q])) room used d)
    (hplain : ∀ t ∈ left, t.kind ≠ .symbol .semicolon ∧ t.kind ≠ .endOfInput)
    (htail : ∀ t ∈ left.tail, t.kind.startsStatement = false) :
    Yields (parseOne room) (used ++ left ++ [q]) [] [d] := by
  have hone (more : List Token) :
      parseOne room (used ++ left ++ [q] ++ more) = ⟨[], [.reported d], more⟩ := by
    have hpeek : Token.peek (left ++ [q]) = Token.peek (left ++ q :: more) := by
      cases left <;> rfl
    rw [hpeek] at hf
    rw [List.append_assoc, List.append_assoc, List.singleton_append]
    rw [parseOne_eq, attempt_of_fails hf, Parsed.ofAttempt_of_error rfl]
    rw [resume_segment hq hplain htail]
    rfl
  exact ⟨fun more => by rw [hone], fun more => by rw [hone]; rfl, fun more => by rw [hone]⟩

theorem Yields.parseAll_append {one : List Token → Parsed} (h : Yields one ts ss ds) (ha : Advances one)
    (stop : TokenKind → Bool) (hstop : stop .endOfInput) (hs : stop (Token.peek (ts ++ more)).kind = false) :
    (parseAll stop one (ts ++ more)).statements = ss ++ (parseAll stop one more).statements ∧
      (parseAll stop one (ts ++ more)).diagnostics = ds ++ (parseAll stop one more).diagnostics ∧
      (parseAll stop one (ts ++ more)).rest = (parseAll stop one more).rest := by
  rw [parseAll_step ha hstop hs, Parsed.diagnostics_append, h.diagnostics, h.rest]
  exact ⟨congrArg (· ++ _) (h.statements more), rfl, rfl⟩

theorem Yields.parse_append (h : Yields (parseOne maxNesting) ts ss ds)
    (hts : (Token.peek (ts ++ more)).kind ≠ .endOfInput) :
    (parse (ts ++ more)).statements = ss ++ (parse more).statements ∧
      (parse (ts ++ more)).diagnostics = ds ++ (parse more).diagnostics := by
  obtain ⟨hss, hds, -⟩ := h.parseAll_append (parseOne_advances maxNesting) (· = .endOfInput) rfl
    (decide_eq_false hts)
  exact ⟨hss, hds⟩

theorem parseAll_row {stop : TokenKind → Bool} (hstop : stop .endOfInput)
    (hopen : ∀ kind, endsBlock kind = false → stop kind = false) (h : Row DerivesDeclaration ts ss)
    (hn : nestingAll ss ≤ room) (more : List Token) :
    (parseAll stop (parseOne room) (ts ++ more)).statements =
        ss ++ (parseAll stop (parseOne room) more).statements ∧
      (parseAll stop (parseOne room) (ts ++ more)).diagnostics =
        (parseAll stop (parseOne room) more).diagnostics ∧
      (parseAll stop (parseOne room) (ts ++ more)).rest = (parseAll stop (parseOne room) more).rest := by
  induction h with
  | nil => exact ⟨rfl, rfl, rfl⟩
  | @cons ts us s ss hd hrow ih =>
    obtain ⟨hs, hss⟩ := Nat.max_le.mp hn
    obtain ⟨ihs, ihd, ihr⟩ := ih hss
    have hhead : stop (Token.peek (ts ++ (us ++ more))).kind = false := by
      obtain ⟨t, ts, rfl, ht⟩ := hd.head
      exact hopen t.kind ht
    have hyields : Yields (parseOne room) ts [s] [] := yields_of_derives hd hs
    obtain ⟨hstatements, hdiagnostics, hrest⟩ :=
      hyields.parseAll_append (parseOne_advances room) stop hstop hhead
    rw [List.append_assoc, hstatements, hdiagnostics, hrest, ihs, ihd, ihr]
    exact ⟨rfl, rfl, rfl⟩

theorem parse_row (h : Row DerivesDeclaration ts ss) (hn : nestingAll ss ≤ 128) (more : List Token) :
    (parse (ts ++ more)).statements = ss ++ (parse more).statements ∧
      (parse (ts ++ more)).diagnostics = (parse more).diagnostics := by
  have hopen (kind : TokenKind) (h : endsBlock kind = false) : decide (kind = .endOfInput) = false := by
    simp_all [endsBlock]
  obtain ⟨hss, hds, -⟩ := parseAll_row (by simp) hopen h hn more
  exact ⟨hss, hds⟩

end Yields

end Statement

end Treewalk
