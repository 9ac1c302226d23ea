import Treewalk.Proofs.Grammar.Statements
import Treewalk.Proofs.Lexical.Tokens

namespace Treewalk

open TokenParser

theorem Token.eq_of_split {kind : TokenKind} {us used rest : List Token} {q : Token}
    (hus : ∀ t ∈ us, t.kind ≠ kind) (hused : ∀ t ∈ used, t.kind ≠ kind) (hq : q.kind = kind)
    (hrest : (peek rest).kind = kind) (h : us ++ [q] = used ++ rest) : us = used := by
  induction us generalizing used with
  | nil =>
    cases used with
    | nil => rfl
    | cons u used =>
      obtain ⟨rfl, -⟩ := List.cons.inj h
      exact absurd hq (hused q (by simp))
  | cons u us ih =>
    cases used with
    | nil =>
      rw [List.nil_append] at h
      rw [← h] at hrest
      exact absurd hrest (hus u (by simp))
    | cons v used =>
      obtain ⟨rfl, htail⟩ := List.cons.inj h
      rw [ih (fun t ht => hus t (by simp [ht])) (fun t ht => hused t (by simp [ht])) htail]

mutual

theorem DerivesDeclaration.beforeEnd {ts : List Token} {s : Statement} :
    DerivesDeclaration ts s → Token.BeforeEnd ts
  | .var hv hx hq => by simp [Token.BeforeEnd, hv, hx, hq]
  | .init hv hx hi hd hq => by
    simpa [Token.BeforeEnd, hv, hx, hi, hq, or_imp, forall_and] using hd.kind_ne_endOfInput
  | .statement h => h.beforeEnd

theorem DerivesStatement.beforeEnd {ts : List Token} {s : Statement} :
    DerivesStatement ts s → Token.BeforeEnd ts
  | .print hp hd hq => by
    simpa [Token.BeforeEnd, hp, hq, or_imp, forall_and] using hd.kind_ne_endOfInput
  | .block hl hrow hr => by
    have hbody := Row.beforeEnd hrow
    simpa [Token.BeforeEnd, hl, hr, or_imp, forall_and] using hbody
  | .expression hd hq => by
    simpa [Token.BeforeEnd, hq, or_imp, forall_and] using hd.kind_ne_endOfInput

theorem Row.beforeEnd {ts : List Token} {ss : List Statement} :
    Row DerivesDeclaration ts ss → Token.BeforeEnd ts
  | .nil => List.forall_mem_nil _
  | .cons hd hrow => List.forall_mem_append.mpr ⟨hd.beforeEnd, Row.beforeEnd hrow⟩

end

namespace Statement

variable {room : Nat} {ts rest : List Token}

theorem Parsed.diagnostics_append (p q : Parsed) :
    (p.append q).diagnostics = p.diagnostics ++ q.diagnostics :=
  diagnosticsOf_append ..

theorem Parsed.ofAttempt_of_ok {a : Attempt} {s : Statement} (h : a.result = .ok s) :
    ofAttempt a = ⟨[s], a.records ++ [.parsed s], a.rest⟩ := by
  unfold ofAttempt
  rw [h]

theorem Parsed.diagnostics_of_ok {a : Attempt} {s : Statement} (h : a.result = .ok s) :
    (ofAttempt a).diagnostics = diagnosticsOf a.records := by
  rw [ofAttempt_of_ok h, diagnostics, diagnosticsOf_append]
  exact List.append_nil _

theorem Parsed.diagnostics_of_error {a : Attempt} {d : Diagnostic} (h : a.result = .error d) :
    (ofAttempt a).diagnostics = diagnosticsOf a.records ++ [d] := by
  unfold ofAttempt
  rw [h, diagnostics, diagnosticsOf_append]
  rfl

theorem Parsed.ok_of_clean {a : Attempt} (h : (ofAttempt a).diagnostics = []) :
    ∃ s, a.result = .ok s ∧ diagnosticsOf a.records = [] := by
  cases hr : a.result with
  | ok s => exact ⟨s, rfl, diagnostics_of_ok hr ▸ h⟩
  | error d => simp [diagnostics_of_error hr] at h

theorem Attempt.ofParser_of_ok {p : TokenParser Statement} {s : Statement} (h : p ts = .ok s rest) :
    ofParser p ts = ⟨.ok s, [], rest⟩ := by
  unfold ofParser
  rw [h]

theorem Attempt.ofParser_records (p : TokenParser Statement) (ts : List Token) : (ofParser p ts).records = [] := by
  unfold ofParser
  split <;> rfl

theorem close_diagnostics (brace : Token) (body : Parsed) :
    diagnosticsOf (close brace body).records = body.diagnostics := by
  change diagnosticsOf (_ ++ (Attempt.ofParser _ _).records) = _
  rw [Attempt.ofParser_records, List.append_nil]
  rfl

theorem Attempt.ofParser_eq_ok {p : TokenParser Statement} {s : Statement}
    (h : (ofParser p ts).result = .ok s) :
    p ts = .ok s (ofParser p ts).rest := by
  unfold ofParser at h ⊢
  split at h <;> simp_all

def Taken (room : Nat) (ts rest : List Token) (s : Statement) : Prop :=
  ∃ used, ts = used ++ rest ∧ DerivesDeclaration used s ∧ s.nesting ≤ room ∧ Token.BeforeEnd used

theorem Taken.of_derives {used : List Token} {s : Statement} (hts : ts = used ++ rest)
    (hd : DerivesDeclaration used s) (hn : s.nesting ≤ room) : Taken room ts rest s :=
  ⟨used, hts, hd, hn, hd.beforeEnd⟩

def Sound (one : List Token → Parsed) (room : Nat) : Prop :=
  ∀ ts, (one ts).diagnostics = [] → ∃ s, (one ts).statements = [s] ∧ Taken room ts (one ts).rest s

def Complete (one : List Token → Parsed) (room : Nat) : Prop :=
  ∀ ts rest s, DerivesDeclaration ts s → s.nesting ≤ room →
    (one (ts ++ rest)).statements = [s] ∧ (one (ts ++ rest)).diagnostics = [] ∧
      (one (ts ++ rest)).rest = rest

section Many

variable {stop : TokenKind → Bool} {one : List Token → Parsed} {fuel : Nat}

theorem parseMany_stop (h : stop (Token.peek ts).kind) : parseMany stop one fuel ts = .nothing ts := by
  cases fuel with
  | zero => rfl
  | succ fuel => exact if_pos h

theorem parseMany_step (h : stop (Token.peek ts).kind = false) :
    parseMany stop one (fuel + 1) ts = (one ts).append (parseMany stop one fuel (one ts).rest) :=
  if_neg (by simp [h])

theorem parseMany_sound (hstop : stop .endOfInput) (ho : Sound one room) (hf : ts.length ≤ fuel)
    (h : (parseMany stop one fuel ts).diagnostics = []) :
    ∃ used, ts = used ++ (parseMany stop one fuel ts).rest ∧
      Row DerivesDeclaration used (parseMany stop one fuel ts).statements ∧
      nestingAll (parseMany stop one fuel ts).statements ≤ room ∧ Token.BeforeEnd used ∧
      stop (Token.peek (parseMany stop one fuel ts).rest).kind := by
  induction fuel generalizing ts with
  | zero =>
    cases List.eq_nil_of_length_eq_zero (Nat.le_zero.mp hf)
    exact ⟨[], rfl, .nil, Nat.zero_le _, List.forall_mem_nil _, hstop⟩
  | succ fuel ih =>
    cases hs : stop (Token.peek ts).kind with
    | true =>
      rw [parseMany_stop hs]
      exact ⟨[], rfl, .nil, Nat.zero_le _, List.forall_mem_nil _, hs⟩
    | false =>
      rw [parseMany_step hs] at h ⊢
      rw [Parsed.diagnostics_append, List.append_eq_nil_iff] at h
      obtain ⟨s, hss, used, heq, hd, hn, hb⟩ := ho ts h.1
      have hlt : (one ts).rest.length ≤ fuel := by
        obtain ⟨t, us, rfl, -⟩ := hd.head
        have := congrArg List.length heq
        simp at this
        omega
      obtain ⟨more, heq', hrow, hn', hb', hend⟩ := ih hlt h.2
      refine ⟨used ++ more, ?_, ?_, ?_, ?_, hend⟩
      · rw [List.append_assoc]
        exact heq.trans (congrArg (used ++ ·) heq')
      · simp only [Parsed.append, hss]
        exact .cons hd hrow
      · simp only [Parsed.append, hss]
        exact Nat.max_le.mpr ⟨hn, hn'⟩
      · simpa [Token.BeforeEnd, or_imp, forall_and] using ⟨hb, hb'⟩

theorem parseMany_complete (hopen : ∀ kind, endsBlock kind = false → stop kind = false)
    (ho : Complete one room) {ss : List Statement} (hrow : Row DerivesDeclaration ts ss)
    (hn : nestingAll ss ≤ room) (hs : stop (Token.peek rest).kind) (hf : (ts ++ rest).length ≤ fuel) :
    (parseMany stop one fuel (ts ++ rest)).statements = ss ∧
      (parseMany stop one fuel (ts ++ rest)).diagnostics = [] ∧
      (parseMany stop one fuel (ts ++ rest)).rest = rest := by
  induction hrow generalizing fuel with
  | nil =>
    rw [List.nil_append, parseMany_stop hs]
    exact ⟨rfl, rfl, rfl⟩
  | @cons ts us s ss hd _ ih =>
    obtain ⟨hs₁, hn₁⟩ := Nat.max_le.mp hn
    obtain ⟨hss, hds, hr⟩ := ho ts (us ++ rest) s hd hs₁
    obtain ⟨t, ts, rfl, ht⟩ := hd.head
    cases fuel with
    | zero => simp at hf
    | succ fuel =>
      obtain ⟨ihs, ihd, ihr⟩ := @ih fuel hn₁ (by simp at hf ⊢; omega)
      rw [List.append_assoc, parseMany_step (hopen t.kind ht), hr]
      refine ⟨?_, ?_, ihr⟩
      · simp only [Parsed.append, hss, ihs, List.singleton_append]
      · rw [Parsed.diagnostics_append, hds, ihd, List.append_nil]

end Many

section Declaration

variable {g : Grammar} {inner : Option (List Token → Parsed)} {one : List Token → Parsed}
  {brace : Token} {s : Statement}

theorem lead_cases (ts : List Token) :
    (∃ v us, ts = v :: us ∧ v.kind = .keyword .var) ∨ (∃ p us, ts = p :: us ∧ p.kind = .keyword .print) ∨
    (∃ l us, ts = l :: us ∧ l.kind = .symbol .leftBrace) ∨ (Token.peek ts).kind.leadsStatement = false := by
  cases ts with
  | nil => exact .inr (.inr (.inr rfl))
  | cons t us =>
    cases hlead : t.kind.leadsStatement with
    | false => exact .inr (.inr (.inr hlead))
    | true =>
      unfold TokenKind.leadsStatement at hlead
      split at hlead
      · next hk => exact .inl ⟨t, us, rfl, hk⟩
      · next hk => exact .inr (.inl ⟨t, us, rfl, hk⟩)
      · next hk => exact .inr (.inr (.inl ⟨t, us, rfl, hk⟩))
      · cases hlead

section Calls

variable {m f : Type → Type} [Monad m] [MonadStateOf (List Token) m] [MonadExceptOf Diagnostic m]
  {simple : m Statement → List Token → f Attempt} {rules : Rules m} {block : Token → List Token → f Attempt}

theorem attemptIn_var {v : Token} (h : v.kind = .keyword .var) :
    attemptIn simple rules block (v :: ts) = simple (parseDeclare rules) ts := by
  simp only [attemptIn, h]

theorem attemptIn_print {p : Token} (h : p.kind = .keyword .print) :
    attemptIn simple rules block (p :: ts) = simple (parsePrint rules p.line) ts := by
  simp only [attemptIn, h]

theorem attemptIn_block {l : Token} (h : l.kind = .symbol .leftBrace) :
    attemptIn simple rules block (l :: ts) = block l ts := by
  simp only [attemptIn, h]

theorem attemptIn_expression (h : (Token.peek ts).kind.leadsStatement = false) :
    attemptIn simple rules block ts = simple (parseExpression rules) ts := by
  cases ts with
  | nil => rfl
  | cons t us =>
    rw [Token.peek_cons] at h
    simp only [attemptIn]
    split
    · next hk => simp [hk, TokenKind.leadsStatement] at h
    · next hk => simp [hk, TokenKind.leadsStatement] at h
    · next hk => simp [hk, TokenKind.leadsStatement] at h
    · rfl

end Calls

theorem attempt_var {v : Token} (h : v.kind = .keyword .var) :
    attempt g inner (v :: ts) = .ofParser (parseDeclare g) ts :=
  attemptIn_var (f := Id) h

theorem attempt_print {p : Token} (h : p.kind = .keyword .print) :
    attempt g inner (p :: ts) = .ofParser (parsePrint g p.line) ts :=
  attemptIn_print (f := Id) h

theorem attempt_block {l : Token} (h : l.kind = .symbol .leftBrace) :
    attempt g inner (l :: ts) = attemptBlock inner l ts :=
  attemptIn_block (f := Id) h

theorem attempt_expression (h : (Token.peek ts).kind.leadsStatement = false) :
    attempt g inner ts = .ofParser (parseExpression g) ts :=
  attemptIn_expression (f := Id) h

theorem attempt_cases (g : Grammar) (inner : Option (List Token → Parsed)) (ts : List Token) :
    (∃ v us, ts = v :: us ∧ v.kind = .keyword .var ∧
      attempt g inner ts = .ofParser (parseDeclare g) us) ∨
    (∃ p us, ts = p :: us ∧ p.kind = .keyword .print ∧
      attempt g inner ts = .ofParser (parsePrint g p.line) us) ∨
    (∃ l us, ts = l :: us ∧ l.kind = .symbol .leftBrace ∧ attempt g inner ts = attemptBlock inner l us) ∨
    ((Token.peek ts).kind.leadsStatement = false ∧
      attempt g inner ts = .ofParser (parseExpression g) ts) := by
  rcases lead_cases ts with ⟨v, us, rfl, hv⟩ | ⟨p, us, rfl, hp⟩ | ⟨l, us, rfl, hl⟩ | hlead
  · exact .inl ⟨v, us, rfl, hv, attempt_var hv⟩
  · exact .inr (.inl ⟨p, us, rfl, hp, attempt_print hp⟩)
  · exact .inr (.inr (.inl ⟨l, us, rfl, hl, attempt_block hl⟩))
  · exact .inr (.inr (.inr ⟨hlead, attempt_expression hlead⟩))

theorem attemptBlock_cases (h : (attemptBlock inner brace ts).result = .ok s)
    (hr : diagnosticsOf (attemptBlock inner brace ts).records = []) :
    ∃ one r, inner = some one ∧ r.kind = .symbol .rightBrace ∧
      (parseAll endsBlock one ts).rest = r :: (attemptBlock inner brace ts).rest ∧
      (parseAll endsBlock one ts).diagnostics = [] ∧
      s = .block (parseAll endsBlock one ts).statements brace.line := by
  cases inner with
  | none => cases h
  | some one =>
    obtain ⟨r, mid, hx, hend⟩ := bind_eq_ok.mp (Attempt.ofParser_eq_ok h)
    obtain ⟨hk, heq⟩ := expect_eq_ok (by simp) hx
    obtain ⟨rfl, rfl⟩ := pure_eq_ok.mp hend
    exact ⟨one, r, rfl, hk, heq, (close_diagnostics brace _).symm.trans hr, rfl⟩

theorem attemptBlock_of_close {r : Token} (hk : r.kind = .symbol .rightBrace)
    (h : (parseAll endsBlock one ts).rest = r :: rest) :
    attemptBlock (some one) brace ts =
      ⟨.ok (.block (parseAll endsBlock one ts).statements brace.line),
        (parseAll endsBlock one ts).records, rest⟩ := by
  have hclose (ss : List Statement) : (do
      let _ ← expect (.symbol .rightBrace) "Expect '\x7d' after block."
      return .block ss brace.line : TokenParser Statement) (r :: rest) =
        .ok (.block ss brace.line) rest :=
    bind_of_ok (expect_cons _ hk)
  change close brace (parseAll endsBlock one ts) = _
  rw [close, h, Attempt.ofParser_of_ok (hclose _), List.append_nil]

theorem parseDeclare_sound {v : Token} (hv : v.kind = .keyword .var)
    (h : parseDeclare (Grammar.ofRoom room) ts = .ok s rest) : Taken room (v :: ts) rest s := by
  rcases parseDeclare_cases h with
    ⟨x, q, hx, hq, rfl, rfl⟩ | ⟨x, i, q, mid, e, hx, hi, hq, rfl, he, rfl⟩
  · exact .of_derives rfl (.var hv hx hq) (Nat.zero_le _)
  · obtain ⟨used, rfl, hd, hn⟩ := Grammar.parser_sound room .assignment he
    exact .of_derives (by simp) (.init hv hx hi hd hq) hn

theorem parsePrint_sound {p : Token} (hp : p.kind = .keyword .print)
    (h : parsePrint (Grammar.ofRoom room) p.line ts = .ok s rest) : Taken room (p :: ts) rest s := by
  obtain ⟨q, e, hq, he, rfl⟩ := parsePrint_cases h
  obtain ⟨used, rfl, hd, hn⟩ := Grammar.parser_sound room .assignment he
  exact .of_derives (by simp) (.statement (.print hp hd hq)) hn

theorem parseExpression_sound (h : parseExpression (Grammar.ofRoom room) ts = .ok s rest) :
    Taken room ts rest s := by
  obtain ⟨q, e, hq, he, rfl⟩ := parseExpression_cases h
  obtain ⟨used, rfl, hd, hn⟩ := Grammar.parser_sound room .assignment he
  obtain ⟨t, us, rfl, -⟩ := hd.head
  exact .of_derives (by simp) (.statement (.expression hd hq)) hn

theorem attemptBlock_sound {l : Token} (hin : ∀ one, inner = some one → ∃ k, room = k + 1 ∧ Sound one k)
    (hl : l.kind = .symbol .leftBrace) (h : (attemptBlock inner l ts).result = .ok s)
    (hr : diagnosticsOf (attemptBlock inner l ts).records = []) :
    Taken room (l :: ts) (attemptBlock inner l ts).rest s := by
  obtain ⟨one, r, hone, hk, hrest, hds, rfl⟩ := attemptBlock_cases h hr
  obtain ⟨k, rfl, ho⟩ := hin one hone
  obtain ⟨used, hts, hrow, hn, -, -⟩ := parseMany_sound rfl ho (Nat.le_refl _) hds
  refine .of_derives ?_ (.statement (.block hl hrow hk)) (Nat.succ_le_succ hn)
  have hts : ts = used ++ (parseAll endsBlock one ts).rest := hts
  rw [hrest] at hts
  simpa using hts

theorem attempt_sound (hin : ∀ one, inner = some one → ∃ k, room = k + 1 ∧ Sound one k)
    (h : (attempt (.ofRoom room) inner ts).result = .ok s)
    (hr : diagnosticsOf (attempt (.ofRoom room) inner ts).records = []) :
    Taken room ts (attempt (.ofRoom room) inner ts).rest s := by
  rcases attempt_cases (.ofRoom room) inner ts with
    ⟨v, us, rfl, hv, heq⟩ | ⟨p, us, rfl, hp, heq⟩ | ⟨l, us, rfl, hl, heq⟩ | ⟨-, heq⟩ <;>
    rw [heq] at h hr ⊢
  · exact parseDeclare_sound hv (Attempt.ofParser_eq_ok h)
  · exact parsePrint_sound hp (Attempt.ofParser_eq_ok h)
  · exact attemptBlock_sound hin hl h hr
  · exact parseExpression_sound (Attempt.ofParser_eq_ok h)

def oneWithin : (room : Nat) → Option (List Token → Parsed)
  | 0 => none
  | room + 1 => some (parseOne room)

theorem parseOne_eq (room : Nat) (ts : List Token) :
    parseOne room ts = .ofAttempt (attempt (.ofRoom room) (oneWithin room) ts) := by
  cases room <;> rfl

theorem parseOne_sound_of (hin : ∀ one, oneWithin room = some one → ∃ k, room = k + 1 ∧ Sound one k) :
    Sound (parseOne room) room := by
  intro ts h
  rw [parseOne_eq] at h ⊢
  obtain ⟨s, hs, hr⟩ := Parsed.ok_of_clean h
  rw [Parsed.ofAttempt_of_ok hs]
  exact ⟨s, rfl, attempt_sound hin hs hr⟩

theorem parseOne_sound (room : Nat) : Sound (parseOne room) room := by
  induction room with
  | zero => exact parseOne_sound_of nofun
  | succ room ih =>
    refine parseOne_sound_of fun one hone => ⟨room, rfl, ?_⟩
    cases hone
    exact ih

theorem attempt_complete (hin : ∀ k, room = k + 1 → Complete (parseOne k) k)
    (hd : DerivesDeclaration ts s)
    (hn : s.nesting ≤ room) : ∃ records, diagnosticsOf records = [] ∧
      attempt (.ofRoom room) (oneWithin room) (ts ++ rest) = ⟨.ok s, records, rest⟩ := by
  have he {us : List Token} {e : Expr} {q : Token} (hd : Derives .assignment us e)
      (hn : e.nesting ≤ room)
      (hq : q.kind = .symbol .semicolon) :
      (Grammar.ofRoom room).expression (us ++ [q] ++ rest) = .ok e (q :: rest) := by
    rw [List.append_assoc]
    exact Grammar.parser_complete hd hn (.of_symbol hq (by decide))
  cases hd with
  | var hv hx hq =>
    exact ⟨[], rfl, (attempt_var hv).trans (Attempt.ofParser_of_ok (parseDeclare_var hx hq))⟩
  | init hv hx hi hd hq =>
    exact ⟨[], rfl, (attempt_var hv).trans
      (Attempt.ofParser_of_ok (parseDeclare_init hx hi hq (he hd hn hq)))⟩
  | statement hd =>
    cases hd with
    | print hp hd hq =>
      exact ⟨[], rfl, (attempt_print hp).trans
        (Attempt.ofParser_of_ok (parsePrint_of_ok hq (he hd hn hq)))⟩
    | expression hd hq =>
      obtain ⟨t, us, heq, ht⟩ := hd.head
      cases heq
      refine ⟨[], rfl, (attempt_expression ?_).trans
        (Attempt.ofParser_of_ok (parseExpression_of_ok hq (he hd hn hq)))⟩
      exact TokenKind.leadsStatement_of_opensExpression ht
    | @block l r ts body hl hrow hr =>
      cases room with
      | zero => exact absurd hn (Nat.not_succ_le_zero _)
      | succ k =>
        have hclose : endsBlock (Token.peek (r :: rest)).kind := by
          rw [Token.peek_cons, hr]
          rfl
        obtain ⟨hss, hds, hrest⟩ := parseMany_complete (fun _ h => h) (hin k rfl) hrow
          (Nat.le_of_succ_le_succ hn) hclose (Nat.le_refl _)
        refine ⟨_, hds, ?_⟩
        have hts : l :: ts ++ [r] ++ rest = l :: (ts ++ r :: rest) := by simp
        rw [← hss, hts, attempt_block hl]
        exact attemptBlock_of_close hr hrest

theorem parseOne_complete_of (hin : ∀ k, room = k + 1 → Complete (parseOne k) k) :
    Complete (parseOne room) room := by
  intro ts rest s hd hn
  obtain ⟨records, hr, heq⟩ := attempt_complete hin hd hn
  rw [parseOne_eq, heq]
  exact ⟨rfl, (Parsed.diagnostics_of_ok rfl).trans hr, rfl⟩

theorem parseOne_complete (room : Nat) : Complete (parseOne room) room := by
  induction room with
  | zero => exact parseOne_complete_of (by simp)
  | succ room ih =>
    refine parseOne_complete_of fun k hk => ?_
    cases hk
    exact ih

end Declaration

theorem parse_sound (h : (parse ts).diagnostics = []) :
    ∃ used, ts = used ++ (parse ts).rest ∧ Row DerivesDeclaration used (parse ts).statements ∧
      nestingAll (parse ts).statements ≤ 128 ∧ Token.BeforeEnd used ∧
      (Token.peek (parse ts).rest).kind = .endOfInput := by
  obtain ⟨used, hts, hrow, hn, hb, hend⟩ :=
    parseMany_sound (by simp) (parseOne_sound maxNesting) (Nat.le_refl _) h
  exact ⟨used, hts, hrow, hn, hb, of_decide_eq_true hend⟩

theorem parseWithin_complete {ss : List Statement} {q : Token} (hq : q.kind = .endOfInput)
    (hrow : Row DerivesDeclaration ts ss) (hn : nestingAll ss ≤ room) :
    (parseWithin room (ts ++ [q])).statements = ss ∧ (parseWithin room (ts ++ [q])).diagnostics = [] := by
  have hopen (kind : TokenKind) (h : endsBlock kind = false) : decide (kind = .endOfInput) = false := by
    simp_all [endsBlock]
  have hstop : decide ((Token.peek [q]).kind = .endOfInput) := decide_eq_true hq
  obtain ⟨hss, hds, -⟩ := parseMany_complete hopen (parseOne_complete room) hrow hn hstop (Nat.le_refl _)
  exact ⟨hss, hds⟩

theorem parse_complete {ss : List Statement} {q : Token} (hq : q.kind = .endOfInput)
    (hrow : Row DerivesDeclaration ts ss) (hn : nestingAll ss ≤ 128) :
    (parse (ts ++ [q])).statements = ss ∧ (parse (ts ++ [q])).diagnostics = [] :=
  parseWithin_complete hq hrow hn

theorem parse_clean_iff_derives (h : Token.Terminated ts) (ss : List Statement) :
    ((parse ts).diagnostics = [] ∧ (parse ts).statements = ss) ↔
      DerivesProgram ts ss ∧ ∀ s ∈ ss, s.nesting ≤ 128 := by
  obtain ⟨us, q, rfl, hq, hb⟩ := h
  constructor
  · rintro ⟨hds, rfl⟩
    obtain ⟨used, hts, hrow, hn, hb', hend⟩ := parse_sound hds
    obtain rfl := Token.eq_of_split hb hb' hq hend hts
    exact ⟨⟨us, q, rfl, hq, hrow⟩, nestingAll_le.mp hn⟩
  · rintro ⟨⟨us', q', heq, hq', hrow⟩, hn⟩
    obtain ⟨rfl, hqq⟩ := List.append_inj' heq rfl
    obtain ⟨hss, hds⟩ := parse_complete hq hrow (nestingAll_le.mpr hn)
    exact ⟨hds, hss⟩

theorem parse_clean_iff_derives_chains :
    Token.Terminated (scan "\x7b x = y = -(a - b - c); \x7d").tokens ∧
      DerivesProgram (scan "\x7b x = y = -(a - b - c); \x7d").tokens
        [.block [.expression (.assign "x" (.assign "y" (.unary .negate (.group
          (.binary .subtract (.binary .subtract (.variable "a" 1) (.variable "b" 1) 1)
            (.variable "c" 1) 1) 1) 1) 1) 1) 1] 1] :=
  ⟨scan_terminated _, ((parse_clean_iff_derives (scan_terminated _) _).mp
    ⟨by decide +kernel, by decide +kernel⟩).1⟩

end Statement

end Treewalk
