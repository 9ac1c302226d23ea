import Treewalk.Proofs.Grammar.Expressions

namespace Treewalk

open TokenParser

def Token.StartsPrimary (t : Token) : Prop :=
  (∃ v, Constant t v) ∨ t.kind = .identifier ∨ t.kind = .symbol .leftParen

inductive Fails (next : Token) : Nat → Nonterminal → List Token → Diagnostic → Prop
  | missing {room : Nat} :
      ¬ next.StartsPrimary → UnaryOp.ofKind? next.kind = none →
      Fails next room .primary [] (.about next .missingExpression)
  | groupTooDeep :
      next.kind = .symbol .leftParen → Fails next 0 .primary [] (.about next .tooDeep)
  | inGroup {room : Nat} {l : Token} {ts : List Token} {d : Diagnostic} :
      l.kind = .symbol .leftParen → Fails next room .assignment ts d →
      Fails next (room + 1) .primary (l :: ts) d
  | unclosed {room : Nat} {l : Token} {ts : List Token} {e : Expr} :
      l.kind = .symbol .leftParen → Derives .assignment ts e → e.nesting ≤ room →
      Nonterminal.assignment.Ends [next] → next.kind ≠ .symbol .rightParen →
      Fails next (room + 1) .primary (l :: ts) (.unexpected next "Expect ')' after expression.")
  | unaryTooDeep {s : Symbol} {op : UnaryOp} :
      next.kind = .symbol s → (s, op) ∈ prefixOperators → Fails next 0 .unary [] (.about next .tooDeep)
  | inUnary {room : Nat} {t : Token} {s : Symbol} {op : UnaryOp} {ts : List Token} {d : Diagnostic} :
      t.kind = .symbol s → (s, op) ∈ prefixOperators → Fails next room .unary ts d →
      Fails next (room + 1) .unary (t :: ts) d
  | right {room : Nat} {n m : Nonterminal} {t : Token} {s : Symbol} {op : BinaryOp} {ts us : List Token}
      {l : Expr} {d : Diagnostic} :
      n.tighter? = some m → t.kind = .symbol s → (s, op) ∈ n.operators → Derives n ts l →
      l.nesting ≤ room → Fails next room m us d → Fails next room n (ts ++ t :: us) d
  | assignTooDeep {q : Token} {ts : List Token} {e : Expr} :
      Derives .equality ts e → e.nesting ≤ 0 → q.kind = .symbol .equal →
      Fails next 0 .assignment (ts ++ [q]) (.about q .tooDeep)
  | value {room : Nat} {q : Token} {ts us : List Token} {e : Expr} {d : Diagnostic} :
      Derives .equality ts e → e.nesting ≤ room + 1 → q.kind = .symbol .equal →
      Fails next room .assignment us d → Fails next (room + 1) .assignment (ts ++ q :: us) d
  | target {room : Nat} {q : Token} {ts us : List Token} {e v : Expr} :
      Derives .equality ts e → e.nesting ≤ room + 1 → (∀ name line, e ≠ .variable name line) →
      q.kind = .symbol .equal → Derives .assignment us v → v.nesting ≤ room →
      Nonterminal.assignment.Ends [next] →
      Fails next (room + 1) .assignment (ts ++ q :: us) (.about q .invalidTarget)
  | tighter {room : Nat} {n m : Nonterminal} {ts : List Token} {d : Diagnostic} :
      n.tighter? = some m → Fails next room m ts d → Fails next room n ts d

namespace Grammar

section Steps

variable {inner : Option Grammar} {g : Grammar} {ts mid rest : List Token} {d : Diagnostic} {e : Expr}

theorem primary_missing (h : ¬ (Token.peek ts).StartsPrimary) :
    primary inner ts = .error (.about (Token.peek ts) .missingExpression) ts := by
  unfold primary
  rw [peek_bind]
  change EStateM.run _ ts = _
  split
  · next hk hl => exact absurd (.inl ⟨_, .number hk hl⟩) h
  · next hk hl => exact absurd (.inl ⟨_, .string hk hl⟩) h
  · next hk => exact absurd (.inl ⟨_, .yes hk⟩) h
  · next hk => exact absurd (.inl ⟨_, .no hk⟩) h
  · next hk => exact absurd (.inl ⟨_, .nil hk⟩) h
  · next hk => exact absurd (.inr (.inl hk)) h
  · next hk => exact absurd (.inr (.inr hk)) h
  · rfl

theorem primary_inside (h : (Token.peek ts).kind = .symbol .leftParen) : primary inner ts = (do
      let g ← enter inner (Token.peek ts)
      advance
      g.closing (Token.peek ts).line) ts := by
  unfold primary
  rw [peek_bind, h]

theorem primary_tooDeep (h : (Token.peek ts).kind = .symbol .leftParen) :
    (primary none : TokenParser Expr) ts = .error (.about (Token.peek ts) .tooDeep) ts := by
  rw [primary_inside h, enter_bind_none]

theorem primary_paren {l : Token} (hl : l.kind = .symbol .leftParen) :
    primary (some g) (l :: ts) = g.closing l.line ts := by
  have hpeek : (Token.peek (l :: ts)).kind = .symbol .leftParen := hl
  rw [primary_inside hpeek, enter_bind_some, advance_bind, Token.peek_cons, List.tail_cons]

theorem primary_outside (h : (Token.peek ts).kind ≠ .symbol .leftParen) :
    primary inner ts = (primary none : TokenParser Expr) ts := by
  by_cases hs : (Token.peek ts).StartsPrimary
  · rcases hs with ⟨v, hc⟩ | hx | hl
    · rw [Token.eq_cons_of_peek_kind hc.kind_ne.1 rfl, primary_constant hc, primary_constant hc]
    · rw [Token.eq_cons_of_peek_kind (by simp) hx, primary_variable hx, primary_variable hx]
    · exact absurd hl h
  · rw [primary_missing hs, primary_missing hs]

theorem primary_error_cases (h : primary inner ts = .error d rest) :
    (¬ (Token.peek rest).StartsPrimary ∧ d = .about (Token.peek rest) .missingExpression ∧ ts = rest) ∨
    (inner = none ∧ (Token.peek rest).kind = .symbol .leftParen ∧
      d = .about (Token.peek rest) .tooDeep ∧ ts = rest) ∨
    ∃ g l mid, inner = some g ∧ l.kind = .symbol .leftParen ∧ ts = l :: mid ∧
      (g.expression mid = .error d rest ∨
        ∃ e, g.expression mid = .ok e rest ∧ (Token.peek rest).kind ≠ .symbol .rightParen ∧
          d = .unexpected (Token.peek rest) "Expect ')' after expression.") := by
  by_cases hs : (Token.peek ts).StartsPrimary
  · rcases hs with ⟨v, hc⟩ | hx | hl
    · rw [Token.eq_cons_of_peek_kind hc.kind_ne.1 rfl, primary_constant hc] at h
      cases h
    · rw [Token.eq_cons_of_peek_kind (by simp) hx, primary_variable hx] at h
      cases h
    · have hts := Token.eq_cons_of_peek_kind (by simp) hl
      cases inner with
      | none =>
        rw [primary_tooDeep hl] at h
        cases h
        exact .inr (.inl ⟨rfl, hl, rfl, rfl⟩)
      | some g =>
        rw [hts, primary_paren hl] at h
        refine .inr (.inr ⟨g, _, _, rfl, hl, hts, ?_⟩)
        rcases bind_eq_error.mp h with he | ⟨e, mid, he, hclose⟩
        · exact .inl he
        · rcases bind_eq_error.mp hclose with hx | ⟨_, _, _, hend⟩
          · obtain ⟨hk, rfl, rfl⟩ := expect_eq_error hx
            exact .inr ⟨e, he, hk, rfl⟩
          · exact absurd hend pure_ne_error
  · rw [primary_missing hs] at h
    cases h
    exact .inl ⟨hs, rfl, rfl⟩

theorem unary_tooDeep {s : Symbol} {op : UnaryOp} (hk : (Token.peek ts).kind = .symbol s)
    (hs : (s, op) ∈ prefixOperators) :
    (unary none : TokenParser Expr) ts = .error (.about (Token.peek ts) .tooDeep) ts := by
  unfold unary prefixed
  rw [peek_bind, prefix_operator_iff.mpr ⟨s, hk, hs⟩]
  rfl

theorem unary_inside {t : Token} {s : Symbol} {op : UnaryOp} (hk : t.kind = .symbol s)
    (hs : (s, op) ∈ prefixOperators) : unary (some g) (t :: ts) =
      (do return .unary op (← g.operand) t.line : TokenParser Expr) ts := by
  unfold unary prefixed
  rw [peek_bind, Token.peek_cons, prefix_operator_iff.mpr ⟨s, hk, hs⟩]
  rfl

theorem unary_error_cases (h : unary inner ts = .error d rest) :
    (∃ s op, inner = none ∧ (Token.peek rest).kind = .symbol s ∧ (s, op) ∈ prefixOperators ∧
      d = .about (Token.peek rest) .tooDeep ∧ ts = rest) ∨
    (∃ g t s op mid, inner = some g ∧ t.kind = .symbol s ∧ (s, op) ∈ prefixOperators ∧ ts = t :: mid ∧
      g.operand mid = .error d rest) ∨
    UnaryOp.ofKind? (Token.peek ts).kind = none ∧ primary inner ts = .error d rest := by
  cases hop : UnaryOp.ofKind? (Token.peek ts).kind with
  | none =>
    rw [unary_primary hop] at h
    exact .inr (.inr ⟨rfl, h⟩)
  | some op =>
    obtain ⟨s, hk, hs⟩ := prefix_operator_iff.mp hop
    cases inner with
    | none =>
      rw [unary_tooDeep hk hs] at h
      cases h
      exact .inl ⟨s, op, rfl, hk, hs, rfl, rfl⟩
    | some g =>
      have hts := Token.eq_cons_of_peek_kind (by simp) hk
      rw [hts, unary_inside hk hs] at h
      rcases bind_eq_error.mp h with he | ⟨_, _, _, hend⟩
      · exact .inr (.inl ⟨g, _, s, op, _, rfl, hk, hs, hts, he⟩)
      · exact absurd hend pure_ne_error

section Assignment

variable {target : TokenParser Expr} {q : Token}

theorem assignment_of_error (h : target ts = .error d rest) :
    assignment inner target ts = .error d rest := by
  unfold assignment
  exact bind_of_error h

theorem assignment_tooDeep (ht : target ts = .ok e (q :: rest)) (hq : q.kind = .symbol .equal) :
    assignment none target ts = .error (.about q .tooDeep) rest := by
  unfold assignment
  rw [bind_of_ok ht, bind_of_ok (accept_cons hq)]
  rfl

theorem assignment_value (ht : target ts = .ok e (q :: mid)) (hq : q.kind = .symbol .equal)
    (hv : g.expression mid = .error d rest) : assignment (some g) target ts = .error d rest := by
  unfold assignment
  rw [bind_of_ok ht, bind_of_ok (accept_cons hq)]
  dsimp only
  rw [enter_bind_some]
  exact bind_of_error hv

theorem assignment_invalid {v : Expr} (ht : target ts = .ok e (q :: mid)) (hq : q.kind = .symbol .equal)
    (hv : g.expression mid = .ok v rest) (he : ∀ name line, e ≠ .variable name line) :
    assignment (some g) target ts = .error (.about q .invalidTarget) rest := by
  unfold assignment
  rw [bind_of_ok ht, bind_of_ok (accept_cons hq)]
  dsimp only
  rw [enter_bind_some, bind_of_ok hv]
  cases e with
  | «variable» name line => exact absurd rfl (he name line)
  | _ => rfl

theorem assignment_error_cases (h : assignment inner target ts = .error d rest) :
    target ts = .error d rest ∨ ∃ left q mid, target ts = .ok left (q :: mid) ∧ q.kind = .symbol .equal ∧
      ((inner = none ∧ d = .about q .tooDeep ∧ mid = rest) ∨
        ∃ g, inner = some g ∧ (g.expression mid = .error d rest ∨
          ∃ v, g.expression mid = .ok v rest ∧ (∀ name line, left ≠ .variable name line) ∧
            d = .about q .invalidTarget)) := by
  unfold assignment at h
  rcases bind_eq_error.mp h with ht | ⟨left, mid, ht, hq⟩
  · exact .inl ht
  · rcases bind_eq_error.mp hq with ha | ⟨o, mid', ha, hin⟩
    · exact absurd ha accept_ne_error
    · rcases accept_eq_ok (by simp) ha with ⟨q, rfl, hk, rfl⟩ | ⟨rfl, rfl, -⟩
      · refine .inr ⟨left, q, mid', ht, hk, ?_⟩
        dsimp only at hin
        cases inner with
        | none =>
          rw [enter_bind_none] at hin
          cases hin
          exact .inl ⟨rfl, rfl, rfl⟩
        | some g =>
          refine .inr ⟨g, rfl, ?_⟩
          rw [enter_bind_some] at hin
          rcases bind_eq_error.mp hin with hv | ⟨v, mid'', hv, hend⟩
          · exact .inl hv
          · cases left with
            | «variable» name line => exact absurd hend pure_ne_error
            | _ =>
              obtain ⟨rfl, rfl⟩ := throw_eq_error.mp hend
              exact .inr ⟨v, hv, nofun, rfl⟩
      · exact absurd hin pure_ne_error

end Assignment

section Chain

variable {n : Nonterminal} {p : Precedence} {operand : TokenParser Expr} {left : Expr} {fuel : Nat}

theorem operator_or_end (n : Nonterminal) (ts : List Token) :
    (∃ t s op mid, t.kind = .symbol s ∧ (s, op) ∈ n.operators ∧ ts = t :: mid) ∨
      ∀ s op, (s, op) ∈ n.operators → (Token.peek ts).kind ≠ .symbol s := by
  by_cases h : ∃ s op, (s, op) ∈ n.operators ∧ (Token.peek ts).kind = .symbol s
  · obtain ⟨s, op, hs, hk⟩ := h
    exact .inl ⟨_, s, op, _, hk, hs, Token.eq_cons_of_peek_kind (by simp) hk⟩
  · exact .inr fun s op hs hk => h ⟨s, op, hs, hk⟩

theorem extend_step (hn : n.precedence? = some p) {t : Token} {s : Symbol} {op : BinaryOp}
    (hk : t.kind = .symbol s) (hs : (s, op) ∈ n.operators) :
    extend p operand (fuel + 1) left (t :: ts) =
      (operand >>= fun right => extend p operand fuel (.binary op left right t.line)) ts := by
  rw [extend, joined, peek_bind, Token.peek_cons, (Nonterminal.binary_operator_iff hn).mpr ⟨s, hk, hs⟩]
  rfl

theorem extend_error_cases (hn : n.precedence? = some p)
    (h : extend p operand fuel left ts = .error d rest) :
    ∃ k t s op mid, fuel = k + 1 ∧ t.kind = .symbol s ∧ (s, op) ∈ n.operators ∧ ts = t :: mid ∧
      (operand mid = .error d rest ∨ ∃ right mid', operand mid = .ok right mid' ∧
        extend p operand k (.binary op left right t.line) mid' = .error d rest) := by
  rcases operator_or_end n ts with ⟨t, s, op, mid, hk, hs, rfl⟩ | hend
  · cases fuel with
    | zero => exact absurd h pure_ne_error
    | succ k =>
      rw [extend_step hn hk hs] at h
      exact ⟨k, t, s, op, mid, rfl, hk, hs, rfl, bind_eq_error.mp h⟩
  · rw [extend_end hn hend] at h
    cases h

theorem chain_of_error (h : operand ts = .error d rest) : chain p operand ts = .error d rest := by
  unfold chain
  exact bind_of_error h

theorem chain_error_cases (h : chain p operand ts = .error d rest) :
    operand ts = .error d rest ∨ ∃ left mid, operand ts = .ok left mid ∧
      extend p operand mid.length left mid = .error d rest := by
  unfold chain at h
  exact bind_eq_error.mp h

end Chain

end Steps

section Ends

variable {room : Nat} {n m : Nonterminal} {p : Precedence} {ts rest : List Token} {e : Expr}

def Stops (room : Nat) (n : Nonterminal) : Prop :=
  ∀ ⦃ts rest : List Token⦄ ⦃e : Expr⦄, parser room n ts = .ok e rest → n.Ends rest

theorem ends_of_operand (hp : n.precedence? = some p) (hm : n.tighter? = some m) (h : m.Ends ts)
    (hend : ∀ s op, (s, op) ∈ n.operators → (Token.peek ts).kind ≠ .symbol s) : n.Ends ts := by
  have table : ∀ s ∈ n.continuations, s ∈ m.continuations ∨ ∃ x ∈ n.operators, x.1 = s := by
    cases n <;> cases hm <;> cases hp <;> decide
  intro s hs
  rcases table s hs with hs | ⟨⟨_, op⟩, hx, rfl⟩
  · exact h s hs
  · exact hend _ op hx

-- The fuel is the number of tokens left, so it runs out only where they do.
theorem extend_ends (hp : n.precedence? = some p) (hm : n.tighter? = some m) (ho : Stops room m)
    {fuel : Nat} {left : Expr} (hts : m.Ends ts) (hf : ts.length ≤ fuel)
    (h : extend p (parser room m) fuel left ts = .ok e rest) : n.Ends rest := by
  induction fuel generalizing left ts with
  | zero =>
    obtain rfl := List.eq_nil_of_length_eq_zero (Nat.le_zero.mp hf)
    obtain ⟨rfl, rfl⟩ := pure_eq_ok.mp h
    exact fun s _ => by simp [Token.endOfInput]
  | succ fuel ih =>
    rcases operator_or_end n ts with ⟨t, s, op, mid, hk, hs, rfl⟩ | hend
    · rw [extend_step hp hk hs] at h
      obtain ⟨right, mid', hr, hext⟩ := bind_eq_ok.mp h
      obtain ⟨used, rfl, -, -⟩ := parser_sound room m hr
      refine ih (ho hr) ?_ hext
      simp only [List.length_cons, List.length_append] at hf
      omega
    · rw [extend_end hp hend] at h
      cases h
      exact ends_of_operand hp hm hts hend

theorem chain_stops (hp : n.precedence? = some p) (hm : n.tighter? = some m) (ho : Stops room m) :
    Stops room n := by
  intro ts rest e h
  rw [parser_binary room hp hm] at h
  obtain ⟨left, mid, hl, hext⟩ := chain_cases h
  exact extend_ends hp hm ho (ho hl) (Nat.le_refl _) hext

theorem assignment_stops (ih : ∀ k, room = k + 1 → Stops k .assignment) (ho : Stops room .equality) :
    Stops room .assignment := by
  intro ts rest e h
  rw [parser_assignment] at h
  rcases assignment_cases h with ⟨h, hne⟩ | ⟨g, _, _, _, _, _, hg, _, _, hv, _⟩
  · have table : ∀ s ∈ Nonterminal.assignment.continuations,
        s = .equal ∨ s ∈ Nonterminal.equality.continuations := by decide
    intro s hs
    rcases table s hs with rfl | hs
    · exact hne
    · exact ho h s hs
  · obtain ⟨k, rfl, rfl⟩ := within_eq_some hg
    exact ih k rfl hv

theorem level_stops (ih : ∀ k, room = k + 1 → Stops k .assignment) (n : Nonterminal) :
    Stops room n := by
  have hprimary : Stops room .primary := fun _ _ _ _ => nofun
  have hunary : Stops room .unary := fun _ _ _ _ => nofun
  have hfactor : Stops room .factor := chain_stops rfl rfl hunary
  have hterm : Stops room .term := chain_stops rfl rfl hfactor
  have hcomparison : Stops room .comparison := chain_stops rfl rfl hterm
  have hequality : Stops room .equality := chain_stops rfl rfl hcomparison
  have hassignment := assignment_stops ih hequality
  cases n <;> assumption

theorem parser_stops (room : Nat) (n : Nonterminal) : Stops room n := by
  induction room generalizing n with
  | zero => exact level_stops (by simp) n
  | succ room ih =>
    refine level_stops (fun k hk => ?_) n
    cases hk
    exact ih .assignment

theorem parser_eq_ok_iff : parser room n ts = .ok e rest ↔
    ∃ used, ts = used ++ rest ∧ Derives n used e ∧ e.nesting ≤ room ∧ n.Ends rest := by
  constructor
  · intro h
    obtain ⟨used, hts, hd, hn⟩ := parser_sound room n h
    exact ⟨used, hts, hd, hn, parser_stops room n h⟩
  · rintro ⟨used, rfl, hd, hn, hends⟩
    exact parser_complete hd hn hends

theorem expression_eq_ok_iff : (ofRoom room).expression ts = .ok e rest ↔
    ∃ used, ts = used ++ rest ∧ Derives .assignment used e ∧ e.nesting ≤ room ∧
      Nonterminal.assignment.Ends rest :=
  parser_eq_ok_iff (n := .assignment)

end Ends

section Soundness

variable {room : Nat} {n m : Nonterminal} {p : Precedence} {ts rest : List Token} {d : Diagnostic}

def FailsSoundly (room : Nat) (n : Nonterminal) : Prop :=
  ∀ ⦃ts rest : List Token⦄ ⦃d : Diagnostic⦄, parser room n ts = .error d rest →
    ∃ used, ts = used ++ rest ∧ Fails (Token.peek rest) room n used d

-- A prefix operator is no primary, but the parser of primaries is never called in front of one.
theorem primary_fails (ih : ∀ k, room = k + 1 → FailsSoundly k .assignment)
    (hop : UnaryOp.ofKind? (Token.peek ts).kind = none) (h : parser room .primary ts = .error d rest) :
    ∃ used, ts = used ++ rest ∧ Fails (Token.peek rest) room .primary used d := by
  rcases primary_error_cases h with ⟨hs, rfl, rfl⟩ | ⟨hin, hl, rfl, rfl⟩ |
    ⟨g, l, mid, hg, hl, rfl, hin⟩
  · exact ⟨[], rfl, .missing hs hop⟩
  · cases room with
    | zero => exact ⟨[], rfl, .groupTooDeep hl⟩
    | succ k => cases hin
  · obtain ⟨k, rfl, rfl⟩ := within_eq_some hg
    rcases hin with he | ⟨e, he, hr, rfl⟩
    · obtain ⟨used, rfl, hf⟩ := ih k rfl he
      exact ⟨l :: used, rfl, .inGroup hl hf⟩
    · obtain ⟨used, rfl, hd, hn, hends⟩ := expression_eq_ok_iff.mp he
      exact ⟨l :: used, rfl, .unclosed hl hd hn hends hr⟩

theorem unary_fails (ih : ∀ k, room = k + 1 → FailsSoundly k .unary)
    (ih' : ∀ k, room = k + 1 → FailsSoundly k .assignment) : FailsSoundly room .unary := by
  intro ts rest d h
  rw [parser_unary] at h
  rcases unary_error_cases h with ⟨s, op, hin, hk, hs, rfl, rfl⟩ | ⟨g, t, s, op, mid, hg, hk, hs, rfl, he⟩ |
    ⟨hop, h⟩
  · cases room with
    | zero => exact ⟨[], rfl, .unaryTooDeep hk hs⟩
    | succ k => cases hin
  · obtain ⟨k, rfl, rfl⟩ := within_eq_some hg
    obtain ⟨used, rfl, hf⟩ := ih k rfl he
    exact ⟨t :: used, rfl, .inUnary hk hs hf⟩
  · obtain ⟨used, hts, hf⟩ := primary_fails ih' hop h
    exact ⟨used, hts, .tighter rfl hf⟩

theorem extend_fails (hp : n.precedence? = some p) (hm : n.tighter? = some m) (ho : FailsSoundly room m)
    {fuel : Nat} {left : Expr} {used : List Token} (hl : Derives n used left) (hn : left.nesting ≤ room)
    (h : extend p (parser room m) fuel left ts = .error d rest) :
    ∃ more, ts = more ++ rest ∧ Fails (Token.peek rest) room n (used ++ more) d := by
  induction fuel generalizing left used ts with
  | zero => exact absurd h pure_ne_error
  | succ fuel ih =>
    obtain ⟨k, t, s, op, mid, hk, ht, hs, rfl, hin⟩ := extend_error_cases hp h
    cases hk
    rcases hin with he | ⟨right, mid', hr, hext⟩
    · obtain ⟨taken, rfl, hf⟩ := ho he
      exact ⟨t :: taken, rfl, .right hm ht hs hl hn hf⟩
    · obtain ⟨taken, rfl, hd, hn'⟩ := parser_sound room m hr
      obtain ⟨more, rfl, hf⟩ := ih (.binary hm ht hs hl hd) (Nat.max_le.mpr ⟨hn, hn'⟩) hext
      exact ⟨t :: taken ++ more, by simp, by simpa using hf⟩

theorem chain_fails (hp : n.precedence? = some p) (hm : n.tighter? = some m) (ho : FailsSoundly room m) :
    FailsSoundly room n := by
  intro ts rest d h
  rw [parser_binary room hp hm] at h
  rcases chain_error_cases h with he | ⟨left, mid, hl, hext⟩
  · obtain ⟨used, hts, hf⟩ := ho he
    exact ⟨used, hts, .tighter hm hf⟩
  · obtain ⟨used, rfl, hd, hn⟩ := parser_sound room m hl
    obtain ⟨more, rfl, hf⟩ := extend_fails hp hm ho (.tighter hm hd) hn hext
    exact ⟨used ++ more, by simp, hf⟩

theorem assignment_fails (ih : ∀ k, room = k + 1 → FailsSoundly k .assignment)
    (ht : FailsSoundly room .equality) : FailsSoundly room .assignment := by
  intro ts rest d h
  rw [parser_assignment] at h
  rcases assignment_error_cases h with he | ⟨left, q, mid, hl, hq, hin⟩
  · obtain ⟨used, hts, hf⟩ := ht he
    exact ⟨used, hts, .tighter rfl hf⟩
  · obtain ⟨used, rfl, hd, hn⟩ := parser_sound room .equality hl
    rcases hin with ⟨hin, rfl, rfl⟩ | ⟨g, hg, hin⟩
    · cases room with
      | zero => exact ⟨used ++ [q], by simp, .assignTooDeep hd hn hq⟩
      | succ k => cases hin
    · obtain ⟨k, rfl, rfl⟩ := within_eq_some hg
      rcases hin with hv | ⟨v, hv, hx, rfl⟩
      · obtain ⟨more, rfl, hf⟩ := ih k rfl hv
        exact ⟨used ++ q :: more, by simp, .value hd hn hq hf⟩
      · obtain ⟨more, rfl, hd', hn', hends⟩ := expression_eq_ok_iff.mp hv
        exact ⟨used ++ q :: more, by simp, .target hd hn hx hq hd' hn' hends⟩

theorem level_fails (ih : ∀ k, room = k + 1 → ∀ n, n ≠ .primary → FailsSoundly k n) {n : Nonterminal}
    (hn : n ≠ .primary) : FailsSoundly room n := by
  have hunary := unary_fails (fun k hk => ih k hk .unary nofun) fun k hk => ih k hk .assignment nofun
  have hfactor : FailsSoundly room .factor := chain_fails rfl rfl hunary
  have hterm : FailsSoundly room .term := chain_fails rfl rfl hfactor
  have hcomparison : FailsSoundly room .comparison := chain_fails rfl rfl hterm
  have hequality : FailsSoundly room .equality := chain_fails rfl rfl hcomparison
  have hassignment := assignment_fails (fun k hk => ih k hk .assignment nofun) hequality
  cases n <;> first | assumption | exact absurd rfl hn

theorem parser_fails (room : Nat) {n : Nonterminal} (hn : n ≠ .primary) : FailsSoundly room n := by
  induction room generalizing n with
  | zero => exact level_fails (by simp) hn
  | succ room ih =>
    refine level_fails (fun k hk => ?_) hn
    cases hk
    exact @ih

end Soundness

section Completeness

variable {room : Nat} {n m : Nonterminal} {used rest : List Token} {next : Token} {d : Diagnostic}

theorem primary_head_of_fails (h : Fails (Token.peek rest) room .primary used d) :
    UnaryOp.ofKind? (Token.peek (used ++ rest)).kind = none := by
  cases h with
  | missing _ hop => exact hop
  | groupTooDeep hl => rw [List.nil_append, hl]; rfl
  | inGroup hl _ => rw [List.cons_append, Token.peek_cons, hl]; rfl
  | unclosed hl _ _ _ _ => rw [List.cons_append, Token.peek_cons, hl]; rfl
  | right hm => cases hm
  | tighter hm => cases hm

theorem fails_tighter (hm : n.tighter? = some m) (hf : Fails (Token.peek rest) room m used d)
    (h : parser room m (used ++ rest) = .error d rest) : parser room n (used ++ rest) = .error d rest := by
  cases hp : n.precedence? with
  | some p =>
    rw [parser_binary room hp hm]
    exact chain_of_error h
  | none =>
    cases n <;> cases hp <;> cases hm
    · rw [parser_assignment]
      exact assignment_of_error h
    · rw [parser_unary, unary_primary (primary_head_of_fails hf)]
      exact h

theorem fails_right {t : Token} {s : Symbol} {op : BinaryOp} {ts us : List Token} {l : Expr}
    (hm : n.tighter? = some m) (hk : t.kind = .symbol s) (hs : (s, op) ∈ n.operators)
    (hl : Derives n ts l) (hn : l.nesting ≤ room) (h : parser room m (us ++ rest) = .error d rest) :
    parser room n (ts ++ t :: us ++ rest) = .error d rest := by
  have hp := (Nonterminal.mem_operators_iff.mp hs).2
  obtain ⟨fuel, hfuel, heq⟩ :=
    (accepts_of_derives hl hn).passed (t :: us ++ rest) hp hm (.of_operator hm hk hs)
  obtain ⟨fuel, rfl⟩ : ∃ k, fuel = k + 1 :=
    Nat.exists_eq_add_one_of_ne_zero (by rintro rfl; simp at hfuel)
  rw [List.append_assoc, heq, List.cons_append, extend_step hp hk hs]
  exact bind_of_error h

theorem parser_of_fails (h : Fails (Token.peek rest) room n used d) :
    parser room n (used ++ rest) = .error d rest := by
  have target {room : Nat} {q : Token} {ts us : List Token} {e : Expr} (hd : Derives .equality ts e)
      (hn : e.nesting ≤ room) (hq : q.kind = .symbol .equal) :
      parser room .equality (ts ++ q :: us) = .ok e (q :: us) :=
    parser_complete hd hn (.of_symbol hq (by decide))
  induction h with
  | missing hs _ => exact primary_missing hs
  | groupTooDeep hl => exact primary_tooDeep hl
  | @inGroup room l ts d hl _ ih =>
    rw [List.cons_append]
    change primary (some (ofRoom room)) _ = _
    rw [primary_paren hl]
    exact bind_of_error ih
  | @unclosed room l ts e hl hd hn hends hr =>
    have he : (ofRoom room).expression (ts ++ rest) = .ok e rest := parser_complete hd hn hends
    rw [List.cons_append]
    change primary (some (ofRoom room)) _ = _
    rw [primary_paren hl, Rules.closing, bind_of_ok he]
    exact bind_of_error (expect_of_ne _ hr)
  | unaryTooDeep hk hs =>
    rw [parser_unary]
    exact unary_tooDeep hk hs
  | @inUnary room t s op ts d hk hs _ ih =>
    rw [parser_unary, List.cons_append]
    change unary (some (ofRoom room)) _ = _
    rw [unary_inside hk hs]
    exact bind_of_error ih
  | right hm hk hs hl hn _ ih => exact fails_right hm hk hs hl hn ih
  | assignTooDeep hd hn hq =>
    rw [parser_assignment, List.append_assoc]
    exact assignment_tooDeep (target hd hn hq) hq
  | @value room q ts us e d hd hn hq _ ih =>
    rw [parser_assignment, List.append_assoc]
    exact assignment_value (g := ofRoom room) (target hd hn hq) hq ih
  | @target room q ts us e v hd hn hx hq hd' hn' hends =>
    have hv : (ofRoom room).expression (us ++ rest) = .ok v rest := parser_complete hd' hn' hends
    rw [parser_assignment, List.append_assoc]
    exact assignment_invalid (g := ofRoom room) (target hd hn hq) hq hv hx
  | tighter hm hf ih => exact fails_tighter hm hf ih

end Completeness

theorem expression_eq_error_iff {room : Nat} {ts rest : List Token} {d : Diagnostic} :
    (ofRoom room).expression ts = .error d rest ↔
      ∃ used, ts = used ++ rest ∧ Fails (Token.peek rest) room .assignment used d := by
  constructor
  · intro h
    exact parser_fails room (n := .assignment) nofun h
  · rintro ⟨used, rfl, h⟩
    exact parser_of_fails h

end Grammar

end Treewalk
