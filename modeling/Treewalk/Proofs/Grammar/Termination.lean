import Treewalk.Proofs.Grammar.Recovery

namespace Treewalk

open TokenParser

abbrev Procedure := ExceptT Diagnostic (StateT (List Token) Option)

namespace Procedure

def call {α : Type} (x : TokenParser α) : Procedure α := fun ts =>
  match x ts with
  | .ok a rest => some (.ok a, rest)
  | .error d rest => some (.error d, rest)

def inside (depth : Nat) (rules : Rules Procedure) : Option (Rules Procedure) :=
  if depth < maxNesting then some rules else none

mutual

def expression : (frames : Nat) → Nonterminal → (depth : Nat) → Procedure Expr
  | 0, _, _ => fun _ => none
  | frames + 1, .assignment, depth =>
      Grammar.assignment
        (inside depth ⟨expression frames .unary (depth + 1), expression frames .assignment (depth + 1)⟩)
        (expression frames .equality depth)
  | frames + 1, .equality, depth =>
      expression frames .comparison depth >>= operators frames .equality .comparison depth
  | frames + 1, .comparison, depth => expression frames .term depth >>= operators frames .comparison .term depth
  | frames + 1, .term, depth => expression frames .factor depth >>= operators frames .additive .factor depth
  | frames + 1, .factor, depth => expression frames .unary depth >>= operators frames .multiplicative .unary depth
  | frames + 1, .unary, depth =>
      Grammar.prefixed
        (inside depth ⟨expression frames .unary (depth + 1), expression frames .assignment (depth + 1)⟩)
        (expression frames .primary depth)
  | frames + 1, .primary, depth =>
      Grammar.primary
        (inside depth ⟨expression frames .unary (depth + 1), expression frames .assignment (depth + 1)⟩)

def operators : (frames : Nat) → Precedence → Nonterminal → (depth : Nat) → Expr → Procedure Expr
  | 0, _, _, _, _ => fun _ => none
  | frames + 1, p, m, depth, left =>
      Grammar.joined p (expression frames m depth) (operators frames p m depth) left

end

def rules (frames depth : Nat) : Rules Procedure where
  operand := expression frames .unary depth
  expression := expression frames .assignment depth

def attempt (x : Procedure Statement) (ts : List Token) : Option Statement.Attempt :=
  (x ts).map fun (result, rest) => ⟨result, [], rest⟩

mutual

def declaration : (frames depth : Nat) → List Token → Option Statement.Parsed
  | 0, _, _ => none
  | frames + 1, depth, ts =>
      Statement.Parsed.ofAttempt <$> Statement.attemptIn attempt (rules frames depth) (block frames depth) ts

def block : (frames depth : Nat) → Token → List Token → Option Statement.Attempt
  | 0, _, _, _ => none
  | frames + 1, depth, brace, ts =>
      let body := declarations frames Statement.endsBlock (depth + 1)
      Statement.blockIn (if depth < maxNesting then some body else none) brace ts

def declarations : (frames : Nat) → (stop : TokenKind → Bool) → (depth : Nat) → List Token →
    Option Statement.Parsed
  | 0, _, _, _ => none
  | frames + 1, stop, depth, ts =>
      Statement.rowIn stop (declaration frames depth) (declarations frames stop depth) ts

end

def program (frames : Nat) (ts : List Token) : Option Statement.Parsed :=
  declarations frames (· = .endOfInput) 0 ts

section Call

variable {α β : Type} {ts rest : List Token}

theorem peek_bind_apply (f : Token → Procedure β) : (peek >>= f) ts = f (Token.peek ts) ts :=
  rfl

theorem bind_eq_call {x : Procedure α} {y : TokenParser α} {f : α → Procedure β} {g : α → TokenParser β}
    (hx : x ts = call y ts) (hf : ∀ a rest, y ts = .ok a rest → f a rest = call (g a) rest) :
    (x >>= f) ts = call (y >>= g) ts := by
  simp only [call, bind, EStateM.bind, ExceptT.bind, ExceptT.mk, StateT.bind, hx]
  cases hy : y ts with
  | ok a rest => exact hf a rest hy
  | error d rest => rfl

theorem peek_bind_eq_call {f : Token → Procedure β} {g : Token → TokenParser β}
    (h : f (Token.peek ts) ts = call (g (Token.peek ts)) ts) : (peek >>= f) ts = call (peek >>= g) ts :=
  h

theorem advance_bind_eq_call {f : Unit → Procedure β} {g : Unit → TokenParser β}
    (h : f () ts.tail = call (g ()) ts.tail) : (advance >>= f) ts = call (advance >>= g) ts :=
  h

theorem accept_eq_call (kind : TokenKind) : (accept kind : Procedure _) ts = call (accept kind) ts := by
  rw [accept, accept]
  refine peek_bind_eq_call ?_
  split <;> rfl

theorem expect_eq_call (kind : TokenKind) (expectation : String) :
    (expect kind expectation : Procedure _) ts = call (expect kind expectation) ts := by
  rw [expect, expect]
  refine bind_eq_call (accept_eq_call kind) fun o rest _ => ?_
  cases o <;> rfl

end Call

section Expressions

variable {n m : Nonterminal} {p : Precedence} {frames depth : Nat} {ts rest : List Token} {e : Expr}

def layer : Nonterminal → Nat
  | .primary => 0
  | .unary => 1
  | .factor => 2
  | .term => 3
  | .comparison => 4
  | .equality => 5
  | .assignment => 6

theorem layer_le (n : Nonterminal) : layer n ≤ 6 := by
  cases n <;> decide

theorem layer_tighter (h : n.tighter? = some m) : layer n = layer m + 1 := by
  cases n <;> cases h <;> rfl

-- One token pays for a descent through all seven nonterminals, so what comes after a token may start anew.
structure ExpressionsEnd (frames : Nat) : Prop where
  expression : ∀ n depth ts, 7 * ts.length + layer n < frames →
    expression frames n depth ts = call (Grammar.parser (maxNesting - depth) n) ts
  operators : ∀ {n : Nonterminal} {p : Precedence}, n.precedence? = some p → ∀ m depth left ts fuel,
    ts.length ≤ fuel → 7 * ts.length < frames → operators frames p m depth left ts =
      call (Grammar.extend p (Grammar.parser (maxNesting - depth) m) fuel left) ts

theorem length_lt_of_parsed {room : Nat} (h : Grammar.parser room n ts = .ok e rest) : rest.length < ts.length := by
  obtain ⟨used, rfl, hd, -⟩ := Grammar.parser_sound room n h
  obtain ⟨t, us, rfl, -⟩ := hd.head
  rw [List.length_append, List.length_cons]
  omega

theorem length_tail_lt {kind : TokenKind} (hk : kind ≠ .endOfInput) (h : (Token.peek ts).kind = kind) :
    ts.tail.length < ts.length := by
  rw [Token.eq_cons_of_peek_kind hk h]
  exact Nat.lt_succ_self _

structure Follow (bound : Nat) (r : Rules Procedure) (g : Grammar) : Prop where
  operand : ∀ ts, ts.length < bound → r.operand ts = call g.operand ts
  expression : ∀ ts, ts.length < bound → r.expression ts = call g.expression ts

abbrev FollowInside (bound : Nat) : Option (Rules Procedure) → Option Grammar → Prop :=
  Option.Rel (Follow bound)

section Rules

variable {bound : Nat} {inner : Option (Rules Procedure)} {inner' : Option Grammar}

theorem FollowInside.enter_bind {α : Type} {f : Rules Procedure → Procedure α} {g : Grammar → TokenParser α}
    (h : FollowInside bound inner inner') (opener : Token)
    (hf : ∀ r r', Follow bound r r' → f r ts = call (g r') ts) :
    (enter inner opener >>= f) ts = call (enter inner' opener >>= g) ts := by
  cases h with
  | none => rfl
  | some hr => exact hf _ _ hr

theorem FollowInside.closing (h : FollowInside ts.length inner inner') (hk : (Token.peek ts).kind = .symbol .leftParen)
    (line : Nat) (opener : Token) :
    (enter inner opener >>= fun r => advance >>= fun _ => r.closing line) ts =
      call (enter inner' opener >>= fun g => advance >>= fun _ => g.closing line) ts := by
  refine h.enter_bind opener fun r r' hr => ?_
  have hlen := length_tail_lt (by simp) hk
  refine advance_bind_eq_call (bind_eq_call (hr.expression _ hlen) fun e rest _ => ?_)
  exact bind_eq_call (expect_eq_call ..) fun _ _ _ => rfl

theorem FollowInside.primary (h : FollowInside ts.length inner inner') :
    Grammar.primary inner ts = call (Grammar.primary inner') ts := by
  rw [Grammar.primary, Grammar.primary]
  refine peek_bind_eq_call ?_
  have hclosing (hk : (Token.peek ts).kind = .symbol .leftParen) := h.closing hk
  generalize Token.peek ts = t at hclosing ⊢
  obtain ⟨kind, lexeme, literal, line⟩ := t
  cases kind with
  | symbol s =>
    cases s with
    | leftParen => exact hclosing rfl line _
    | _ => rfl
  | keyword w => cases w <;> rfl
  | number | string =>
    match literal with
    | .none | .some (.number _) | .some (.string _) => rfl
  | _ => rfl

theorem FollowInside.prefixed {otherwise : Procedure Expr} {otherwise' : TokenParser Expr}
    (h : FollowInside ts.length inner inner') (ho : otherwise ts = call otherwise' ts) :
    Grammar.prefixed inner otherwise ts = call (Grammar.prefixed inner' otherwise') ts := by
  rw [Grammar.prefixed, Grammar.prefixed]
  refine peek_bind_eq_call ?_
  cases hop : UnaryOp.ofKind? (Token.peek ts).kind with
  | none => exact ho
  | some op =>
    obtain ⟨s, hk, -⟩ := prefix_operator_iff.mp hop
    refine h.enter_bind _ fun r r' hr => ?_
    have hlen := length_tail_lt (by simp) hk
    exact advance_bind_eq_call (bind_eq_call (hr.operand _ hlen) fun _ _ _ => rfl)

theorem FollowInside.assignment {target : Procedure Expr} {target' : TokenParser Expr}
    (h : FollowInside ts.length inner inner') (ht : target ts = call target' ts)
    (hlen : ∀ e rest, target' ts = .ok e rest → rest.length < ts.length) :
    Grammar.assignment inner target ts = call (Grammar.assignment inner' target') ts := by
  rw [Grammar.assignment, Grammar.assignment]
  refine bind_eq_call ht fun left rest hleft => ?_
  refine bind_eq_call (accept_eq_call _) fun o mid ho => ?_
  rcases accept_eq_ok (by simp) ho with ⟨equals, rfl, -, rfl⟩ | ⟨rfl, rfl, -⟩
  · refine h.enter_bind equals fun r r' hr => ?_
    have hmid := hlen _ _ hleft
    rw [List.length_cons] at hmid
    refine bind_eq_call (hr.expression mid (by omega)) fun value _ _ => ?_
    cases left <;> rfl
  · rfl

end Rules

namespace ExpressionsEnd

theorem inside (h : ExpressionsEnd frames) {bound : Nat} (hf : 7 * bound ≤ frames) (depth : Nat) :
    FollowInside bound (Procedure.inside depth (rules frames (depth + 1))) (Grammar.within (maxNesting - depth)) := by
  by_cases hd : depth < maxNesting
  · obtain ⟨k, hk⟩ : ∃ k, maxNesting - depth = k + 1 := Nat.exists_eq_add_one_of_ne_zero (by omega)
    have hroom : maxNesting - (depth + 1) = k := by omega
    have hunary ts (hlen : ts.length < bound) := h.expression .unary (depth + 1) ts (by simp only [layer]; omega)
    have hassignment ts (hlen : ts.length < bound) :=
      h.expression .assignment (depth + 1) ts (by simp only [layer]; omega)
    rw [hroom] at hunary hassignment
    rw [Procedure.inside, if_pos hd, hk]
    exact .some ⟨hunary, hassignment⟩
  · have hroom : maxNesting - depth = 0 := by omega
    rw [Procedure.inside, if_neg hd, hroom]
    exact .none

theorem operators_step (h : ExpressionsEnd frames) (hp : n.precedence? = some p) (left : Expr) {fuel : Nat}
    (hfuel : ts.length ≤ fuel) (hf : 7 * ts.length < frames + 1) :
    Procedure.operators (frames + 1) p m depth left ts =
      call (Grammar.extend p (Grammar.parser (maxNesting - depth) m) fuel left) ts := by
  rw [Procedure.operators]
  rcases Grammar.operator_or_end n ts with ⟨t, s, op, mid, hk, hs, rfl⟩ | hend
  · rw [List.length_cons] at hfuel hf
    obtain ⟨k, rfl⟩ : ∃ k, fuel = k + 1 := Nat.exists_eq_add_one_of_ne_zero (by omega)
    rw [Grammar.extend, Grammar.joined, Grammar.joined]
    refine peek_bind_eq_call ?_
    rw [Token.peek_cons, (Nonterminal.binary_operator_iff hp).mpr ⟨s, hk, hs⟩]
    have hlayer := layer_le m
    refine advance_bind_eq_call (bind_eq_call (h.expression m depth mid (by omega)) fun right rest hright => ?_)
    have hlen : rest.length < mid.length := length_lt_of_parsed hright
    exact h.operators hp m depth _ rest k (by omega) (by omega)
  · rw [Grammar.joined, peek_bind_apply, Nonterminal.no_operator hp hend, call, Grammar.extend_end hp hend]
    rfl

theorem binary_step (h : ExpressionsEnd frames) (hp : n.precedence? = some p) (hm : n.tighter? = some m)
    (hf : 7 * ts.length + layer n < frames + 1) :
    Procedure.expression (frames + 1) n depth ts = call (Grammar.parser (maxNesting - depth) n) ts := by
  have hchain : Procedure.expression (frames + 1) n depth =
      Procedure.expression frames m depth >>= Procedure.operators frames p m depth := by
    cases n <;> cases hp <;> cases hm <;> rw [Procedure.expression]
  rw [layer_tighter hm] at hf
  rw [hchain, Grammar.parser_binary _ hp hm, Grammar.chain]
  refine bind_eq_call (h.expression m depth ts (by omega)) fun left rest hleft => ?_
  have hlen := length_lt_of_parsed hleft
  exact h.operators hp m depth left rest rest.length (Nat.le_refl _) (by omega)

theorem step (h : ExpressionsEnd frames) : ExpressionsEnd (frames + 1) where
  expression n depth ts hf := by
    have hinside : FollowInside ts.length _ _ := h.inside (by omega) depth
    cases n with
    | primary =>
      rw [Procedure.expression]
      exact hinside.primary
    | unary =>
      rw [Procedure.expression, Grammar.parser_unary, Grammar.unary]
      exact hinside.prefixed (h.expression .primary depth ts (by simp only [layer] at hf ⊢; omega))
    | factor | term | comparison | equality => exact h.binary_step rfl rfl hf
    | assignment =>
      rw [Procedure.expression, Grammar.parser_assignment]
      exact hinside.assignment (h.expression .equality depth ts (by simp only [layer] at hf ⊢; omega))
        fun _ _ => length_lt_of_parsed
  operators hp m depth left ts fuel hfuel hf := h.operators_step hp left hfuel hf

end ExpressionsEnd

theorem expressionsEnd (frames : Nat) : ExpressionsEnd frames := by
  induction frames with
  | zero => constructor <;> intros <;> omega
  | succ frames ih => exact ih.step

end Expressions

section Statements

variable {frames depth line : Nat} {ts : List Token}

theorem expression_eq (hf : 7 * ts.length + 6 < frames) :
    (rules frames depth).expression ts = call (Grammar.atDepth depth).expression ts :=
  (expressionsEnd frames).expression .assignment depth ts hf

theorem parseDeclare_eq (hf : 7 * ts.length + 6 < frames) :
    Statement.parseDeclare (rules frames depth) ts = call (Statement.parseDeclare (Grammar.atDepth depth)) ts := by
  refine bind_eq_call (expect_eq_call ..) fun name mid hname => ?_
  obtain ⟨-, rfl⟩ := expect_eq_ok (by simp) hname
  rw [List.length_cons] at hf
  refine bind_eq_call (accept_eq_call _) fun o rest ho => ?_
  rcases accept_eq_ok (by simp) ho with ⟨q, rfl, -, rfl⟩ | ⟨rfl, rfl, -⟩
  · rw [List.length_cons] at hf
    refine bind_eq_call ?_ fun _ _ _ => bind_eq_call (expect_eq_call ..) fun _ _ _ => rfl
    rw [map_eq_pure_bind, map_eq_pure_bind]
    exact bind_eq_call (expression_eq (by omega)) fun _ _ _ => rfl
  · exact bind_eq_call rfl fun _ _ _ => bind_eq_call (expect_eq_call ..) fun _ _ _ => rfl

theorem parsePrint_eq (hf : 7 * ts.length + 6 < frames) :
    Statement.parsePrint (rules frames depth) line ts =
      call (Statement.parsePrint (Grammar.atDepth depth) line) ts :=
  bind_eq_call (expression_eq hf) fun _ _ _ => bind_eq_call (expect_eq_call ..) fun _ _ _ => rfl

theorem parseExpression_eq (hf : 7 * ts.length + 6 < frames) :
    Statement.parseExpression (rules frames depth) ts =
      call (Statement.parseExpression (Grammar.atDepth depth)) ts :=
  peek_bind_eq_call (bind_eq_call (expression_eq hf) fun _ _ _ => bind_eq_call (expect_eq_call ..) fun _ _ _ => rfl)

theorem attempt_eq {x : Procedure Statement} {y : TokenParser Statement} (h : x ts = call y ts) :
    x.attempt ts = some (.ofParser y ts) := by
  rw [attempt, h, call, Statement.Attempt.ofParser]
  cases y ts <;> rfl

-- The loop needs one call more than a declaration on the same tokens, and a block one more than the loop in it,
-- which has a brace less.
structure StatementsEnd (frames : Nat) : Prop where
  declaration : ∀ depth ts, 7 * ts.length + 8 ≤ frames →
    declaration frames depth ts = some (Statement.parseOne (maxNesting - depth) ts)
  block : ∀ depth brace ts, 7 * ts.length + 10 ≤ frames →
    block frames depth brace ts = some (Statement.attemptBlock (Statement.oneWithin (maxNesting - depth)) brace ts)
  declarations : ∀ {stop : TokenKind → Bool}, stop .endOfInput → ∀ depth ts, 7 * ts.length + 9 ≤ frames →
    declarations frames stop depth ts = some (Statement.parseAll stop (Statement.parseOne (maxNesting - depth)) ts)

namespace StatementsEnd

theorem declaration_step (h : StatementsEnd frames) (hf : 7 * ts.length + 8 ≤ frames + 1) :
    Procedure.declaration (frames + 1) depth ts = some (Statement.parseOne (maxNesting - depth) ts) := by
  have hattempt : Statement.attemptIn attempt (rules frames depth) (Procedure.block frames depth) ts =
      some (Statement.attempt (.atDepth depth) (Statement.oneWithin (maxNesting - depth)) ts) := by
    rcases Statement.lead_cases ts with ⟨v, us, rfl, hv⟩ | ⟨p, us, rfl, hp⟩ | ⟨l, us, rfl, hl⟩ | hlead
    · rw [List.length_cons] at hf
      rw [Statement.attemptIn_var hv, Statement.attempt_var hv, attempt_eq (parseDeclare_eq (by omega))]
    · rw [List.length_cons] at hf
      rw [Statement.attemptIn_print hp, Statement.attempt_print hp, attempt_eq (parsePrint_eq (by omega))]
    · rw [List.length_cons] at hf
      rw [Statement.attemptIn_block hl, Statement.attempt_block hl, h.block depth l us (by omega)]
    · rw [Statement.attemptIn_expression hlead, Statement.attempt_expression hlead,
        attempt_eq (parseExpression_eq (by omega))]
  rw [Procedure.declaration, hattempt, Statement.parseOne_eq]
  rfl

theorem block_step (h : StatementsEnd frames) (brace : Token) (hf : 7 * ts.length + 10 ≤ frames + 1) :
    Procedure.block (frames + 1) depth brace ts =
      some (Statement.attemptBlock (Statement.oneWithin (maxNesting - depth)) brace ts) := by
  rw [Procedure.block]
  by_cases hd : depth < maxNesting
  · obtain ⟨k, hk⟩ : ∃ k, maxNesting - depth = k + 1 := Nat.exists_eq_add_one_of_ne_zero (by omega)
    have hroom : maxNesting - (depth + 1) = k := by omega
    have hend : Statement.endsBlock .endOfInput := rfl
    have hbody := h.declarations hend (depth + 1) ts (by omega)
    rw [hroom] at hbody
    rw [if_pos hd, hk]
    exact congrArg (Statement.close brace <$> ·) hbody
  · have hroom : maxNesting - depth = 0 := by omega
    rw [if_neg hd, hroom]
    rfl

theorem declarations_step (h : StatementsEnd frames) {stop : TokenKind → Bool} (hstop : stop .endOfInput)
    (hf : 7 * ts.length + 9 ≤ frames + 1) : Procedure.declarations (frames + 1) stop depth ts =
      some (Statement.parseAll stop (Statement.parseOne (maxNesting - depth)) ts) := by
  have hadvances := Statement.parseOne_advances (maxNesting - depth)
  rw [Procedure.declarations, Statement.rowIn]
  cases hs : stop (Token.peek ts).kind with
  | true =>
    rw [Statement.parseAll_stop hs]
    rfl
  | false =>
    have hlen := hadvances.length_lt (Statement.kind_ne_end_of_not_stop hstop hs)
    rw [if_neg Bool.false_ne_true, h.declaration depth ts (by omega), Statement.parseAll_step hadvances hstop hs]
    dsimp only [bind, Option.bind]
    rw [h.declarations hstop depth _ (by omega)]
    rfl

end StatementsEnd

theorem statementsEnd (frames : Nat) : StatementsEnd frames := by
  induction frames with
  | zero => constructor <;> intros <;> omega
  | succ frames ih =>
    exact ⟨fun _ _ hf => ih.declaration_step hf, fun _ brace _ hf => ih.block_step brace hf,
      fun hstop _ _ hf => ih.declarations_step hstop hf⟩

end Statements

theorem parsing_ends (ts : List Token) :
    (∀ frames, 7 * ts.length + 9 ≤ frames → program frames ts = some (Statement.parse ts) ∧ ∀ depth,
      declaration frames depth ts = some (Statement.parseOne (maxNesting - depth) ts) ∧
      declarations frames Statement.endsBlock depth ts =
        some (Statement.parseAll Statement.endsBlock (Statement.parseOne (maxNesting - depth)) ts) ∧
      ∀ n, expression frames n depth ts = call (Grammar.parser (maxNesting - depth) n) ts) ∧
      ∀ depth, (Token.peek ts).kind ≠ .endOfInput →
        (Statement.parseOne (maxNesting - depth) ts).rest.length < ts.length := by
  refine ⟨fun frames hf => ?_, fun depth hts => (Statement.parseOne_advances _).length_lt hts⟩
  have hstatements := statementsEnd frames
  refine ⟨hstatements.declarations rfl 0 ts hf, fun depth => ⟨hstatements.declaration depth ts (by omega),
    hstatements.declarations rfl depth ts hf, fun n => ?_⟩⟩
  have hlayer := layer_le n
  exact (expressionsEnd frames).expression n depth ts (by omega)

theorem parsing_ends_without_end :
    let ts : List Token := [⟨.keyword .class, "class", none, 1⟩, ⟨.keyword .for, "for", none, 1⟩,
      ⟨.symbol .rightBrace, "\x7d", none, 2⟩]
    (Token.peek ts).kind ≠ .endOfInput ∧ program 30 ts = some (Statement.parse ts) ∧
      (Statement.parse ts).diagnostics =
        [⟨.missingExpression (.lexeme "class"), 1⟩, ⟨.missingExpression (.lexeme "for"), 1⟩] ∧
      (Statement.parseOne 121 ts).rest.length < ts.length := by
  intro ts
  have hts : (Token.peek ts).kind ≠ .endOfInput := by decide
  obtain ⟨hends, hprogress⟩ := parsing_ends ts
  exact ⟨hts, (hends 30 (by decide)).1, by decide +kernel, hprogress 7 hts⟩

end Procedure

end Treewalk
