import Treewalk.Proofs.Grammar.FirstError

namespace Treewalk

namespace Complaint

def isMisplaced : Complaint → Bool
  | .unexpectedToken .. | .missingExpression _ => true
  | _ => false

def isInvalidTarget : Complaint → Bool
  | .invalidTarget _ => true
  | _ => false

end Complaint

namespace Token

def nil : Token := ⟨.keyword .nil, "nil", none, 0⟩

def name : Token := ⟨.identifier, "x", none, 0⟩

def rightParen : Token := ⟨.symbol .rightParen, ")", none, 0⟩

def semicolon : Token := ⟨.symbol .semicolon, ";", none, 0⟩

def rightBrace : Token := ⟨.symbol .rightBrace, "\x7d", none, 0⟩

end Token

-- A left side that is no variable is reported only once its value has been read. The tokens that close
-- what stands around it are then left over.
def Settles (room : Nat) (n : Nonterminal) (ts : List Token) : Prop :=
  ∀ next, n.Ends [next] → (∃ e, Derives n ts e ∧ e.nesting ≤ room) ∨
    ∃ used left q, ts = used ++ left ∧
      Fails (Token.peek (left ++ [next])) room n used (.about q .invalidTarget)

namespace Settles

variable {room : Nat} {n m : Nonterminal} {ts us : List Token} {t l r q : Token} {s : Symbol} {e : Expr}

theorem of_derives (h : Derives n ts e) (hn : e.nesting ≤ room) : Settles room n ts :=
  fun _ _ => .inl ⟨e, h, hn⟩

theorem group (hl : l.kind = .symbol .leftParen) (hr : r.kind = .symbol .rightParen)
    (h : Settles room .assignment ts) : Settles (room + 1) .primary (l :: ts ++ [r]) := by
  intro next _
  rcases h r (.of_symbol hr (by decide)) with ⟨e, hd, hn⟩ | ⟨used, left, q, rfl, hf⟩
  · exact .inl ⟨_, .group hl hd hr, Nat.succ_le_succ hn⟩
  · refine .inr ⟨l :: used, left ++ [r], q, by simp, ?_⟩
    have hpeek : Token.peek (left ++ [r] ++ [next]) = Token.peek (left ++ [r]) := by
      cases left <;> rfl
    rw [hpeek]
    exact .inGroup hl hf

theorem unary {op : UnaryOp} (hk : t.kind = .symbol s) (hs : (s, op) ∈ prefixOperators)
    (h : Settles room .unary ts) : Settles (room + 1) .unary (t :: ts) := by
  intro next hend
  rcases h next hend with ⟨e, hd, hn⟩ | ⟨used, left, q, rfl, hf⟩
  · exact .inl ⟨_, .unary hk hs hd, Nat.succ_le_succ hn⟩
  · exact .inr ⟨t :: used, left, q, rfl, .inUnary hk hs hf⟩

theorem right {op : BinaryOp} (hm : n.tighter? = some m) (hk : t.kind = .symbol s) (hs : (s, op) ∈ n.operators)
    (hl : Derives n ts e) (hn : e.nesting ≤ room) (h : Settles room m us) :
    Settles room n (ts ++ t :: us) := by
  intro next hend
  rcases h next (hend.tighter hm) with ⟨r, hd, hr⟩ | ⟨used, left, q, rfl, hf⟩
  · exact .inl ⟨_, .binary hm hk hs hl hd, Nat.max_le.mpr ⟨hn, hr⟩⟩
  · exact .inr ⟨ts ++ t :: used, left, q, by simp, .right hm hk hs hl hn hf⟩

theorem value (hd : Derives .equality ts e) (hn : e.nesting ≤ room + 1) (hq : q.kind = .symbol .equal)
    (h : Settles room .assignment us) : Settles (room + 1) .assignment (ts ++ q :: us) := by
  intro next hend
  rcases h next hend with ⟨v, hv, hnv⟩ | ⟨used, left, q', rfl, hf⟩
  · by_cases he : ∃ name line, e = .variable name line
    · obtain ⟨name, line, rfl⟩ := he
      obtain ⟨x, rfl, hx, -, -⟩ := hd.eq_singleton_of_variable
      exact .inl ⟨_, .assign hx hq hv, Nat.succ_le_succ hnv⟩
    · have hno : ∀ name line, e ≠ .variable name line := fun name line heq => he ⟨name, line, heq⟩
      exact .inr ⟨ts ++ q :: us, [], q, by simp, .target hd hn hno hq hv hnv hend⟩
  · exact .inr ⟨ts ++ q :: used, left, q', by simp, .value hd hn hq hf⟩

theorem tighter (hm : n.tighter? = some m) (h : Settles room m ts) : Settles room n ts := by
  intro next hend
  rcases h next (hend.tighter hm) with ⟨e, hd, hn⟩ | ⟨used, left, q, hts, hf⟩
  · exact .inl ⟨e, .tighter hm hd, hn⟩
  · exact .inr ⟨used, left, q, hts, .tighter hm hf⟩

end Settles

section Expressions

variable {next : Token} {room : Nat} {n : Nonterminal} {ts : List Token} {d : Diagnostic}

theorem Fails.completed (h : Fails next room n ts d) (hd : d.complaint.isMisplaced) :
    ∃ more, ts ++ more ≠ [] ∧ (∀ t ∈ more, t.kind.inExpression) ∧ Settles room n (ts ++ more) := by
  induction h with
  | missing =>
    refine ⟨[.nil], by simp, by simp [Token.nil, TokenKind.inExpression], ?_⟩
    exact .of_derives (.constant (.nil rfl)) (Nat.zero_le _)
  | groupTooDeep | unaryTooDeep | assignTooDeep | target => cases hd
  | inGroup hl _ ih =>
    obtain ⟨more, -, hmore, hsettles⟩ := ih hd
    refine ⟨more ++ [.rightParen], by simp, ?_, ?_⟩
    · simpa [or_imp, forall_and, Token.rightParen, TokenKind.inExpression] using hmore
    · have hgroup := hsettles.group hl (r := .rightParen) rfl
      simpa using hgroup
  | unclosed hl hd' hn _ _ =>
    refine ⟨[.rightParen], by simp, by simp [Token.rightParen, TokenKind.inExpression], ?_⟩
    exact .of_derives (.group hl hd' rfl) (Nat.succ_le_succ hn)
  | inUnary hk hs _ ih =>
    obtain ⟨more, -, hmore, hsettles⟩ := ih hd
    exact ⟨more, by simp, hmore, hsettles.unary hk hs⟩
  | right hm hk hs hl hn _ ih =>
    obtain ⟨more, -, hmore, hsettles⟩ := ih hd
    refine ⟨more, by simp, hmore, ?_⟩
    rw [List.append_assoc, List.cons_append]
    exact hsettles.right hm hk hs hl hn
  | value hd' hn hq _ ih =>
    obtain ⟨more, -, hmore, hsettles⟩ := ih hd
    refine ⟨more, by simp, hmore, ?_⟩
    rw [List.append_assoc, List.cons_append]
    exact hsettles.value hd' hn hq
  | tighter hm _ ih =>
    obtain ⟨more, hne, hmore, hsettles⟩ := ih hd
    exact ⟨more, hne, hmore, hsettles.tighter hm⟩

theorem FailsClause.completed {expectation : String} (h : FailsClause next room expectation ts d)
    (hd : d.complaint.isMisplaced) :
    ∃ more, ts ++ more ≠ [] ∧ (∀ t ∈ ts ++ more, t.kind.inExpression) ∧
      Settles room .assignment (ts ++ more) := by
  cases h with
  | inside hf =>
    obtain ⟨more, hne, hmore, hsettles⟩ := hf.completed hd
    exact ⟨more, hne, List.forall_mem_append.mpr ⟨hf.inExpression, hmore⟩, hsettles⟩
  | unclosed hd' hn _ _ =>
    refine ⟨[], ?_⟩
    rw [List.append_nil]
    obtain ⟨t, us, rfl, -⟩ := hd'.head
    exact ⟨by simp, hd'.inExpression, .of_derives hd' hn⟩

end Expressions

namespace TokenKind

variable {kind : TokenKind}

theorem startsStatement_of_inExpression (h : kind.inExpression) : kind.startsStatement = false := by
  unfold inExpression at h
  split at h <;> simp_all [startsStatement, Keyword.startsStatement]

theorem leadsStatement_of_inExpression (h : kind.inExpression) : kind.leadsStatement = false := by
  unfold inExpression at h
  split at h <;> simp_all [leadsStatement]

theorem endsBlock_of_inExpression (h : kind.inExpression) : Statement.endsBlock kind = false := by
  unfold inExpression at h
  split at h <;> simp_all [Statement.endsBlock]

end TokenKind

namespace Statement

variable {room : Nat} {ts : List Token}

theorem peek_append_of_opens (h : endsBlock (Token.peek ts).kind = false) (more : List Token) :
    Token.peek (ts ++ more) = Token.peek ts := by
  cases ts with
  | nil => cases h
  | cons t ts => rfl

theorem Yields.block {l r : Token} {us : List Token} {ss ss' : List Statement} {ds : List Diagnostic}
    (h : Yields (parseOne room) ts ss' ds) (hopens : endsBlock (Token.peek ts).kind = false)
    (hl : l.kind = .symbol .leftBrace) (hrow : Row DerivesDeclaration us ss) (hn : nestingAll ss ≤ room)
    (hr : r.kind = .symbol .rightBrace) :
    Yields (parseOne (room + 1)) (l :: us ++ ts ++ [r]) [.block (ss ++ ss') l.line] ds := by
  have hbody (more : List Token) :
      (parseAll endsBlock (parseOne room) (us ++ (ts ++ r :: more))).statements = ss ++ ss' ∧
        (parseAll endsBlock (parseOne room) (us ++ (ts ++ r :: more))).diagnostics = ds ∧
        (parseAll endsBlock (parseOne room) (us ++ (ts ++ r :: more))).rest = r :: more := by
    have hstop : endsBlock (Token.peek (r :: more)).kind := by
      rw [Token.peek_cons, hr]
      rfl
    have hhead : endsBlock (Token.peek (ts ++ r :: more)).kind = false := by
      rwa [peek_append_of_opens hopens]
    obtain ⟨hss, hds, hrest⟩ := parseAll_row rfl (fun _ h => h) hrow hn (ts ++ r :: more)
    obtain ⟨hss', hds', hrest'⟩ := h.parseAll_append (parseOne_advances room) endsBlock rfl hhead
    rw [parseAll_stop hstop] at hss' hds' hrest'
    rw [hss, hds, hrest, hss', hds', hrest']
    exact ⟨congrArg _ (List.append_nil _), List.append_nil _, rfl⟩
  have hone (more : List Token) : parseOne (room + 1) (l :: us ++ ts ++ [r] ++ more) =
      .ofAttempt ⟨.ok (.block (ss ++ ss') l.line),
        (parseAll endsBlock (parseOne room) (us ++ (ts ++ r :: more))).records, more⟩ := by
    obtain ⟨hss, -, hrest⟩ := hbody more
    have hts : l :: us ++ ts ++ [r] ++ more = l :: (us ++ (ts ++ r :: more)) := by simp
    rw [hts, parseOne_eq, attempt_block hl, ← hss]
    exact congrArg Parsed.ofAttempt (attemptBlock_of_close hr hrest)
  refine ⟨fun more => ?_, fun more => ?_, fun more => ?_⟩
  · rw [hone]
    rfl
  · rw [hone, Parsed.diagnostics_of_ok rfl]
    exact (hbody more).2.1
  · rw [hone]
    rfl

structure Completed (room : Nat) (ts : List Token) : Prop where
  opens : endsBlock (Token.peek ts).kind = false
  yields : ∃ ss ds, Yields (parseOne room) ts ss ds ∧ ∀ d ∈ ds, d.complaint.isInvalidTarget

namespace Completed

theorem of_derives {s : Statement} (h : DerivesDeclaration ts s) (hn : s.nesting ≤ room) :
    Completed room ts := by
  obtain ⟨t, us, rfl, ht⟩ := h.head
  exact ⟨ht, _, _, yields_of_derives h hn, List.forall_mem_nil _⟩

theorem of_settles {start : List Token} (hin : ∀ t ∈ ts, t.kind.inExpression)
    (hs : Settles room .assignment ts)
    (hopens : endsBlock (Token.peek (start ++ ts ++ [.semicolon])).kind = false)
    (hderives : ∀ e, Derives .assignment ts e → e.nesting ≤ room →
      ∃ s, DerivesDeclaration (start ++ ts ++ [.semicolon]) s ∧ s.nesting ≤ room)
    (hfails : ∀ used left d, ts = used ++ left →
      Fails (Token.peek (left ++ [.semicolon])) room .assignment used d →
      FailsSimple (Token.peek (left ++ [.semicolon])) room (start ++ used) d) :
    Completed room (start ++ ts ++ [.semicolon]) := by
  rcases hs .semicolon (.of_symbol rfl (by decide)) with ⟨e, hd, hn⟩ | ⟨used, left, q, rfl, hf⟩
  · obtain ⟨s, hd, hn⟩ := hderives e hd hn
    exact .of_derives hd hn
  · -- what is left over is skipped up to the semicolon
    have hleft : ∀ t ∈ left, t.kind.inExpression := fun t ht => hin t (by simp [ht])
    have hyields := yields_of_fails (q := .semicolon) rfl (hfails used left _ rfl hf)
      (fun t ht => TokenKind.ne_of_inExpression (hleft t ht))
      (fun t ht => TokenKind.startsStatement_of_inExpression (hleft t (List.mem_of_mem_tail ht)))
    rw [List.append_assoc start] at hyields
    exact ⟨hopens, _, _, hyields, List.forall_mem_singleton.mpr rfl⟩

theorem declaration {v x i : Token} (hv : v.kind = .keyword .var) (hx : x.kind = .identifier)
    (hi : i.kind = .symbol .equal) (hin : ∀ t ∈ ts, t.kind.inExpression) (hs : Settles room .assignment ts) :
    Completed room ([v, x, i] ++ ts ++ [.semicolon]) := by
  refine .of_settles hin hs ?_ (fun e hd hn => ⟨_, .init hv hx hi hd rfl, hn⟩) ?_
  · change endsBlock v.kind = false
    rw [hv]
    rfl
  · intro used left d _ hf
    exact .initial hv hx hi (.inside hf)

theorem print {p : Token} (hp : p.kind = .keyword .print) (hin : ∀ t ∈ ts, t.kind.inExpression)
    (hs : Settles room .assignment ts) : Completed room ([p] ++ ts ++ [.semicolon]) := by
  refine .of_settles hin hs ?_ (fun e hd hn => ⟨_, .statement (.print hp hd rfl), hn⟩) ?_
  · change endsBlock p.kind = false
    rw [hp]
    rfl
  · intro used left d _ hf
    exact .print hp (.inside hf)

theorem expression (hne : ts ≠ []) (hin : ∀ t ∈ ts, t.kind.inExpression)
    (hs : Settles room .assignment ts) : Completed room ([] ++ ts ++ [.semicolon]) := by
  obtain ⟨t, us, rfl⟩ := List.exists_cons_of_ne_nil hne
  have ht := hin t (by simp)
  refine .of_settles hin hs (TokenKind.endsBlock_of_inExpression ht)
    (fun e hd hn => ⟨_, .statement (.expression hd rfl), hn⟩) ?_
  intro used left d hts hf
  refine .expression ?_ (.inside hf)
  rw [Token.peek_append_singleton, List.nil_append, ← List.append_assoc, ← hts]
  exact TokenKind.leadsStatement_of_inExpression ht

theorem block {l : Token} {us : List Token} {ss : List Statement} (hl : l.kind = .symbol .leftBrace)
    (hrow : Row DerivesDeclaration us ss) (hn : nestingAll ss ≤ room) (h : Completed room ts) :
    Completed (room + 1) (l :: us ++ ts ++ [.rightBrace]) := by
  obtain ⟨hopens, ss', ds, hyields, hds⟩ := h
  refine ⟨?_, _, _, hyields.block hopens hl hrow hn rfl, hds⟩
  change endsBlock l.kind = false
  rw [hl]
  rfl

end Completed

end Statement

open Statement

section Statements

variable {next : Token} {room : Nat} {ts : List Token} {d : Diagnostic}

theorem FailsSimple.completed (h : FailsSimple next room ts d) (hd : d.complaint.isMisplaced) :
    ∃ more, Completed room (ts ++ more) := by
  cases h with
  | unnamed hv _ => exact ⟨[.name, .semicolon], .of_derives (.var hv rfl rfl) (Nat.zero_le _)⟩
  | bare hv hx _ _ => exact ⟨[.semicolon], .of_derives (.var hv hx rfl) (Nat.zero_le _)⟩
  | initial hv hx hi hf =>
    obtain ⟨more, -, hin, hs⟩ := hf.completed hd
    exact ⟨more ++ [.semicolon], by simpa using Completed.declaration hv hx hi hin hs⟩
  | print hp hf =>
    obtain ⟨more, -, hin, hs⟩ := hf.completed hd
    exact ⟨more ++ [.semicolon], by simpa using Completed.print hp hin hs⟩
  | expression _ hf =>
    obtain ⟨more, hne, hin, hs⟩ := hf.completed hd
    exact ⟨more ++ [.semicolon], by simpa using Completed.expression hne hin hs⟩

theorem FailsFirst.completed (h : FailsFirst next room ts d) (hd : d.complaint.isMisplaced) :
    ∃ more, Completed room (ts ++ more) := by
  induction h with
  | simple hf => exact hf.completed hd
  | tooDeep => cases hd
  | unclosed hl hrow hn _ =>
    exact ⟨[.rightBrace], .of_derives (.statement (.block hl hrow rfl)) (Nat.succ_le_succ hn)⟩
  | inside hl hrow hn _ _ ih =>
    obtain ⟨more, hmore⟩ := ih hd
    exact ⟨more ++ [.rightBrace], by simpa using hmore.block hl hrow hn⟩

theorem Breaks.completed (h : Breaks next ts d) (hd : d.complaint.isMisplaced) :
    ∃ more, ∀ d ∈ (parse (ts ++ more)).diagnostics, d.complaint.isInvalidTarget := by
  cases h with
  | @intro us ts ss _ hrow hn _ hf =>
    obtain ⟨more, hopens, ss', ds, hyields, hds⟩ := hf.completed hd
    refine ⟨more ++ [.endOfInput 0], ?_⟩
    obtain ⟨-, hrow⟩ := parse_row hrow hn (ts ++ more ++ [.endOfInput 0])
    have hhead : (Token.peek (ts ++ more ++ [.endOfInput 0])).kind ≠ .endOfInput := by
      rw [peek_append_of_opens hopens]
      intro hk
      rw [hk] at hopens
      cases hopens
    have hend : parse [.endOfInput 0] = .nothing [.endOfInput 0] := parse_end rfl
    obtain ⟨-, hrest⟩ := hyields.parse_append hhead
    rw [hend] at hrest
    have hdiagnostics := hrest.trans (List.append_nil ds)
    have hlist : us ++ ts ++ (more ++ [.endOfInput 0]) = us ++ (ts ++ more ++ [.endOfInput 0]) := by simp
    rw [hlist, hrow, hdiagnostics]
    exact hds

end Statements

end Treewalk
