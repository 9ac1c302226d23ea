import Treewalk.Proofs.Grammar.Recovery
import Treewalk.Proofs.Lines

namespace Treewalk

variable {f : Nat → Nat}

section Derivations

variable {n : Nonterminal} {room : Nat} {ts : List Token} {next : Token} {e : Expr} {d : Diagnostic}

theorem Constant.mapLine {t : Token} {v : Value} (h : Constant t v) : Constant (t.mapLine f) v := by
  cases h with
  | number hk hl => exact .number hk hl
  | string hk hl => exact .string hk hl
  | yes hk => exact .yes hk
  | no hk => exact .no hk
  | nil hk => exact .nil hk

theorem Constant.of_mapLine {t : Token} {v : Value} (h : Constant (t.mapLine f) v) : Constant t v :=
  h.mapLine (f := fun _ => t.line)

theorem Token.StartsPrimary.of_mapLine {t : Token} (h : (t.mapLine f).StartsPrimary) : t.StartsPrimary := by
  rcases h with ⟨v, hv⟩ | hk
  · exact .inl ⟨v, hv.of_mapLine⟩
  · exact .inr hk

theorem Derives.mapLines (h : Derives n ts e) : Derives n (ts.map (Token.mapLine f)) (e.mapLines f) := by
  induction h with
  | constant hc => exact .constant hc.mapLine
  | @name x hx => exact .name (x := x.mapLine f) hx
  | @group l r ts e hl _ hr ih =>
    simp only [List.map_cons, List.map_append, List.map_nil]
    exact .group hl ih hr
  | unary hk hs _ ih => exact .unary hk hs ih
  | @binary n m t s op ts us l r hm hk hs _ _ ihl ihr =>
    simp only [List.map_cons, List.map_append]
    exact .binary hm hk hs ihl ihr
  | @assign x q ts e hx hq _ ih => exact .assign (x := x.mapLine f) hx hq ih
  | tighter hm _ ih => exact .tighter hm ih

theorem Fails.mapLines (h : Fails next room n ts d) :
    Fails (next.mapLine f) room n (ts.map (Token.mapLine f)) (d.mapLine f) := by
  induction h with
  | missing hs hu => exact .missing (fun h => hs h.of_mapLine) hu
  | groupTooDeep hk => exact .groupTooDeep hk
  | inGroup hl _ ih => exact .inGroup hl ih
  | unclosed hl hd hn he hk => exact .unclosed hl hd.mapLines (by rwa [Expr.nesting_mapLines]) he hk
  | unaryTooDeep hk hs => exact .unaryTooDeep hk hs
  | inUnary hk hs _ ih => exact .inUnary hk hs ih
  | right hm hk hs hl hn _ ih =>
    rw [List.map_append, List.map_cons]
    exact .right hm hk hs hl.mapLines (by rwa [Expr.nesting_mapLines]) ih
  | assignTooDeep hd hn hq =>
    rw [List.map_append, List.map_cons, List.map_nil]
    exact .assignTooDeep hd.mapLines (by rwa [Expr.nesting_mapLines]) hq
  | value hd hn hq _ ih =>
    rw [List.map_append, List.map_cons]
    exact .value hd.mapLines (by rwa [Expr.nesting_mapLines]) hq ih
  | target hd hn hv hq hd' hn' he =>
    rw [List.map_append, List.map_cons]
    refine .target hd.mapLines (by rwa [Expr.nesting_mapLines]) (fun name line heq => ?_) hq hd'.mapLines
      (by rwa [Expr.nesting_mapLines]) he
    obtain ⟨line', rfl⟩ := Expr.mapLines_eq_variable heq
    exact hv name line' rfl
  | tighter hm _ ih => exact .tighter hm ih

theorem FailsClause.mapLines {expectation : String} (h : FailsClause next room expectation ts d) :
    FailsClause (next.mapLine f) room expectation (ts.map (Token.mapLine f)) (d.mapLine f) := by
  cases h with
  | inside hf => exact .inside hf.mapLines
  | unclosed hd hn he hk => exact .unclosed hd.mapLines (by rwa [Expr.nesting_mapLines]) he hk

theorem Token.kind_peek_map_append (ts : List Token) (next : Token) :
    (peek (ts.map (mapLine f) ++ [next.mapLine f])).kind = (peek (ts ++ [next])).kind := by
  have hmap : ts.map (mapLine f) ++ [next.mapLine f] = (ts ++ [next]).map (mapLine f) := by simp
  rw [hmap, kind_peek_map]

theorem FailsSimple.mapLines (h : FailsSimple next room ts d) :
    FailsSimple (next.mapLine f) room (ts.map (Token.mapLine f)) (d.mapLine f) := by
  cases h with
  | unnamed hv hk => exact .unnamed hv hk
  | bare hv hx hk hk' => exact .bare hv hx hk hk'
  | initial hv hx hi hf => exact .initial hv hx hi hf.mapLines
  | print hp hf => exact .print hp hf.mapLines
  | expression hk hf =>
    refine .expression ?_ hf.mapLines
    rwa [Token.kind_peek_map_append]

mutual

theorem DerivesDeclaration.mapLines {ts : List Token} {s : Statement} :
    DerivesDeclaration ts s → DerivesDeclaration (ts.map (Token.mapLine f)) (s.mapLines f)
  | @DerivesDeclaration.var v x q hv hx hq => .var (x := x.mapLine f) hv hx hq
  | @DerivesDeclaration.init v x i q ts e hv hx hi hd hq => by
    simp only [List.map_append, List.map_cons, List.map_nil]
    exact .init (x := x.mapLine f) hv hx hi hd.mapLines hq
  | .statement h => .statement h.mapLines

theorem DerivesStatement.mapLines {ts : List Token} {s : Statement} :
    DerivesStatement ts s → DerivesStatement (ts.map (Token.mapLine f)) (s.mapLines f)
  | @DerivesStatement.print p q ts e hp hd hq => by
    simp only [List.map_append, List.map_cons, List.map_nil]
    exact .print hp hd.mapLines hq
  | @DerivesStatement.block l r ts body hl hrow hr => by
    simp only [List.map_append, List.map_cons, List.map_nil]
    exact .block hl (Row.mapLines hrow) hr
  | @DerivesStatement.expression t q ts e hd hq => by
    simp only [List.map_append, List.map_cons, List.map_nil]
    exact .expression hd.mapLines hq

theorem Row.mapLines {ts : List Token} {ss : List Statement} : Row DerivesDeclaration ts ss →
    Row DerivesDeclaration (ts.map (Token.mapLine f)) (Statement.mapLinesAll f ss)
  | .nil => .nil
  | .cons hd hrow => by
    rw [List.map_append]
    exact .cons hd.mapLines (Row.mapLines hrow)

end

end Derivations

namespace Token

def Ended (ts : List Token) : Prop :=
  ∃ t ∈ ts, t.kind = .endOfInput

theorem Ended.ne_nil {ts : List Token} (h : Ended ts) : ts ≠ [] := by
  obtain ⟨t, ht, -⟩ := h
  exact List.ne_nil_of_mem ht

theorem Leaves.ended {ts rest : List Token} (h : Leaves ts rest) (hts : Ended ts) : Ended rest := by
  obtain ⟨used, rfl, hb⟩ := h
  obtain ⟨t, ht, hk⟩ := hts
  rcases List.mem_append.mp ht with hused | hrest
  · exact absurd hk (hb t hused)
  · exact ⟨t, hrest, hk⟩

theorem Terminated.ended {ts : List Token} (h : Terminated ts) : Ended ts := by
  obtain ⟨us, q, rfl, hq, -⟩ := h
  exact ⟨q, by simp, hq⟩

end Token

namespace Statement

theorem skip_map (ts : List Token) : skip (ts.map (Token.mapLine f)) = (skip ts).map (Token.mapLine f) := by
  induction ts with
  | nil => rfl
  | cons t ts ih =>
    simp only [List.map_cons, skip, Token.kind_mapLine, Token.kind_peek_map, ih]
    split <;> rfl

theorem resume_map (ts : List Token) :
    resume (ts.map (Token.mapLine f)) = (resume ts).map (Token.mapLine f) := by
  simp only [resume, Token.kind_peek_map, skip_map]
  split <;> rfl

structure Attempt.Relined (f : Nat → Nat) (a b : Attempt) : Prop where
  result : b.result = (a.result.map (mapLines f)).mapError (Diagnostic.mapLine f)
  diagnostics : diagnosticsOf b.records = (diagnosticsOf a.records).map (Diagnostic.mapLine f)
  rest : b.rest = a.rest.map (Token.mapLine f)

structure Parsed.Relined (f : Nat → Nat) (p q : Parsed) : Prop where
  statements : q.statements = p.statements.map (mapLines f)
  diagnostics : q.diagnostics = p.diagnostics.map (Diagnostic.mapLine f)
  rest : q.rest = p.rest.map (Token.mapLine f)

namespace Parsed.Relined

theorem nothing (ts : List Token) : Relined f (.nothing ts) (.nothing (ts.map (Token.mapLine f))) :=
  ⟨rfl, rfl, rfl⟩

theorem append {p p' q q' : Parsed} (h : Relined f p q) (h' : Relined f p' q') :
    Relined f (p.append p') (q.append q') where
  statements := by
    simp only [Parsed.append, h.statements, h'.statements, List.map_append]
  diagnostics := by
    rw [diagnostics_append, diagnostics_append, h.diagnostics, h'.diagnostics, List.map_append]
  rest := h'.rest

theorem ofAttempt {a b : Attempt} (h : a.Relined f b) : Relined f (.ofAttempt a) (.ofAttempt b) := by
  cases hr : a.result with
  | ok s =>
    have hb : b.result = .ok (s.mapLines f) := by
      rw [h.result, hr]
      rfl
    refine ⟨?_, ?_, ?_⟩
    · rw [ofAttempt_of_ok hr, ofAttempt_of_ok hb]
      rfl
    · rw [diagnostics_of_ok hr, diagnostics_of_ok hb, h.diagnostics]
    · rw [ofAttempt_of_ok hr, ofAttempt_of_ok hb]
      exact h.rest
  | error d =>
    have hb : b.result = .error (d.mapLine f) := by
      rw [h.result, hr]
      rfl
    refine ⟨?_, ?_, ?_⟩
    · rw [ofAttempt_of_error hr, ofAttempt_of_error hb]
      rfl
    · rw [diagnostics_of_error hr, diagnostics_of_error hb, h.diagnostics]
      simp
    · rw [ofAttempt_of_error hr, ofAttempt_of_error hb, h.rest]
      exact resume_map a.rest

end Parsed.Relined

def Relines (f : Nat → Nat) (one : List Token → Parsed) : Prop :=
  ∀ ts, Token.Ended ts → (one ts).Relined f (one (ts.map (Token.mapLine f)))

section Many

variable {stop : TokenKind → Bool} {one : List Token → Parsed} {ts : List Token}

theorem parseMany_relined (ha : Advances one) (ho : Relines f one) (fuel : Nat) (hts : Token.Ended ts) :
    (parseMany stop one fuel ts).Relined f (parseMany stop one fuel (ts.map (Token.mapLine f))) := by
  induction fuel generalizing ts with
  | zero => exact .nothing ts
  | succ fuel ih =>
    cases hs : stop (Token.peek ts).kind with
    | true =>
      rw [parseMany_stop hs, parseMany_stop (by rwa [Token.kind_peek_map])]
      exact .nothing ts
    | false =>
      rw [parseMany_step hs, parseMany_step (by rwa [Token.kind_peek_map]), (ho ts hts).rest]
      exact (ho ts hts).append (ih ((ha.leaves ts).ended hts))

theorem parseAll_relined (ha : Advances one) (ho : Relines f one) (hts : Token.Ended ts) :
    (parseAll stop one ts).Relined f (parseAll stop one (ts.map (Token.mapLine f))) := by
  unfold parseAll
  rw [List.length_map]
  exact parseMany_relined ha ho _ hts

end Many

section One

variable {inner : Option (List Token → Parsed)} {ts : List Token}

theorem attemptBlock_relined (hin : ∀ one, inner = some one → Advances one ∧ Relines f one) (l : Token)
    (hts : Token.Ended ts) :
    (attemptBlock inner l ts).Relined f
      (attemptBlock inner (l.mapLine f) (ts.map (Token.mapLine f))) := by
  cases inner with
  | none => exact ⟨rfl, rfl, rfl⟩
  | some one =>
    obtain ⟨ha, ho⟩ := hin one rfl
    have hbody : (parseAll endsBlock one ts).Relined f _ := parseAll_relined ha ho hts
    have hpeek : (Token.peek (parseAll endsBlock one (ts.map (Token.mapLine f))).rest).kind =
        (Token.peek (parseAll endsBlock one ts).rest).kind := by
      rw [hbody.rest, Token.kind_peek_map]
    by_cases hk : (Token.peek (parseAll endsBlock one ts).rest).kind = .symbol .rightBrace
    · rw [attemptBlock_of_close hk (Token.eq_cons_of_peek_kind (by simp) hk),
        attemptBlock_of_close (hpeek.trans hk) (Token.eq_cons_of_peek_kind (by simp) (hpeek.trans hk))]
      refine ⟨?_, hbody.diagnostics, ?_⟩
      · rw [hbody.statements, ← mapLinesAll_eq_map]
        rfl
      · dsimp only
        rw [hbody.rest, List.map_tail]
    · have hrest : (parseAll endsBlock one ts).rest ≠ [] :=
        ((parseMany_leaves ha _).ended hts).ne_nil
      rw [attemptBlock_unclosed hk, attemptBlock_unclosed (by rwa [hpeek])]
      refine ⟨?_, hbody.diagnostics, hbody.rest⟩
      rw [hbody.rest, Token.peek_map hrest]
      rfl

theorem attempt_relined (room : Nat)
    (hin : ∀ one, oneWithin room = some one → Advances one ∧ Relines f one) (hts : Token.Ended ts) :
    (attempt (.ofRoom room) (oneWithin room) ts).Relined f
      (attempt (.ofRoom room) (oneWithin room) (ts.map (Token.mapLine f))) := by
  by_cases hl : (Token.peek ts).kind = .symbol .leftBrace
  · have htail : Token.Ended ts.tail := (Token.leaves_tail (by simp [hl])).ended hts
    rw [attempt_brace hl, attempt_brace (by rwa [Token.kind_peek_map]), Token.peek_map hts.ne_nil,
      ← List.map_tail]
    exact attemptBlock_relined hin _ htail
  · cases hr : (attempt (.ofRoom room) (oneWithin room) ts).result with
    | ok s =>
      obtain ⟨rest, ⟨used, hused, hd, hn, -⟩, heq⟩ := attempt_ok hl hr
      rw [← nesting_mapLines (f := f)] at hn
      obtain ⟨records, hds, hmap⟩ : ∃ records, diagnosticsOf records = [] ∧
          attempt (.ofRoom room) (oneWithin room) (used.map (Token.mapLine f) ++ rest.map (Token.mapLine f)) =
            ⟨.ok (s.mapLines f), records, rest.map (Token.mapLine f)⟩ :=
        attempt_complete (fun k _ => parseOne_complete k) hd.mapLines hn
      rw [heq, hused, List.map_append, hmap]
      exact ⟨rfl, hds, rfl⟩
    | error d =>
      obtain ⟨used, rest, hused, hf, heq⟩ := attempt_error hl hr
      have hrest : Token.Ended rest := by
        refine Token.Leaves.ended ⟨used, hused, fun t ht => ?_⟩ hts
        exact (hf.plain t ht).2
      have hmap := hf.mapLines (f := f)
      rw [← Token.peek_map hrest.ne_nil] at hmap
      rw [heq, hused, List.map_append, attempt_of_fails hmap]
      exact ⟨rfl, rfl, rfl⟩

theorem parseOne_relines (f : Nat → Nat) (room : Nat) : Relines f (parseOne room) := by
  induction room with
  | zero =>
    intro ts hts
    exact .ofAttempt (attempt_relined 0 nofun hts)
  | succ room ih =>
    intro ts hts
    refine .ofAttempt (attempt_relined (room + 1) (fun one hone => ?_) hts)
    cases hone
    exact ⟨parseOne_advances room, ih⟩

theorem parse_relined (f : Nat → Nat) (hts : Token.Ended ts) :
    (parse ts).Relined f (parse (ts.map (Token.mapLine f))) :=
  parseAll_relined (parseOne_advances maxNesting) (parseOne_relines f maxNesting) hts

end One

end Statement

end Treewalk
