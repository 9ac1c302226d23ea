import Treewalk.Program
import Treewalk.Proofs.Grammar.Recovery

namespace Treewalk

structure Diagnostic.Concerns (d : Diagnostic) (t : Token) : Prop where
  location : d.complaint.location = some (.ofToken t)
  line : d.line = t.line

def Diagnostic.Before (d d' : Diagnostic) : Prop :=
  d.line ≤ d'.line ∧
    (d.line = d'.line → d.complaint.location = some .endOfInput ∧ d'.complaint.location = some .endOfInput)

section Blame

variable {next : Token} {room : Nat} {ts : List Token} {d : Diagnostic}

theorem Fails.concerns {n : Nonterminal} (h : Fails next room n ts d) : ∃ t ∈ ts ++ [next], d.Concerns t := by
  have nextOne {us : List Token} {c : Location → Complaint} (hc : ∀ l, (c l).location = some l) :
      ∃ t ∈ us ++ [next], (Diagnostic.about next c).Concerns t := ⟨next, by simp, hc _, rfl⟩
  induction h with
  | missing | groupTooDeep | unaryTooDeep => exact nextOne fun _ => rfl
  | unclosed => exact nextOne fun _ => rfl
  | inGroup _ _ ih | inUnary _ _ _ ih =>
    obtain ⟨t, ht, hd⟩ := ih
    exact ⟨t, List.mem_cons_of_mem _ ht, hd⟩
  | right _ _ _ _ _ _ ih | value _ _ _ _ ih =>
    obtain ⟨t, ht, hd⟩ := ih
    refine ⟨t, ?_, hd⟩
    rw [List.append_assoc]
    exact List.mem_append_right _ (List.mem_cons_of_mem _ ht)
  | assignTooDeep | target => exact ⟨_, by simp, rfl, rfl⟩
  | tighter _ _ ih => exact ih

theorem FailsClause.concerns {expectation : String} (h : FailsClause next room expectation ts d) :
    ∃ t ∈ ts ++ [next], d.Concerns t := by
  cases h with
  | inside hf => exact hf.concerns
  | unclosed => exact ⟨next, by simp, rfl, rfl⟩

theorem FailsSimple.concerns (h : FailsSimple next room ts d) : ∃ t ∈ ts ++ [next], d.Concerns t := by
  cases h with
  | unnamed | bare => exact ⟨next, by simp, rfl, rfl⟩
  | initial _ _ _ hf =>
    obtain ⟨t, ht, hd⟩ := hf.concerns
    exact ⟨t, List.mem_cons_of_mem _ (List.mem_cons_of_mem _ (List.mem_cons_of_mem _ ht)), hd⟩
  | print _ hf =>
    obtain ⟨t, ht, hd⟩ := hf.concerns
    exact ⟨t, List.mem_cons_of_mem _ ht, hd⟩
  | expression _ hf => exact hf.concerns

end Blame

-- The diagnostics concern tokens in their order, and none of them twice. What concerns the next token comes last;
-- only the end of input can be reported and still be left.
inductive Blames (next : Token) : List Token → List Diagnostic → Prop
  | done {ds : List Diagnostic} : (∀ d ∈ ds, next.kind = .endOfInput ∧ d.Concerns next) → Blames next [] ds
  | pass {t : Token} {used : List Token} {ds : List Diagnostic} :
      t.kind ≠ .endOfInput → Blames next used ds → Blames next (t :: used) ds
  | blame {t : Token} {used : List Token} {d : Diagnostic} {ds : List Diagnostic} :
      t.kind ≠ .endOfInput → d.Concerns t → Blames next used ds → Blames next (t :: used) (d :: ds)

namespace Blames

variable {next t : Token} {used used' rest : List Token} {d : Diagnostic} {ds ds' : List Diagnostic}

theorem silent (hb : Token.BeforeEnd used) : Blames next used [] := by
  induction used with
  | nil => exact .done (List.forall_mem_nil _)
  | cons t used ih =>
    obtain ⟨ht, hused⟩ := List.forall_mem_cons.mp hb
    exact .pass ht (ih hused)

theorem single (hb : Token.BeforeEnd used) (ht : t ∈ used) (hd : d.Concerns t) : Blames next used [d] := by
  induction used with
  | nil => cases ht
  | cons u used ih =>
    obtain ⟨hu, hused⟩ := List.forall_mem_cons.mp hb
    rcases List.mem_cons.mp ht with rfl | ht
    · exact .blame hu hd (.silent hused)
    · exact .pass hu (ih hused ht)

theorem append (h : Blames (Token.peek (used' ++ rest)) used ds) (h' : Blames (Token.peek rest) used' ds') :
    Blames (Token.peek rest) (used ++ used') (ds ++ ds') := by
  generalize hnext : Token.peek (used' ++ rest) = next at h
  induction h with
  | @done ds hds =>
    subst hnext
    have hclean {t : Token} {us : List Token} (heq : used' = t :: us) (ht : t.kind ≠ .endOfInput) : ds = [] := by
      subst heq
      exact List.eq_nil_iff_forall_not_mem.mpr fun d hd => ht (hds d hd).1
    cases h' with
    | done hds' => exact .done (List.forall_mem_append.mpr ⟨hds, hds'⟩)
    | pass ht h' =>
      obtain rfl := hclean rfl ht
      exact .pass ht h'
    | blame ht hd h' =>
      obtain rfl := hclean rfl ht
      exact .blame ht hd h'
  | pass ht _ ih => exact .pass ht ih
  | blame ht hd _ ih => exact .blame ht hd ih

theorem beforeEnd (h : Blames next used ds) : Token.BeforeEnd used := by
  induction h with
  | done => exact List.forall_mem_nil _
  | pass ht _ ih | blame ht _ _ ih => exact List.forall_mem_cons.mpr ⟨ht, ih⟩

theorem concerns (h : Blames next used ds) : ∀ d ∈ ds, ∃ t ∈ used ++ [next], d.Concerns t := by
  have later {t : Token} {used : List Token} {d : Diagnostic} :
      (∃ t ∈ used ++ [next], d.Concerns t) → ∃ t' ∈ t :: used ++ [next], d.Concerns t' :=
    fun ⟨t', ht', hd⟩ => ⟨t', List.mem_cons_of_mem _ ht', hd⟩
  induction h with
  | done hds => exact fun d hd => ⟨next, List.mem_singleton_self _, (hds d hd).2⟩
  | pass _ _ ih => exact fun d hd => later (ih d hd)
  | blame _ hd _ ih =>
    exact List.forall_mem_cons.mpr ⟨⟨_, List.mem_cons_self, hd⟩, fun d hd => later (ih d hd)⟩

theorem related {R : Token → Token → Prop} (h : Blames next used ds) (hused : (used ++ [next]).Pairwise R)
    (hnext : next.kind = .endOfInput → R next next) :
    ds.Pairwise fun d d' => ∃ t t', d.Concerns t ∧ d'.Concerns t' ∧ R t t' := by
  induction h with
  | done hds =>
    refine List.pairwise_of_forall_mem_list fun d hd d' hd' => ?_
    obtain ⟨hend, hc⟩ := hds d hd
    exact ⟨next, next, hc, (hds d' hd').2, hnext hend⟩
  | pass _ _ ih => exact ih (List.pairwise_cons.mp hused).2
  | blame _ hd h ih =>
    obtain ⟨hfirst, hused⟩ := List.pairwise_cons.mp hused
    refine .cons (fun d' hd' => ?_) (ih hused)
    obtain ⟨t', ht', hc⟩ := h.concerns d' hd'
    exact ⟨_, t', hd, hc, hfirst t' ht'⟩

theorem pairwise (h : Blames next used ds) (hlines : (used ++ [next]).Pairwise (·.line < ·.line)) :
    ds.Pairwise Diagnostic.Before := by
  have related := h.related (R := fun t t' => t.line < t'.line ∨ t = t' ∧ t.kind = .endOfInput) (hlines.imp .inl)
    fun hend => .inr ⟨rfl, hend⟩
  refine related.imp ?_
  rintro d d' ⟨t, t', hd, hd', hlt | ⟨rfl, hend⟩⟩
  · rw [← hd.line, ← hd'.line] at hlt
    exact ⟨Nat.le_of_lt hlt, fun heq => absurd heq (Nat.ne_of_lt hlt)⟩
  · have hlocation : Location.ofToken t = .endOfInput := if_pos hend
    have hatEnd := And.intro hd.location hd'.location
    rw [hlocation] at hatEnd
    exact ⟨Nat.le_of_eq (hd.line.trans hd'.line.symm), fun _ => hatEnd⟩

theorem lines_le (h : Blames next used ds) (hlines : (used ++ [next]).Pairwise (·.line ≤ ·.line)) :
    ds.Pairwise (·.line ≤ ·.line) := by
  refine (h.related hlines fun _ => Nat.le_refl _).imp ?_
  rintro d d' ⟨t, t', hd, hd', hle⟩
  rwa [hd.line, hd'.line]

end Blames

namespace Statement

structure Reports (ts : List Token) (p : Parsed) : Prop where
  blames : ∃ used, ts = used ++ p.rest ∧ Blames (Token.peek p.rest) used p.diagnostics
  count : p.diagnostics.length + p.rest.length ≤ ts.length

namespace Reports

variable {ts : List Token} {p q : Parsed}

theorem nothing (ts : List Token) : Reports ts (.nothing ts) where
  blames := ⟨[], rfl, .done (List.forall_mem_nil _)⟩
  count := Nat.le_of_eq (Nat.zero_add _)

theorem append (h : Reports ts p) (h' : Reports p.rest q) : Reports ts (p.append q) := by
  obtain ⟨⟨used, hts, hp⟩, hcount⟩ := h
  obtain ⟨⟨used', hrest, hq⟩, hcount'⟩ := h'
  rw [hrest] at hp
  refine ⟨⟨used ++ used', ?_, ?_⟩, ?_⟩
  · rw [List.append_assoc, hts, hrest]
    rfl
  · rw [Parsed.diagnostics_append]
    exact hp.append hq
  · rw [Parsed.diagnostics_append, List.length_append]
    change _ + q.rest.length ≤ _
    omega

end Reports

section

variable {stop : TokenKind → Bool} {one : List Token → Parsed}

theorem parseMany_reports (hone : ∀ ts, (Token.peek ts).kind ≠ .endOfInput → Reports ts (one ts))
    (hstop : stop .endOfInput) (fuel : Nat) (ts : List Token) : Reports ts (parseMany stop one fuel ts) := by
  induction fuel generalizing ts with
  | zero => exact .nothing ts
  | succ fuel ih =>
    cases hs : stop (Token.peek ts).kind with
    | true =>
      rw [parseMany_stop hs]
      exact .nothing ts
    | false =>
      rw [parseMany_step hs]
      exact (hone ts (kind_ne_end_of_not_stop hstop hs)).append (ih (one ts).rest)

end

-- Recovery goes past the next token, unless that is the end of input.
theorem resume_blames {d : Diagnostic} {rest : List Token} (hd : d.Concerns (Token.peek rest)) :
    ∃ skipped, rest = skipped ++ resume rest ∧ Blames (Token.peek (resume rest)) skipped [d] := by
  by_cases hend : (Token.peek rest).kind = .endOfInput
  · rw [resume, if_pos hend]
    exact ⟨[], rfl, .done fun d' hd' => ⟨hend, List.mem_singleton.mp hd' ▸ hd⟩⟩
  · obtain ⟨skipped, hrest, hb⟩ := resume_leaves rest
    cases skipped with
    | nil => exact absurd hrest.symm (resume_ne hend)
    | cons t skipped =>
      have hpeek : Token.peek rest = t := by rw [hrest]; rfl
      exact ⟨t :: skipped, hrest, .single hb List.mem_cons_self (hpeek ▸ hd)⟩

theorem simple_blames {room : Nat} {d : Diagnostic} {used rest : List Token}
    (h : FailsSimple (Token.peek rest) room used d) :
    ∃ passed, used ++ rest = passed ++ resume rest ∧ Blames (Token.peek (resume rest)) passed [d] := by
  have hbefore : Token.BeforeEnd used := fun t ht => (h.plain t ht).2
  obtain ⟨t, ht, hd⟩ := h.concerns
  rcases List.mem_append.mp ht with ht | ht
  · obtain ⟨skipped, hrest, hb⟩ := resume_leaves rest
    refine ⟨used ++ skipped, ?_, ?_⟩
    · rw [List.append_assoc, ← hrest]
    · exact (Blames.single hbefore ht hd).append (.silent hb)
  · obtain rfl := List.mem_singleton.mp ht
    obtain ⟨skipped, hrest, hblames⟩ := resume_blames hd
    refine ⟨used ++ skipped, ?_, ?_⟩
    · rw [List.append_assoc, ← hrest]
    · exact (Blames.silent hbefore).append hblames

theorem parseOne_reports_simple {room : Nat} {ts : List Token} (hl : (Token.peek ts).kind ≠ .symbol .leftBrace)
    (hts : (Token.peek ts).kind ≠ .endOfInput) : Reports ts (parseOne room ts) := by
  have hlength := (parseOne_advances room).length_lt hts
  rw [parseOne_eq] at hlength ⊢
  cases hr : (attempt (.ofRoom room) (oneWithin room) ts).result with
  | ok s =>
    obtain ⟨rest, ⟨used, rfl, -, -, hb⟩, heq⟩ := attempt_ok hl hr
    rw [heq] at hlength ⊢
    exact ⟨⟨used, rfl, .silent hb⟩, (Nat.zero_add _).trans_le (Nat.le_of_lt hlength)⟩
  | error d =>
    obtain ⟨used, rest, rfl, hf, heq⟩ := attempt_error hl hr
    rw [heq] at hlength ⊢
    exact ⟨simple_blames hf, (Nat.add_comm 1 _).trans_le hlength⟩

theorem parseOne_reports_tooDeep {ts : List Token} (hl : (Token.peek ts).kind = .symbol .leftBrace) :
    Reports ts (parseOne 0 ts) := by
  have hts : ts = Token.peek ts :: ts.tail := Token.eq_cons_of_peek_kind (by simp) hl
  obtain ⟨skipped, hskipped, hb⟩ := resume_leaves ts.tail
  have hone : parseOne 0 ts = ⟨[], [.reported (.about (Token.peek ts) .tooDeep)], resume ts.tail⟩ := by
    rw [parseOne_eq, attempt_brace hl]
    rfl
  rw [hone]
  refine ⟨⟨Token.peek ts :: skipped, hts.trans (congrArg _ hskipped), ?_⟩, ?_⟩
  · exact .blame (by simp [hl]) ⟨rfl, rfl⟩ (.silent hb)
  · have hlength := (resume_leaves ts.tail).length_le
    rw [hts]
    change 1 + (resume ts.tail).length ≤ ts.tail.length + 1
    omega

section

variable {l : Token} {ts : List Token} {body : Parsed}

theorem Reports.closed {r : Token} {rest : List Token} (h : Reports ts body) (hl : l.kind ≠ .endOfInput)
    (hr : r.kind = .symbol .rightBrace) (hrest : body.rest = r :: rest) (s : Statement) :
    Reports (l :: ts) (.ofAttempt ⟨.ok s, body.records, rest⟩) := by
  obtain ⟨⟨used, hused, hblames⟩, hcount⟩ := h
  rw [hrest] at hused hblames hcount
  have hclosed : Blames (Token.peek rest) (used ++ [r]) (body.diagnostics ++ []) :=
    hblames.append (.silent (by simp [Token.BeforeEnd, hr]))
  rw [List.append_nil] at hclosed
  refine ⟨⟨l :: (used ++ [r]), ?_, ?_⟩, ?_⟩
  · rw [hused, List.cons_append, List.append_assoc]
    rfl
  · rw [Parsed.diagnostics_of_ok rfl]
    exact .pass hl hclosed
  · rw [Parsed.diagnostics_of_ok rfl]
    change body.diagnostics.length + rest.length ≤ ts.length + 1
    rw [List.length_cons] at hcount
    omega

theorem Reports.unclosed {d : Diagnostic} (h : Reports ts body) (hl : l.kind ≠ .endOfInput)
    (hd : d.Concerns (Token.peek body.rest)) :
    Reports (l :: ts) (.ofAttempt ⟨.error d, body.records, body.rest⟩) := by
  obtain ⟨⟨used, hused, hblames⟩, hcount⟩ := h
  obtain ⟨skipped, hskipped, hresumed⟩ := resume_blames hd
  have hlength := (resume_leaves body.rest).length_le
  refine ⟨⟨l :: (used ++ skipped), ?_, ?_⟩, ?_⟩
  · rw [List.cons_append, List.append_assoc]
    exact congrArg (l :: ·) (hused.trans (congrArg (used ++ ·) hskipped))
  · rw [Parsed.diagnostics_of_error rfl]
    rw [hskipped] at hblames
    exact .pass hl (hblames.append hresumed)
  · rw [Parsed.diagnostics_of_error rfl, List.length_append]
    change body.diagnostics.length + 1 + (resume body.rest).length ≤ ts.length + 1
    omega

end

theorem parseOne_reports_block {room : Nat} {ts : List Token} (hl : (Token.peek ts).kind = .symbol .leftBrace)
    (hbody : Reports ts.tail (parseAll endsBlock (parseOne room) ts.tail)) : Reports ts (parseOne (room + 1) ts) := by
  have hts : ts = Token.peek ts :: ts.tail := Token.eq_cons_of_peek_kind (by simp) hl
  have hopens : (Token.peek ts).kind ≠ .endOfInput := by simp [hl]
  have hone : parseOne (room + 1) ts = .ofAttempt (attemptBlock (some (parseOne room)) (Token.peek ts) ts.tail) := by
    rw [parseOne_eq, attempt_brace hl]
    rfl
  suffices hblock : Reports (Token.peek ts :: ts.tail) (parseOne (room + 1) ts) by rwa [← hts] at hblock
  rw [hone]
  by_cases hk : (Token.peek (parseAll endsBlock (parseOne room) ts.tail).rest).kind = .symbol .rightBrace
  · have hclose := Token.eq_cons_of_peek_kind (by simp) hk
    rw [attemptBlock_of_close hk hclose]
    exact hbody.closed hopens hk hclose _
  · rw [attemptBlock_unclosed hk]
    exact hbody.unclosed hopens ⟨rfl, rfl⟩

theorem parseOne_reports (room : Nat) :
    ∀ ts, (Token.peek ts).kind ≠ .endOfInput → Reports ts (parseOne room ts) := by
  induction room with
  | zero =>
    intro ts hts
    by_cases hl : (Token.peek ts).kind = .symbol .leftBrace
    · exact parseOne_reports_tooDeep hl
    · exact parseOne_reports_simple hl hts
  | succ room ih =>
    intro ts hts
    by_cases hl : (Token.peek ts).kind = .symbol .leftBrace
    · exact parseOne_reports_block hl (parseMany_reports ih rfl _ _)
    · exact parseOne_reports_simple hl hts

theorem parse_reports (ts : List Token) : Reports ts (parse ts) :=
  parseMany_reports (parseOne_reports maxNesting) rfl _ ts

abbrev Reporting := StateM (List Diagnostic)

def Reporting.settle (a : Attempt) : Reporting Parsed := do
  if let .error d := a.result then
    modify (· ++ [d])
  return .ofAttempt a

structure Reported where
  statements : List Statement
  diagnostics : List Diagnostic
  rest : List Token

def Reported.onto (reported : List Diagnostic) (p : Parsed) : Reported :=
  ⟨p.statements, reported ++ p.diagnostics, p.rest⟩

def parseInto (reported : List Diagnostic) (ts : List Token) : Reported :=
  let (p, diagnostics) := (allIn (· = .endOfInput) (oneIn Reporting.settle maxNesting) ts).run reported
  ⟨p.statements, diagnostics, p.rest⟩

namespace Reporting

def Adds {α : Type} (x : Reporting α) (a : α) (ds : List Diagnostic) : Prop :=
  ∀ reported, x.run reported = (a, reported ++ ds)

variable {α β : Type} {a : α} {b : β} {ds ds' : List Diagnostic}

theorem adds_pure (a : α) : Adds (pure a) a [] :=
  fun reported => congrArg (Prod.mk a) (List.append_nil reported).symm

theorem Adds.bind {x : Reporting α} {f : α → Reporting β} (h : Adds x a ds) (hf : Adds (f a) b ds') :
    Adds (x >>= f) b (ds ++ ds') := by
  intro reported
  rw [StateT.run_bind, h reported, ← List.append_assoc]
  exact hf (reported ++ ds)

theorem Adds.map {x : Reporting α} (f : α → β) (h : Adds x a ds) : Adds (f <$> x) (f a) ds := by
  intro reported
  rw [StateT.run_map, h reported]
  rfl

theorem Adds.settle {x : Reporting Attempt} {a : Attempt} (h : Adds x a (diagnosticsOf a.records)) :
    Adds (x >>= settle) (.ofAttempt a) (Parsed.ofAttempt a).diagnostics := by
  cases hr : a.result with
  | ok s =>
    have hsettle : Adds (Reporting.settle a) (.ofAttempt a) [] := by
      rw [Reporting.settle, hr]
      exact adds_pure _
    rw [Parsed.diagnostics_of_ok hr, ← List.append_nil (diagnosticsOf _)]
    exact h.bind hsettle
  | error d =>
    have hsettle : Adds (Reporting.settle a) (.ofAttempt a) [d] := by
      rw [Reporting.settle, hr]
      exact fun _ => rfl
    rw [Parsed.diagnostics_of_error hr]
    exact h.bind hsettle

section

variable {one : List Token → Reporting Parsed} {one' : List Token → Parsed}

theorem adds_manyIn (h : ∀ ts, Adds (one ts) (one' ts) (one' ts).diagnostics) (stop : TokenKind → Bool) (fuel : Nat)
    (ts : List Token) :
    Adds (manyIn stop one fuel ts) (parseMany stop one' fuel ts) (parseMany stop one' fuel ts).diagnostics := by
  induction fuel generalizing ts with
  | zero => exact adds_pure _
  | succ fuel ih =>
    rw [manyIn, rowIn]
    cases hs : stop (Token.peek ts).kind with
    | true =>
      rw [parseMany_stop hs]
      exact adds_pure _
    | false =>
      have hrest := (ih (one' ts).rest).bind (f := fun q => pure ((one' ts).append q)) (adds_pure _)
      rw [List.append_nil] at hrest
      rw [if_neg Bool.false_ne_true, parseMany_step hs, Parsed.diagnostics_append]
      exact (h ts).bind hrest

theorem adds_blockIn (h : ∀ ts, Adds (one ts) (one' ts) (one' ts).diagnostics) (brace : Token) (ts : List Token) :
    Adds (blockIn (some (allIn endsBlock one)) brace ts) (attemptBlock (some one') brace ts)
      (diagnosticsOf (attemptBlock (some one') brace ts).records) := by
  have hrecords : diagnosticsOf (attemptBlock (some one') brace ts).records =
      (parseAll endsBlock one' ts).diagnostics := close_diagnostics brace _
  rw [hrecords]
  exact (adds_manyIn h endsBlock ts.length ts).map (close brace)

end

theorem adds_attemptIn {block : Token → List Token → Reporting Attempt} {inner : Option (List Token → Parsed)}
    (g : Grammar) (h : ∀ l us, Adds (block l us) (attemptBlock inner l us)
      (diagnosticsOf (attemptBlock inner l us).records)) (ts : List Token) :
    Adds (attemptIn (fun p us => return .ofParser p us) g block ts) (attempt g inner ts)
      (diagnosticsOf (attempt g inner ts).records) := by
  have simple (p : TokenParser Statement) (us : List Token) :
      Adds (pure (Attempt.ofParser p us)) (.ofParser p us) (diagnosticsOf (Attempt.ofParser p us).records) := by
    rw [Attempt.ofParser_records]
    exact adds_pure _
  rcases lead_cases ts with ⟨v, us, rfl, hv⟩ | ⟨p, us, rfl, hp⟩ | ⟨l, us, rfl, hl⟩ | hlead
  · rw [attemptIn_var hv, attempt_var hv]
    exact simple _ _
  · rw [attemptIn_print hp, attempt_print hp]
    exact simple _ _
  · rw [attemptIn_block hl, attempt_block hl]
    exact h l us
  · rw [attemptIn_expression hlead, attempt_expression hlead]
    exact simple _ _

theorem adds_oneIn (room : Nat) (ts : List Token) :
    Adds (oneIn settle room ts) (parseOne room ts) (parseOne room ts).diagnostics := by
  induction room generalizing ts with
  | zero =>
    rw [oneIn, parseOne_eq]
    exact (adds_attemptIn _ (fun l us => adds_pure _) ts).settle
  | succ room ih =>
    rw [oneIn, parseOne_eq]
    exact (adds_attemptIn _ (adds_blockIn ih) ts).settle

end Reporting

theorem parseInto_eq (reported : List Diagnostic) (ts : List Token) :
    parseInto reported ts = .onto reported (parse ts) := by
  have hall := Reporting.adds_manyIn (Reporting.adds_oneIn maxNesting) (· = .endOfInput) ts.length ts reported
  rw [parseInto, allIn, hall]
  rfl

theorem program_diagnostics (source : String) :
    (Program.ofSource source).diagnostics =
      (parseInto (scan source).diagnostics (scan source).tokens).diagnostics := by
  rw [parseInto_eq]
  rfl

-- The end of input is there to be reached, so the tokens that were used are followed by the one that was next.
theorem parse_blames_tokens {us : List Token} {q : Token} (hq : q.kind = .endOfInput) :
    ∃ used next, List.Sublist (used ++ [next]) (us ++ [q]) ∧ Blames next used (parse (us ++ [q])).diagnostics ∧
      (parse (us ++ [q])).diagnostics.length ≤ used.length := by
  obtain ⟨⟨used, hts, hblames⟩, hcount⟩ := parse_reports (us ++ [q])
  cases hrest : (parse (us ++ [q])).rest with
  | nil =>
    rw [hrest, List.append_nil] at hts
    exact absurd hq (hblames.beforeEnd q (hts ▸ List.mem_append_right us (List.mem_singleton_self q)))
  | cons next rest =>
    rw [hrest] at hts hblames hcount
    have hlength : (us ++ [q]).length = used.length + (next :: rest).length :=
      (congrArg List.length hts).trans List.length_append
    refine ⟨used, next, ?_, hblames, by omega⟩
    rw [hts]
    exact List.Sublist.append (.refl used) (List.singleton_sublist.mpr List.mem_cons_self)

theorem diagnostics_in_order (us : List Token) (q : Token) (hq : q.kind = .endOfInput)
    (hlines : (us ++ [q]).Pairwise (·.line < ·.line)) :
    (parse (us ++ [q])).diagnostics.Pairwise Diagnostic.Before ∧
      (∀ d ∈ (parse (us ++ [q])).diagnostics, ∃ t ∈ us ++ [q], d.Concerns t) ∧
      (parse (us ++ [q])).diagnostics.length ≤ us.countP (·.kind ≠ .endOfInput) ∧
      ∀ reported, parseInto reported (us ++ [q]) = .onto reported (parse (us ++ [q])) := by
  obtain ⟨used, next, hsub, hblames, hcount⟩ := parse_blames_tokens hq
  refine ⟨hblames.pairwise (hlines.sublist hsub), fun d hd => ?_, ?_, fun reported => parseInto_eq reported _⟩
  · obtain ⟨t, ht, hconcerns⟩ := hblames.concerns d hd
    exact ⟨t, hsub.subset ht, hconcerns⟩
  · have hbefore : used.countP (·.kind ≠ .endOfInput) = used.length :=
      List.countP_eq_length.mpr fun t ht => decide_eq_true (hblames.beforeEnd t ht)
    have hend : [q].countP (·.kind ≠ .endOfInput) = 0 := by simp [hq]
    calc (parse (us ++ [q])).diagnostics.length
      _ ≤ used.countP (·.kind ≠ .endOfInput) := hbefore ▸ hcount
      _ ≤ (us ++ [q]).countP (·.kind ≠ .endOfInput) := ((List.sublist_append_left ..).trans hsub).countP_le
      _ = us.countP (·.kind ≠ .endOfInput) := by rw [List.countP_append, hend, Nat.add_zero]

def unclosedTokens : List Token :=
  [⟨.symbol .leftBrace, "\x7b", none, 1⟩, ⟨.keyword .var, "var", none, 2⟩, ⟨.symbol .semicolon, ";", none, 3⟩,
    ⟨.keyword .nil, "nil", none, 4⟩, ⟨.symbol .equal, "=", none, 5⟩, ⟨.keyword .nil, "nil", none, 6⟩,
    ⟨.symbol .semicolon, ";", none, 7⟩, ⟨.symbol .leftParen, "(", none, 8⟩]

theorem diagnostics_in_order_unclosed :
    (parse (unclosedTokens ++ [.endOfInput 9])).diagnostics.map Diagnostic.line = [3, 5, 9, 9] ∧
      (parse (unclosedTokens ++ [.endOfInput 9])).diagnostics.Pairwise Diagnostic.Before ∧
      (parse (unclosedTokens ++ [.endOfInput 9])).diagnostics.length ≤ 8 ∧
      (parseInto [⟨.strayCharacter, 7⟩] (unclosedTokens ++ [.endOfInput 9])).diagnostics.map Diagnostic.line =
        [7, 3, 5, 9, 9] := by
  have hlines : (parse (unclosedTokens ++ [.endOfInput 9])).diagnostics.map Diagnostic.line = [3, 5, 9, 9] := by
    decide +kernel
  obtain ⟨horder, -, hcount, hinto⟩ := diagnostics_in_order unclosedTokens (.endOfInput 9) rfl (by decide)
  refine ⟨hlines, horder, hcount, ?_⟩
  rw [hinto, Reported.onto, List.map_append, hlines]
  rfl

end Statement

end Treewalk
