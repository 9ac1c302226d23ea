import Treewalk.Proofs.Grammar.EndOfInput

namespace Treewalk

namespace Token

def IsPlain (t : Token) : Prop :=
  t.kind ≠ .symbol .semicolon ∧ t.kind ≠ .endOfInput ∧ t.kind.startsStatement = false

inductive ResumesAt : List Token → List Token → Prop
  | before {ts : List Token} :
      (peek ts).kind = .endOfInput ∨ (peek ts).kind.startsStatement → ResumesAt ts ts
  | after {q : Token} {ts : List Token} : q.kind = .symbol .semicolon → ResumesAt (q :: ts) ts
  | pass {t : Token} {ts rest : List Token} : t.IsPlain → ResumesAt ts rest → ResumesAt (t :: ts) rest

namespace ResumesAt

variable {ts rest rest' : List Token}

theorem eq_of_startsStatement (h : ResumesAt ts rest) (hts : (peek ts).kind.startsStatement) : rest = ts := by
  cases h with
  | before => rfl
  | after hq =>
    rw [peek_cons, hq] at hts
    cases hts
  | pass ht => exact absurd hts (Bool.eq_false_iff.mp ht.2.2)

theorem skipped (h : ResumesAt ts rest) :
    ∃ skipped, ts = skipped ++ rest ∧ ∀ t ∈ skipped, t.kind.startsStatement = false := by
  induction h with
  | before => exact ⟨[], rfl, List.forall_mem_nil _⟩
  | @after q ts hq => exact ⟨[q], rfl, List.forall_mem_singleton.mpr (by rw [hq]; rfl)⟩
  | @pass t ts rest ht _ ih =>
    obtain ⟨skipped, rfl, hskipped⟩ := ih
    exact ⟨t :: skipped, rfl, List.forall_mem_cons.mpr ⟨ht.2.2, hskipped⟩⟩

end ResumesAt

end Token

namespace Statement

open Token (ResumesAt)

variable {ts : List Token}

theorem skip_semicolon {q : Token} (hq : q.kind = .symbol .semicolon) : skip (q :: ts) = ts :=
  if_pos (.inl hq)

theorem skip_resumesAt {t : Token} (ht : t.kind ≠ .symbol .semicolon) : ResumesAt ts (skip (t :: ts)) := by
  induction ts generalizing t with
  | nil =>
    rw [skip, if_pos (.inr (.inl rfl))]
    exact .before (.inl rfl)
  | cons u us ih =>
    by_cases hstop : (Token.peek (u :: us)).kind = .endOfInput ∨ (Token.peek (u :: us)).kind.startsStatement
    · rw [skip, if_pos (.inr hstop)]
      exact .before hstop
    · rw [skip, if_neg (not_or.mpr ⟨ht, hstop⟩)]
      obtain ⟨hend, hstarts⟩ := not_or.mp hstop
      by_cases hu : u.kind = .symbol .semicolon
      · rw [skip_semicolon hu]
        exact .after hu
      · exact .pass ⟨hu, hend, Bool.eq_false_iff.mpr hstarts⟩ (ih hu)

theorem resume_of_ne_end (h : (Token.peek ts).kind ≠ .endOfInput) : resume ts = skip ts :=
  if_neg h

theorem resume_resumesAt_tail (h : (Token.peek ts).kind.startsStatement) : ResumesAt ts.tail (resume ts) := by
  have hend : (Token.peek ts).kind ≠ .endOfInput := fun hk => by
    rw [hk] at h
    cases h
  have hsemicolon : (Token.peek ts).kind ≠ .symbol .semicolon := fun hk => by
    rw [hk] at h
    cases h
  rw [resume_of_ne_end hend]
  cases ts with
  | nil => cases h
  | cons t ts => exact skip_resumesAt hsemicolon

theorem resume_resumesAt (h : (Token.peek ts).kind.startsStatement = false) : ResumesAt ts (resume ts) := by
  by_cases hend : (Token.peek ts).kind = .endOfInput
  · rw [resume, if_pos hend]
    exact .before (.inl hend)
  · rw [resume_of_ne_end hend]
    cases ts with
    | nil => exact absurd rfl hend
    | cons t ts =>
      by_cases ht : t.kind = .symbol .semicolon
      · rw [skip_semicolon ht]
        exact .after ht
      · exact .pass ⟨ht, hend, h⟩ (skip_resumesAt ht)

theorem resume_resumesAt_iff :
    ResumesAt ts (resume ts) ↔ (Token.peek ts).kind.startsStatement = false := by
  refine ⟨fun h => Bool.eq_false_iff.mpr fun hstarts => ?_, resume_resumesAt⟩
  refine resume_ne (fun hk => ?_) (h.eq_of_startsStatement hstarts)
  rw [hk] at hstarts
  cases hstarts

-- Recovery drops a keyword only where the statement failed, that is in front.
theorem resume_skipped (ts : List Token) :
    ∃ skipped, ts = skipped ++ resume ts ∧
      ∀ i t, skipped[i]? = some t → (t.kind.startsStatement ↔ i = 0 ∧ (Token.peek ts).kind.startsStatement) := by
  by_cases h : (Token.peek ts).kind.startsStatement
  · obtain ⟨skipped, htail, hskipped⟩ := (resume_resumesAt_tail h).skipped
    cases ts with
    | nil => cases h
    | cons u us =>
      refine ⟨u :: skipped, congrArg (u :: ·) htail, fun i t ht => ?_⟩
      cases i with
      | zero =>
        obtain rfl := Option.some.inj ht
        exact ⟨fun hu => ⟨rfl, hu⟩, And.right⟩
      | succ i =>
        have hplain := hskipped t (List.mem_of_getElem? ht)
        simp [hplain]
  · obtain ⟨skipped, hts, hskipped⟩ := (resume_resumesAt (Bool.eq_false_iff.mpr h)).skipped
    refine ⟨skipped, hts, fun i t ht => ?_⟩
    have hplain := hskipped t (List.mem_of_getElem? ht)
    simp [hplain, h]

theorem keywords_kept_iff (room : Nat) (ts : List Token) (d : Diagnostic)
    (h : (attempt (.ofRoom room) (oneWithin room) ts).result = .error d) :
    let stop := (attempt (.ofRoom room) (oneWithin room) ts).rest
    let rest := (parseOne room ts).rest
    (ResumesAt stop rest ↔ (Token.peek stop).kind.startsStatement = false) ∧
      ((Token.peek stop).kind.startsStatement → ResumesAt stop.tail rest) ∧
      ∃ used skipped, ts = used ++ stop ∧ stop = skipped ++ rest ∧
        ((∀ i t, skipped[i]? = some t → t.kind.startsStatement → used.length + i = 0) ↔
          ((Token.peek stop).kind.startsStatement → used = [])) := by
  intro stop rest
  have hrest : rest = resume stop := by
    simp only [rest, parseOne_eq, Parsed.ofAttempt_of_error h, stop]
  obtain ⟨used, hused, -⟩ : Token.Leaves ts stop :=
    attempt_leaves room (fun _ => oneWithin_advances) ts
  obtain ⟨skipped, hstop, hskipped⟩ := resume_skipped stop
  rw [hrest]
  refine ⟨resume_resumesAt_iff, resume_resumesAt_tail, used, skipped, hused, hstop, fun hkept hstarts => ?_, ?_⟩
  · have hne : skipped ≠ [] := by
      rintro rfl
      refine resume_ne (fun hk => ?_) hstop.symm
      rw [hk] at hstarts
      cases hstarts
    obtain ⟨t, skipped, rfl⟩ := List.exists_cons_of_ne_nil hne
    have hzero := hkept 0 t rfl ((hskipped 0 t rfl).mpr ⟨rfl, hstarts⟩)
    exact List.eq_nil_of_length_eq_zero (by omega)
  · intro hfirst i t ht hstarts
    obtain ⟨rfl, hpeek⟩ := (hskipped i t ht).mp hstarts
    rw [hfirst hpeek]
    rfl

theorem keywords_kept_iff_spared :
    let ts := (scan "x = nil nil class print x;").tokens
    (attempt (.ofRoom maxNesting) (oneWithin maxNesting) ts).result =
        .error ⟨.unexpectedToken (.lexeme "nil") "Expect ';' after expression.", 1⟩ ∧
      (attempt (.ofRoom maxNesting) (oneWithin maxNesting) ts).rest = ts.drop 3 ∧
      (parseOne maxNesting ts).rest = ts.drop 4 ∧ ResumesAt (ts.drop 3) (ts.drop 4) := by
  intro ts
  have hresult : (attempt (.ofRoom maxNesting) (oneWithin maxNesting) ts).result =
      .error ⟨.unexpectedToken (.lexeme "nil") "Expect ';' after expression.", 1⟩ := by decide +kernel
  have hstop : (attempt (.ofRoom maxNesting) (oneWithin maxNesting) ts).rest = ts.drop 3 := by decide +kernel
  have hrest : (parseOne maxNesting ts).rest = ts.drop 4 := by decide +kernel
  obtain ⟨hplace, -⟩ := keywords_kept_iff maxNesting ts _ hresult
  rw [hstop, hrest] at hplace
  exact ⟨hresult, hstop, hrest, hplace.mpr (by decide +kernel)⟩

theorem keyword_lost_without_semicolon :
    let ts := (scan "print nil print true;").tokens
    (attempt (.ofRoom maxNesting) (oneWithin maxNesting) ts).result =
        .error ⟨.unexpectedToken (.lexeme "print") "Expect ';' after value.", 1⟩ ∧
      (attempt (.ofRoom maxNesting) (oneWithin maxNesting) ts).rest = ts.drop 2 ∧
      ResumesAt (ts.drop 2) (ts.drop 2) ∧ (parse (ts.drop 2)).statements = [.print (.literal (.boolean true) 1) 1] ∧
      (parseOne maxNesting ts).rest = ts.drop 5 ∧ ¬ ResumesAt (ts.drop 2) (parseOne maxNesting ts).rest ∧
      (parse ts).statements = [] := by
  intro ts
  have hkeyword : (Token.peek (ts.drop 2)).kind.startsStatement := by decide +kernel
  have hrest : (parseOne maxNesting ts).rest = ts.drop 5 := by decide +kernel
  refine ⟨by decide +kernel, by decide +kernel, .before (.inr hkeyword), by decide +kernel, hrest, fun h => ?_,
    by decide +kernel⟩
  have hlength := congrArg List.length (h.eq_of_startsStatement hkeyword)
  rw [hrest] at hlength
  revert hlength
  decide +kernel

end Statement

end Treewalk
