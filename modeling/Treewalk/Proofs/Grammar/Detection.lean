import Treewalk.Proofs.Grammar.Completion
import Treewalk.Proofs.Grammar.Lines

namespace Treewalk

namespace Token

def numbered (ts : List Token) : List Token :=
  ts.mapIdx fun i t => { t with line := i }

def lineAt (ts : List Token) (i : Nat) : Nat :=
  ts[i]?.elim 0 line

theorem numbered_map (ts : List Token) : (numbered ts).map (mapLine (lineAt ts)) = ts := by
  refine List.ext_getElem? fun i => ?_
  rw [List.getElem?_map, numbered, List.getElem?_mapIdx, Option.map_map]
  cases h : ts[i]? with
  | none => rfl
  | some t =>
    have hline : lineAt ts i = t.line := by rw [lineAt, h]; rfl
    exact congrArg (fun line => some (Token.mk t.kind t.lexeme t.literal line)) hline

theorem line_numbered {ts used rest : List Token} {t : Token} (h : numbered ts = used ++ t :: rest) :
    t.line = used.length := by
  have hget : (numbered ts)[used.length]? = some t := by
    rw [h]
    simp
  rw [numbered, List.getElem?_mapIdx] at hget
  obtain ⟨t', -, rfl⟩ := Option.map_eq_some_iff.mp hget
  rfl

theorem Ended.of_map {f : Nat → Nat} {ts : List Token} (h : Ended (ts.map (mapLine f))) : Ended ts := by
  obtain ⟨t, ht, hk⟩ := h
  obtain ⟨t', ht', rfl⟩ := List.mem_map.mp ht
  exact ⟨t', ht', hk⟩

end Token

section Blame

variable {next : Token} {room : Nat} {n : Nonterminal} {ts : List Token} {d : Diagnostic}

theorem Fails.about_next (h : Fails next room n ts d) (hd : d.complaint.isMisplaced) :
    ∃ complaint, d = .about next complaint := by
  induction h with
  | missing => exact ⟨_, rfl⟩
  | unclosed => exact ⟨_, rfl⟩
  | groupTooDeep | unaryTooDeep | assignTooDeep | target => cases hd
  | inGroup _ _ ih | inUnary _ _ _ ih | right _ _ _ _ _ _ ih | value _ _ _ _ ih | tighter _ _ ih => exact ih hd

theorem FailsClause.about_next {expectation : String} (h : FailsClause next room expectation ts d)
    (hd : d.complaint.isMisplaced) : ∃ complaint, d = .about next complaint := by
  cases h with
  | inside hf => exact hf.about_next hd
  | unclosed => exact ⟨_, rfl⟩

theorem FailsSimple.about_next (h : FailsSimple next room ts d) (hd : d.complaint.isMisplaced) :
    ∃ complaint, d = .about next complaint := by
  cases h with
  | unnamed | bare => exact ⟨_, rfl⟩
  | initial _ _ _ hf | print _ hf | expression _ hf => exact hf.about_next hd

theorem FailsFirst.about_next (h : FailsFirst next room ts d) (hd : d.complaint.isMisplaced) :
    ∃ complaint, d = .about next complaint := by
  induction h with
  | simple hf => exact hf.about_next hd
  | tooDeep => cases hd
  | unclosed => exact ⟨_, rfl⟩
  | inside _ _ _ _ _ ih => exact ih hd

theorem Breaks.about_next (h : Breaks next ts d) (hd : d.complaint.isMisplaced) :
    ∃ complaint, d = .about next complaint := by
  cases h with
  | intro _ _ _ hf => exact hf.about_next hd

end Blame

section Lines

variable {f : Nat → Nat} {next : Token} {room : Nat} {ts : List Token} {d : Diagnostic}

theorem FailsFirst.mapLines (h : FailsFirst next room ts d) :
    FailsFirst (next.mapLine f) room (ts.map (Token.mapLine f)) (d.mapLine f) := by
  induction h with
  | simple hf => exact .simple hf.mapLines
  | tooDeep hl => exact .tooDeep hl
  | unclosed hl hrow hn hend =>
    exact .unclosed hl hrow.mapLines (by rwa [Statement.nestingAll_mapLines]) hend
  | inside hl hrow hn hopen _ ih =>
    rw [List.map_append]
    refine .inside hl hrow.mapLines (by rwa [Statement.nestingAll_mapLines]) ?_ ih
    rwa [Token.kind_peek_map_append]

theorem Breaks.mapLines (h : Breaks next ts d) :
    Breaks (next.mapLine f) (ts.map (Token.mapLine f)) (d.mapLine f) := by
  cases h with
  | intro hrow hn hopen hf =>
    rw [List.map_append]
    refine .intro hrow.mapLines (by rwa [Statement.nestingAll_mapLines]) ?_ hf.mapLines
    rwa [Token.kind_peek_map_append]

end Lines

section End

variable {next : Token} {room : Nat} {ts : List Token} {d : Diagnostic}

theorem FailsFirst.beforeEnd (h : FailsFirst next room ts d) : Token.BeforeEnd ts := by
  induction h with
  | simple hf => exact fun t ht => (hf.plain t ht).2
  | tooDeep hl => simp [Token.BeforeEnd, hl]
  | unclosed hl hrow _ _ =>
    have hbody := Row.beforeEnd hrow
    simpa [Token.BeforeEnd, hl] using hbody
  | inside hl hrow _ _ _ ih =>
    have hbody := Row.beforeEnd hrow
    simpa [Token.BeforeEnd, hl, or_imp, forall_and] using And.intro hbody ih

theorem Breaks.beforeEnd (h : Breaks next ts d) : Token.BeforeEnd ts := by
  cases h with
  | intro hrow _ _ hf => exact List.forall_mem_append.mpr ⟨Row.beforeEnd hrow, hf.beforeEnd⟩

end End

namespace Statement

-- Parsing carries lines along without looking at them, so with positions for lines the first diagnostic
-- tells the position of the token that it is about.
def blamed? (ts : List Token) : Option Nat :=
  (parse (Token.numbered ts)).diagnostics.head?.map Diagnostic.line

theorem parse_blames {ts : List Token} {d : Diagnostic} (hts : Token.Ended ts)
    (h : (parse ts).diagnostics.head? = some d) (hd : d.complaint.isMisplaced) :
    ∃ used next rest, ts = used ++ next :: rest ∧ blamed? ts = some used.length ∧ Breaks next used d := by
  have hnumbered : Token.Ended (Token.numbered ts) := by
    refine .of_map (f := Token.lineAt ts) ?_
    rwa [Token.numbered_map]
  have hlines := (parse_relined (Token.lineAt ts) hnumbered).diagnostics
  rw [Token.numbered_map] at hlines
  rw [hlines, List.head?_map] at h
  obtain ⟨d', hfirst, rfl⟩ := Option.map_eq_some_iff.mp h
  obtain ⟨used, rest, hused, hbreaks⟩ := parse_breaks hfirst
  have hrest : Token.Ended rest := Token.Leaves.ended ⟨used, hused, hbreaks.beforeEnd⟩ hnumbered
  cases rest with
  | nil => exact absurd rfl hrest.ne_nil
  | cons next rest =>
    obtain ⟨c, rfl⟩ := hbreaks.about_next hd
    refine ⟨used.map (.mapLine (Token.lineAt ts)), next.mapLine (Token.lineAt ts),
      rest.map (.mapLine (Token.lineAt ts)), ?_, ?_, hbreaks.mapLines⟩
    · have hmap := congrArg (List.map (Token.mapLine (Token.lineAt ts))) hused
      rwa [Token.numbered_map, List.map_append, List.map_cons] at hmap
    · rw [blamed?, hfirst, List.length_map, ← Token.line_numbered hused]
      rfl

theorem detection_is_earliest (source : String) (d : Diagnostic)
    (h : (parse (scan source).tokens).diagnostics.head? = some d) (hd : d.complaint.isMisplaced) :
    ∃ i t, blamed? (scan source).tokens = some i ∧ (scan source).tokens[i]? = some t ∧
      (∃ complaint, d = .about t complaint) ∧
      (∀ us : List Token, us.take (i + 1) = (scan source).tokens.take (i + 1) →
        (parse us).diagnostics.head? = some d) ∧
      ∃ us : List Token, us.take i = (scan source).tokens.take i ∧
        ∀ d' ∈ (parse us).diagnostics, d'.complaint.isInvalidTarget := by
  obtain ⟨used, next, rest, hts, hi, hbreaks⟩ := parse_blames (scan_terminated source).ended h hd
  refine ⟨used.length, next, hi, ?_, hbreaks.about_next hd, ?_, ?_⟩
  · simp [hts]
  · intro us hus
    have hstart : us.take (used.length + 1) = used ++ [next] := by
      rw [hus, hts]
      simp [List.take_append]
    have happend : us = used ++ next :: us.drop (used.length + 1) := by
      calc us = us.take (used.length + 1) ++ us.drop (used.length + 1) := (List.take_append_drop ..).symm
        _ = used ++ next :: us.drop (used.length + 1) := by rw [hstart, List.append_assoc]; rfl
    have hfirst : (parse (used ++ next :: us.drop (used.length + 1))).diagnostics.head? = some d :=
      parse_of_breaks hbreaks
    rwa [happend]
  · obtain ⟨more, hmore⟩ := hbreaks.completed hd
    exact ⟨used ++ more, by simp [hts], hmore⟩

theorem detection_is_earliest_in_block :
    (parse (scan "\x7b\n(a) = -(b + ;\nvar \x7d").tokens).diagnostics.head? =
        some ⟨.missingExpression (.lexeme ";"), 2⟩ ∧
      blamed? (scan "\x7b\n(a) = -(b + ;\nvar \x7d").tokens = some 9 ∧
      (∀ us : List Token, us.take 10 = (scan "\x7b\n(a) = -(b + ;\nvar \x7d").tokens.take 10 →
        (parse us).diagnostics.head? = some ⟨.missingExpression (.lexeme ";"), 2⟩) ∧
      ∃ us : List Token, us.take 9 = (scan "\x7b\n(a) = -(b + ;\nvar \x7d").tokens.take 9 ∧
        ∀ d ∈ (parse us).diagnostics, d.complaint.isInvalidTarget := by
  have hfirst : (parse (scan "\x7b\n(a) = -(b + ;\nvar \x7d").tokens).diagnostics.head? =
      some ⟨.missingExpression (.lexeme ";"), 2⟩ := by decide +kernel
  have hblamed : blamed? (scan "\x7b\n(a) = -(b + ;\nvar \x7d").tokens = some 9 := by decide +kernel
  obtain ⟨i, t, hi, -, -, hsame, hother⟩ := detection_is_earliest _ _ hfirst rfl
  rw [hblamed] at hi
  cases hi
  exact ⟨hfirst, hblamed, hsame, hother⟩

end Statement

end Treewalk
