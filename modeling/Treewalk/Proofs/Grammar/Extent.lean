import Treewalk.Proofs.Grammar.Failures

namespace Treewalk

def Precedence.nonterminal : Precedence → Nonterminal
  | .equality => .equality
  | .comparison => .comparison
  | .additive => .term
  | .multiplicative => .factor

namespace Grammar

variable {room : Nat} {n : Nonterminal} {ts used rest : List Token} {e : Expr}

theorem parser_append_iff (h : parser room n (used ++ rest) = .ok e rest) (other : List Token) :
    parser room n (used ++ other) = .ok e other ↔ n.Ends other := by
  obtain ⟨taken, heq, hd, hn, -⟩ := parser_eq_ok_iff.mp h
  obtain rfl := List.append_cancel_right heq
  exact ⟨fun hother => parser_stops room n hother, parser_complete hd hn⟩

theorem parser_extent (h : parser room n ts = .ok e rest) : ∃ used, ts = used ++ rest ∧ n.Ends rest ∧
    ∀ other, parser room n (used ++ other) = .ok e other ↔ n.Ends other := by
  obtain ⟨used, rfl, -, -, hends⟩ := parser_eq_ok_iff.mp h
  exact ⟨used, rfl, hends, parser_append_iff h⟩

end Grammar

namespace Expr

theorem parseBinary_nonterminal (p : Precedence) (depth : Nat) :
    parseBinary p depth = Grammar.parser (maxNesting - depth) p.nonterminal := by
  cases p <;> rfl

theorem taken_up_to_continuation (depth : Nat) (ts rest : List Token) (e : Expr) :
    (parse depth ts = .ok e rest → ∃ used, ts = used ++ rest ∧ Nonterminal.assignment.Ends rest ∧
      ∀ other, parse depth (used ++ other) = .ok e other ↔ Nonterminal.assignment.Ends other) ∧
    ∀ p, parseBinary p depth ts = .ok e rest → ∃ used, ts = used ++ rest ∧ p.nonterminal.Ends rest ∧
      ∀ other, parseBinary p depth (used ++ other) = .ok e other ↔ p.nonterminal.Ends other := by
  refine ⟨Grammar.parser_extent (n := .assignment), fun p h => ?_⟩
  rw [parseBinary_nonterminal] at h ⊢
  exact Grammar.parser_extent h

-- The tokens of `a - (b == nil) * !c`, which open the last level that may be opened inside 127 others, and behind
-- them an operator that binds looser, an equals sign, and an operator that carries the difference on.
section Difference

def difference : List Token :=
  [⟨.identifier, "a", none, 1⟩, ⟨.symbol .minus, "-", none, 1⟩, ⟨.symbol .leftParen, "(", none, 1⟩,
    ⟨.identifier, "b", none, 1⟩, ⟨.symbol .equalEqual, "==", none, 1⟩, ⟨.keyword .nil, "nil", none, 1⟩,
    ⟨.symbol .rightParen, ")", none, 1⟩, ⟨.symbol .star, "*", none, 1⟩, ⟨.symbol .bang, "!", none, 1⟩,
    ⟨.identifier, "c", none, 1⟩]

def differenceTree : Expr :=
  .binary .subtract (.variable "a" 1)
    (.binary .multiply (.group (.binary .equal (.variable "b" 1) (.literal .nil 1) 1) 1)
      (.unary .not (.variable "c" 1) 1) 1) 1

theorem taken_up_to_continuation_difference :
    let less : Token := ⟨.symbol .less, "<", none, 2⟩
    let equals : Token := ⟨.symbol .equal, "=", none, 2⟩
    let plus : Token := ⟨.symbol .plus, "+", none, 2⟩
    parseBinary .additive 127 (difference ++ [less]) = .ok differenceTree [less] ∧
      parseBinary .additive 127 (difference ++ [equals]) = .ok differenceTree [equals] ∧
      parseBinary .additive 127 (difference ++ [plus]) ≠ .ok differenceTree [plus] ∧
      parse 127 (difference ++ []) = .ok differenceTree [] ∧
      parse 127 (difference ++ [less]) ≠ .ok differenceTree [less] := by
  intro less equals plus
  have hless : parseBinary .additive 127 (difference ++ [less]) = .ok differenceTree [less] := rfl
  have hnone : parse 127 (difference ++ []) = .ok differenceTree [] := rfl
  obtain ⟨used, hused, -, hadditive⟩ := (taken_up_to_continuation 127 _ _ _).2 .additive hless
  obtain rfl := List.append_cancel_right hused
  obtain ⟨used, hused, -, hwhole⟩ := (taken_up_to_continuation 127 _ _ _).1 hnone
  obtain rfl := List.append_cancel_right hused
  refine ⟨hless, (hadditive [equals]).mpr ?_, fun h => ?_, hnone, fun h => ?_⟩
  · exact .of_symbol (s := .equal) rfl (by decide)
  · exact (hadditive [plus]).mp h .plus (by decide) rfl
  · exact (hwhole [less]).mp h .less (by decide) rfl

end Difference

end Expr

end Treewalk
