import Treewalk.Proofs.Execution.Steps

namespace Treewalk

namespace Expr

def height : Expr → Nat
  | .literal .. | .variable .. => 1
  | .group e _ | .unary _ e _ | .assign _ e _ => e.height + 1
  | .binary _ l r _ => max l.height r.height + 1

def textWithin : (frames : Nat) → Expr → Option String
  | 0, _ => none
  | _ + 1, .literal v _ => some v.sourceText
  | n + 1, .group e _ => do return "(group " ++ (← textWithin n e) ++ ")"
  | n + 1, .unary op e _ => do return "(" ++ op.text ++ " " ++ (← textWithin n e) ++ ")"
  | n + 1, .binary op l r _ => do
      return "(" ++ op.text ++ " " ++ (← textWithin n l) ++ " " ++ (← textWithin n r) ++ ")"
  | _ + 1, .variable name _ => some name
  | n + 1, .assign name e _ => do return "(= " ++ name ++ " " ++ (← textWithin n e) ++ ")"

end Expr

namespace Statement

mutual

def height : Statement → Nat
  | .expression e _ | .print e _ => e.height + 1
  | .declare _ initial _ => initial.elim 0 Expr.height + 1
  | .block body _ => heightAll body + 1

def heightAll : List Statement → Nat
  | [] => 0
  | s :: ss => max s.height (heightAll ss)

end

mutual

def expressions : Statement → List Expr
  | .expression e _ | .print e _ => [e]
  | .declare _ initial _ => initial.toList
  | .block body _ => expressionsAll body

def expressionsAll : List Statement → List Expr
  | [] => []
  | s :: ss => s.expressions ++ expressionsAll ss

end

mutual

theorem height_expressions : (s : Statement) → ∀ e ∈ s.expressions, e.height < s.height
  | .expression _ _, e, he | .print _ _, e, he => by
    cases List.mem_singleton.mp he
    exact Nat.lt_succ_self _
  | .declare _ initial _, e, he => by
    cases Option.mem_toList.mp he
    exact Nat.lt_succ_self _
  | .block body _, e, he => Nat.lt_succ_of_lt (heightAll_expressions body e he)

theorem heightAll_expressions : (ss : List Statement) → ∀ e ∈ expressionsAll ss, e.height < heightAll ss
  | [], _, he => by cases he
  | s :: ss, e, he => by
    rcases List.mem_append.mp he with he | he
    · exact Nat.lt_of_lt_of_le (s.height_expressions e he) (Nat.le_max_left _ _)
    · exact Nat.lt_of_lt_of_le (heightAll_expressions ss e he) (Nat.le_max_right _ _)

end

def allWithin {α : Type} (join : α → α → α) (nothing : α) (one : Statement → Option α) :
    List Statement → Option α
  | [] => some nothing
  | s :: ss => do return join (← one s) (← allWithin join nothing one ss)

def textWithin : (frames : Nat) → Statement → Option String
  | 0, _ => none
  | n + 1, .expression e _ => do return "(expr " ++ (← e.textWithin n) ++ ")"
  | n + 1, .print e _ => do return "(print " ++ (← e.textWithin n) ++ ")"
  | n + 1, .declare name (some e) _ => do return "(var " ++ name ++ " " ++ (← e.textWithin n) ++ ")"
  | _ + 1, .declare name none _ => some ("(var " ++ name ++ ")")
  | n + 1, .block body _ => do
      return "(block" ++ (← allWithin (fun first others => " " ++ first ++ others) "" (textWithin n) body) ++ ")"

variable {W : Type} [Sink W]

open Machine

end Statement

end Treewalk
