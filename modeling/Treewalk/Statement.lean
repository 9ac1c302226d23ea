import Treewalk.Expr

namespace Treewalk

inductive Statement where
  | expression (e : Expr) (line : Nat)
  | print (e : Expr) (line : Nat)
  | declare (name : String) (initial : Option Expr) (line : Nat)
  | block (body : List Statement) (line : Nat)
  deriving Repr

namespace Statement

mutual

def decEq : (s t : Statement) → Decidable (s = t)
  | .expression e l, .expression e' l' => decidable_of_iff (e = e' ∧ l = l') (by simp)
  | .print e l, .print e' l' => decidable_of_iff (e = e' ∧ l = l') (by simp)
  | .declare n i l, .declare n' i' l' => decidable_of_iff (n = n' ∧ i = i' ∧ l = l') (by simp)
  | .block b l, .block b' l' =>
      have := decEqAll b b'
      decidable_of_iff (b = b' ∧ l = l') (by simp)
  | .expression .., .print .. | .expression .., .declare .. | .expression .., .block ..
  | .print .., .expression .. | .print .., .declare .. | .print .., .block ..
  | .declare .., .expression .. | .declare .., .print .. | .declare .., .block ..
  | .block .., .expression .. | .block .., .print .. | .block .., .declare .. => isFalse (by simp)

def decEqAll : (ss ts : List Statement) → Decidable (ss = ts)
  | [], [] => isTrue rfl
  | [], _ :: _ | _ :: _, [] => isFalse (by simp)
  | s :: ss, t :: ts =>
      have := decEq s t
      have := decEqAll ss ts
      decidable_of_iff (s = t ∧ ss = ts) (by simp)

end

instance : DecidableEq Statement := decEq

mutual

def text : Statement → String
  | .expression e _ => "(expr " ++ e.text ++ ")"
  | .print e _ => "(print " ++ e.text ++ ")"
  | .declare name (some e) _ => "(var " ++ name ++ " " ++ e.text ++ ")"
  | .declare name none _ => "(var " ++ name ++ ")"
  | .block body _ => "(block" ++ spaced body ++ ")"

def spaced : List Statement → String
  | [] => ""
  | s :: ss => " " ++ s.text ++ spaced ss

end

end Statement

end Treewalk
