import Treewalk.Proofs.Grammar
import Treewalk.Run

namespace Treewalk

section

variable (f : Nat → Nat)

def Token.mapLine (t : Token) : Token :=
  { t with line := f t.line }

def Diagnostic.mapLine (d : Diagnostic) : Diagnostic :=
  { d with line := f d.line }

def RuntimeError.mapLine (e : RuntimeError) : RuntimeError :=
  { e with line := f e.line }

def Abort.mapLine : Abort → Abort
  | .error e => .error (e.mapLine f)
  | .fault x => .fault x

def Failure.mapLine : Failure → Failure
  | .static ds => .static (ds.map (Diagnostic.mapLine f))
  | .runtime e => .runtime (e.mapLine f)
  | .fault x => .fault x

def Expr.mapLines : Expr → Expr
  | .literal v line => .literal v (f line)
  | .group e line => .group e.mapLines (f line)
  | .unary op e line => .unary op e.mapLines (f line)
  | .binary op l r line => .binary op l.mapLines r.mapLines (f line)
  | .variable name line => .variable name (f line)
  | .assign name e line => .assign name e.mapLines (f line)

mutual

def Statement.mapLines : Statement → Statement
  | .expression e line => .expression (e.mapLines f) (f line)
  | .print e line => .print (e.mapLines f) (f line)
  | .declare name initial line => .declare name (initial.map (Expr.mapLines f)) (f line)
  | .block body line => .block (Statement.mapLinesAll body) (f line)

def Statement.mapLinesAll : List Statement → List Statement
  | [] => []
  | s :: ss => s.mapLines :: Statement.mapLinesAll ss

end

end

variable {f : Nat → Nat}

namespace Token

@[simp] theorem kind_mapLine (t : Token) : (t.mapLine f).kind = t.kind := rfl

theorem kind_peek_map (ts : List Token) : (peek (ts.map (mapLine f))).kind = (peek ts).kind := by
  cases ts <;> rfl

theorem peek_map {ts : List Token} (h : ts ≠ []) : peek (ts.map (mapLine f)) = (peek ts).mapLine f := by
  cases ts with
  | nil => exact absurd rfl h
  | cons t ts => rfl

end Token

theorem Expr.nesting_mapLines (e : Expr) : (e.mapLines f).nesting = e.nesting := by
  induction e with
  | literal | «variable» => rfl
  | group _ _ ih | unary _ _ _ ih | assign _ _ _ ih => exact congrArg (· + 1) ih
  | binary op l r line ihl ihr => simp only [mapLines, nesting, ihl, ihr]

theorem Expr.mapLines_id (e : Expr) : e.mapLines id = e := by
  induction e with
  | literal | «variable» => rfl
  | group _ _ ih | unary _ _ _ ih | assign _ _ _ ih => simp only [mapLines, ih, id]
  | binary op l r line ihl ihr => simp only [mapLines, ihl, ihr, id]

theorem Expr.mapLines_eq_variable {e : Expr} {name : String} {line : Nat}
    (h : e.mapLines f = .variable name line) : ∃ line', e = .variable name line' := by
  cases e with
  | «variable» name' line' =>
    cases h
    exact ⟨line', rfl⟩
  | _ => cases h

namespace Statement

theorem mapLinesAll_eq_map (ss : List Statement) : mapLinesAll f ss = ss.map (mapLines f) := by
  induction ss with
  | nil => rfl
  | cons s ss ih => rw [mapLinesAll, List.map_cons, ih]

mutual

theorem nesting_mapLines : (s : Statement) → (s.mapLines f).nesting = s.nesting
  | .expression e _ | .print e _ => e.nesting_mapLines
  | .declare _ none _ => rfl
  | .declare _ (some e) _ => e.nesting_mapLines
  | .block body _ => congrArg (· + 1) (nestingAll_mapLines body)

theorem nestingAll_mapLines : (ss : List Statement) → nestingAll (mapLinesAll f ss) = nestingAll ss
  | [] => rfl
  | s :: ss => by rw [mapLinesAll, nestingAll, nestingAll, s.nesting_mapLines, nestingAll_mapLines ss]

end

mutual

theorem mapLines_id : (s : Statement) → s.mapLines id = s
  | .expression e _ | .print e _ => by simp only [mapLines, e.mapLines_id, id]
  | .declare _ none _ => rfl
  | .declare _ (some e) _ => by simp only [mapLines, Option.map_some, e.mapLines_id, id]
  | .block body _ => by simp only [mapLines, mapLinesAll_id body, id]

theorem mapLinesAll_id : (ss : List Statement) → mapLinesAll id ss = ss
  | [] => rfl
  | s :: ss => by rw [mapLinesAll, s.mapLines_id, mapLinesAll_id ss]

end

end Statement

theorem Abort.mapLine_id (a : Abort) : a.mapLine id = a := by
  cases a <;> rfl

theorem Failure.mapLine_id (x : Failure) : x.mapLine id = x := by
  cases x with
  | static ds => exact congrArg static (List.map_id ds)
  | runtime | fault => rfl

end Treewalk
