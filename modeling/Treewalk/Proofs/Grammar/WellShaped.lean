import Treewalk.Proofs.Height

namespace Treewalk

namespace Expr

def isAssign : Expr → Bool
  | .assign .. => true
  | _ => false

def isOperand : Expr → Bool
  | .literal .. | .variable .. | .group .. | .unary .. => true
  | .binary .. | .assign .. => false

-- What is not binary has looseness 0, so the comparisons are about operands that are binary themselves. No
-- assignment is an operand, which leaves it to be a whole expression, or inside a group or another assignment.
def WellShaped : Expr → Prop
  | .literal .. | .variable .. => True
  | .group e _ | .assign _ e _ => e.WellShaped
  | .unary _ e _ => e.isOperand ∧ e.WellShaped
  | .binary op l r _ =>
      l.isAssign = false ∧ l.looseness ≤ op.precedence.looseness ∧ l.WellShaped ∧
        r.isAssign = false ∧ r.looseness < op.precedence.looseness ∧ r.WellShaped

theorem isOperand_of_tight {e : Expr} (hassign : e.isAssign = false) (htight : e.looseness = 0) : e.isOperand := by
  cases e with
  | binary op l r line => exact absurd htight (Nat.ne_of_gt op.precedence.looseness_pos)
  | assign x e line => cases hassign
  | _ => rfl

end Expr

namespace Derives

variable {n : Nonterminal} {ts : List Token} {e : Expr}

theorem isAssign_eq_false (h : Derives n ts e) (hn : n ≠ .assignment) : e.isAssign = false := by
  induction h with
  | assign => exact absurd rfl hn
  | @tighter n m _ _ hm _ ih =>
    refine ih ?_
    rintro rfl
    cases n <;> cases hm
  | _ => rfl

theorem wellShaped (h : Derives n ts e) : e.WellShaped := by
  induction h with
  | constant | name => trivial
  | group _ _ _ ih | assign _ _ _ ih => exact ih
  | unary _ _ hd ih =>
    exact ⟨Expr.isOperand_of_tight (hd.isAssign_eq_false nofun) (Nat.le_zero.mp hd.looseness_le), ih⟩
  | @binary n m t s op ts us l r hm _ hs hl hr ihl ihr =>
    obtain ⟨hop, hnm⟩ := Nonterminal.looseness_operator hm hs
    have hn : n ≠ .assignment := by
      rintro rfl
      cases hs
    have hm' : m ≠ .assignment := by
      rintro rfl
      cases n <;> cases hm
    refine ⟨hl.isAssign_eq_false hn, hop ▸ hl.looseness_le, ihl, hr.isAssign_eq_false hm', ?_, ihr⟩
    rw [hop, hnm]
    exact Nat.lt_succ_of_le hr.looseness_le
  | tighter _ _ ih => exact ih

end Derives

namespace Statement

mutual

def WellShaped : Statement → Prop
  | .expression e _ | .print e _ => e.WellShaped
  | .declare _ none _ => True
  | .declare _ (some e) _ => e.WellShaped
  | .block body _ => WellShapedAll body

def WellShapedAll : List Statement → Prop
  | [] => True
  | s :: ss => s.WellShaped ∧ WellShapedAll ss

end

theorem wellShapedAll_iff {ss : List Statement} : WellShapedAll ss ↔ ∀ s ∈ ss, s.WellShaped := by
  induction ss with
  | nil => simp [WellShapedAll]
  | cons s ss ih => simp only [WellShapedAll, ih, List.forall_mem_cons]

def Shapely (one : List Token → Parsed) (room : Nat) : Prop :=
  ∀ ts, ∀ s ∈ (one ts).statements, s.WellShaped ∧ s.nesting ≤ room

end Statement

mutual

theorem DerivesDeclaration.wellShaped {ts : List Token} {s : Statement} : DerivesDeclaration ts s → s.WellShaped
  | .var .. => trivial
  | .init _ _ _ hd _ => hd.wellShaped
  | .statement h => h.wellShaped

theorem DerivesStatement.wellShaped {ts : List Token} {s : Statement} : DerivesStatement ts s → s.WellShaped
  | .print _ hd _ | .expression hd _ => hd.wellShaped
  | .block _ hrow _ => Row.wellShaped hrow

theorem Row.wellShaped {ts : List Token} {ss : List Statement} :
    Row DerivesDeclaration ts ss → Statement.WellShapedAll ss
  | .nil => trivial
  | .cons hd hrow => ⟨hd.wellShaped, Row.wellShaped hrow⟩

end

namespace Statement

theorem Shapely.parseMany {one : List Token → Parsed} {room : Nat} (h : Shapely one room) (stop : TokenKind → Bool)
    (fuel : Nat) : Shapely (parseMany stop one fuel) room := by
  induction fuel with
  | zero => exact fun _ => List.forall_mem_nil _
  | succ fuel ih =>
    intro ts
    cases hs : stop (Token.peek ts).kind with
    | true =>
      rw [parseMany_stop hs]
      exact List.forall_mem_nil _
    | false =>
      rw [parseMany_step hs]
      exact List.forall_mem_append.mpr ⟨h ts, ih (one ts).rest⟩

theorem Shapely.block {one : List Token → Parsed} {room : Nat} (h : Shapely one room) {brace : Token}
    {ts : List Token} {s : Statement} (hs : (attemptBlock (some one) brace ts).result = .ok s) :
    s.WellShaped ∧ s.nesting ≤ room + 1 := by
  have hbody := h.parseMany endsBlock ts.length ts
  by_cases hk : (Token.peek (parseAll endsBlock one ts).rest).kind = .symbol .rightBrace
  · rw [attemptBlock_of_close hk (Token.eq_cons_of_peek_kind (by simp) hk)] at hs
    cases hs
    exact ⟨wellShapedAll_iff.mpr fun s hs => (hbody s hs).1,
      Nat.succ_le_succ (nestingAll_le.mpr fun s hs => (hbody s hs).2)⟩
  · rw [attemptBlock_unclosed hk] at hs
    cases hs

theorem parseOne_shapely_of {room : Nat}
    (hblock : ∀ brace ts s, (attemptBlock (oneWithin room) brace ts).result = .ok s →
      s.WellShaped ∧ s.nesting ≤ room) :
    Shapely (parseOne room) room := by
  intro ts
  rw [parseOne_eq]
  cases hr : (attempt (.ofRoom room) (oneWithin room) ts).result with
  | ok s =>
    rw [Parsed.ofAttempt_of_ok hr]
    refine List.forall_mem_singleton.mpr ?_
    by_cases hl : (Token.peek ts).kind = .symbol .leftBrace
    · rw [attempt_brace hl] at hr
      exact hblock _ _ s hr
    · obtain ⟨rest, ⟨used, -, hd, hn, -⟩, -⟩ := attempt_ok hl hr
      exact ⟨hd.wellShaped, hn⟩
  | error d =>
    rw [Parsed.ofAttempt_of_error hr]
    exact List.forall_mem_nil _

theorem parseOne_shapely (room : Nat) : Shapely (parseOne room) room := by
  induction room with
  | zero => exact parseOne_shapely_of nofun
  | succ room ih => exact parseOne_shapely_of fun _ _ _ hs => ih.block hs

theorem parsed_wellShaped (ts : List Token) :
    ∀ s ∈ (parse ts).statements, s.WellShaped ∧ s.nesting ≤ maxNesting :=
  (parseOne_shapely maxNesting).parseMany _ _ ts

def recoveredSource : String :=
  "\x7b nil = a; b = !(c = a) == a - a - a; var ; \x7d print"

def recovered : Statement :=
  .block [.expression (.assign "b" (.binary .equal
    (.unary .not (.group (.assign "c" (.variable "a" 1) 1) 1) 1)
    (.binary .subtract (.binary .subtract (.variable "a" 1) (.variable "a" 1) 1) (.variable "a" 1) 1) 1) 1) 1] 1

theorem parsed_wellShaped_recovered :
    (parse (scan recoveredSource).tokens).diagnostics.length = 3 ∧
      recovered ∈ (parse (scan recoveredSource).tokens).statements ∧
      recovered.WellShaped ∧ recovered.nesting ≤ maxNesting := by
  have hdiagnostics : (parse (scan recoveredSource).tokens).diagnostics.length = 3 := by decide +kernel
  have hmem : recovered ∈ (parse (scan recoveredSource).tokens).statements := by decide +kernel
  exact ⟨hdiagnostics, hmem, parsed_wellShaped _ recovered hmem⟩

end Statement

end Treewalk
