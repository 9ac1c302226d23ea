import Mathlib.Algebra.Group.Nat.Defs
import Treewalk.Proofs.Grammar.Failures

namespace Treewalk

open TokenParser

def Complaint.isTooDeep : Complaint → Bool
  | .tooDeep _ => true
  | _ => false

def IsTooDeep {α : Type} : EStateM.Result Diagnostic (List Token) α → Prop
  | .ok .. => False
  | .error d _ => d.complaint.isTooDeep

namespace TokenParser

variable {α β : Type}

def Curtails (x y : TokenParser α) : Prop :=
  ∀ ts, ¬ IsTooDeep (x ts) → y ts = x ts

namespace Curtails

variable {x y : TokenParser α} {f g : α → TokenParser β}

theorem refl (x : TokenParser α) : x.Curtails x :=
  fun _ _ => rfl

theorem bind (hx : x.Curtails y) (hf : ∀ a, (f a).Curtails (g a)) : (x >>= f).Curtails (y >>= g) := by
  intro ts h
  cases hxt : x ts with
  | ok a mid =>
    have hyt : y ts = .ok a mid := (hx ts (by rw [hxt]; exact id)).trans hxt
    rw [bind_of_ok hxt] at h ⊢
    rw [bind_of_ok hyt]
    exact hf a mid h
  | error d mid =>
    rw [bind_of_error hxt] at h ⊢
    have hyt : y ts = .error d mid := (hx ts (by rwa [hxt])).trans hxt
    exact bind_of_error hyt

theorem map {f : α → β} (hx : x.Curtails y) : (f <$> x).Curtails (f <$> y) := by
  rw [map_eq_pure_bind, map_eq_pure_bind]
  exact hx.bind fun _ => .refl _

end Curtails

end TokenParser

inductive Shallower {α : Type} (R : α → α → Prop) : Option α → Option α → Prop
  | none {inner : Option α} : Shallower R none inner
  | some {a b : α} : R a b → Shallower R (some a) (some b)

namespace Grammar

structure CurtailsBoth (g g' : Grammar) : Prop where
  operand : g.operand.Curtails g'.operand
  expression : g.expression.Curtails g'.expression

section Steps

variable {inner inner' : Option Grammar} {operand operand' : TokenParser Expr}

theorem enter_bind_curtails {f f' : Grammar → TokenParser Expr} (h : Shallower CurtailsBoth inner inner')
    (opener : Token) (hf : ∀ g g', g.CurtailsBoth g' → (f g).Curtails (f' g')) :
    (enter inner opener >>= f).Curtails (enter inner' opener >>= f') := by
  cases h with
  | none => exact fun ts hts => absurd rfl hts
  | some hg => exact hf _ _ hg

theorem closing_curtails {g g' : Grammar} (h : g.CurtailsBoth g') (line : Nat) :
    (g.closing line).Curtails (g'.closing line) :=
  h.expression.bind fun _ => .refl _

theorem primary_curtails (h : Shallower CurtailsBoth inner inner') : (primary inner).Curtails (primary inner') := by
  intro ts
  by_cases hl : (Token.peek ts).kind = .symbol .leftParen
  · rw [primary_inside hl, primary_inside hl]
    refine enter_bind_curtails h (Token.peek ts) (fun g g' hg => ?_) ts
    exact (Curtails.refl advance).bind fun _ => closing_curtails hg _
  · exact fun _ => (primary_outside hl).trans (primary_outside hl).symm

theorem unary_curtails (h : Shallower CurtailsBoth inner inner') : (unary inner).Curtails (unary inner') := by
  refine (Curtails.refl peek).bind fun t => ?_
  cases UnaryOp.ofKind? t.kind with
  | none => exact primary_curtails h
  | some op =>
    refine enter_bind_curtails h t fun g g' hg => ?_
    exact (Curtails.refl advance).bind fun _ => hg.operand.bind fun _ => .refl _

theorem extend_curtails (p : Precedence) (h : operand.Curtails operand') (fuel : Nat) (left : Expr) :
    (extend p operand fuel left).Curtails (extend p operand' fuel left) := by
  induction fuel generalizing left with
  | zero => exact .refl _
  | succ fuel ih =>
    rw [extend, extend]
    refine (Curtails.refl peek).bind fun t => ?_
    cases (BinaryOp.ofKind? t.kind).filter (·.precedence = p) with
    | none => exact .refl _
    | some op => exact (Curtails.refl advance).bind fun _ => h.bind fun _ => ih _

theorem chain_curtails (p : Precedence) (h : operand.Curtails operand') :
    (chain p operand).Curtails (chain p operand') :=
  h.bind fun left => (Curtails.refl get).bind fun rest => extend_curtails p h rest.length left

theorem binary_curtails (h : operand.Curtails operand') (ps : List Precedence) :
    (binary operand ps).Curtails (binary operand' ps) := by
  induction ps with
  | nil => exact h
  | cons p ps ih => exact chain_curtails p ih

theorem assignment_curtails (h : Shallower CurtailsBoth inner inner') (ht : operand.Curtails operand') :
    (assignment inner operand).Curtails (assignment inner' operand') := by
  refine ht.bind fun left => (Curtails.refl (accept _)).bind fun o => ?_
  cases o with
  | none => exact .refl _
  | some equals =>
    refine enter_bind_curtails h equals fun g g' hg => ?_
    exact hg.expression.bind fun _ => .refl _

theorem around_curtails (h : Shallower CurtailsBoth inner inner') : (around inner).CurtailsBoth (around inner') where
  operand := unary_curtails h
  expression := assignment_curtails h (binary_curtails (unary_curtails h) _)

end Steps

section Room

variable {room more : Nat}

theorem within_curtails (h : room ≤ more) : Shallower CurtailsBoth (within room) (within more) := by
  induction room generalizing more with
  | zero => exact .none
  | succ room ih =>
    obtain ⟨more, rfl⟩ := Nat.exists_eq_add_of_lt h
    refine .some ?_
    rw [ofRoom_eq_around, ofRoom_eq_around]
    exact around_curtails (ih (by omega))

theorem ofRoom_curtails (h : room ≤ more) : (ofRoom room).CurtailsBoth (ofRoom more) := by
  rw [ofRoom_eq_around, ofRoom_eq_around]
  exact around_curtails (within_curtails h)

theorem parser_curtails (h : room ≤ more) (n : Nonterminal) : (parser room n).Curtails (parser more n) := by
  have hg := ofRoom_curtails h
  cases n with
  | assignment => exact hg.expression
  | equality | comparison | term | factor => exact binary_curtails hg.operand _
  | unary => exact hg.operand
  | primary => exact primary_curtails (within_curtails h)

end Room

section Words

variable {w : Nat}

def counted? (depth : BitVec w) : Option Grammar :=
  if maxNesting ≤ depth.toNat then some (around none)
  else if h : depth.toNat + 1 < 2 ^ w then
    (counted? (.ofNatLT (depth.toNat + 1) h)).map fun inner => around (some inner)
  else none
termination_by maxNesting - depth.toNat
decreasing_by
  rw [BitVec.toNat_ofNatLT]
  omega

theorem counted?_eq (hw : maxNesting < 2 ^ w) (depth : BitVec w) :
    counted? depth = some (atDepth depth.toNat) := by
  fun_induction counted? depth with
  | case1 depth h => rw [atDepth, Nat.sub_eq_zero_of_le h, ofRoom]
  | case2 depth h hfits ih =>
    obtain ⟨room, hroom⟩ : ∃ room, maxNesting - depth.toNat = room + 1 :=
      Nat.exists_eq_add_one_of_ne_zero (by omega)
    have hinside : maxNesting - (depth.toNat + 1) = room := by omega
    rw [ih, BitVec.toNat_ofNatLT, atDepth, atDepth, hroom, hinside, ofRoom]
    rfl
  | case3 depth h hover => omega

example : (counted? (BitVec.ofNat 7 127)).isNone := by cbv

end Words

end Grammar

theorem depth_only_limits :
    (∀ shallow deep, shallow ≤ deep → ∀ ts : List Token,
      (∀ n, ¬ IsTooDeep (Grammar.parser (maxNesting - deep) n ts) →
        Grammar.parser (maxNesting - shallow) n ts = Grammar.parser (maxNesting - deep) n ts) ∧
      ∀ line, ¬ IsTooDeep ((Grammar.atDepth deep).closing line ts) →
        (Grammar.atDepth shallow).closing line ts = (Grammar.atDepth deep).closing line ts) ∧
    ∀ w, maxNesting < 2 ^ w → ∀ depth : BitVec w,
      Grammar.counted? depth = some (Grammar.atDepth depth.toNat) := by
  refine ⟨fun shallow deep h ts => ?_, fun w hw => Grammar.counted?_eq hw⟩
  have hroom : maxNesting - deep ≤ maxNesting - shallow := by omega
  exact ⟨fun n => Grammar.parser_curtails hroom n ts,
    fun line => Grammar.closing_curtails (Grammar.ofRoom_curtails hroom) line ts⟩

-- At the largest depth of a word `a == )` fails as it does at depth 0. What follows the parenthesis in `(a = !b);`
-- opens the last two levels inside 126 others.
theorem depth_only_limits_largest :
    let missing : List Token :=
      [⟨.identifier, "a", none, 1⟩, ⟨.symbol .equalEqual, "==", none, 1⟩, ⟨.symbol .rightParen, ")", none, 2⟩]
    let opened : List Token :=
      [⟨.identifier, "a", none, 1⟩, ⟨.symbol .equal, "=", none, 1⟩, ⟨.symbol .bang, "!", none, 1⟩,
        ⟨.identifier, "b", none, 1⟩, ⟨.symbol .rightParen, ")", none, 2⟩, ⟨.symbol .semicolon, ";", none, 2⟩]
    let group : Expr := .group (.assign "a" (.unary .not (.variable "b" 1) 1) 1) 1
    Grammar.counted? (BitVec.allOnes 64) = some (Grammar.atDepth (2 ^ 64 - 1)) ∧
      Expr.parse (2 ^ 64 - 1) missing = .error ⟨.missingExpression (.lexeme ")"), 2⟩ (missing.drop 2) ∧
      Expr.parse 0 missing = .error ⟨.missingExpression (.lexeme ")"), 2⟩ (missing.drop 2) ∧
      (Grammar.atDepth 126).closing 1 opened = .ok group (opened.drop 5) ∧
      (Grammar.atDepth 3).closing 1 opened = .ok group (opened.drop 5) := by
  intro missing opened group
  obtain ⟨hlimit, hword⟩ := depth_only_limits
  have hmissing : Expr.parse (2 ^ 64 - 1) missing =
      .error ⟨.missingExpression (.lexeme ")"), 2⟩ (missing.drop 2) := rfl
  have hopened : (Grammar.atDepth 126).closing 1 opened = .ok group (opened.drop 5) := rfl
  refine ⟨?_, hmissing, ?_, hopened, ?_⟩
  · rw [hword 64 (by decide) (BitVec.allOnes 64), BitVec.toNat_allOnes]
  · refine ((hlimit 0 (2 ^ 64 - 1) (Nat.zero_le _) missing).1 .assignment ?_).trans hmissing
    intro hdeep
    cases hdeep
  · refine ((hlimit 3 126 (by decide) opened).2 1 ?_).trans hopened
    rw [hopened]
    exact id

end Treewalk
