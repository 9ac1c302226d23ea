import Treewalk.Proofs.Execution.Frames
import Treewalk.Proofs.Grammar.Room
import Treewalk.Proofs.Joining

namespace Treewalk

namespace Precedence

def looseness : Precedence → Nat
  | .multiplicative => 1
  | .additive => 2
  | .comparison => 3
  | .equality => 4

theorem looseness_le (p : Precedence) : p.looseness ≤ 4 := by
  cases p <;> decide

theorem looseness_pos (p : Precedence) : 0 < p.looseness := by
  cases p <;> decide

theorem looseness_inj {p q : Precedence} (h : p.looseness = q.looseness) : p = q := by
  revert h
  cases p <;> cases q <;> decide

end Precedence

namespace Expr

def precedence? : Expr → Option Precedence
  | .binary op .. => some op.precedence
  | _ => none

def chain : Expr → Nat
  | .binary op l _ _ => (if l.precedence? = some op.precedence then l.chain else 0) + 1
  | _ => 0

def longestChain : Expr → Nat
  | .literal .. | .variable .. => 0
  | .group e _ | .unary _ e _ | .assign _ e _ => e.longestChain
  | .binary op l r line => max (chain (.binary op l r line)) (max l.longestChain r.longestChain)

def looseness (e : Expr) : Nat :=
  e.precedence?.elim 0 Precedence.looseness

-- Where chains have at most `k` operators, no more binary nodes lie on top of each other at the root.
def rise (k : Nat) (e : Expr) : Nat :=
  (e.looseness - 1) * k + e.chain

theorem chain_le_longestChain (e : Expr) : e.chain ≤ e.longestChain := by
  cases e with
  | binary op l r line => exact Nat.le_max_left _ _
  | _ => exact Nat.zero_le _

theorem rise_le {k : Nat} {e : Expr} (h : e.chain ≤ k) : e.rise k ≤ e.looseness * k := by
  cases e with
  | binary op l r line =>
    obtain ⟨i, hi⟩ := Nat.exists_eq_add_of_lt op.precedence.looseness_pos
    have hl : (binary op l r line).looseness = i + 1 := by
      simp only [looseness, precedence?, Option.elim, hi]
      omega
    rw [rise, hl, Nat.add_sub_cancel, Nat.succ_mul]
    exact Nat.add_le_add_left h _
  | _ => simp [rise, looseness, precedence?, chain]

theorem looseness_le (e : Expr) : e.looseness ≤ 4 := by
  cases e with
  | binary op l r line => exact op.precedence.looseness_le
  | _ => exact Nat.zero_le _

theorem looseness_eq_iff {e : Expr} {p : Precedence} :
    e.looseness = p.looseness ↔ e.precedence? = some p := by
  unfold looseness
  cases e.precedence? with
  | none => exact ⟨fun h => absurd h (Nat.ne_of_lt p.looseness_pos), nofun⟩
  | some q => exact ⟨fun h => congrArg some (Precedence.looseness_inj h), fun h => by cases h; rfl⟩

section

variable {k : Nat} {op : BinaryOp} {l r : Expr} {line : Nat}

theorem rise_chained (h : l.looseness = op.precedence.looseness) :
    l.rise k + 1 = (binary op l r line).rise k := by
  rw [rise, rise, h, chain, if_pos (looseness_eq_iff.mp h)]
  rfl

theorem rise_tight {e : Expr} (hk : e.longestChain ≤ k) (h : e.looseness < op.precedence.looseness) :
    e.rise k + 1 ≤ (binary op l r line).rise k := by
  have hrise := rise_le (e.chain_le_longestChain.trans hk)
  have hloose := Nat.mul_le_mul_right k (Nat.le_pred_of_lt h)
  have hroot : (binary op l r line).looseness = op.precedence.looseness := rfl
  have hpos : 1 ≤ (binary op l r line).chain := Nat.le_add_left _ _
  rw [rise.eq_1 k (binary op l r line), hroot]
  exact Nat.add_le_add (hrise.trans hloose) hpos

theorem rise_left (hk : l.longestChain ≤ k) (h : l.looseness ≤ op.precedence.looseness) :
    l.rise k + 1 ≤ (binary op l r line).rise k := by
  rcases Nat.eq_or_lt_of_le h with heq | hlt
  · exact (rise_chained heq).le
  · exact rise_tight hk hlt

end

theorem level_le {k : Nat} {e : Expr} (hk : e.longestChain ≤ k) :
    e.nesting * (4 * k + 1) + e.rise k + 1 ≤ (e.nesting + 1) * (4 * k + 1) := by
  have hrise := rise_le (e.chain_le_longestChain.trans hk)
  have hloose := Nat.mul_le_mul_right k e.looseness_le
  rw [Nat.add_one_mul e.nesting]
  omega

end Expr

def Nonterminal.looseness : Nonterminal → Nat
  | .assignment | .equality => 4
  | .comparison => 3
  | .term => 2
  | .factor => 1
  | .unary | .primary => 0

namespace Nonterminal

theorem looseness_tighter {n m : Nonterminal} (h : n.tighter? = some m) : m.looseness ≤ n.looseness := by
  cases n <;> cases h <;> decide

theorem looseness_operator {n m : Nonterminal} {s : Symbol} {op : BinaryOp} (hm : n.tighter? = some m)
    (hs : (s, op) ∈ n.operators) :
    op.precedence.looseness = n.looseness ∧ n.looseness = m.looseness + 1 := by
  have hp := (mem_operators_iff.mp hs).2
  generalize op.precedence = p at hp ⊢
  cases n <;> cases hm <;> cases hp <;> exact ⟨rfl, rfl⟩

end Nonterminal

namespace Derives

variable {n : Nonterminal} {ts : List Token} {e : Expr} {k : Nat}

theorem looseness_le (h : Derives n ts e) : e.looseness ≤ n.looseness := by
  induction h with
  | binary hm _ hs _ _ _ _ => exact (Nonterminal.looseness_operator hm hs).1.le
  | tighter hm _ ih => exact ih.trans (Nonterminal.looseness_tighter hm)
  | _ => exact Nat.zero_le _

theorem height_le (h : Derives n ts e) (hk : e.longestChain ≤ k) :
    e.height ≤ e.nesting * (4 * k + 1) + e.rise k + 1 := by
  have opened {e : Expr} (ih : e.height ≤ e.nesting * (4 * k + 1) + e.rise k + 1)
      (hk : e.longestChain ≤ k) (i : Nat) : e.height + 1 ≤ (e.nesting + 1) * (4 * k + 1) + i + 1 :=
    Nat.succ_le_succ (Nat.le_add_right_of_le (ih.trans (Expr.level_le hk)))
  induction h with
  | constant | name => exact Nat.le_add_left _ _
  | group _ _ _ ih | unary _ _ _ ih | assign _ _ _ ih => exact opened (ih hk) hk _
  | @binary n m t s op ts us l r hm _ hs hl hr ihl ihr =>
    obtain ⟨hkl, hkr⟩ := Nat.max_le.mp (Nat.max_le.mp hk).2
    obtain ⟨hop, hnm⟩ := Nonterminal.looseness_operator hm hs
    have hleft : l.rise k + 1 ≤ (Expr.binary op l r t.line).rise k :=
      Expr.rise_left hkl (hop ▸ hl.looseness_le)
    have hright : r.rise k + 1 ≤ (Expr.binary op l r t.line).rise k := by
      refine Expr.rise_tight hkr ?_
      have hle := hr.looseness_le
      omega
    have hnl := Nat.mul_le_mul_right (4 * k + 1) (Nat.le_max_left l.nesting r.nesting)
    have hnr := Nat.mul_le_mul_right (4 * k + 1) (Nat.le_max_right l.nesting r.nesting)
    have hl' := ihl hkl
    have hr' := ihr hkr
    simp only [Expr.height, Expr.nesting]
    omega
  | tighter _ _ ih => exact ih hk

end Derives

namespace Statement

mutual

def longestChain : Statement → Nat
  | .expression e _ | .print e _ => e.longestChain
  | .declare _ initial _ => initial.elim 0 Expr.longestChain
  | .block body _ => longestChainAll body

def longestChainAll : List Statement → Nat
  | [] => 0
  | s :: ss => max s.longestChain (longestChainAll ss)

end

end Statement

section

variable {k : Nat}

theorem Derives.height_succ_le {n : Nonterminal} {ts : List Token} {e : Expr} (h : Derives n ts e)
    (hk : e.longestChain ≤ k) : e.height + 1 ≤ (e.nesting + 1) * (4 * k + 1) + 1 :=
  Nat.succ_le_succ ((h.height_le hk).trans (Expr.level_le hk))

mutual

theorem DerivesDeclaration.height_le {ts : List Token} {s : Statement} :
    DerivesDeclaration ts s → s.longestChain ≤ k → s.height ≤ (s.nesting + 1) * (4 * k + 1) + 1
  | .var _ _ _, _ => Nat.le_add_left _ _
  | .init _ _ _ hd _, hk => hd.height_succ_le hk
  | .statement h, hk => h.height_le hk

theorem DerivesStatement.height_le {ts : List Token} {s : Statement} :
    DerivesStatement ts s → s.longestChain ≤ k → s.height ≤ (s.nesting + 1) * (4 * k + 1) + 1
  | .print _ hd _, hk | .expression hd _, hk => hd.height_succ_le hk
  | @DerivesStatement.block _ _ _ body _ hrow _, hk => by
    have hbody := Row.height_le hrow hk
    have hlevel := Nat.add_one_mul (Statement.nestingAll body + 1) (4 * k + 1)
    simp only [Statement.height, Statement.nesting]
    omega

theorem Row.height_le {ts : List Token} {ss : List Statement} :
    Row DerivesDeclaration ts ss → Statement.longestChainAll ss ≤ k →
    Statement.heightAll ss ≤ (Statement.nestingAll ss + 1) * (4 * k + 1) + 1
  | .nil, _ => Nat.zero_le _
  | @Row.cons _ _ _ s ss hd hrow, hk => by
    obtain ⟨hs, hss⟩ := Nat.max_le.mp hk
    have hfirst := hd.height_le hs
    have hothers := Row.height_le hrow hss
    have hl := Nat.mul_le_mul_right (4 * k + 1)
      (Nat.succ_le_succ (Nat.le_max_left s.nesting (Statement.nestingAll ss)))
    have hr := Nat.mul_le_mul_right (4 * k + 1)
      (Nat.succ_le_succ (Nat.le_max_right s.nesting (Statement.nestingAll ss)))
    refine Nat.max_le.mpr ⟨hfirst.trans ?_, hothers.trans ?_⟩
    · exact Nat.succ_le_succ hl
    · exact Nat.succ_le_succ hr

end

end

namespace Program

variable {source : String} {ss : List Statement} {s : Statement}

end Program

-- The tree of `1 + 1 + ... + 1;` is as high as the sum is long.
namespace LongSum

def one : Token := ⟨.number, "1", some (.number (Number.ofChars ['1'])), 1⟩

def plus : Token := ⟨.symbol .plus, "+", none, 1⟩

def semicolon : Token := ⟨.symbol .semicolon, ";", none, 1⟩

def leaf : Expr := .literal (.number (Number.ofChars ['1'])) 1

def tree : Nat → Expr
  | 0 => leaf
  | n + 1 => .binary .add (tree n) leaf 1

theorem nesting_tree (n : Nat) : (tree n).nesting = 0 := by
  induction n with
  | zero => rfl
  | succ n ih =>
    rw [tree, Expr.nesting, ih]
    rfl

theorem derives_leaf (n : Nonterminal) : Derives n [one] leaf := by
  have hprimary : Derives .primary [one] leaf := .constant (.number rfl rfl)
  have hunary : Derives .unary [one] leaf := .tighter rfl hprimary
  have hfactor : Derives .factor [one] leaf := .tighter rfl hunary
  have hterm : Derives .term [one] leaf := .tighter rfl hfactor
  have hcomparison : Derives .comparison [one] leaf := .tighter rfl hterm
  have hequality : Derives .equality [one] leaf := .tighter rfl hcomparison
  have hassignment : Derives .assignment [one] leaf := .tighter rfl hequality
  cases n <;> assumption

theorem derives_tree (n : Nat) : Derives .term (one :: (List.replicate n [plus, one]).flatten) (tree n) := by
  induction n with
  | zero => exact derives_leaf .term
  | succ n ih =>
    rw [List.replicate_succ', List.flatten_append, List.flatten_singleton, ← List.cons_append]
    exact .binary rfl rfl (by decide) ih (derives_leaf .factor)

def tail : Nat → List Char
  | 0 => [';']
  | n + 1 => '+' :: '1' :: tail n

def source (n : Nat) : String :=
  String.ofList ('1' :: tail n)

theorem first_one (n : Nat) : Piece.first '1' (tail n) = (⟨some .number, ['1']⟩, tail n) := by
  cases n <;> rfl

theorem located_tail (n : Nat) :
    (Piece.located 1 (Piece.pieces (tail n))).filterMap Piece.token? =
        (List.replicate n [plus, one]).flatten ++ [semicolon] ∧
      (Piece.located 1 (Piece.pieces (tail n))).filterMap Piece.diagnostic? = [] := by
  induction n with
  | zero => decide +kernel
  | succ n ih =>
    have hplus : Piece.first '+' ('1' :: tail n) = (⟨some (.symbol .plus), ['+']⟩, '1' :: tail n) := rfl
    rw [tail, Piece.pieces_cons, hplus, Piece.pieces_cons, first_one, List.replicate_succ, List.flatten_cons,
      List.append_assoc, ← ih.1]
    exact ⟨rfl, ih.2⟩

theorem scan_source (n : Nat) :
    ∃ line, (scan (source n)).tokens =
        one :: (List.replicate n [plus, one]).flatten ++ [semicolon] ++ [.endOfInput line] ∧
      (scan (source n)).diagnostics = [] := by
  obtain ⟨htokens, hdiagnostics⟩ := located_tail n
  have hpieces : Piece.pieces (source n).toList = ⟨some .number, ['1']⟩ :: Piece.pieces (tail n) := by
    rw [source, String.toList_ofList, Piece.pieces_cons, first_one]
  refine ⟨(scan (source n)).lines, ?_, ?_⟩
  · simp only [scan, Scanned.ofChars, hpieces]
    exact congrArg (one :: · ++ [_]) htokens
  · simp only [scan, Scanned.ofChars, hpieces]
    exact hdiagnostics

theorem accepted (n : Nat) : (Program.ofSource (source n)).accepted = .ok [.expression (tree n) 1] := by
  obtain ⟨line, htokens, hdiagnostics⟩ := scan_source n
  have hterm := derives_tree n
  have hassignment : Derives .assignment _ (tree n) := .tighter rfl (.tighter rfl (.tighter rfl hterm))
  have hrow : Row DerivesDeclaration _ [.expression (tree n) 1] :=
    .cons (.statement (.expression hassignment (q := semicolon) rfl)) .nil
  have hn : Statement.nestingAll [.expression (tree n) 1] ≤ 128 := by
    simp [Statement.nestingAll, Statement.nesting, nesting_tree]
  obtain ⟨hss, hds⟩ := Statement.parse_complete (q := .endOfInput line) rfl hrow hn
  rw [List.append_nil] at hss hds
  rw [Program.accepted_eq, Verdict.ofTokens, htokens, hdiagnostics, hss, hds]
  rfl

end LongSum

-- Each minus of `--...-1;` opens a level.
namespace ManyMinuses

def minus : Token := ⟨.symbol .minus, "-", none, 1⟩

def tree : Nat → Expr
  | 0 => LongSum.leaf
  | n + 1 => .unary .negate (tree n) 1

theorem nesting_tree (n : Nat) : (tree n).nesting = n := by
  induction n with
  | zero => rfl
  | succ n ih => rw [tree, Expr.nesting, ih]

theorem derives_tree (n : Nat) : Derives .unary (List.replicate n minus ++ [LongSum.one]) (tree n) := by
  induction n with
  | zero => exact LongSum.derives_leaf .unary
  | succ n ih => exact .unary (t := minus) rfl (by decide) ih

theorem derivesProgram (n line : Nat) :
    DerivesProgram (List.replicate (n + 1) minus ++ [LongSum.one] ++ [LongSum.semicolon] ++ [.endOfInput line])
      [.expression (tree (n + 1)) 1] := by
  have hassignment : Derives .assignment (List.replicate (n + 1) minus ++ [LongSum.one]) (tree (n + 1)) :=
    (derives_tree (n + 1)).of_unary
  have hrow : Row DerivesDeclaration _ [.expression (tree (n + 1)) 1] :=
    .cons (.statement (.expression hassignment (q := LongSum.semicolon) rfl)) .nil
  rw [List.append_nil] at hrow
  exact ⟨_, _, rfl, rfl, hrow⟩

end ManyMinuses

end Treewalk
