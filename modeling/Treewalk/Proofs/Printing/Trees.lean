import Treewalk.Proofs.Lexical.LongestMatch
import Treewalk.Proofs.Lines
import Treewalk.Proofs.Numbers
import Treewalk.Proofs.Printing.Sexp

namespace Treewalk

def IsName (name : String) : Prop :=
  name.toList ∈ TokenKind.pattern .identifier ∧ ∀ w, name.toList ∉ TokenKind.pattern (.keyword w)

def Value.Spelled : Value → Prop
  | .number x => Number.Unsigned x
  | .string s => ∀ c ∈ s.toList, c ≠ '"'
  | .nil | .boolean _ => True

def Value.sexp : Value → Sexp
  | .string s => .quoted s
  | v => .word v.text

namespace UnaryOp

def ofText? (text : String) : Option UnaryOp :=
  [negate, not].find? (·.text = text)

@[simp] theorem ofText?_text (op : UnaryOp) : ofText? op.text = some op := by
  cases op <;> decide

end UnaryOp

namespace BinaryOp

def ofText? (text : String) : Option BinaryOp :=
  all.find? (·.text = text)

@[simp] theorem ofText?_text (op : BinaryOp) : ofText? op.text = some op := by
  cases op <;> decide

end BinaryOp

namespace Expr

def Spelled : Expr → Prop
  | .literal v _ => v.Spelled
  | .group e _ | .unary _ e _ => e.Spelled
  | .binary _ l r _ => l.Spelled ∧ r.Spelled
  | .variable name _ => IsName name
  | .assign name e _ => IsName name ∧ e.Spelled

def skeleton : Expr → Expr
  | .literal (.number x) _ => if x.isInf then .variable "inf" 0 else .literal (.number x) 0
  | .literal v _ => .literal v 0
  | .group e _ => .group e.skeleton 0
  | .unary op e _ => .unary op e.skeleton 0
  | .binary op l r _ => .binary op l.skeleton r.skeleton 0
  | .variable name _ => .variable name 0
  | .assign name e _ => .assign name e.skeleton 0

def sexp : Expr → Sexp
  | .literal v _ => v.sexp
  | .group e _ => .list "group" [e.sexp]
  | .unary op e _ => .list op.text [e.sexp]
  | .binary op l r _ => .list op.text [l.sexp, r.sexp]
  | .variable name _ => .word name
  | .assign name e _ => .list "=" [.word name, e.sexp]

def ofWord (word : String) : Expr :=
  if word.toList.head?.any Char.isDigit then .literal (.number (Number.ofChars word.toList)) 0
  else
    match Keyword.ofText? word with
    | some .nil => .literal .nil 0
    | some .true => .literal (.boolean true) 0
    | some .false => .literal (.boolean false) 0
    | _ => .variable word 0

def assignTo (value : Expr) : Expr → Expr
  | .variable name _ => .assign name value 0
  | _ => value

def ofNode (head : String) : List Expr → Expr
  | [e] => (UnaryOp.ofText? head).elim (.group e 0) (.unary · e 0)
  | [l, r] => (BinaryOp.ofText? head).elim (assignTo r l) (.binary · l r 0)
  | _ => .literal .nil 0

end Expr

namespace Sexp

mutual

def expr : Sexp → Expr
  | .word text => .ofWord text
  | .quoted text => .literal (.string text) 0
  | .list head items => .ofNode head (exprs items)

def exprs : List Sexp → List Expr
  | [] => []
  | s :: ss => s.expr :: exprs ss

end

end Sexp

theorem IsName.head {name : String} (h : IsName name) :
    ∃ c cs, name.toList = c :: cs ∧ Piece.startsName c ∧ ∀ d ∈ cs, Piece.continuesName d := by
  obtain ⟨c, cs, hc, hcs, heq⟩ := TokenKind.mem_identifier.mp h.1
  exact ⟨c, cs, heq, hc, hcs⟩

theorem IsName.ofText? {name : String} (h : IsName name) : Keyword.ofText? name = none := by
  cases hw : Keyword.ofText? name with
  | none => rfl
  | some w => exact absurd (congrArg String.toList (Keyword.text_of_ofText? hw).symm) (h.2 w)

theorem Expr.ofWord_name {name : String} (h : IsName name) : ofWord name = .variable name 0 := by
  obtain ⟨c, cs, heq, hc, -⟩ := h.head
  have hdigit : ¬ name.toList.head?.any Char.isDigit := by
    rw [heq]
    exact Piece.not_isDigit_of_startsName hc
  rw [ofWord, if_neg hdigit, h.ofText?]

theorem Expr.ofWord_number {word : String} (h : word.toList ∈ TokenKind.pattern .number) :
    ofWord word = .literal (.number (Number.ofChars word.toList)) 0 := by
  obtain ⟨c, cs, hc, -, heq | ⟨_, _, _, _, heq⟩⟩ := TokenKind.mem_number.mp h
  · rw [ofWord, if_pos (by rw [heq]; exact hc)]
  · rw [ofWord, if_pos (by rw [heq]; exact hc)]

theorem Value.expr_sexp {v : Value} {line : Nat} (h : v.Spelled) : v.sexp.expr = (Expr.literal v line).skeleton := by
  cases v with
  | nil => rfl
  | boolean b => cases b <;> rfl
  | string s => rfl
  | number x =>
    rw [Expr.skeleton]
    change Expr.ofWord (Number.text x) = _
    obtain ⟨hinf, htext⟩ | ⟨hfinite, hmem, hread⟩ := Number.unsigned_cases h
    · rw [if_pos hinf, htext]
      decide
    · rw [if_neg hfinite, Expr.ofWord_number hmem, hread]

namespace Expr

theorem chars_sexp (e : Expr) : e.sexp.chars = e.text.toList := by
  induction e with
  | literal v line => cases v <;> simp [sexp, Value.sexp, Sexp.chars, text, Value.sourceText]
  | group e line ih => simp [sexp, Sexp.chars, Sexp.charsAll, text, ih]
  | unary op e line ih => simp [sexp, Sexp.chars, Sexp.charsAll, text, ih]
  | binary op l r line ihl ihr => simp [sexp, Sexp.chars, Sexp.charsAll, text, ihl, ihr]
  | «variable» name line => rfl
  | assign name e line ih => simp [sexp, Sexp.chars, Sexp.charsAll, text, ih]

theorem expr_sexp {e : Expr} (h : e.Spelled) : e.sexp.expr = e.skeleton := by
  induction e with
  | literal v line => exact Value.expr_sexp h
  | group e line ih => exact congrArg (ofNode "group" [·]) (ih h)
  | unary op e line ih =>
    simp only [sexp, Sexp.expr, Sexp.exprs, ofNode, ih h, skeleton, UnaryOp.ofText?_text, Option.elim_some]
  | binary op l r line ihl ihr =>
    simp only [sexp, Sexp.expr, Sexp.exprs, ofNode, ihl h.1, ihr h.2, skeleton, BinaryOp.ofText?_text, Option.elim_some]
  | «variable» name line => exact ofWord_name h
  | assign name e line ih =>
    simp only [sexp, Sexp.expr, Sexp.exprs, ofWord_name h.1, ih h.2, skeleton]
    rfl

end Expr

theorem Sexp.isPlain_of {p : Char → Bool} (hp : [' ', '(', ')', '"', '\n'].all (!p ·)) {c : Char} (h : p c) :
    isPlain c := by
  rw [isPlain, decide_eq_true_eq]
  intro hc
  have hpc := List.all_eq_true.mp hp c hc
  rw [h] at hpc
  cases hpc

theorem IsName.isWord {name : String} (h : IsName name) : Sexp.IsWord name := by
  obtain ⟨c, cs, heq, hc, hcs⟩ := h.head
  rw [Sexp.IsWord, heq]
  refine ⟨List.cons_ne_nil _ _, List.forall_mem_cons.mpr ⟨?_, fun d hd => ?_⟩⟩
  · exact Sexp.isPlain_of (p := Piece.startsName) (by decide) hc
  · exact Sexp.isPlain_of (p := Piece.continuesName) (by decide) (hcs d hd)

theorem isWord_number {word : String} (h : word.toList ∈ TokenKind.pattern .number) : Sexp.IsWord word := by
  have plain {c : Char} (h : c.isDigit) : Sexp.isPlain c := Sexp.isPlain_of (p := Char.isDigit) (by decide) h
  obtain ⟨c, cs, hc, hcs, heq | ⟨d, ds, hd, hds, heq⟩⟩ := TokenKind.mem_number.mp h
  · rw [Sexp.IsWord, heq]
    exact ⟨List.cons_ne_nil _ _, List.forall_mem_cons.mpr ⟨plain hc, fun x hx => plain (hcs x hx)⟩⟩
  · rw [Sexp.IsWord, heq]
    refine ⟨List.cons_ne_nil _ _, List.forall_mem_append.mpr ⟨?_, ?_⟩⟩
    · exact List.forall_mem_cons.mpr ⟨plain hc, fun x hx => plain (hcs x hx)⟩
    · exact List.forall_mem_cons.mpr ⟨rfl, List.forall_mem_cons.mpr ⟨plain hd, fun x hx => plain (hds x hx)⟩⟩

theorem Value.wellFormed_sexp {v : Value} (h : v.Spelled) : v.sexp.WellFormed := by
  cases v with
  | nil => exact (by decide +kernel : Sexp.IsWord "nil")
  | boolean b =>
    change Sexp.IsWord (if b then "true" else "false")
    cases b <;> decide +kernel
  | string s => exact h
  | number x =>
    change Sexp.IsWord (Number.text x)
    obtain ⟨-, htext⟩ | ⟨-, hmem, -⟩ := Number.unsigned_cases h
    · rw [htext]
      decide +kernel
    · exact isWord_number hmem

namespace Expr

theorem wellFormed_sexp {e : Expr} (h : e.Spelled) : e.sexp.WellFormed := by
  induction e with
  | literal v line => exact Value.wellFormed_sexp h
  | group e line ih => exact ⟨by decide +kernel, ih h, trivial⟩
  | unary op e line ih => exact ⟨by cases op <;> decide +kernel, ih h, trivial⟩
  | binary op l r line ihl ihr => exact ⟨by cases op <;> decide +kernel, ihl h.1, ihr h.2, trivial⟩
  | «variable» name line => exact IsName.isWord h
  | assign name e line ih => exact ⟨by decide +kernel, h.1.isWord, ih h.2, trivial⟩

theorem sexp_skeleton {e : Expr} (h : e.Spelled) : e.skeleton.sexp = e.sexp := by
  induction e with
  | literal v line =>
    cases v with
    | number x =>
      rw [skeleton]
      obtain ⟨hinf, htext⟩ | ⟨hfinite, -, -⟩ := Number.unsigned_cases h
      · rw [if_pos hinf]
        exact congrArg Sexp.word htext.symm
      · rw [if_neg hfinite]
        rfl
    | nil | boolean | string => rfl
  | group e line ih => simp only [skeleton, sexp, ih h]
  | unary op e line ih => simp only [skeleton, sexp, ih h]
  | binary op l r line ihl ihr => simp only [skeleton, sexp, ihl h.1, ihr h.2]
  | «variable» name line => rfl
  | assign name e line ih => simp only [skeleton, sexp, ih h.2]

end Expr

namespace Statement

mutual

def Spelled : Statement → Prop
  | .expression e _ | .print e _ => e.Spelled
  | .declare name initial _ => IsName name ∧ ∀ e ∈ initial, e.Spelled
  | .block body _ => AllSpelled body

def AllSpelled : List Statement → Prop
  | [] => True
  | s :: ss => s.Spelled ∧ AllSpelled ss

end

mutual

def skeleton : Statement → Statement
  | .expression e _ => .expression e.skeleton 0
  | .print e _ => .print e.skeleton 0
  | .declare name initial _ => .declare name (initial.map Expr.skeleton) 0
  | .block body _ => .block (skeletons body) 0

def skeletons : List Statement → List Statement
  | [] => []
  | s :: ss => s.skeleton :: skeletons ss

end

mutual

def sexp : Statement → Sexp
  | .expression e _ => .list "expr" [e.sexp]
  | .print e _ => .list "print" [e.sexp]
  | .declare name none _ => .list "var" [.word name]
  | .declare name (some e) _ => .list "var" [.word name, e.sexp]
  | .block body _ => .list "block" (sexps body)

def sexps : List Statement → List Sexp
  | [] => []
  | s :: ss => s.sexp :: sexps ss

end

def declareAs (initial : Option Expr) : Expr → Statement
  | .variable name _ => .declare name initial 0
  | e => .expression e 0

def ofClause (head : String) : List Expr → Statement
  | [e] =>
      if head = "expr" then .expression e 0
      else if head = "print" then .print e 0
      else declareAs none e
  | [x, e] => declareAs (some e) x
  | _ => .block [] 0

end Statement

namespace Sexp

mutual

def statement : Sexp → Statement
  | .word _ | .quoted _ => .block [] 0
  | .list head items => if head = "block" then .block (statements items) 0 else .ofClause head (exprs items)

def statements : List Sexp → List Statement
  | [] => []
  | s :: ss => s.statement :: statements ss

end

end Sexp

namespace Statement

mutual

theorem chars_sexp : (s : Statement) → s.sexp.chars = s.text.toList
  | .expression e _ => by simp [sexp, Sexp.chars, Sexp.charsAll, text, e.chars_sexp]
  | .print e _ => by simp [sexp, Sexp.chars, Sexp.charsAll, text, e.chars_sexp]
  | .declare name none _ => by simp [sexp, Sexp.chars, Sexp.charsAll, text]
  | .declare name (some e) _ => by simp [sexp, Sexp.chars, Sexp.charsAll, text, e.chars_sexp]
  | .block body _ => by simp [sexp, Sexp.chars, text, charsAll_sexps body]

theorem charsAll_sexps : (ss : List Statement) → Sexp.charsAll (sexps ss) = (spaced ss).toList
  | [] => rfl
  | s :: ss => by simp [sexps, Sexp.charsAll, spaced, s.chars_sexp, charsAll_sexps ss]

end

mutual

theorem wellFormed_sexp : {s : Statement} → s.Spelled → s.sexp.WellFormed
  | .expression _ _, h => ⟨by decide +kernel, Expr.wellFormed_sexp h, trivial⟩
  | .print _ _, h => ⟨by decide +kernel, Expr.wellFormed_sexp h, trivial⟩
  | .declare _ none _, h => ⟨by decide +kernel, h.1.isWord, trivial⟩
  | .declare _ (some e) _, h => ⟨by decide +kernel, h.1.isWord, Expr.wellFormed_sexp (h.2 e rfl), trivial⟩
  | .block _ _, h => ⟨by decide +kernel, allWellFormed_sexps h⟩

theorem allWellFormed_sexps : {ss : List Statement} → AllSpelled ss → Sexp.AllWellFormed (sexps ss)
  | [], _ => trivial
  | _ :: _, h => ⟨wellFormed_sexp h.1, allWellFormed_sexps h.2⟩

end

mutual

theorem statement_sexp : {s : Statement} → s.Spelled → s.sexp.statement = s.skeleton
  | .expression _ _, h => congrArg (ofClause "expr" [·]) (Expr.expr_sexp h)
  | .print _ _, h => congrArg (ofClause "print" [·]) (Expr.expr_sexp h)
  | .declare _ none _, h => congrArg (ofClause "var" [·]) (Expr.ofWord_name h.1)
  | .declare _ (some e) _, h =>
    congrArg₂ (ofClause "var" [·, ·]) (Expr.ofWord_name h.1) (Expr.expr_sexp (h.2 e rfl))
  | .block _ _, h => congrArg (block · 0) (statements_sexps h)

theorem statements_sexps : {ss : List Statement} → AllSpelled ss → Sexp.statements (sexps ss) = skeletons ss
  | [], _ => rfl
  | _ :: _, h => congrArg₂ (· :: ·) (statement_sexp h.1) (statements_sexps h.2)

end

mutual

theorem sexp_skeleton : {s : Statement} → s.Spelled → s.skeleton.sexp = s.sexp
  | .expression _ _, h => by rw [skeleton, sexp, sexp, Expr.sexp_skeleton h]
  | .print _ _, h => by rw [skeleton, sexp, sexp, Expr.sexp_skeleton h]
  | .declare _ none _, _ => rfl
  | .declare _ (some e) _, h => by
    rw [skeleton, Option.map_some, sexp, sexp, Expr.sexp_skeleton (h.2 e rfl)]
  | .block _ _, h => by rw [skeleton, sexp, sexp, sexps_skeletons h]

theorem sexps_skeletons : {ss : List Statement} → AllSpelled ss → sexps (skeletons ss) = sexps ss
  | [], _ => rfl
  | _ :: _, h => by rw [skeletons, sexps, sexps, sexp_skeleton h.1, sexps_skeletons h.2]

end

theorem skeletons_eq_map (ss : List Statement) : skeletons ss = ss.map skeleton := by
  induction ss with
  | nil => rfl
  | cons s ss ih => rw [skeletons, List.map_cons, ih]

theorem text_eq_iff {s t : Statement} (hs : s.Spelled) (ht : t.Spelled) :
    s.text = t.text ↔ s.skeleton = t.skeleton := by
  constructor
  · intro h
    have hchars : s.sexp.chars ++ [] = t.sexp.chars ++ [] := by rw [s.chars_sexp, t.chars_sexp, h]
    obtain ⟨hsexp, -⟩ :=
      Sexp.chars_append_inj _ _ (wellFormed_sexp hs) (wellFormed_sexp ht) Sexp.ends_nil Sexp.ends_nil hchars
    rw [← statement_sexp hs, hsexp, statement_sexp ht]
  · intro h
    rw [← String.toList_inj, ← s.chars_sexp, ← t.chars_sexp, ← sexp_skeleton hs, h, sexp_skeleton ht]

theorem lines_eq_iff {ss ts : List Statement} (hs : AllSpelled ss) (ht : AllSpelled ts) :
    Sexp.lines (sexps ss) = Sexp.lines (sexps ts) ↔ skeletons ss = skeletons ts := by
  constructor
  · intro h
    have hsexps := Sexp.lines_inj (allWellFormed_sexps hs) (allWellFormed_sexps ht) h
    rw [← statements_sexps hs, hsexps, statements_sexps ht]
  · intro h
    rw [← sexps_skeletons hs, h, sexps_skeletons ht]

end Statement

end Treewalk
