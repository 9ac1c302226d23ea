import Treewalk.Proofs.Grammar.Failures
import Treewalk.Proofs.Layout
import Treewalk.Proofs.Lexical.Seam
import Treewalk.Proofs.Numbers.Signs

namespace Treewalk

namespace Piece

variable {cs rest : List Char}

def EndsNumber (rest : List Char) : Prop :=
  ∀ c ∈ rest.head?, ¬ c.isDigit ∧ c ≠ '.'

theorem EndsNumber.takeWhile (h : EndsNumber rest) : rest.takeWhile Char.isDigit = [] := by
  cases rest with
  | nil => rfl
  | cons d rest => exact List.takeWhile_cons_of_neg (h d rfl).1

theorem EndsNumber.dropWhile (h : EndsNumber rest) : rest.dropWhile Char.isDigit = rest := by
  cases rest with
  | nil => rfl
  | cons d rest => exact List.dropWhile_cons_of_neg (h d rfl).1

theorem pieces_number (h : cs ∈ TokenKind.pattern .number) (hrest : EndsNumber rest) :
    pieces (cs ++ rest) = ⟨some .number, cs⟩ :: pieces rest := by
  obtain ⟨c, t, hc, ht, rfl | ⟨d, u, hd, hu, rfl⟩⟩ := TokenKind.mem_number.mp h
  · have hpoint (d : Char) (more : List Char) : rest ≠ '.' :: d :: more := by
      rintro rfl
      exact (hrest '.' rfl).2 rfl
    have hfirst : first c (t ++ rest) = (⟨some .number, c :: t⟩, rest) := by
      simp only [first_digit _ hc, number, List.takeWhile_append_of_pos ht, List.dropWhile_append_of_pos ht,
        hrest.takeWhile, hrest.dropWhile, List.append_nil]
    rw [List.cons_append, pieces_cons, hfirst]
  · have point : ¬ '.'.isDigit := by decide
    have hfirst : first c (t ++ '.' :: d :: (u ++ rest)) = (⟨some .number, c :: t ++ '.' :: d :: u⟩, rest) := by
      simp only [first_digit _ hc, number, run, List.takeWhile_append_of_pos ht, List.dropWhile_append_of_pos ht,
        List.takeWhile_cons_of_neg point, List.dropWhile_cons_of_neg point, if_pos hd,
        List.takeWhile_append_of_pos hu, List.dropWhile_append_of_pos hu, hrest.takeWhile, hrest.dropWhile]
      simp
    have hcs : c :: t ++ '.' :: d :: u ++ rest = c :: (t ++ '.' :: d :: (u ++ rest)) := by simp
    rw [hcs, pieces_cons, hfirst]

theorem pieces_minus (rest : List Char) :
    pieces ('-' :: rest) = ⟨some (.symbol .minus), ['-']⟩ :: pieces rest := by
  have hfirst : first '-' rest = (⟨some (.symbol .minus), ['-']⟩, rest) := by
    have hsymbol : Symbol.ofChar? '-' = some .minus := rfl
    rw [first_symbol rest hsymbol]
    unfold symbol
    rw [hsymbol]
    split
    case h_1 hs => cases hs
    case h_2 hs => cases hs; rfl
    case h_3 hs _ _ => cases hs; rfl
    case h_4 hs => cases hs
  rw [pieces_cons, hfirst]

theorem pieces_print {c : Char} (hc : ¬ isBlank c) (cs : List Char) :
    pieces ("print ".toList ++ c :: cs) =
      ⟨some (.keyword .print), "print".toList⟩ :: ⟨some .blank, [' ']⟩ :: pieces (c :: cs) := by
  have hname : first 'p' ("rint ".toList ++ c :: cs) =
      (⟨some (.keyword .print), "print".toList⟩, ' ' :: c :: cs) := rfl
  have hblank : first ' ' (c :: cs) = (⟨some .blank, [' ']⟩, c :: cs) := by
    rw [first_blank _ rfl, run, List.takeWhile_cons_of_neg hc, List.dropWhile_cons_of_neg hc]
    rfl
  calc pieces ("print ".toList ++ c :: cs)
    _ = pieces ('p' :: ("rint ".toList ++ c :: cs)) := rfl
    _ = _ := by rw [pieces_cons, hname, pieces_cons, hblank]

end Piece

namespace Number

variable {x : Float}

def absolute (x : Float) : Float :=
  .ofBits (magnitude x).toUInt64

def minusSign : Token :=
  ⟨.symbol .minus, "-", none, 1⟩

def digits (x : Float) : Token :=
  ⟨.number, magnitudeText (magnitude x), some (.number (absolute x)), 1⟩

def tokens (x : Float) : List Token :=
  if isNegative x then [minusSign, digits x] else [digits x]

def expr (x : Float) : Expr :=
  if isNegative x then .unary .negate (.literal (.number (absolute x)) 1) 1 else .literal (.number (absolute x)) 1

section Scanning

open Piece

variable {rest : List Char}

theorem not_isNaN (h : x.isFinite) : x.isNaN = false := by
  have hlt := (isFinite_iff x).mp h
  exact Bool.eq_false_of_not_eq_true fun hnan => absurd ((isNaN_iff x).mp hnan) (by omega)

theorem digits_mem (h : x.isFinite) : (magnitudeText (magnitude x)).toList ∈ TokenKind.pattern .number :=
  magnitudeText_mem ((isFinite_iff x).mp h)

theorem token?_digits (h : x.isFinite) :
    token? (⟨some .number, (magnitudeText (magnitude x)).toList⟩, 1) = some (digits x) := by
  have hvalue : ofChars (magnitudeText (magnitude x)).toList = absolute x := by
    rw [ofChars, ofDecimal, ofChars_magnitudeText ((isFinite_iff x).mp h), absolute]
  change some (Token.mk .number (String.ofList _) (some (.number (ofChars _))) 1) = _
  rw [hvalue, String.ofList_toList, digits]

theorem newLine_notMem_text (h : x.isFinite) : '\n' ∉ (text x).toList := by
  have hdigits := TokenKind.newLine_notMem (digits_mem h) (by decide)
  cases hneg : isNegative x with
  | false => rwa [text_of_positive (not_isNaN h) hneg]
  | true =>
    rw [text_of_negative (not_isNaN h) hneg, String.toList_append]
    exact List.not_mem_append (by decide) hdigits

theorem text_not_blank (h : x.isFinite) : ∃ c cs, (text x).toList = c :: cs ∧ ¬ isBlank c := by
  cases hneg : isNegative x with
  | false =>
    obtain ⟨c, cs, hcs, hdigit, -⟩ := magnitudeText_head ((isFinite_iff x).mp h).le
    rw [text_of_positive (not_isNaN h) hneg]
    exact ⟨c, cs, hcs, (not_space_of (by decide) (hdigit.mpr ((isFinite_iff x).mp h))).2.1⟩
  | true =>
    rw [text_of_negative (not_isNaN h) hneg]
    exact ⟨'-', _, String.toList_append, by decide⟩

theorem located_text (h : x.isFinite) (hrest : EndsNumber rest) :
    (located 1 (pieces ((text x).toList ++ rest))).filterMap token? =
        tokens x ++ (located 1 (pieces rest)).filterMap token? ∧
      (located 1 (pieces ((text x).toList ++ rest))).filterMap diagnostic? =
        (located 1 (pieces rest)).filterMap diagnostic? := by
  have hdigits : located 1 (pieces ((magnitudeText (magnitude x)).toList ++ rest)) =
      (⟨some .number, (magnitudeText (magnitude x)).toList⟩, 1) :: located 1 (pieces rest) := by
    rw [pieces_number (digits_mem h) hrest]
    rfl
  cases hneg : isNegative x with
  | false =>
    rw [text_of_positive (not_isNaN h) hneg, hdigits, List.filterMap_cons_some (token?_digits h), tokens, hneg]
    exact ⟨rfl, rfl⟩
  | true =>
    have hminus : located 1 (pieces (("-" ++ magnitudeText (magnitude x)).toList ++ rest)) =
        (⟨some (.symbol .minus), ['-']⟩, 1) :: located 1 (pieces ((magnitudeText (magnitude x)).toList ++ rest)) := by
      rw [String.toList_append, List.append_assoc]
      exact congrArg (located 1) (pieces_minus _)
    rw [text_of_negative (not_isNaN h) hneg, hminus, hdigits, tokens, hneg]
    exact ⟨congrArg (minusSign :: ·) (List.filterMap_cons_some (token?_digits h)), rfl⟩

theorem scan_text (h : x.isFinite) : scan (text x) = ⟨tokens x ++ [.endOfInput 1], [], 1⟩ := by
  obtain ⟨htokens, hdiagnostics⟩ := located_text h (show EndsNumber [] from nofun)
  simp only [List.append_nil, pieces_nil, located, List.filterMap_nil] at htokens hdiagnostics
  have hlines := (splits_pieces (text x).toList).lineAfter 1
  rw [List.count_eq_zero.mpr (newLine_notMem_text h)] at hlines
  rw [scan, Scanned.ofChars, htokens, hdiagnostics, hlines]

def printing (x : Float) : String :=
  "print " ++ text x ++ ";"

def printWord : Token :=
  ⟨.keyword .print, "print", none, 1⟩

def semicolon : Token :=
  ⟨.symbol .semicolon, ";", none, 1⟩

theorem scan_printing (h : x.isFinite) :
    scan (printing x) = ⟨printWord :: tokens x ++ [semicolon] ++ [.endOfInput 1], [], 1⟩ := by
  have hsemicolon : EndsNumber [';'] := by
    rintro c ⟨⟩
    decide
  obtain ⟨htokens, hdiagnostics⟩ := located_text h hsemicolon
  obtain ⟨c, cs, hcs, hc⟩ := text_not_blank h
  have hchars : (printing x).toList = "print ".toList ++ ((text x).toList ++ [';']) := by
    rw [printing, String.toList_append, String.toList_append, List.append_assoc]
    rfl
  have hlines : lineAfter 1 (pieces (printing x).toList) = 1 := by
    rw [(splits_pieces _).lineAfter, hchars]
    exact congrArg (1 + ·) (List.count_eq_zero.mpr
      (List.not_mem_append (by decide) (List.not_mem_append (newLine_notMem_text h) (by decide))))
  have hlocated : located 1 (pieces (printing x).toList) =
      (⟨some (.keyword .print), "print".toList⟩, 1) :: (⟨some .blank, [' ']⟩, 1) ::
        located 1 (pieces ((text x).toList ++ [';'])) := by
    rw [hchars, hcs]
    exact congrArg (located 1) (pieces_print hc (cs ++ [';']))
  rw [scan, Scanned.ofChars, hlines, hlocated]
  simp only [List.filterMap_cons, hdiagnostics, htokens]
  rfl

end Scanning

theorem derives_expr (x : Float) : Derives .assignment (tokens x) (expr x) := by
  have hdigits : Derives .unary [digits x] (.literal (.number (absolute x)) 1) :=
    .tighter rfl (.constant (t := digits x) (.number rfl rfl))
  have hunary : Derives .unary (tokens x) (expr x) := by
    unfold tokens expr
    split
    · exact .unary (t := minusSign) rfl (by decide) hdigits
    · exact hdigits
  exact hunary.of_unary

theorem nesting_expr (x : Float) : (expr x).nesting ≤ 1 := by
  unfold expr
  split
  · exact Nat.le_refl 1
  · exact Nat.zero_le 1

theorem eval_expr (h : x.isFinite) : (expr x).eval = pure (.number x) := by
  unfold expr
  split
  · next hneg =>
    have hvalue : -absolute x = x := neg_ofBits_magnitude hneg ((isFinite_iff x).mp h).le
    calc Expr.eval (.unary .negate (.literal (.number (absolute x)) 1) 1)
      _ = pure (.number (-absolute x)) := rfl
      _ = pure (.number x) := by rw [hvalue]
  · next hneg =>
    have hvalue : absolute x = x := ofBits_magnitude (Bool.eq_false_of_not_eq_true hneg)
    rw [Expr.eval, hvalue]

theorem parse_text (h : x.isFinite) :
    Expr.parse 0 (scan (text x)).tokens = .ok (expr x) [.endOfInput 1] := by
  rw [scan_text h]
  refine Grammar.expression_eq_ok_iff.mpr ⟨tokens x, rfl, derives_expr x, (nesting_expr x).trans (by decide), ?_⟩
  exact fun _ _ => nofun

theorem accepted_printing (h : x.isFinite) :
    (Program.ofSource (printing x)).accepted = .ok [.print (expr x) 1] := by
  have hrow : Row DerivesDeclaration _ [.print (expr x) 1] :=
    .cons (.statement (.print (p := printWord) (q := semicolon) rfl (derives_expr x) rfl)) .nil
  have hnesting : Statement.nestingAll [.print (expr x) 1] ≤ 128 :=
    Statement.nestingAll_le.mpr (List.forall_mem_singleton.mpr ((nesting_expr x).trans (by decide)))
  obtain ⟨hss, hds⟩ := Statement.parse_complete (q := .endOfInput 1) rfl hrow hnesting
  rw [List.append_nil] at hss hds
  rw [Program.accepted_eq, Verdict.ofTokens, scan_printing h, hss, hds]
  rfl

theorem exec_printing {W : Type} [Sink W] (h : x.isFinite) (m : Machine W) :
    (Statement.print (expr x) 1).exec m = Machine.printLine (text x) 1 m := by
  rw [Statement.exec, eval_expr h]
  rfl

theorem printed_reads_back (x : Float) (hx : x.isFinite) :
    (∀ (W : Type) [Sink W] (m : Machine W) (output : W),
      Sink.write m.output (text x ++ "\n").toUTF8 = (output, none) →
        Effect.of (Machine.run ("print " ++ text x ++ ";") m) = ⟨.ok (), m.environment, output⟩) ∧
      ((scan (text x)).diagnostics = [] ∧
        ∃ e, Expr.parse 0 (scan (text x)).tokens = .ok e [.endOfInput 1] ∧
          ∀ env, ∃ y, e.eval env = .ok (.number y) env ∧ y.toBits = x.toBits) ∧
      (x.toBits.toNat < 2 ^ 63 →
        (scan (text x)).tokens = [⟨.number, text x, some (.number x), 1⟩, .endOfInput 1]) := by
  refine ⟨fun W _ m output hwrite => ?_, ⟨?_, expr x, parse_text hx, fun env => ⟨x, ?_, rfl⟩⟩, fun hsign => ?_⟩
  · have haccepted := accepted_printing hx
    rw [printing] at haccepted
    rw [Effect.of_run, haccepted]
    dsimp only
    rw [Statement.execAll_singleton, exec_printing hx, Machine.printLine, hwrite]
    rfl
  · rw [scan_text hx]
  · rw [eval_expr hx]
    rfl
  · have hneg : isNegative x = false :=
      Bool.eq_false_of_not_eq_true fun h => absurd ((isNegative_iff x).mp h) (by omega)
    rw [scan_text hx, tokens, hneg, digits, absolute, ofBits_magnitude hneg, text_of_positive (not_isNaN hx) hneg]
    rfl

theorem printed_reads_back_signed :
    let negative := Float.ofBits 0xbfb999999999999a
    let least := Float.ofBits 1
    (negative.isFinite ∧ text negative = "-0.1" ∧
        Effect.of (Machine.run ("print " ++ text negative ++ ";") (.new "0\n".toUTF8)) =
          ⟨.ok (), .initial, "0\n".toUTF8 ++ (text negative ++ "\n").toUTF8⟩) ∧
      least.isFinite ∧ least.toBits.toNat < 2 ^ 63 ∧
        (scan (text least)).tokens = [⟨.number, text least, some (.number least), 1⟩, .endOfInput 1] := by
  intro negative least
  have hnegative : negative.isFinite := by decide +kernel
  have hleast : least.isFinite := by decide +kernel
  have hsign : least.toBits.toNat < 2 ^ 63 := by decide +kernel
  exact ⟨⟨hnegative, by decide +kernel, (printed_reads_back negative hnegative).1 ByteArray _ _ rfl⟩, hleast, hsign,
    (printed_reads_back least hleast).2.2 hsign⟩

end Number

end Treewalk
