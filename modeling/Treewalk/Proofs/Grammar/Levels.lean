import Treewalk.Proofs.Grammar.FirstError

namespace Treewalk

def Expr.openings (depth : Nat) : Expr → List (Option Nat)
  | .literal .. | .variable .. => [none]
  | .group e _ => some (depth + 1) :: e.openings (depth + 1) ++ [none]
  | .unary _ e _ => some (depth + 1) :: e.openings (depth + 1)
  | .binary _ l r _ => l.openings depth ++ none :: r.openings depth
  | .assign _ e _ => none :: some (depth + 1) :: e.openings (depth + 1)

namespace Statement

mutual

def openings (depth : Nat) : Statement → List (Option Nat)
  | .expression e _ => e.openings depth ++ [none]
  | .print e _ => none :: e.openings depth ++ [none]
  | .declare _ none _ => [none, none, none]
  | .declare _ (some e) _ => none :: none :: none :: e.openings depth ++ [none]
  | .block body _ => some (depth + 1) :: openingsAll (depth + 1) body ++ [none]

def openingsAll (depth : Nat) : List Statement → List (Option Nat)
  | [] => []
  | s :: ss => s.openings depth ++ openingsAll depth ss

end

end Statement

section Bounds

variable {level : Nat}

theorem Expr.le_of_mem_openings {e : Expr} {depth : Nat} (h : some level ∈ e.openings depth) :
    level ≤ depth + e.nesting := by
  induction e generalizing depth with
  | literal | «variable» => simp [openings] at h
  | group e _ ih =>
    simp only [openings, nesting, List.cons_append, List.mem_cons, List.mem_append, Option.some.injEq] at h ⊢
    rcases h with rfl | h | h
    · omega
    · have hle := ih h
      omega
    · simp at h
  | unary _ e _ ih =>
    simp only [openings, nesting, List.mem_cons, Option.some.injEq] at h ⊢
    rcases h with rfl | h
    · omega
    · have hle := ih h
      omega
  | binary _ l r _ ihl ihr =>
    simp only [openings, nesting, List.mem_append, List.mem_cons, reduceCtorEq, false_or] at h ⊢
    rcases h with h | h
    · have hle := ihl h
      omega
    · have hle := ihr h
      omega
  | assign _ e _ ih =>
    simp only [openings, nesting, List.mem_cons, reduceCtorEq, false_or, Option.some.injEq] at h ⊢
    rcases h with rfl | h
    · omega
    · have hle := ih h
      omega

namespace Statement

mutual

theorem le_of_mem_openings {depth : Nat} :
    (s : Statement) → some level ∈ s.openings depth → level ≤ depth + s.nesting
  | .expression e _, h | .print e _, h | .declare _ (some e) _, h =>
    e.le_of_mem_openings (by simpa [openings] using h)
  | .declare _ none _, h => by simp [openings] at h
  | .block body _, h => by
    simp only [openings, nesting, List.cons_append, List.mem_cons, List.mem_append, Option.some.injEq] at h ⊢
    rcases h with rfl | h | h
    · omega
    · have hle := le_of_mem_openingsAll body h
      omega
    · simp at h

theorem le_of_mem_openingsAll {depth : Nat} :
    (ss : List Statement) → some level ∈ openingsAll depth ss → level ≤ depth + nestingAll ss
  | [], h => by simp [openingsAll] at h
  | s :: ss, h => by
    rw [openingsAll, List.mem_append] at h
    rw [nestingAll]
    rcases h with h | h
    · have hle := le_of_mem_openings s h
      omega
    · have hle := le_of_mem_openingsAll ss h
      omega

end

end Statement

end Bounds

theorem Derives.length_openings {n : Nonterminal} {ts : List Token} {e : Expr} (h : Derives n ts e) (depth : Nat) :
    (e.openings depth).length = ts.length := by
  induction h generalizing depth with
  | constant | name => rfl
  | group _ _ _ ih => simp [Expr.openings, ih]
  | unary _ _ _ ih => simp [Expr.openings, ih]
  | binary _ _ _ _ _ ihl ihr => simp [Expr.openings, ihl, ihr]
  | assign _ _ _ ih => simp [Expr.openings, ih]
  | tighter _ _ ih => exact ih depth

mutual

theorem DerivesDeclaration.length_openings {ts : List Token} {s : Statement} (depth : Nat) :
    DerivesDeclaration ts s → (s.openings depth).length = ts.length
  | .var .. => rfl
  | .init _ _ _ hd _ => by simp [Statement.openings, hd.length_openings]
  | .statement h => h.length_openings depth

theorem DerivesStatement.length_openings {ts : List Token} {s : Statement} (depth : Nat) :
    DerivesStatement ts s → (s.openings depth).length = ts.length
  | .print _ hd _ => by simp [Statement.openings, hd.length_openings]
  | .block _ hrow _ => by simp [Statement.openings, Row.length_openings (depth + 1) hrow]
  | .expression hd _ => by simp [Statement.openings, hd.length_openings]

theorem Row.length_openings {ts : List Token} {ss : List Statement} (depth : Nat) :
    Row DerivesDeclaration ts ss → (Statement.openingsAll depth ss).length = ts.length
  | .nil => rfl
  | .cons hd hrow => by
    simp [Statement.openingsAll, hd.length_openings depth, Row.length_openings depth hrow]

end

inductive Exceeds (P : Token → List Token → Diagnostic → Prop) (level : Nat) (openings : List (Option Nat)) :
    List Token → Prop
  | intro {i : Nat} {t next : Token} {used left : List Token} :
      openings.idxOf? (some level) = some i → (used ++ next :: left)[i]? = some t →
      P next used (.about t .tooDeep) → Exceeds P level openings (used ++ next :: left)

namespace Exceeds

variable {P Q : Token → List Token → Diagnostic → Prop} {level : Nat} {openings openings' : List (Option Nat)}
  {t : Token} {ts ts' : List Token}

theorem idxOf?_self : (some level :: openings).idxOf? (some level) = some 0 := by
  rw [List.idxOf?_cons, if_pos (beq_self_eq_true _)]

theorem here (h : P t [] (.about t .tooDeep)) : Exceeds P level (some level :: openings) (t :: ts) :=
  @intro P level _ 0 t t [] ts idxOf?_self rfl h

theorem opened (h : ∀ next, P next [t] (.about t .tooDeep)) (hts : ts ≠ []) :
    Exceeds P level (some level :: openings) (t :: ts) := by
  obtain ⟨next, left, rfl⟩ := List.exists_cons_of_ne_nil hts
  exact @intro P level _ 0 t next [t] left idxOf?_self rfl (h next)

theorem append (h : Exceeds P level openings ts) (openings' : List (Option Nat)) (ts' : List Token) :
    Exceeds P level (openings ++ openings') (ts ++ ts') := by
  cases h with
  | @intro i t next used left hi ht hP =>
    rw [List.append_assoc, List.cons_append]
    refine .intro (i := i) ?_ ?_ hP
    · rw [List.idxOf?, List.findIdx?_append]
      exact congrArg (Option.or · _) hi
    · rw [← List.cons_append, ← List.append_assoc, List.getElem?_append_left (List.getElem?_eq_some_iff.mp ht).1]
      exact ht

theorem prepend (h : Exceeds P level openings ts) (hlength : openings'.length = ts'.length)
    (hnone : some level ∉ openings')
    (hlift : ∀ next used d, Token.peek (used ++ [next]) = Token.peek ts → P next used d → Q next (ts' ++ used) d) :
    Exceeds Q level (openings' ++ openings) (ts' ++ ts) := by
  cases h with
  | @intro i t next used left hi ht hP =>
    rw [← List.append_assoc]
    refine .intro (i := i + ts'.length) ?_ ?_ (hlift next used _ ?_ hP)
    · have hbefore : openings'.findIdx? (· == some level) = none := List.idxOf?_eq_none_iff.mpr hnone
      rw [List.idxOf?] at hi ⊢
      rw [List.findIdx?_append, hbefore, hi, ← hlength]
      rfl
    · rw [List.append_assoc, List.getElem?_append_right (Nat.le_add_left ..), Nat.add_sub_cancel]
      exact ht
    · cases used <;> rfl

theorem mono (h : Exceeds P level openings ts)
    (hlift : ∀ next used d, Token.peek (used ++ [next]) = Token.peek ts → P next used d → Q next used d) :
    Exceeds Q level openings ts :=
  @prepend P Q level openings [] ts [] h rfl List.not_mem_nil hlift

theorem cons (h : Exceeds P level openings ts) {opening : Option Nat} (hopening : opening ≠ some level)
    (hlift : ∀ next used d, Token.peek (used ++ [next]) = Token.peek ts → P next used d → Q next (t :: used) d) :
    Exceeds Q level (opening :: openings) (t :: ts) :=
  @prepend P Q level openings [opening] ts [t] h rfl (by simpa using hopening.symm) hlift

end Exceeds

section

variable {level : Nat}

-- Each level that is opened on the way takes from the room what it adds to the depth, so the level at which the
-- room is used up stays the same.
theorem Derives.exceeds {n : Nonterminal} {ts : List Token} {e : Expr} (h : Derives n ts e) (room depth : Nat)
    (hn : room < e.nesting) (hlevel : level = depth + room + 1) :
    Exceeds (fun next => Fails next room n) level (e.openings depth) ts := by
  induction h generalizing room depth with
  | constant | name => exact absurd hn (Nat.not_lt_zero _)
  | @group l r ts e hl _ _ ih =>
    cases room with
    | zero =>
      subst hlevel
      exact .here (.groupTooDeep hl)
    | succ room =>
      have hinside := ih room (depth + 1) (Nat.lt_of_succ_lt_succ hn) (by omega)
      exact .cons (hinside.append [none] [r]) (by simp; omega) fun _ _ _ _ => .inGroup hl
  | unary hk hs _ ih =>
    cases room with
    | zero =>
      subst hlevel
      exact .here (.unaryTooDeep hk hs)
    | succ room =>
      have hinside := ih room (depth + 1) (Nat.lt_of_succ_lt_succ hn) (by omega)
      exact .cons hinside (by simp; omega) fun _ _ _ _ => .inUnary hk hs
  | @binary n m t s op ts us l r hm hk hs hl _ ihl ihr =>
    by_cases hleft : room < l.nesting
    · exact (ihl room depth hleft hlevel).append _ _
    · have hright : room < r.nesting := by
        rw [Expr.nesting] at hn
        omega
      have hnone : some level ∉ l.openings depth ++ [none] := by
        intro hmem
        have hle := Expr.le_of_mem_openings (by simpa using hmem)
        omega
      have hlength : (l.openings depth ++ [none]).length = (ts ++ [t]).length := by
        simp [hl.length_openings depth]
      have hafter := (ihr room depth hright hlevel).prepend hlength hnone fun _ _ _ _ hf =>
        List.append_cons .. ▸ Fails.right hm hk hs hl (Nat.le_of_not_lt hleft) hf
      rwa [List.append_assoc, List.append_assoc] at hafter
  | @assign x q ts e hx hq hd ih =>
    have hname : Derives .equality [x] (.variable x.lexeme x.line) :=
      .tighter rfl (.tighter rfl (.tighter rfl (.tighter rfl (.tighter rfl (.name hx)))))
    cases room with
    | zero =>
      subst hlevel
      obtain ⟨t, us, rfl, -⟩ := hd.head
      have hi : (Expr.openings depth (.assign x.lexeme e x.line)).idxOf? (some (depth + 0 + 1)) = some 1 := by
        simp [Expr.openings, List.idxOf?_cons]
      exact @Exceeds.intro _ _ _ 1 q t [x, q] us hi rfl (.assignTooDeep hname (Nat.le_refl 0) hq)
    | succ room =>
      have hinside := ih room (depth + 1) (Nat.lt_of_succ_lt_succ hn) (by omega)
      have hnone : some level ∉ [none, some (depth + 1)] := by
        simp
        omega
      change Exceeds _ level ([none, some (depth + 1)] ++ e.openings (depth + 1)) ([x, q] ++ ts)
      exact hinside.prepend rfl hnone fun _ _ _ _ => .value hname (Nat.zero_le _) hq
  | tighter hm _ ih => exact (ih room depth hn hlevel).mono fun _ _ _ _ => .tighter hm

inductive FailsRow (next : Token) (room : Nat) : List Token → Diagnostic → Prop
  | intro {us ts : List Token} {ss : List Statement} {d : Diagnostic} :
      Row DerivesDeclaration us ss → Statement.nestingAll ss ≤ room →
      Statement.endsBlock (Token.peek (ts ++ [next])).kind = false → FailsFirst next room ts d →
      FailsRow next room (us ++ ts) d

theorem Derives.exceeds_clause {ts : List Token} {e : Expr} (h : Derives .assignment ts e) (room depth : Nat)
    (expectation : String) (hn : room < e.nesting) (hlevel : level = depth + room + 1) (q : Token) :
    Exceeds (fun next => FailsClause next room expectation) level (e.openings depth ++ [none]) (ts ++ [q]) :=
  ((h.exceeds room depth hn hlevel).mono fun _ _ _ _ => .inside).append [none] [q]

mutual

theorem DerivesDeclaration.exceeds {ts : List Token} {s : Statement} (room depth : Nat) (hn : room < s.nesting)
    (hlevel : level = depth + room + 1) :
    DerivesDeclaration ts s → Exceeds (fun next => FailsFirst next room) level (s.openings depth) ts
  | .var .. => absurd hn (Nat.not_lt_zero _)
  | @DerivesDeclaration.init v x i q _ _ hv hx hi hd _ => by
    have hclause := hd.exceeds_clause room depth "Expect ';' after variable declaration." hn hlevel q
    have hnone : some level ∉ [none, none, none] := by simp
    change Exceeds _ level ([none, none, none] ++ (_ ++ _)) ([v, x, i] ++ (_ ++ [q]))
    exact hclause.prepend rfl hnone fun _ _ _ _ hf => .simple (.initial hv hx hi hf)
  | .statement h => h.exceeds room depth hn hlevel

theorem DerivesStatement.exceeds {ts : List Token} {s : Statement} (room depth : Nat) (hn : room < s.nesting)
    (hlevel : level = depth + room + 1) :
    DerivesStatement ts s → Exceeds (fun next => FailsFirst next room) level (s.openings depth) ts
  | @DerivesStatement.print _ q _ _ hp hd _ => by
    have hclause := hd.exceeds_clause room depth "Expect ';' after value." hn hlevel q
    exact .cons hclause (by simp) fun _ _ _ _ hf => .simple (.print hp hf)
  | @DerivesStatement.block l r ts _ hl hrow _ => by
    cases room with
    | zero =>
      subst hlevel
      exact .opened (fun _ => .tooDeep hl) (by simp)
    | succ room =>
      have hinside := Row.exceeds room (depth + 1) (Nat.lt_of_succ_lt_succ hn) (by omega) hrow
      refine .cons (hinside.append [none] [r]) (by simp; omega) fun _ _ _ _ hf => ?_
      cases hf with
      | intro hrow' hn' hopen hf => exact .inside hl hrow' hn' hopen hf
  | @DerivesStatement.expression _ q _ _ hd _ => by
    have hclause := hd.exceeds_clause room depth "Expect ';' after expression." hn hlevel q
    refine .mono hclause fun next used _ hpeek hf => .simple (.expression ?_ hf)
    obtain ⟨t, us, heq, ht⟩ := hd.head
    rw [hpeek, heq]
    exact TokenKind.leadsStatement_of_opensExpression ht

theorem Row.exceeds {ts : List Token} {ss : List Statement} (room depth : Nat) (hn : room < Statement.nestingAll ss)
    (hlevel : level = depth + room + 1) :
    Row DerivesDeclaration ts ss →
      Exceeds (fun next => FailsRow next room) level (Statement.openingsAll depth ss) ts
  | .nil => absurd hn (Nat.not_lt_zero _)
  | @Row.cons _ _ _ s ss hd hrow => by
    by_cases hfirst : room < s.nesting
    · have hhead := hd.exceeds room depth hfirst hlevel
      refine (hhead.mono fun next used d hpeek hf => FailsRow.intro .nil (Nat.zero_le _) ?_ hf).append _ _
      obtain ⟨t, us, heq, ht⟩ := hd.head
      rwa [hpeek, heq]
    · have hlater : room < Statement.nestingAll ss := by
        rw [Statement.nestingAll] at hn
        omega
      have hnone : some level ∉ s.openings depth := by
        intro hmem
        have hle := Statement.le_of_mem_openings s hmem
        omega
      refine (Row.exceeds room depth hlater hlevel hrow).prepend (hd.length_openings depth) hnone fun _ _ _ _ hf => ?_
      cases hf with
      | intro hrow' hn' hopen hf =>
        rw [← List.append_assoc]
        exact .intro (.cons hd hrow') (Nat.max_le.mpr ⟨Nat.le_of_not_lt hfirst, hn'⟩) hopen hf

end

end

namespace Statement

theorem tooDeep_at_first_opening (ts : List Token) (ss : List Statement) (h : DerivesProgram ts ss)
    (hn : ∃ s ∈ ss, maxNesting < s.nesting) :
    (openingsAll 0 ss).length + 1 = ts.length ∧
      ∃ i t, (openingsAll 0 ss).idxOf? (some (maxNesting + 1)) = some i ∧ ts[i]? = some t ∧
        (parse ts).diagnostics.head? = some (.about t .tooDeep) := by
  obtain ⟨us, q, rfl, hq, hrow⟩ := h
  refine ⟨by rw [Row.length_openings 0 hrow, List.length_append, List.length_singleton], ?_⟩
  have hdeep : maxNesting < nestingAll ss := by
    obtain ⟨s, hs, hlt⟩ := hn
    exact Nat.lt_of_not_le fun hle => Nat.not_le_of_lt hlt (nestingAll_le.mp hle s hs)
  have hexceeds := (Row.exceeds maxNesting 0 hdeep (congrArg (· + 1) (Nat.zero_add _).symm) hrow).append [] [q]
  rw [List.append_nil] at hexceeds
  generalize us ++ [q] = ts at hexceeds
  cases hexceeds with
  | @intro i t next used left hi ht hfails =>
    refine ⟨i, t, hi, ht, parse_of_breaks ?_⟩
    cases hfails with
    | intro hbefore hn' hopen hf =>
      exact .intro hbefore hn' (kind_ne_end_of_not_stop rfl hopen) hf

-- A block `a = !nil == !! .. !nil;` with each token on a line of its own. Of the prefix operators on `lines` each
-- opens a level inside of that of the one before. The level of the one on the left is closed by then.
namespace MixedOpenings

def bang (line : Nat) : Token :=
  ⟨.symbol .bang, "!", none, line⟩

def negations (lines : List Nat) : Expr :=
  lines.foldr (fun line e => .unary .not e line) (.literal .nil 204)

def statement (lines : List Nat) : Statement :=
  .block [.expression (.assign "a" (.binary .equal (.unary .not (.literal .nil 5) 4) (negations lines) 6) 2) 2] 1

def tokens (lines : List Nat) : List Token :=
  ⟨.symbol .leftBrace, "\x7b", none, 1⟩ :: ⟨.identifier, "a", none, 2⟩ :: ⟨.symbol .equal, "=", none, 3⟩ :: bang 4 ::
    ⟨.keyword .nil, "nil", none, 5⟩ :: ⟨.symbol .equalEqual, "==", none, 6⟩ :: (lines.map bang ++
      [⟨.keyword .nil, "nil", none, 204⟩, ⟨.symbol .semicolon, ";", none, 205⟩,
        ⟨.symbol .rightBrace, "\x7d", none, 206⟩, ⟨.endOfInput, "", none, 207⟩])

theorem derives_nil (line : Nat) : Derives .unary [⟨.keyword .nil, "nil", none, line⟩] (.literal .nil line) :=
  .tighter rfl (.constant (.nil rfl))

theorem derives_bang {ts : List Token} {e : Expr} (line : Nat) (h : Derives .unary ts e) :
    Derives .unary (bang line :: ts) (.unary .not e line) :=
  @Derives.unary (bang line) .bang .not ts e rfl (by decide) h

theorem derives_negations (lines : List Nat) :
    Derives .unary (lines.map bang ++ [⟨.keyword .nil, "nil", none, 204⟩]) (negations lines) := by
  induction lines with
  | nil => exact derives_nil 204
  | cons line lines ih => exact derives_bang line ih

theorem derivesProgram (lines : List Nat) : DerivesProgram (tokens lines) [statement lines] := by
  have hleft := derives_bang 4 (derives_nil 5)
  have hright : Derives .comparison _ _ := .tighter rfl (.tighter rfl (.tighter rfl (derives_negations lines)))
  have hvalue : Derives .equality _ _ :=
    @Derives.binary _ _ ⟨.symbol .equalEqual, "==", none, 6⟩ .equalEqual .equal _ _ _ _ rfl rfl (by decide)
      (.tighter rfl (.tighter rfl (.tighter rfl (.tighter rfl hleft)))) hright
  have hassign : Derives .assignment _ _ :=
    @Derives.assign ⟨.identifier, "a", none, 2⟩ ⟨.symbol .equal, "=", none, 3⟩ _ _ rfl rfl (.tighter rfl hvalue)
  have hstatement := @DerivesStatement.expression _ ⟨.symbol .semicolon, ";", none, 205⟩ _ _ hassign rfl
  have hblock := @DerivesStatement.block ⟨.symbol .leftBrace, "\x7b", none, 1⟩
    ⟨.symbol .rightBrace, "\x7d", none, 206⟩ _ _ rfl (.cons (.statement hstatement) .nil) rfl
  exact ⟨_, ⟨.endOfInput, "", none, 207⟩, by simp [tokens], rfl, .cons (.statement hblock) .nil⟩

end MixedOpenings

theorem tooDeep_at_first_opening_mixed :
    DerivesProgram (MixedOpenings.tokens (List.range' 7 197)) [MixedOpenings.statement (List.range' 7 197)] ∧
      (openingsAll 0 [MixedOpenings.statement (List.range' 7 197)]).idxOf? (some 129) = some 132 ∧
      (MixedOpenings.tokens (List.range' 7 197))[132]? = some (MixedOpenings.bang 133) ∧
      (parse (MixedOpenings.tokens (List.range' 7 197))).diagnostics.head? = some ⟨.tooDeep (.lexeme "!"), 133⟩ := by
  have hderives := MixedOpenings.derivesProgram (List.range' 7 197)
  have hdeep : maxNesting < (MixedOpenings.statement (List.range' 7 197)).nesting := by decide +kernel
  have hindex : (openingsAll 0 [MixedOpenings.statement (List.range' 7 197)]).idxOf? (some 129) = some 132 := by
    decide +kernel
  have htoken : (MixedOpenings.tokens (List.range' 7 197))[132]? = some (MixedOpenings.bang 133) := by decide +kernel
  obtain ⟨-, i, t, hi, ht, hfirst⟩ := tooDeep_at_first_opening _ _ hderives ⟨_, List.mem_singleton_self _, hdeep⟩
  cases hindex.symm.trans hi
  cases htoken.symm.trans ht
  exact ⟨hderives, hindex, htoken, hfirst⟩

end Statement

end Treewalk
