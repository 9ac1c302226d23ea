import Treewalk.Proofs.Printing.Trees
import Treewalk.Proofs.Sessions

namespace Treewalk

structure Token.Spelled (t : Token) : Prop where
  name : t.kind = .identifier → IsName t.lexeme
  number : ∀ x, t.literal = some (.number x) → Number.Unsigned x
  string : ∀ s, t.literal = some (.string s) → ∀ c ∈ s.toList, c ≠ '"'

theorem LiteralOf.unsigned {k : TokenKind} {text : List Char} {x : Float}
    (h : LiteralOf k text (some (.number x))) : Number.Unsigned x := by
  cases h
  exact Number.unsigned_ofDecimal _

theorem LiteralOf.unquoted {k : TokenKind} {text : List Char} {s : String}
    (h : LiteralOf k text (some (.string s))) (fits : text ∈ k.pattern) : ∀ c ∈ s.toList, c ≠ '"' := by
  cases h with
  | string body =>
    obtain ⟨body', hbody, heq⟩ := TokenKind.mem_string.mp fits
    obtain rfl : body = body' := List.append_cancel_right (List.cons.inj heq).2
    rwa [String.toList_ofList]

theorem Reads.spelled {p : Piece} {t : Token} {cs : List Char} (h : Reads p t) (next : NextPiece cs p) :
    t.Spelled := by
  have fits := next.fits _ h.kind
  refine ⟨fun hk => ?_, fun x hx => ?_, fun s hs => ?_⟩
  · rw [hk] at fits
    cases next with
    | matched _ _ _ no_keyword =>
      rw [IsName, h.lexeme]
      exact ⟨fits, no_keyword (Option.some.inj (h.kind.trans (congrArg some hk)))⟩
    | stray => cases h.kind
  · exact (hx ▸ h.literal).unsigned
  · exact (hs ▸ h.literal).unquoted fits

theorem Token.spelled_of_reads {ps : List Piece} {ts : List Token} (h : List.Forall₂ Reads ps ts)
    (next : ∀ p ∈ ps, ∃ cs, NextPiece cs p) : ∀ t ∈ ts, t.Spelled := by
  induction h with
  | nil => exact nofun
  | cons first _ ih =>
    obtain ⟨⟨_, next_first⟩, next_others⟩ := List.forall_mem_cons.mp next
    exact List.forall_mem_cons.mpr ⟨first.spelled next_first, ih next_others⟩

theorem scan_spelled (source : String) : ∀ t ∈ (scan source).tokens, t.Spelled := by
  have splits := splits_pieces source.toList
  refine List.forall_mem_append.mpr ⟨Token.spelled_of_reads (splits.reads 1) fun p hp => ?_, ?_⟩
  · exact splits.exists_nextPiece p (List.mem_of_mem_filter hp)
  · exact List.forall_mem_singleton.mpr ⟨nofun, nofun, nofun⟩

section

variable {ts : List Token}

theorem Constant.spelled {t : Token} {v : Value} (h : Constant t v) (ht : t.Spelled) : v.Spelled := by
  cases h with
  | number _ hx => exact ht.number _ hx
  | string _ hs => exact ht.string _ hs
  | yes | no | nil => trivial

theorem Derives.spelled {n : Nonterminal} {e : Expr} (h : Derives n ts e) (hts : ∀ t ∈ ts, t.Spelled) :
    e.Spelled := by
  induction h with
  | constant hc => exact hc.spelled (hts _ (List.mem_singleton_self _))
  | name hx => exact (hts _ (List.mem_singleton_self _)).name hx
  | group _ _ _ ih => exact ih fun t ht => hts t (List.mem_append_left _ (List.mem_cons_of_mem _ ht))
  | unary _ _ _ ih => exact ih fun t ht => hts t (List.mem_cons_of_mem _ ht)
  | binary _ _ _ _ _ ihl ihr =>
    obtain ⟨hl, hr⟩ := List.forall_mem_append.mp hts
    exact ⟨ihl hl, ihr (List.forall_mem_cons.mp hr).2⟩
  | assign hx _ _ ih =>
    obtain ⟨hname, -, hvalue⟩ := List.forall_mem_cons.mp hts |>.imp_right List.forall_mem_cons.mp
    exact ⟨hname.name hx, ih hvalue⟩
  | tighter _ _ ih => exact ih hts

end

mutual

theorem DerivesDeclaration.spelled {ts : List Token} {s : Statement} (h : DerivesDeclaration ts s)
    (hts : ∀ t ∈ ts, t.Spelled) : s.Spelled := by
  cases h with
  | var _ hx _ => exact ⟨(hts _ (List.mem_cons_of_mem _ List.mem_cons_self)).name hx, nofun⟩
  | init _ hx _ he _ =>
    refine ⟨(hts _ (List.mem_cons_of_mem _ List.mem_cons_self)).name hx, ?_⟩
    rintro _ ⟨⟩
    refine he.spelled fun t ht => hts t ?_
    simp [ht]
  | statement h => exact h.spelled hts

theorem DerivesStatement.spelled {ts : List Token} {s : Statement} (h : DerivesStatement ts s)
    (hts : ∀ t ∈ ts, t.Spelled) : s.Spelled := by
  cases h with
  | print _ he _ => exact he.spelled fun t ht => hts t (List.mem_append_left _ (List.mem_cons_of_mem _ ht))
  | block _ hrow _ => exact hrow.spelled fun t ht => hts t (List.mem_append_left _ (List.mem_cons_of_mem _ ht))
  | expression he _ => exact he.spelled fun t ht => hts t (List.mem_append_left _ ht)

theorem Row.spelled {ts : List Token} {ss : List Statement} (h : Row DerivesDeclaration ts ss)
    (hts : ∀ t ∈ ts, t.Spelled) : Statement.AllSpelled ss := by
  cases h with
  | nil => trivial
  | cons hs hrow =>
    obtain ⟨hfirst, hothers⟩ := List.forall_mem_append.mp hts
    exact ⟨hs.spelled hfirst, hrow.spelled hothers⟩

end

theorem Program.spelled_of_accepted {source : String} {ss : List Statement}
    (h : (ofSource source).accepted = .ok ss) : Statement.AllSpelled ss := by
  obtain ⟨body, q, hts, -, -⟩ := scan_terminated source
  have hspelled := scan_spelled source
  rw [hts] at hspelled
  exact (row_of_accepted h hts).1.spelled (List.forall_mem_append.mp hspelled).1

namespace Statement

inductive Occurs (s : Statement) : List Statement → Prop
  | here {ss : List Statement} : s ∈ ss → Occurs s ss
  | inside {body ss : List Statement} {line : Nat} : .block body line ∈ ss → Occurs s body → Occurs s ss

theorem AllSpelled.of_mem {s : Statement} {ss : List Statement} (h : AllSpelled ss) (hs : s ∈ ss) : s.Spelled := by
  induction hs with
  | head => exact h.1
  | tail _ _ ih => exact ih h.2

theorem Occurs.spelled {s : Statement} {ss : List Statement} (hs : s.Occurs ss) (h : AllSpelled ss) : s.Spelled := by
  induction hs with
  | here hs => exact h.of_mem hs
  | inside hblock _ ih => exact ih (h.of_mem hblock)

end Statement

namespace CommandLine

def printed (ss : List Statement) : String :=
  .ofList (Sexp.lines (Statement.sexps ss))

theorem printed_cons (s : Statement) (ss : List Statement) : printed (s :: ss) = s.text ++ "\n" ++ printed ss := by
  simp [printed, Statement.sexps, Sexp.lines, s.chars_sexp, ← String.toList_inj]

theorem foldl_printed (ss : List Statement) (out : ByteArray) :
    ss.foldl (fun out s => out ++ (s.text ++ "\n").toUTF8) out = out ++ (printed ss).toUTF8 := by
  induction ss generalizing out with
  | nil => exact ByteArray.append_empty.symm
  | cons s ss ih =>
    rw [List.foldl_cons, ih, ByteArray.append_assoc, printed_cons]
    exact congrArg (out ++ ·) String.toByteArray_append.symm

theorem act_trees {source : String} {ss : List Statement} (h : (Program.ofSource source).accepted = .ok ss)
    {options : Options} (htrees : options.printTrees) (m : Machine ByteArray) :
    ∃ log, Session.act options source m = .ok () { m with output := m.output ++ (printed ss).toUTF8, log } := by
  refine ⟨m.log ++ (Program.ofSource source).records, ?_⟩
  rw [Session.act, if_pos htrees, ← foldl_printed]
  simp only [bind, EStateM.bind, Machine.load, h]
  rfl

theorem handle_trees {source : String} {ss : List Statement} (h : (Program.ofSource source).accepted = .ok ss)
    {s : Session} (htrees : s.options.printTrees) :
    (s.handle source).2 = none ∧
      (s.handle source).1.machine.output = s.machine.output ++ (printed ss).toUTF8 := by
  obtain ⟨log, hact⟩ := act_trees h htrees s.machine
  unfold Session.handle
  rw [hact]
  dsimp only
  obtain ⟨told, htold⟩ := Session.tellLog_eq
    { s with machine := { s.machine with output := s.machine.output ++ (printed ss).toUTF8, log } }
  rw [htold]
  exact ⟨rfl, rfl⟩

theorem runScript_trees {source : String} {ss : List Statement} (h : (Program.ofSource source).accepted = .ok ss)
    {options : Options} (htrees : options.printTrees) (path : String) :
    ((Session.new options).runScript path (.ok source.toUTF8)).code = 0 ∧
      ((Session.new options).runScript path (.ok source.toUTF8)).output = (printed ss).toUTF8 := by
  unfold Session.runScript
  dsimp only
  rw [fromUTF8_toUTF8]
  obtain ⟨hnone, houtput⟩ := handle_trees h (s := { Session.new options with
    machine := { (Session.new options).machine with
      log := (Session.new options).machine.log.push (.read source.utf8ByteSize path) } }) htrees
  dsimp only at hnone houtput ⊢
  rw [hnone]
  exact ⟨rfl, houtput.trans ByteArray.empty_append⟩

theorem toUTF8_printed_inj {ss ts : List Statement} :
    (printed ss).toUTF8 = (printed ts).toUTF8 ↔ Sexp.lines (Statement.sexps ss) = Sexp.lines (Statement.sexps ts) :=
  String.toByteArray_inj.trans String.ofList_inj

theorem printing_unambiguous (a b : String) (sa sb : List Statement)
    (ha : (Program.ofSource a).accepted = .ok sa) (hb : (Program.ofSource b).accepted = .ok sb) :
    (∀ s t : Statement, s.Occurs sa → t.Occurs sb → (s.text = t.text ↔ s.skeleton = t.skeleton)) ∧
    ∀ (options : Options) (path path' : String), options.printTrees →
      let shown := (Session.new options).runScript path (.ok a.toUTF8)
      let shown' := (Session.new options).runScript path' (.ok b.toUTF8)
      shown.code = 0 ∧ shown'.code = 0 ∧
        (shown.output = shown'.output ↔ sa.map Statement.skeleton = sb.map Statement.skeleton) := by
  have hsa := Program.spelled_of_accepted ha
  have hsb := Program.spelled_of_accepted hb
  refine ⟨fun s t hs ht => Statement.text_eq_iff (hs.spelled hsa) (ht.spelled hsb), ?_⟩
  intro options path path' htrees shown shown'
  obtain ⟨hcode, houtput⟩ := runScript_trees ha htrees path
  obtain ⟨hcode', houtput'⟩ := runScript_trees hb htrees path'
  refine ⟨hcode, hcode', ?_⟩
  rw [houtput, houtput', toUTF8_printed_inj, Statement.lines_eq_iff hsa hsb, Statement.skeletons_eq_map,
    Statement.skeletons_eq_map]

theorem printing_unambiguous_infinite :
    let a := String.ofList (List.replicate 309 '9') ++ "; \x7b\nprint \") (- \n\"; \x7d"
    let b := "inf; \x7b print \") (- \n\"; \x7d"
    let infinite := Statement.expression (.literal (.number (Float.ofBits 0x7FF0000000000000)) 1) 1
    let named := Statement.expression (.variable "inf" 1) 1
    let quoted := Statement.print (.literal (.string ") (- \n") 3) 2
    let quoted' := Statement.print (.literal (.string ") (- \n") 2) 1
    (Program.ofSource a).accepted = .ok [infinite, .block [quoted] 1] ∧
      (Program.ofSource b).accepted = .ok [named, .block [quoted'] 1] ∧
      infinite ≠ named ∧ infinite.text = named.text ∧
      quoted ≠ quoted' ∧ quoted.text = quoted'.text ∧ quoted.text ≠ named.text ∧
      ((Session.new ⟨true, 0, none⟩).runScript "a" (.ok a.toUTF8)).output =
        ((Session.new ⟨true, 0, none⟩).runScript "b" (.ok b.toUTF8)).output := by
  intro a b infinite named quoted quoted'
  have ha : (Program.ofSource a).accepted = .ok [infinite, .block [quoted] 1] := by
    decide +kernel
  have hb : (Program.ofSource b).accepted = .ok [named, .block [quoted'] 1] := by
    decide +kernel
  obtain ⟨hoccurring, hwhole⟩ := printing_unambiguous a b _ _ ha hb
  have hinfinite : infinite.Occurs [infinite, .block [quoted] 1] := .here List.mem_cons_self
  have hnamed : named.Occurs [named, .block [quoted'] 1] := .here List.mem_cons_self
  have hinside (s t : Statement) : s.Occurs [t, .block [s] 1] :=
    .inside (List.mem_cons_of_mem _ List.mem_cons_self) (.here List.mem_cons_self)
  refine ⟨ha, hb, by decide, (hoccurring _ _ hinfinite hnamed).mpr (by decide +kernel), by decide,
    (hoccurring _ _ (hinside _ _) (hinside _ _)).mpr (by decide +kernel), ?_, ?_⟩
  · exact mt (hoccurring _ _ (hinside _ _) hnamed).mp (by decide +kernel)
  · exact (hwhole ⟨true, 0, none⟩ "a" "b" rfl).2.2.mpr (by decide +kernel)

end CommandLine

end Treewalk
