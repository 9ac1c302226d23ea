import Treewalk.Proofs.Execution.Calls
import Treewalk.Proofs.Lexical.Rescanning
import Treewalk.Proofs.Sessions

namespace Treewalk

namespace CommandLine

section Lines

variable {line bytes : List UInt8} {lines : List (List UInt8)}

inductive LinesOf : List UInt8 → List (List UInt8) → Prop
  | nil : LinesOf [] []
  | last {line : List UInt8} (nonempty : line ≠ []) (unbroken : 10 ∉ line) : LinesOf line [line]
  | cons {line bytes : List UInt8} {lines : List (List UInt8)} (unbroken : 10 ∉ line)
      (others : LinesOf bytes lines) : LinesOf (line ++ 10 :: bytes) ((line ++ [10]) :: lines)

theorem linesOf_cutLines (bytes : List UInt8) : LinesOf bytes (cutLines bytes) := by
  induction bytes with
  | nil => exact .nil
  | cons b bytes ih =>
    by_cases hb : b = 10
    · subst hb
      exact LinesOf.cons List.not_mem_nil ih
    · rw [cutLines, if_neg hb]
      generalize cutLines bytes = lines at ih
      cases ih with
      | nil => exact .last (List.cons_ne_nil b []) (List.not_mem_cons_of_ne_of_not_mem (Ne.symm hb) List.not_mem_nil)
      | last _ unbroken =>
        exact .last (List.cons_ne_nil b _) (List.not_mem_cons_of_ne_of_not_mem (Ne.symm hb) unbroken)
      | cons unbroken others =>
        exact LinesOf.cons (List.not_mem_cons_of_ne_of_not_mem (Ne.symm hb) unbroken) others

theorem cutLines_append (h : 10 ∉ line) (bytes : List UInt8) :
    cutLines (line ++ 10 :: bytes) = (line ++ [10]) :: cutLines bytes := by
  induction line with
  | nil => rfl
  | cons b line ih =>
    have hb : b ≠ 10 := (List.ne_of_not_mem_cons h).symm
    rw [List.cons_append, cutLines, if_neg hb, ih (List.not_mem_of_not_mem_cons h)]
    rfl

theorem cutLines_unbroken (hne : line ≠ []) (h : 10 ∉ line) : cutLines line = [line] := by
  induction line with
  | nil => exact absurd rfl hne
  | cons b line ih =>
    have hb : b ≠ 10 := (List.ne_of_not_mem_cons h).symm
    rw [cutLines, if_neg hb]
    cases line with
    | nil => rfl
    | cons c line => rw [ih (List.cons_ne_nil c line) (List.not_mem_of_not_mem_cons h)]

theorem linesOf_iff : LinesOf bytes lines ↔ lines = cutLines bytes := by
  constructor
  · intro h
    induction h with
    | nil => rfl
    | last nonempty unbroken => exact (cutLines_unbroken nonempty unbroken).symm
    | cons unbroken _ ih => rw [cutLines_append unbroken, ← ih]
  · rintro rfl
    exact linesOf_cutLines bytes

end Lines

theorem toList_loop_eq (bytes : ByteArray) (i : Nat) (taken : List UInt8) :
    ByteArray.toList.loop bytes i taken = taken.reverse ++ bytes.data.toList.drop i := by
  induction i, taken using ByteArray.toList.loop.induct bytes with
  | case1 i taken hlt ih =>
    have hi : i < bytes.data.toList.length := hlt
    have hget : bytes.get! i = bytes.data.toList[i] := getElem!_pos bytes.data i hlt
    rw [ByteArray.toList.loop, if_pos hlt, ih, List.drop_eq_getElem_cons hi, hget]
    simp
  | case2 i taken hge =>
    have hle : bytes.data.toList.length ≤ i := Nat.le_of_not_lt hge
    rw [ByteArray.toList.loop, if_neg hge, List.drop_eq_nil_of_le hle, List.append_nil]

theorem toList_eq_data (bytes : ByteArray) : bytes.toList = bytes.data.toList := by
  rw [ByteArray.toList, toList_loop_eq]
  rfl

end CommandLine

namespace Effect

variable {W : Type} [Sink W] {source : String}

theorem run_refused {ds : List Diagnostic} (h : (Program.ofSource source).accepted = .error ds) (m : Machine W) :
    of (Machine.run source m) = ⟨.error (.static ds), m.environment, m.output⟩ := by
  rw [of_run, h]

theorem run_nothing (h : (Program.ofSource source).accepted = .ok []) (m : Machine W) :
    of (Machine.run source m) = ⟨.ok (), m.environment, m.output⟩ := by
  rw [of_run, h]
  rfl

end Effect

theorem Piece.meaningful_spaces {cs : List Char} (h : ∀ c ∈ cs, Pattern.Space c) : meaningful cs = [] := by
  induction cs with
  | nil => rfl
  | cons c cs ih =>
    obtain ⟨hc, hothers⟩ := List.forall_mem_cons.mp h
    rw [meaningful_space hc, ih hothers]

theorem Program.accepted_blank {source : String} (h : ∀ c ∈ source.toList, Pattern.Space c) :
    (ofSource source).accepted = .ok [] := by
  have hscan : (scan source).diagnostics = [] ∧ (scan source).tokens.map (Token.mapLine fun _ => 0) =
      (scan "").tokens.map (Token.mapLine fun _ => 0) :=
    scan_of_meaningful (Piece.meaningful_spaces h)
  have hverdict : Verdict.mapLines (fun _ => 0) (ofSource source).accepted = .ok [] := by
    rw [accepted_mapLines, hscan.1, hscan.2]
    rfl
  cases haccepted : (ofSource source).accepted with
  | ok ss =>
    rw [haccepted] at hverdict
    rw [List.map_eq_nil_iff.mp (Except.ok.inj hverdict)]
  | error ds =>
    rw [haccepted] at hverdict
    cases hverdict

theorem Call.of_run_environment {W : Type} [Sink W] (source : String) (m : Machine W) :
    (Effect.of (Machine.run source m)).environment = ((Call.run source).after m).environment := by
  rw [after, perform]
  cases Machine.run source m <;> rfl

namespace CommandLine

theorem transcript_no_fault {environment : Environment}
    (h : Call.AtRest (⟨environment, ByteArray.empty, #[]⟩ : Machine ByteArray)) (sources : List String) :
    ∀ x ∈ transcript environment sources, ∀ f, x.result ≠ .error (.fault f) := by
  induction sources generalizing environment with
  | nil => nofun
  | cons source sources ih =>
    have hafter := h.after (.run source)
    refine List.forall_mem_cons.mpr ⟨fun f hf => ?_, ih ?_⟩
    · cases hr : Machine.run source ⟨environment, ByteArray.empty, #[]⟩ with
      | ok _ m' =>
        rw [hr] at hf
        cases hf
      | error failure m' =>
        rw [hr] at hf
        cases hf
        exact h.no_fault (.run source) f m' hr
    · rw [Call.of_run_environment]
      exact ⟨hafter.chained, hafter.current⟩

def packed (line : List UInt8) : ByteArray :=
  ⟨line.toArray⟩

def utf8 (source : String) : List UInt8 :=
  source.toUTF8.data.toList

theorem packed_utf8 (source : String) : packed (utf8 source) = source.toUTF8 := rfl

def IsText (line : List UInt8) : Prop :=
  ∃ source, line = utf8 source

theorem fromUTF8_of_not_isText {line : List UInt8} (h : ¬ IsText line) : String.fromUTF8? (packed line) = none :=
  dif_neg fun hvalid => h ⟨⟨packed line, hvalid⟩, rfl⟩

inductive BlankedOut : List UInt8 → List UInt8 → Prop
  | same (line : List UInt8) : BlankedOut line line
  | blank {source blank : String} {ds : List Diagnostic}
      (refused : (Program.ofSource source).accepted = .error ds) (spaces : ∀ c ∈ blank.toList, Pattern.Space c) :
      BlankedOut (utf8 source) (utf8 blank)

namespace Session

variable {s t : Session} {source : String} {line : List UInt8}

theorem prompt_text (s : Session) (source : String) (lines : List ByteArray) :
    s.prompt (packed (utf8 source) :: lines) = (s.ask.handle source).1.prompt lines := by
  rw [prompt, answer, packed_utf8, fromUTF8_toUTF8]

theorem prompt_unreadable (h : ¬ IsText line) (s : Session) (lines : List ByteArray) :
    ∃ told, s.prompt (packed line :: lines) = ⟨74, s.machine.output ++ "> ".toUTF8, told⟩ := by
  rw [prompt, answer, fromUTF8_of_not_isText h]
  exact ⟨_, rfl⟩

structure Alike (s t : Session) : Prop where
  environment : s.machine.environment = t.machine.environment
  output : s.machine.output = t.machine.output
  options : s.options = t.options

theorem Alike.handle (h : s.Alike t) (hs : s.options.printTrees = false) (source : String) :
    (s.ask.handle source).1.Alike (t.ask.handle source).1 := by
  obtain ⟨henvironment, houtput, hoptions⟩ := s.ask_handle hs (Eq.refl (Program.ofSource source).accepted)
  obtain ⟨henvironment', houtput', hoptions'⟩ :=
    t.ask_handle (h.options ▸ hs) (Eq.refl (Program.ofSource source).accepted)
  rw [h.environment] at henvironment houtput
  rw [h.output] at houtput
  exact ⟨henvironment.trans henvironment'.symm, houtput.trans houtput'.symm,
    hoptions.trans (h.options.trans hoptions'.symm)⟩

-- A refused line and a blank one both leave the machine as it was.
theorem Alike.handle_blank {blank : String} {ds : List Diagnostic} (h : s.Alike t)
    (hs : s.options.printTrees = false) (hrefused : (Program.ofSource source).accepted = .error ds)
    (hblank : ∀ c ∈ blank.toList, Pattern.Space c) :
    (s.ask.handle source).1.Alike (t.ask.handle blank).1 := by
  obtain ⟨henvironment, houtput, hoptions⟩ := s.ask_handle hs (Eq.refl (Program.ofSource source).accepted)
  obtain ⟨henvironment', houtput', hoptions'⟩ :=
    t.ask_handle (h.options ▸ hs) (Eq.refl (Program.ofSource blank).accepted)
  rw [Effect.run_refused hrefused] at henvironment houtput
  rw [Effect.run_nothing (Program.accepted_blank hblank)] at henvironment' houtput'
  rw [h.output] at houtput
  exact ⟨henvironment.trans (h.environment.trans henvironment'.symm), houtput.trans houtput'.symm,
    hoptions.trans (h.options.trans hoptions'.symm)⟩

theorem Alike.prompt {lines lines' : List (List UInt8)} (hlines : List.Forall₂ BlankedOut lines lines')
    (h : s.Alike t) (hs : s.options.printTrees = false) :
    (s.prompt (lines.map packed)).output = (t.prompt (lines'.map packed)).output ∧
      (s.prompt (lines.map packed)).code = (t.prompt (lines'.map packed)).code := by
  induction hlines generalizing s t with
  | nil => exact ⟨congrArg (· ++ "> ".toUTF8) h.output, rfl⟩
  | @cons line _ _ _ hline _ ih =>
    have hkept (source : String) : (s.ask.handle source).1.options.printTrees = false := by
      obtain ⟨-, -, hoptions⟩ := s.ask_handle hs (Eq.refl (Program.ofSource source).accepted)
      exact hoptions ▸ hs
    rw [List.map_cons, List.map_cons]
    cases hline with
    | same =>
      by_cases hline : IsText line
      · obtain ⟨source, rfl⟩ := hline
        rw [prompt_text, prompt_text]
        exact ih (h.handle hs source) (hkept source)
      · obtain ⟨told, htold⟩ := prompt_unreadable hline s _
        obtain ⟨told', htold'⟩ := prompt_unreadable hline t _
        rw [htold, htold', h.output]
        exact ⟨rfl, rfl⟩
    | blank refused spaces =>
      rw [prompt_text, prompt_text]
      exact ih (h.handle_blank hs refused spaces) (hkept _)

theorem prompt_runs (s : Session) (hs : s.options.printTrees = false) (sources : List String)
    {rest : List (List UInt8)} (hrest : ∀ line ∈ rest.head?, ¬ IsText line) :
    (s.prompt ((sources.map utf8 ++ rest).map packed)).output =
        s.machine.output ++ prompted (transcript s.machine.environment sources) ∧
      (s.prompt ((sources.map utf8 ++ rest).map packed)).code = if rest = [] then 0 else 74 := by
  induction sources generalizing s with
  | nil =>
    cases rest with
    | nil => exact ⟨rfl, rfl⟩
    | cons line rest =>
      obtain ⟨told, htold⟩ := prompt_unreadable (hrest line rfl) s (rest.map packed)
      rw [List.map_nil, List.nil_append, List.map_cons, htold]
      exact ⟨rfl, rfl⟩
  | cons source sources ih =>
    obtain ⟨henvironment, houtput, hoptions⟩ := s.ask_handle hs (Eq.refl (Program.ofSource source).accepted)
    obtain ⟨hprinted, hcode⟩ := ih (s.ask.handle source).1 (hoptions ▸ hs)
    rw [List.map_cons, List.cons_append, List.map_cons, prompt_text]
    refine ⟨?_, hcode⟩
    rw [hprinted, houtput, henvironment, transcript, prompted]
    simp only [ByteArray.append_assoc]

end Session

theorem exists_sources (lines : List (List UInt8)) :
    ∃ (sources : List String) (rest : List (List UInt8)),
      lines = sources.map utf8 ++ rest ∧ ∀ line ∈ rest.head?, ¬ IsText line := by
  induction lines with
  | nil => exact ⟨[], [], rfl, nofun⟩
  | cons line lines ih =>
    by_cases hline : IsText line
    · obtain ⟨source, rfl⟩ := hline
      obtain ⟨sources, rest, rfl, hrest⟩ := ih
      exact ⟨source :: sources, rest, rfl, hrest⟩
    · exact ⟨[], line :: lines, rfl, fun _ h => Option.some.inj h ▸ hline⟩

theorem perform_prompt {options : Options} {arguments : List String}
    (harguments : Options.initial.readAll arguments = .ok options) (hscript : options.script = none)
    (read : String → Except ReadError ByteArray) (input : ByteArray) :
    perform read input arguments = (Session.new options).prompt ((cutLines input.data.toList).map packed) := by
  rw [perform, harguments]
  dsimp only
  rw [hscript, toList_eq_data]
  rfl

theorem prompt_survives_errors (read : String → Except ReadError ByteArray) (arguments : List String)
    (options : Options) (harguments : Options.initial.readAll arguments = .ok options)
    (hscript : options.script = none) (hrun : options.printTrees = false) (input : ByteArray) :
    ∃ (sources : List String) (rest : List (List UInt8)),
      (∀ lines, LinesOf input.data.toList lines ↔ lines = sources.map utf8 ++ rest) ∧
      (rest = [] ∧ (perform read input arguments).code = 0 ∨
        (∃ line others, rest = line :: others ∧ ¬ IsText line) ∧ (perform read input arguments).code = 74) ∧
      (perform read input arguments).output = prompted (transcript .initial sources) ∧
      (∀ x ∈ transcript .initial sources, ∀ f, x.result ≠ .error (.fault f)) ∧
      ∀ (input' : ByteArray) (lines' : List (List UInt8)), LinesOf input'.data.toList lines' →
        List.Forall₂ BlankedOut (sources.map utf8 ++ rest) lines' →
        (perform read input' arguments).output = (perform read input arguments).output ∧
          (perform read input' arguments).code = (perform read input arguments).code := by
  obtain ⟨sources, rest, hlines, hrest⟩ := exists_sources (cutLines input.data.toList)
  obtain ⟨houtput, hcode⟩ := (Session.new options).prompt_runs hrun sources hrest
  have hperform := perform_prompt harguments hscript read input
  rw [hlines] at hperform
  rw [← hperform] at houtput hcode
  refine ⟨sources, rest, fun lines => ?_, ?_, ?_, ?_, fun input' lines' hlines' hblanked => ?_⟩
  · rw [linesOf_iff, hlines]
  · cases rest with
    | nil => exact .inl ⟨rfl, hcode⟩
    | cons line others => exact .inr ⟨⟨line, others, rfl, hrest line rfl⟩, hcode⟩
  · exact houtput.trans ByteArray.empty_append
  · exact transcript_no_fault ⟨.initial, rfl⟩ sources
  · have halike : (Session.new options).Alike (Session.new options) := ⟨rfl, rfl, rfl⟩
    obtain ⟨hsame, hsame'⟩ := halike.prompt hblanked hrun
    rw [perform_prompt harguments hscript read input', hperform, ← linesOf_iff.mp hlines']
    exact ⟨hsame.symm, hsame'.symm⟩

theorem prompt_survives_errors_blanked :
    let read := fun _ : String => Except.error ReadError.notFound
    let before := ["var a = 1;\n", "\x7b a = 2; print b; \x7d\n"].map utf8
    let after := [utf8 "print a;\n", [0xff, 10], utf8 "print a;"]
    let lines := before ++ utf8 "print a +;\n" :: after
    let lines' := before ++ utf8 " \t\n" :: after
    let input := packed lines.flatten
    let input' := packed lines'.flatten
    Options.initial.readAll ["-v"] = .ok ⟨false, 1, none⟩ ∧
      LinesOf input.data.toList lines ∧ LinesOf input'.data.toList lines' ∧ List.Forall₂ BlankedOut lines lines' ∧
      (perform read input' ["-v"]).output = (perform read input ["-v"]).output ∧
      (perform read input' ["-v"]).code = (perform read input ["-v"]).code ∧
      (perform read input ["-v"]).output = "> > > > 2\n> ".toUTF8 ∧ (perform read input ["-v"]).code = 74 := by
  intro read before after lines lines' input input'
  have harguments : Options.initial.readAll ["-v"] = .ok ⟨false, 1, none⟩ := by decide +kernel
  have hlines : LinesOf input.data.toList lines := linesOf_iff.mpr (by decide +kernel)
  have hlines' : LinesOf input'.data.toList lines' := linesOf_iff.mpr (by decide +kernel)
  have hrefused : (Program.ofSource "print a +;\n").accepted =
      .error [⟨.missingExpression (.lexeme ";"), 1⟩] := by
    decide +kernel
  have hsame (shared : List (List UInt8)) : List.Forall₂ BlankedOut shared shared :=
    List.forall₂_same.mpr fun line _ => .same line
  have hblanked : List.Forall₂ BlankedOut lines lines' :=
    List.rel_append (hsame before) (.cons (.blank hrefused (by simp [Pattern.Space, Pattern.Blank])) (hsame after))
  obtain ⟨sources, rest, hsplit, -, -, -, hreplaced⟩ :=
    prompt_survives_errors read ["-v"] _ harguments rfl rfl input
  obtain ⟨houtput, hcode⟩ := hreplaced input' lines' hlines' ((hsplit lines).mp hlines ▸ hblanked)
  have hperform := perform_prompt harguments rfl read input
  refine ⟨harguments, hlines, hlines', hblanked, houtput, hcode, ?_, ?_⟩
  · rw [hperform]
    decide +kernel
  · rw [hperform]
    decide +kernel

end CommandLine

end Treewalk
