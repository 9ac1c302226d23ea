import Treewalk.Proofs.Grammar.Order
import Treewalk.Proofs.Lexical.Passages

namespace Treewalk

namespace Diagnostic

def InOrder (ds : List Diagnostic) : Prop :=
  ds.Pairwise fun d d' => d.line ≤ d'.line

namespace InOrder

variable {ds ds' : List Diagnostic} {d : Diagnostic}

theorem le_last (h : InOrder ds) (hlast : d ∈ ds.getLast?) : ∀ d' ∈ ds, d'.line ≤ d.line := by
  obtain ⟨init, rfl⟩ := List.getLast?_eq_some_iff.mp hlast
  obtain ⟨-, -, hle⟩ := List.pairwise_append.mp h
  intro d' hd'
  rcases List.mem_append.mp hd' with hd' | hd'
  · exact hle d' hd' d (List.mem_singleton_self d)
  · rw [List.mem_singleton.mp hd']

theorem first_le (h : InOrder ds) (hfirst : d ∈ ds.head?) : ∀ d' ∈ ds, d.line ≤ d'.line := by
  obtain ⟨others, rfl⟩ := List.head?_eq_some_iff.mp hfirst
  exact List.forall_mem_cons.mpr ⟨Nat.le_refl _, (List.pairwise_cons.mp h).1⟩

theorem append_iff (h : InOrder ds) (h' : InOrder ds') :
    InOrder (ds ++ ds') ↔ ∀ last ∈ ds.getLast?, ∀ first ∈ ds'.head?, last.line ≤ first.line := by
  constructor
  · intro hall last hlast first hfirst
    obtain ⟨-, -, hle⟩ := List.pairwise_append.mp hall
    exact hle last (List.mem_of_getLast? hlast) first (List.mem_of_head? hfirst)
  · intro hseam
    refine List.pairwise_append.mpr ⟨h, h', fun d hd d' hd' => ?_⟩
    obtain ⟨last, hlast⟩ : ∃ last, last ∈ ds.getLast? := ⟨_, List.getLast?_eq_some_getLast (List.ne_nil_of_mem hd)⟩
    obtain ⟨first, hfirst⟩ : ∃ first, first ∈ ds'.head? := ⟨_, List.head?_eq_some_head (List.ne_nil_of_mem hd')⟩
    calc d.line
      _ ≤ last.line := h.le_last hlast d hd
      _ ≤ first.line := hseam last hlast first hfirst
      _ ≤ d'.line := h'.first_le hfirst d' hd'

end InOrder

end Diagnostic

open Diagnostic (InOrder)

theorem Statement.diagnostics_inOrder (source : String) : InOrder (parse (scan source).tokens).diagnostics := by
  obtain ⟨us, q, htokens, hq, -⟩ := scan_terminated source
  have hlines := scan_lines_ordered source
  rw [htokens] at hlines ⊢
  obtain ⟨used, next, hsub, hblames, -⟩ := parse_blames_tokens hq
  exact hblames.lines_le (hlines.sublist hsub)

namespace Program

theorem errors_inOrder_iff (source : String) (ds : List Diagnostic)
    (h : (ofSource source).accepted = .error ds) :
    let lexical := (scan source).diagnostics
    let syntactic := (Statement.parse (scan source).tokens).diagnostics
    ds = lexical ++ syntactic ∧ InOrder lexical ∧ InOrder syntactic ∧
      (InOrder ds ↔ ∀ last ∈ lexical.getLast?, ∀ first ∈ syntactic.head?, last.line ≤ first.line) := by
  intro lexical syntactic
  obtain rfl : ds = lexical ++ syntactic := Diagnostic.keep_eq_error h
  have hlexical : InOrder lexical := scan_diagnostics_ordered source
  have hsyntactic : InOrder syntactic := Statement.diagnostics_inOrder source
  exact ⟨rfl, hlexical, hsyntactic, hlexical.append_iff hsyntactic⟩

theorem errors_inOrder_iff_spread :
    let source := "#\n\"a\n\" = #\n= (;\n\x7b"
    let ds : List Diagnostic :=
      [⟨.strayCharacter, 1⟩, ⟨.strayCharacter, 3⟩, ⟨.missingExpression (.lexeme "="), 4⟩,
        ⟨.unexpectedToken .endOfInput "Expect '\x7d' after block.", 5⟩]
    (ofSource source).accepted = .error ds ∧ InOrder ds := by
  intro source ds
  have herror : (ofSource source).accepted = .error ds := by decide +kernel
  obtain ⟨-, -, -, horder⟩ := errors_inOrder_iff source ds herror
  exact ⟨herror, horder.mpr (by decide +kernel)⟩

theorem errors_out_of_order :
    (ofSource "print ;\n#").accepted = .error [⟨.strayCharacter, 2⟩, ⟨.missingExpression (.lexeme ";"), 1⟩] ∧
      ¬ InOrder [⟨.strayCharacter, 2⟩, ⟨.missingExpression (.lexeme ";"), 1⟩] := by
  refine ⟨by decide +kernel, fun h => ?_⟩
  have hle := (List.pairwise_cons.mp h).1 _ (List.mem_singleton_self _)
  exact absurd hle (by decide)

end Program

end Treewalk
