import Treewalk.Proofs.Grammar.Depth
import Treewalk.Proofs.Grammar.Recovery

namespace Treewalk

open TokenParser

section Length

variable {next : Token} {room : Nat} {used rest : List Token} {d : Diagnostic}

-- Every level that is open has taken a token, and so has the one that is too many, if it is not the next one.
theorem Fails.room_le {n : Nonterminal} (h : Fails next room n used d) (hd : d.complaint.isTooDeep) :
    room < used.length ∨ room ≤ used.length ∧ next.kind ≠ .endOfInput := by
  induction h with
  | missing | unclosed | target => cases hd
  | groupTooDeep hk | unaryTooDeep hk => exact .inr ⟨Nat.le_refl _, by simp [hk]⟩
  | inGroup _ _ ih | inUnary _ _ _ ih =>
    exact (ih hd).imp Nat.succ_lt_succ (And.imp_left Nat.succ_le_succ)
  | right _ _ _ _ _ _ ih =>
    rw [List.length_append, List.length_cons]
    exact (ih hd).imp (by omega) (And.imp_left (by omega))
  | assignTooDeep => exact .inl (by simp)
  | value _ _ _ _ ih =>
    rw [List.length_append, List.length_cons]
    exact (ih hd).imp (by omega) (And.imp_left (by omega))
  | tighter _ _ ih => exact ih hd

theorem Fails.room_lt {n : Nonterminal} (h : Fails (Token.peek rest) room n used d) (hd : d.complaint.isTooDeep) :
    room < (used ++ rest).length := by
  rw [List.length_append]
  rcases h.room_le hd with hlt | ⟨hle, hk⟩
  · omega
  · cases rest with
    | nil => exact absurd rfl hk
    | cons t rest =>
      rw [List.length_cons]
      omega

theorem FailsClause.room_lt {expectation : String} (h : FailsClause (Token.peek rest) room expectation used d)
    (hd : d.complaint.isTooDeep) : room < (used ++ rest).length := by
  cases h with
  | inside hf => exact hf.room_lt hd
  | unclosed => cases hd

theorem FailsSimple.room_lt (h : FailsSimple (Token.peek rest) room used d) (hd : d.complaint.isTooDeep) :
    room < (used ++ rest).length := by
  cases h with
  | unnamed | bare => cases hd
  | initial _ _ _ hf =>
    have hlt := hf.room_lt hd
    simp only [List.cons_append, List.length_cons]
    omega
  | print _ hf => exact Nat.lt_succ_of_lt (hf.room_lt hd)
  | expression _ hf => exact hf.room_lt hd

end Length

namespace Statement

def Parsed.TooDeep (p : Parsed) : Prop :=
  ∃ d ∈ p.diagnostics, d.complaint.isTooDeep

section TooDeep

variable {a : Attempt} {p q : Parsed} {d : Diagnostic}

end TooDeep

section Length

variable {one : List Token → Parsed} {room : Nat}

end Length

def Curtails (one one' : List Token → Parsed) : Prop :=
  ∀ ts, ¬ (one ts).TooDeep → one' ts = one ts

section Curtails

variable {one one' : List Token → Parsed} {inner inner' : Option (List Token → Parsed)} {g g' : Grammar}
  {ts : List Token}

end Curtails

section Room

variable {room more : Nat} {ts : List Token} {ss : List Statement}

end Room

end Statement

end Treewalk
