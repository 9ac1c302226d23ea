import Treewalk.Token

namespace Treewalk

inductive Location where
  | endOfInput
  | lexeme (s : String)
  deriving DecidableEq, Repr

namespace Location

def ofToken (t : Token) : Location :=
  if t.kind = .endOfInput then .endOfInput else .lexeme t.lexeme

def text : Location → String
  | .endOfInput => " at end"
  | .lexeme s => " at '" ++ s ++ "'"

end Location

inductive Complaint where
  | strayCharacter
  | openString
  | unexpectedToken (location : Location) (expectation : String)
  | missingExpression (location : Location)
  | invalidTarget (location : Location)
  | tooDeep (location : Location)
  deriving DecidableEq, Repr

namespace Complaint

def location : Complaint → Option Location
  | .strayCharacter | .openString => none
  | .unexpectedToken l _ | .missingExpression l | .invalidTarget l | .tooDeep l => some l

def message : Complaint → String
  | .strayCharacter => "Unexpected character."
  | .openString => "Unterminated string."
  | .unexpectedToken _ expectation => expectation
  | .missingExpression _ => "Expect expression."
  | .invalidTarget _ => "Invalid assignment target."
  | .tooDeep _ => "Too much nesting."

end Complaint

structure Diagnostic where
  complaint : Complaint
  line : Nat
  deriving DecidableEq, Repr

namespace Diagnostic

def text (d : Diagnostic) : String :=
  "[line " ++ toString d.line ++ "] Error" ++ (d.complaint.location.elim "" Location.text) ++ ": " ++
    d.complaint.message

def about (t : Token) (complaint : Location → Complaint) : Diagnostic :=
  ⟨complaint (.ofToken t), t.line⟩

def unexpected (t : Token) (expectation : String) : Diagnostic :=
  about t (.unexpectedToken · expectation)

def keep {α : Type} (reported : List Diagnostic) (result : α) : Except (List Diagnostic) α :=
  if reported.isEmpty then .ok result else .error reported

section Keep

variable {α : Type} {reported ds : List Diagnostic} {result kept : α}

theorem keep_eq_ok (h : keep reported result = .ok kept) : reported = [] ∧ result = kept := by
  cases reported with
  | nil =>
    cases h
    exact ⟨rfl, rfl⟩
  | cons => cases h

theorem keep_eq_error (h : keep reported result = .error ds) : ds = reported := by
  unfold keep at h
  split at h
  · cases h
  · cases h
    rfl

end Keep

end Diagnostic

end Treewalk
