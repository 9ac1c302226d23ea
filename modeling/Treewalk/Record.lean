import Treewalk.Diagnostic
import Treewalk.Statement

namespace Treewalk

inductive Level where
  | debug
  | trace
  deriving DecidableEq, Repr

namespace Level

def text : Level → String
  | .debug => "debug"
  | .trace => "trace"

def hears : Level → (l : Level) → Bool
  | .debug, .trace => false
  | _, _ => true

end Level

inductive Record where
  | reported (d : Diagnostic)
  | scanned (tokens lines : Nat)
  | parsed (s : Statement)
  | parsedAll (statements diagnostics : Nat)
  | running (statements : Nat)
  | evaluating (line : Nat)
  | defining (name : String) (value : Value) (line : Nat)
  | entered (scope depth : Nat)
  | leaving (scope depth : Nat)
  | failed (e : RuntimeError)
  | read (bytes : Nat) (path : String)
  deriving DecidableEq, Repr

namespace Record

def level : Record → Level
  | .parsed _ | .evaluating _ | .defining .. | .entered .. | .leaving .. => .trace
  | _ => .debug

def message : Record → String
  | .reported d => "reported: " ++ d.text
  | .scanned tokens lines => "scanned " ++ toString tokens ++ " tokens over " ++ toString lines ++ " lines"
  | .parsed s => "parsed " ++ s.text
  | .parsedAll statements diagnostics =>
      "parsed " ++ toString statements ++ " statements, " ++ toString diagnostics ++ " diagnostics so far"
  | .running statements => "running " ++ toString statements ++ " statements"
  | .evaluating line => "line " ++ toString line ++ ": expression statement"
  | .defining name value line => "line " ++ toString line ++ ": define " ++ name ++ " as " ++ value.typeName
  | .entered scope depth => "entered scope " ++ toString scope ++ " (depth " ++ toString depth ++ ")"
  | .leaving scope depth => "leaving scope " ++ toString scope ++ " (depth " ++ toString depth ++ ")"
  | .failed e => "runtime error on line " ++ toString e.line ++ ": " ++ e.message
  | .read bytes path => "read " ++ toString bytes ++ " bytes from " ++ path

def diagnostic? : Record → Option Diagnostic
  | .reported d => some d
  | _ => none

end Record

def diagnosticsOf (records : List Record) : List Diagnostic :=
  records.filterMap Record.diagnostic?

@[simp] theorem diagnosticsOf_append (rs ss : List Record) :
    diagnosticsOf (rs ++ ss) = diagnosticsOf rs ++ diagnosticsOf ss :=
  List.filterMap_append

@[simp] theorem diagnosticsOf_map_reported (ds : List Diagnostic) :
    diagnosticsOf (ds.map .reported) = ds := by
  induction ds with
  | nil => rfl
  | cons d ds ih => simp_all [diagnosticsOf, Record.diagnostic?]

end Treewalk
