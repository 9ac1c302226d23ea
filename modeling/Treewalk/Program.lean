import Treewalk.Statement.Parser
import Treewalk.Token.Scan

namespace Treewalk

def Scanned.records (s : Scanned) : List Record :=
  s.diagnostics.map .reported ++ [.scanned s.tokens.length s.lines]

def Statement.Parsed.allRecords (p : Statement.Parsed) (earlier : Nat) : List Record :=
  p.records ++ [.parsedAll p.statements.length (earlier + p.diagnostics.length)]

structure Program where
  statements : List Statement
  diagnostics : List Diagnostic
  records : List Record
  deriving DecidableEq, Repr

namespace Program

def ofSource (source : String) : Program :=
  let scanned := scan source
  let parsed := Statement.parse scanned.tokens
  { statements := parsed.statements
    diagnostics := scanned.diagnostics ++ parsed.diagnostics
    records := scanned.records ++ parsed.allRecords scanned.diagnostics.length }

def accepted (p : Program) : Except (List Diagnostic) (List Statement) :=
  Diagnostic.keep p.diagnostics p.statements

theorem diagnosticsOf_records (source : String) :
    diagnosticsOf (ofSource source).records = (ofSource source).diagnostics := by
  simp only [ofSource, Scanned.records, Statement.Parsed.allRecords, Statement.Parsed.diagnostics,
    diagnosticsOf_append, diagnosticsOf_map_reported]
  simp [diagnosticsOf, List.filterMap_cons, Record.diagnostic?]

end Program

end Treewalk
