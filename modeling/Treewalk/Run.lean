import Treewalk.Program
import Treewalk.Statement.Exec

namespace Treewalk

inductive Failure where
  | static (diagnostics : List Diagnostic)
  | runtime (e : RuntimeError)
  | fault (f : ScopeFault)
  deriving DecidableEq, Repr

namespace Failure

def ofAbort : Abort → Failure
  | .error e => .runtime e
  | .fault f => .fault f

def exitCode : Failure → Nat
  | .static _ => 65
  | .runtime _ => 70
  | .fault _ => 101

def text : Failure → String
  | .static ds => "\n".intercalate (ds.map Diagnostic.text)
  | .runtime e => e.text
  | .fault (.missing id) => "scope " ++ toString id.index ++ " is gone"
  | .fault .endless => "scopes enclose each other"

end Failure

namespace Machine

variable {W : Type}

def load (source : String) : EStateM Failure (Machine W) (List Statement) := fun m =>
  let program := Program.ofSource source
  let m := { m with log := m.log ++ program.records }
  match program.accepted with
  | .ok statements => .ok statements m
  | .error ds => .error (.static ds) m

def start [Sink W] (statements : List Statement) : EStateM Failure (Machine W) Unit := fun m =>
  let m := { m with log := m.log.push (.running statements.length) }
  match Statement.interpret statements m with
  | .ok _ m => .ok () m
  | .error stop m => .error (.ofAbort stop) m

def run [Sink W] (source : String) : EStateM Failure (Machine W) Unit := do
  let statements ← load source
  start statements

end Machine

end Treewalk
