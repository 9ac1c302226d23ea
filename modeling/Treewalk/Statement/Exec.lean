import Treewalk.Expr.Eval
import Treewalk.Machine

namespace Treewalk

open Machine

namespace Statement

variable {W : Type} [Sink W]

mutual

def exec : Statement → Exec W Unit
  | .expression e line => do
      tell (.evaluating line)
      let _ ← onEnvironment e.eval
  | .print e line => do
      let v ← onEnvironment e.eval
      printLine v.text line
  | .declare name initial line => do
      let v ←
        match initial with
        | some e => onEnvironment e.eval
        | none => pure .nil
      tell (.defining name v line)
      onEnvironment (do set (← MonadExcept.ofExcept ((← get).define name v)))
  | .block body _ => inNewScope (execAll body)

def execAll : List Statement → Exec W Unit
  | [] => return ()
  | s :: ss => do
      exec s
      execAll ss

end

def interpret (ss : List Statement) : Exec W Unit := fun m =>
  match execAll ss m with
  | .error (.error e) m => .error (.error e) { m with log := m.log.push (.failed e) }
  | result => result

end Statement

end Treewalk
