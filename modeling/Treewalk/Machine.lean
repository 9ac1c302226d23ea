import Treewalk.Environment
import Treewalk.Sink

namespace Treewalk

structure Machine (W : Type) where
  environment : Environment
  output : W
  log : Array Record

abbrev Exec (W : Type) := EStateM Abort (Machine W)

namespace Machine

variable {W : Type}

def new (output : W) : Machine W :=
  ⟨.initial, output, #[]⟩

def tell (r : Record) : Exec W Unit := fun m =>
  .ok () { m with log := m.log.push r }

def onEnvironment {α : Type} (act : EStateM Abort Environment α) : Exec W α := fun m =>
  match act m.environment with
  | .ok a env => .ok a { m with environment := env }
  | .error stop env => .error stop { m with environment := env }

def printLine [Sink W] (text : String) (line : Nat) : Exec W Unit := fun m =>
  match Sink.write m.output (text ++ "\n").toUTF8 with
  | (output, none) => .ok () { m with output }
  | (output, some reason) => .error (.error ⟨.output reason, line⟩) { m with output }

def inNewScope (act : Exec W Unit) : Exec W Unit := do
  let (enclosing, entered) ← onEnvironment Environment.enter
  tell entered
  try
    act
  finally
    tell (← onEnvironment (Environment.leave enclosing))

end Machine

end Treewalk
