import Treewalk.CommandLine.Session

namespace Treewalk.CommandLine

def ReadError.ofSystem : IO.Error → ReadError
  | .noFileOrDirectory .. => .notFound
  | .permissionDenied .. => .permissionDenied
  | .inappropriateType _ code _ => if code = 21 ∨ code = -21 then .isDirectory else .notDirectory
  | e@(.invalidArgument _ code _) => if code = 36 ∨ code = -36 then .nameTooLong else .other (toString e)
  | e => .other (toString e)

def readScript (path : String) : IO (Except ReadError ByteArray) := do
  try
    return .ok (← IO.FS.readBinFile path)
  catch e =>
    return .error (.ofSystem e)

def display (output : ByteArray) (told : String) : IO Unit := do
  let stdout ← IO.getStdout
  stdout.write output
  stdout.flush
  let stderr ← IO.getStderr
  stderr.putStr told
  stderr.flush

def conclude (outcome : Outcome) : IO UInt32 := do
  display outcome.output outcome.told
  return outcome.code.toUInt32

def Session.shown (s : Session) : IO Session := do
  display s.machine.output s.told
  return { s with machine := { s.machine with output := .empty }, told := "" }

partial def readLine (input : IO.FS.Stream) (line : ByteArray) : IO ByteArray := do
  let byte ← input.read 1
  if byte.isEmpty then return line
  else if byte.get! 0 = 10 then return line ++ byte
  else readLine input (line ++ byte)

partial def converse (input : IO.FS.Stream) (s : Session) : IO UInt32 := do
  let s ← s.ask.shown
  let line ← readLine input .empty
  if line.isEmpty then return 0
  match s.answer line with
  | .ok s => converse input s
  | .error outcome => conclude outcome

end Treewalk.CommandLine

open Treewalk.CommandLine

def main (arguments : List String) : IO UInt32 := do
  match Options.initial.readAll arguments with
  | .error refusal => conclude refusal.outcome
  | .ok options =>
      match options.script with
      | some path => conclude ((Session.new options).runScript path (← readScript path))
      | none => converse (← IO.getStdin) (Session.new options)
