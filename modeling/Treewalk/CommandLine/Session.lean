import Treewalk.CommandLine.Arguments
import Treewalk.CommandLine.Files
import Treewalk.Run

namespace Treewalk.CommandLine

def Options.level (o : Options) : Option Level :=
  match o.verbosity with
  | 0 => none
  | 1 => some .debug
  | _ => some .trace

structure Session where
  options : Options
  machine : Machine ByteArray
  told : String

structure Outcome where
  code : Nat
  output : ByteArray
  told : String

namespace Session

def new (options : Options) : Session :=
  ⟨options, .new .empty, ""⟩

def print (s : Session) (text : String) : Session :=
  { s with machine := { s.machine with output := s.machine.output ++ text.toUTF8 } }

def tell (s : Session) (text : String) : Session :=
  { s with told := s.told ++ text ++ "\n" }

def tellLog (s : Session) : Session :=
  let heard := s.machine.log.toList.filter fun r => s.options.level.any (·.hears r.level)
  let s := { s with machine := { s.machine with log := #[] } }
  heard.foldl (fun s r => s.tell ("[clex:" ++ r.level.text ++ "] " ++ r.message)) s

def act (options : Options) (source : String) : EStateM Failure (Machine ByteArray) Unit :=
  if options.printTrees then do
    let statements ← Machine.load source
    modify fun m => { m with output := statements.foldl (fun out s => out ++ (s.text ++ "\n").toUTF8) m.output }
  else Machine.run source

def handle (s : Session) (source : String) : Session × Option Failure :=
  match act s.options source s.machine with
  | .ok _ m => (tellLog { s with machine := m }, none)
  | .error f m => ((tellLog { s with machine := m }).tell f.text, some f)

def finish (s : Session) (code : Nat) : Outcome :=
  ⟨code, s.machine.output, s.told⟩

def runScript (s : Session) (path : String) (contents : Except ReadError ByteArray) : Outcome :=
  let source : Except ReadError String :=
    match contents with
    | .ok bytes =>
        match String.fromUTF8? bytes with
        | some source => .ok source
        | none => .error .notText
    | .error e => .error e
  match source with
  | .error e => (s.tell ("Failed to read the script '" ++ path ++ "': " ++ e.message)).finish 66
  | .ok source =>
      let m := s.machine
      let s := { s with machine := { m with log := m.log.push (.read source.utf8ByteSize path) } }
      let (s, failure) := s.handle source
      s.finish (failure.elim 0 Failure.exitCode)

def answer (s : Session) (line : ByteArray) : Except Outcome Session :=
  match String.fromUTF8? line with
  | some source => .ok (s.handle source).1
  | none => .error ((s.tell ("Failed to read input: " ++ ReadError.notText.message)).finish 74)

def ask (s : Session) : Session :=
  s.print "> "

def prompt (s : Session) : List ByteArray → Outcome
  | [] => s.ask.finish 0
  | line :: lines =>
      match s.ask.answer line with
      | .ok s => s.prompt lines
      | .error outcome => outcome

end Session

def cutLines : List UInt8 → List (List UInt8)
  | [] => []
  | b :: bs =>
      if b = 10 then [b] :: cutLines bs
      else
        match cutLines bs with
        | [] => [[b]]
        | line :: lines => (b :: line) :: lines

def versionText : String :=
  "clex 0.1.0\n"

def helpText : String :=
  "A tree-walking interpreter for a small Lox-style scripting language

Usage: clex [OPTIONS] [SCRIPT]

Arguments:
  [SCRIPT]  The script to run. Without one, clex starts an interactive prompt

Options:
      --ast         Print the syntax tree of each statement instead of running it
  -v, --verbose...  Log pipeline stages to stderr. Repeat for more detail
  -h, --help        Print help
  -V, --version     Print version
"

namespace Refusal

def outcome : Refusal → Outcome
  | .help => ⟨0, helpText.toUTF8, ""⟩
  | .version => ⟨0, versionText.toUTF8, ""⟩
  | .misuse m => ⟨64, .empty, "error: " ++ m.message ++ "\n"⟩

end Refusal

def perform (read : String → Except ReadError ByteArray) (input : ByteArray) (arguments : List String) : Outcome :=
  match Options.initial.readAll arguments with
  | .error r => r.outcome
  | .ok options =>
      match options.script with
      | some path => (Session.new options).runScript path (read path)
      | none => (Session.new options).prompt ((cutLines input.toList).map fun line => ⟨line.toArray⟩)

end Treewalk.CommandLine
