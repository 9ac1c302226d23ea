
namespace Treewalk.CommandLine

inductive Flag where
  | ast
  | verbose
  | help
  | version
  deriving DecidableEq, Repr

namespace Flag

def ofLong? : String → Option Flag
  | "ast" => some .ast
  | "verbose" => some .verbose
  | "help" => some .help
  | "version" => some .version
  | _ => none

def ofShort? : Char → Option Flag
  | 'v' => some .verbose
  | 'h' => some .help
  | 'V' => some .version
  | _ => none

end Flag

structure Options where
  printTrees : Bool
  verbosity : Nat
  script : Option String
  deriving DecidableEq, Repr

inductive Misuse where
  | unknownFlag (argument : String)
  | repeatedFlag (argument : String)
  | emptyScript
  | extraScript (argument : String)
  deriving DecidableEq, Repr

def Misuse.message : Misuse → String
  | .unknownFlag a => "unexpected argument '" ++ a ++ "' found"
  | .repeatedFlag a => "the argument '" ++ a ++ "' cannot be used multiple times"
  | .emptyScript => "the script needs a name"
  | .extraScript a => "unexpected argument '" ++ a ++ "' found"

inductive Refusal where
  | misuse (m : Misuse)
  | help
  | version
  deriving DecidableEq, Repr

namespace Options

def initial : Options :=
  ⟨false, 0, none⟩

def raise (o : Options) : Flag → Except Refusal Options
  | .ast => if o.printTrees then .error (.misuse (.repeatedFlag "--ast")) else .ok { o with printTrees := true }
  | .verbose => .ok { o with verbosity := o.verbosity + 1 }
  | .help => .error .help
  | .version => .error .version

def setScript (o : Options) (name : String) : Except Refusal Options :=
  if name = "" then .error (.misuse .emptyScript)
  else if o.script.isSome then .error (.misuse (.extraScript name))
  else .ok { o with script := some name }

def raise? (o : Options) (argument : String) (flag : Option Flag) : Except Refusal Options :=
  match flag with
  | some f => o.raise f
  | none => .error (.misuse (.unknownFlag argument))

def read (o : Options) (argument : String) : Except Refusal Options :=
  match argument.toList with
  | '-' :: '-' :: name => o.raise? argument (Flag.ofLong? (String.ofList name))
  | '-' :: letter :: letters =>
      (letter :: letters).foldlM (fun o c => o.raise? argument (Flag.ofShort? c)) o
  | _ => o.setScript argument

def readAll (o : Options) : List String → Except Refusal Options
  | [] => .ok o
  | argument :: rest =>
      if argument = "--" then rest.foldlM setScript o
      else
        match o.read argument with
        | .ok o => o.readAll rest
        | .error r => .error r

end Options

end Treewalk.CommandLine
