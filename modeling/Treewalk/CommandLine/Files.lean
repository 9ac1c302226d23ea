
namespace Treewalk.CommandLine

inductive ReadError where
  | notFound
  | permissionDenied
  | notDirectory
  | isDirectory
  | nameTooLong
  | notText
  | other (description : String)
  deriving DecidableEq, Repr

def ReadError.message : ReadError → String
  | .notFound => "No such file or directory (os error 2)"
  | .permissionDenied => "Permission denied (os error 13)"
  | .notDirectory => "Not a directory (os error 20)"
  | .isDirectory => "Is a directory (os error 21)"
  | .nameTooLong => "File name too long (os error 36)"
  | .notText => "stream did not contain valid UTF-8"
  | .other description => description

inductive Entry where
  | file (contents : ByteArray)
  | directory

structure Files where
  entries : List (List String × Entry)
  working : List String

namespace Files

def maxName : Nat := 255

def maxPath : Nat := 4095

def entry? (fs : Files) (path : List String) : Option Entry :=
  match fs.entries.lookup path with
  | some entry => some entry
  | none =>
      if (fs.working :: fs.entries.map (·.1)).any path.isPrefixOf then some .directory else none

def follow (fs : Files) : (dir names : List String) → Except ReadError ByteArray
  | _, [] => .error .isDirectory
  | dir, name :: rest =>
      if name = "" ∨ name = "." then fs.follow dir rest
      else if name = ".." then fs.follow dir.dropLast rest
      else if maxName < name.utf8ByteSize then .error .nameTooLong
      else
        match fs.entry? (dir ++ [name]) with
        | none => .error .notFound
        | some .directory => fs.follow (dir ++ [name]) rest
        | some (.file contents) => if rest.isEmpty then .ok contents else .error .notDirectory

def read (fs : Files) (path : String) : Except ReadError ByteArray :=
  if path = "" then .error .notFound
  else if maxPath < path.utf8ByteSize then .error .nameTooLong
  else fs.follow (if path.toList.head? = some '/' then [] else fs.working) (path.splitOn "/")

end Files

end Treewalk.CommandLine
