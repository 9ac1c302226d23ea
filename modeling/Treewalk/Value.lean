import Treewalk.Number

namespace Treewalk

inductive Value where
  | nil
  | boolean (b : Bool)
  | number (x : Float)
  | string (s : String)
  deriving DecidableEq, Repr

namespace Value

def typeName : Value → String
  | .nil => "nil"
  | .boolean _ => "boolean"
  | .number _ => "number"
  | .string _ => "string"

def text : Value → String
  | .nil => "nil"
  | .boolean b => if b then "true" else "false"
  | .number x => Number.text x
  | .string s => s

def sourceText : Value → String
  | .string s => "\"" ++ s ++ "\""
  | v => v.text

def isTruthy : Value → Bool
  | .nil => false
  | .boolean b => b
  | _ => true

def equal : Value → Value → Bool
  | .nil, .nil => true
  | .boolean a, .boolean b => a = b
  | .number x, .number y => Number.equal x y
  | .string s, .string t => s = t
  | _, _ => false

end Value

end Treewalk
