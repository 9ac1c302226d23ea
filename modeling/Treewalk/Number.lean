import Treewalk.Decimal.Shortest

namespace Treewalk.Number

def magnitude (x : Float) : Nat :=
  x.toBits.toNat % Nat.pow 2 63

def isNegative (x : Float) : Bool :=
  x.toBits.toNat / Nat.pow 2 63 = 1

def magnitudeText (index : Nat) : String :=
  if index = Binary64.infinity then "inf" else (Decimal.shortest index).text

def text (x : Float) : String :=
  if x.isNaN then "NaN"
  else if isNegative x then "-" ++ magnitudeText (magnitude x)
  else magnitudeText (magnitude x)

def ofDecimal (d : Decimal) : Float :=
  Float.ofBits d.nearest.toUInt64

def ofChars (cs : List Char) : Float :=
  ofDecimal (Decimal.ofChars cs)

def equal (x y : Float) : Bool :=
  x == y || (x.isNaN && y.isNaN)

end Treewalk.Number
