import Treewalk.Decimal

namespace Treewalk.Binary64

def fractionBits : Nat := 52

def unitBits : Nat := 1074

def infinity : Nat := 2047 * Nat.pow 2 fractionBits

def spacing (index : Nat) : Nat :=
  index / Nat.pow 2 fractionBits - 1

def significand (index : Nat) : Nat :=
  index - spacing index * Nat.pow 2 fractionBits

def units (index : Nat) : Nat :=
  significand index * Nat.pow 2 (spacing index)

def roundDiv (num den : Nat) : Nat :=
  let quotient := num / den
  let twice := 2 * (num % den)
  if twice < den ∨ twice = den ∧ quotient % 2 = 0 then quotient else quotient + 1

def nearest (num den : Nat) : Nat :=
  let scaled := num * Nat.pow 2 unitBits
  let gap := (scaled / den).log2 - fractionBits
  min infinity (gap * Nat.pow 2 fractionBits + roundDiv scaled (den * Nat.pow 2 gap))

end Treewalk.Binary64

namespace Treewalk.Decimal

def nearest (d : Decimal) : Nat :=
  Binary64.nearest d.numerator d.denominator

end Treewalk.Decimal
