import Treewalk.Decimal.Binary64

namespace Treewalk.Decimal

def neighbours (index : Nat) (exponent : Int) : List Decimal :=
  let num := Binary64.units index * Nat.pow 10 (-exponent).toNat
  let den := Nat.pow 2 Binary64.unitBits * Nat.pow 10 exponent.toNat
  let below := ⟨num / den, exponent⟩
  let above := ⟨num / den + 1, exponent⟩
  if 2 * (num % den) < den then [below, above] else [above, below]

def exact (index : Nat) : Decimal :=
  ⟨Binary64.units index * Nat.pow 5 Binary64.unitBits, -Binary64.unitBits⟩

def grids (index : Nat) : List Int :=
  let whole := (Nat.toDigits 10 (Binary64.units index / Nat.pow 2 Binary64.unitBits)).length
  (List.range (whole + Binary64.unitBits)).map fun finer : Nat => (whole : Int) - finer

def shortest (index : Nat) : Decimal :=
  if index = 0 then ⟨0, 0⟩
  else
    let found := (grids index).findSome? fun exponent => (neighbours index exponent).find? (·.nearest = index)
    found.getD (exact index)

end Treewalk.Decimal
