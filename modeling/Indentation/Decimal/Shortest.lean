import Indentation.Decimal.Binary

/-! The shortest decimal that reads back as a binary magnitude and, of several as short, the
nearest to it. Seventeen digits are always enough. -/

namespace Indentation.Decimal.Binary

/-- The power of ten of the first digit of `num / den`. -/
def leading (num den : Nat) : Int :=
  if den ≤ num then (Nat.toDigits 10 (num / den)).length - 1
  else -((Nat.toDigits 10 (den / num)).length : Int)

/-- The two neighbours of a magnitude among the decimals with so many digits, the nearer one
first. -/
def neighbours (b : Binary) (places : Nat) : Decimal × Decimal :=
  let (num, den) := b.ratio
  let exponent := leading num den - places + 1
  let num := num * Nat.pow 10 (-exponent).toNat
  let den := den * Nat.pow 10 exponent.toNat
  let near := nearestQuotient num den
  let low := num / den
  (⟨near, exponent⟩, ⟨if near = low then low + 1 else low, exponent⟩)

/-- A decimal with so many digits that reads back. -/
def writtenIn? (b : Binary) (places : Nat) : Option Decimal :=
  let (near, other) := b.neighbours places
  if near.binary = b then some near
  else if other.binary = b then some other
  else none

def shortest (b : Binary) : Decimal :=
  ((List.range' 1 16).findSome? b.writtenIn?).getD (b.neighbours 17).1

end Indentation.Decimal.Binary
