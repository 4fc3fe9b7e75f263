import Indentation.Decimal.Basic

/-! Binary magnitudes of fifty-three bits. Every fraction has a nearest one; the exponent is
not bounded above. -/

namespace Indentation.Decimal

/-- The whole number nearest to `num / den`, the even one of two equally near. -/
def nearestQuotient (num den : Nat) : Nat :=
  let low := num / den
  let rest := 2 * (num % den)
  if rest < den then low
  else if den < rest then low + 1
  else if low % 2 = 0 then low else low + 1

/-- The magnitude `mantissa * 2 ^ exponent`. -/
structure Binary where
  mantissa : Nat
  exponent : Int
  deriving DecidableEq, Repr

namespace Binary

def zero : Binary := ⟨0, 0⟩

private def doubled (n : Nat) (by2 : Int) : Nat := n * Nat.pow 2 by2.toNat

/-- A mantissa that was rounded up to fifty-four bits gives one of them to the exponent. -/
private def normal (mantissa : Nat) (exponent : Int) : Binary :=
  if mantissa = 0 then zero
  else if mantissa = Nat.pow 2 53 then ⟨Nat.pow 2 52, exponent + 1⟩
  else ⟨mantissa, exponent⟩

/-- The magnitude nearest to `num / den`: a mantissa of fifty-three bits, fewer only where the
exponent is the least one. -/
def nearest (num den : Nat) : Binary :=
  if num = 0 then zero
  else
    let guess : Int := (num.log2 : Int) - den.log2 - 52
    let wide := doubled num (-guess) / doubled den guess
    let exponent := max (if wide < Nat.pow 2 52 then guess - 1 else guess) (-1074)
    normal (nearestQuotient (doubled num (-exponent)) (doubled den exponent)) exponent

/-- The exact value, as a numerator over a power of two. -/
def ratio (b : Binary) : Nat × Nat := (doubled b.mantissa b.exponent, doubled 1 (-b.exponent))

/-- The nearest whole number. -/
def rounded (b : Binary) : Nat := nearestQuotient b.ratio.1 b.ratio.2

end Binary

/-- The binary magnitude nearest to a decimal one. -/
def binary (d : Decimal) : Binary :=
  .nearest (d.digits * Nat.pow 10 d.exponent.toNat) (Nat.pow 10 (-d.exponent).toNat)

end Indentation.Decimal
