/-! Decimal magnitudes and how they are written. A number below 10^16 and not below 10^-4 is
written with a point, any other with an exponent of two digits at least. -/

namespace Indentation

/-- The magnitude `digits * 10 ^ exponent`. -/
structure Decimal where
  digits : Nat
  exponent : Int
  deriving DecidableEq, Repr

namespace Decimal

/-- Significant digits: trailing zeros move into the exponent. -/
def stripped (digits : Nat) (exponent : Int) : Nat × Int :=
  if h : digits ≠ 0 ∧ digits % 10 = 0 then stripped (digits / 10) (exponent + 1)
  else (digits, exponent)
termination_by digits
decreasing_by omega

private def zeros (n : Nat) : List Char := List.replicate n '0'

/-- Two digits at least, after a sign that is always there. -/
def power (e : Int) : List Char :=
  let digits := Nat.toDigits 10 e.natAbs
  (if e < 0 then '-' else '+') :: zeros (2 - digits.length) ++ digits

def layout (digits : List Char) (exponent : Int) : List Char :=
  let point : Int := digits.length + exponent
  if -3 ≤ point ∧ point ≤ 16 then
    if point ≤ 0 then '0' :: '.' :: zeros (-point).toNat ++ digits
    else if 0 ≤ exponent then digits ++ zeros exponent.toNat ++ ['.', '0']
    else digits.take point.toNat ++ '.' :: digits.drop point.toNat
  else
    let fraction := digits.drop 1
    digits.take 1 ++ (if fraction = [] then [] else '.' :: fraction) ++ 'e' :: power (point - 1)

def text (d : Decimal) : String :=
  let (digits, exponent) := stripped d.digits (if d.digits = 0 then 0 else d.exponent)
  String.ofList (layout (Nat.toDigits 10 digits) exponent)

end Decimal
end Indentation
