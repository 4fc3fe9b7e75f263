import Indentation.Decimal.Shortest

/-! Numbers in double precision: signed magnitudes below 2^1024, of which zero has both signs,
the two infinities, and what is no number. They are written in as few digits as read back. -/

namespace Indentation

open Decimal (Binary)

inductive Double where
  | finite (negative : Bool) (magnitude : Binary)
  | infinite (negative : Bool)
  | nan
  deriving DecidableEq, Repr

namespace Double

/-- From 2^1024 on a magnitude is infinite. -/
def ofBinary (negative : Bool) (magnitude : Binary) : Double :=
  if 971 < magnitude.exponent then .infinite negative else .finite negative magnitude

def ofRatio (negative : Bool) (num den : Nat) : Double := ofBinary negative (.nearest num den)

/-- Whole numbers that are too large have no double. -/
def ofInt? (n : Int) : Option Double :=
  match ofRatio (n < 0) n.natAbs 1 with
  | .finite negative magnitude => some (.finite negative magnitude)
  | _ => none

/-- A decimal far out of range is not computed. -/
def ofDecimal (negative : Bool) (d : Decimal) : Double :=
  let point : Int := (Nat.toDigits 10 d.digits).length + d.exponent
  if d.digits = 0 || point < -330 then .finite negative .zero
  else if 310 < point then .infinite negative
  else ofBinary negative d.binary

def signed (negative : Bool) (n : Nat) : Int := if negative then -(n : Int) else n

def neg : Double → Double
  | .finite negative magnitude => .finite (!negative) magnitude
  | .infinite negative => .infinite (!negative)
  | .nan => .nan

/-- A sum that is zero is negative only if both its parts are. -/
def add : Double → Double → Double
  | .finite s a, .finite t b =>
    let sum := signed s (a.ratio.1 * b.ratio.2) + signed t (b.ratio.1 * a.ratio.2)
    if sum = 0 then .finite (s && t) .zero else ofRatio (sum < 0) sum.natAbs (a.ratio.2 * b.ratio.2)
  | .infinite s, .infinite t => if s = t then .infinite s else .nan
  | .infinite s, .finite _ _ => .infinite s
  | .finite _ _, .infinite t => .infinite t
  | .nan, _ => .nan
  | _, .nan => .nan

def sub (a b : Double) : Double := add a b.neg

/-- The quotient by a positive whole number. -/
def divNat (d : Double) (divisor : Nat) : Double :=
  match d with
  | .finite negative b => ofRatio negative b.ratio.1 (b.ratio.2 * divisor)
  | d => d

/-- Whether a double is less than a whole number. -/
def isBelow : Double → Int → Bool
  | .finite negative b, n => signed negative b.ratio.1 < n * b.ratio.2
  | .infinite negative, _ => negative
  | .nan, _ => false

/-- Whether a double is a whole number or greater. -/
def isFrom : Double → Int → Bool
  | .nan, _ => false
  | d, n => !d.isBelow n

def isZero : Double → Bool
  | .finite _ b => b.mantissa = 0
  | _ => false

/-- The whole number a double is, if it is one. -/
def whole? : Double → Option Int
  | .finite negative b =>
    let (num, den) := b.ratio
    if num % den = 0 then some (signed negative (num / den)) else none
  | _ => none

/-- The double nearest to the exact value rounded to hundredths. -/
def toHundredths : Double → Double
  | .finite negative b => ofRatio negative (Decimal.nearestQuotient (b.ratio.1 * 100) b.ratio.2) 100
  | d => d

private def signText (negative : Bool) : String := if negative then "-" else ""

def text : Double → String
  | .finite negative b => signText negative ++ b.shortest.text
  | .infinite negative => signText negative ++ "inf"
  | .nan => "nan"

/-- The same in JSON, which has names of its own for what is not finite. -/
def json : Double → String
  | .infinite negative => signText negative ++ "Infinity"
  | .nan => "NaN"
  | d => d.text

end Double
end Indentation
