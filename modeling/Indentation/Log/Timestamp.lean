import Indentation.Double

/-! Points in time, in seconds from the beginning of 1970, as dates of the Gregorian calendar
in UTC. The seconds are in double precision, so that far from 1970 not every microsecond can
be told from the next. -/

namespace Indentation.Log.Timestamp

open Decimal (Binary)

/-- The nearest microsecond. The fraction of a second is rounded to double precision before. -/
def microsecond (negative : Bool) (seconds : Binary) : Int :=
  let (num, den) := seconds.ratio
  let fraction := Binary.nearest (num % den * 1000000) den
  Double.signed negative (num / den * 1000000 + fraction.rounded)

/-- Why a point in time has no date. -/
inductive OutOfRange where
  /-- It is no number. -/
  | undefined
  /-- Its seconds do not fit into a word. -/
  | clock
  /-- Its year does not fit into half a word, counted from 1900. -/
  | calendar
  /-- Its year does not have one to four digits. The number is what half a word holds of it. -/
  | year (number : Int)
  deriving DecidableEq, Repr

def OutOfRange.message : OutOfRange → String
  | .undefined => "Invalid value NaN (not a number)"
  | .clock => "timestamp is out of range"
  | .calendar => "year is out of range"
  | .year number => "year " ++ toString number ++ " is out of range"

/-- The date of a day counted from 1 March of year zero. Four hundred years, a hundred,
four and one have a fixed number of days each, the last of its kind excepted. -/
private def dateFromMarch (day : Int) : Int × Nat × Nat :=
  let era := day / 146097
  let dayOfEra := (day % 146097).toNat
  let yearOfEra := (dayOfEra - dayOfEra / 1460 + dayOfEra / 36524 - dayOfEra / 146096) / 365
  let dayOfYear := dayOfEra - (365 * yearOfEra + yearOfEra / 4 - yearOfEra / 100)
  let fromMarch := (5 * dayOfYear + 2) / 153
  let month := if fromMarch < 10 then fromMarch + 3 else fromMarch - 9
  let year := era * 400 + yearOfEra + (if month ≤ 2 then 1 else 0)
  (year, month, dayOfYear - (153 * fromMarch + 2) / 5 + 1)

/-- Year, month and day of a day counted from the beginning of 1970. -/
def date (day : Int) : Int × Nat × Nat := dateFromMarch (day + 719468)

private def padded (width n : Nat) : String :=
  let digits := toString n
  String.ofList (List.replicate (width - digits.length) '0') ++ digits

/-- The fraction of a second is left out when there is none. -/
private def dated (moment : Int) : Except OutOfRange String :=
  let seconds := moment / 1000000
  let fraction := (moment % 1000000).toNat
  let (year, month, day) := date (seconds / 86400)
  let second := (seconds % 86400).toNat
  if seconds < -Int.pow 2 63 ∨ Int.pow 2 63 < seconds then .error .clock
  else if year - 1900 < -Int.pow 2 31 ∨ Int.pow 2 31 ≤ year - 1900 then .error .calendar
  else if year < 1 ∨ 9999 < year then .error (.year (year.bmod (Nat.pow 2 32)))
  else
    .ok (padded 4 year.toNat ++ "-" ++ padded 2 month ++ "-" ++ padded 2 day ++ "T"
      ++ padded 2 (second / 3600) ++ ":" ++ padded 2 (second / 60 % 60) ++ ":" ++ padded 2 (second % 60)
      ++ (if fraction = 0 then "" else "." ++ padded 6 fraction) ++ "+00:00")

def text : Double → Except OutOfRange String
  | .finite negative seconds => dated (microsecond negative seconds)
  | .infinite _ => .error .clock
  | .nan => .error .undefined

end Indentation.Log.Timestamp
