import Indentation.Schema.Refusal

/-! Whole numbers in texts, as pydantic documents its lax conversion of a text to an integer,
with its limit of 4300 digits. A plain numeral is a row of digits, with a minus sign in front if
need be; it begins with zero only if it is zero. Other texts are cleaned first: white space
around the number, a plus sign, zeros in front, a fraction of nothing but zeros and single
underscores all go. The sign may also stand after the zeros in front. -/

namespace Indentation.Schema.Integer

def valueOf (digits : List Char) : Nat :=
  digits.foldl (fun n c => n * 10 + (c.toNat - '0'.toNat)) 0

def magnitude? : List Char → Option Nat
  | [] => none
  | ['0'] => some 0
  | '0' :: _ => none
  | digits => if digits.all Char.isDigit then some (valueOf digits) else none

def plain? : List Char → Option Int
  | '-' :: digits => (magnitude? digits).map fun n => -(n : Int)
  | digits => (magnitude? digits).map fun n => (n : Int)

/-- The most digits of a plain numeral. -/
def limit : Nat := 4300

/-- How many digits the plain numeral at the front of a text has. -/
def reach : List Char → Nat
  | '-' :: rest => reachOfDigits rest
  | rest => reachOfDigits rest
where
  reachOfDigits : List Char → Nat
    | '0' :: _ => 1
    | rest => (rest.takeWhile Char.isDigit).length

/-- The fraction must have a zero at least. -/
def withoutFraction? (cs : List Char) : Option (List Char) :=
  match cs.dropWhile (· ≠ '.') with
  | [] => some cs
  | _ :: zeros =>
    if zeros ≠ [] && zeros.all (· = '0') then some (cs.takeWhile (· ≠ '.')) else none

/-- Underscores among the zeros go with them, however many. Of a number that is all zeros the
last character stays. -/
def withoutZeros? : List Char → Option (List Char)
  | '0' :: rest =>
    match rest.dropWhile fun c => c = '0' || c = '_' with
    | [] => some [rest.getLast?.getD '0']
    | c :: more => if c = '-' || c.isDigit then some (c :: more) else none
  | c :: rest => if c.isDigit then some (c :: rest) else none
  | [] => none

/-- Whether every underscore is followed by something else. -/
def underscoresApart : List Char → Bool
  | [] => true
  | ['_'] => false
  | '_' :: '_' :: _ => false
  | _ :: rest => underscoresApart rest

def withoutUnderscores? (cs : List Char) : Option (List Char) :=
  if cs.head? ≠ some '_' && underscoresApart cs then some (cs.filter (· ≠ '_')) else none

private def tidied? (cs : List Char) : Option (List Char) :=
  ((withoutFraction? cs).bind withoutZeros?).bind withoutUnderscores?

/-- What is left to be a plain numeral. -/
def cleaned? (cs : List Char) : Option (List Char) :=
  match Text.trimmed cs with
  | '-' :: rest => (tidied? rest).map ('-' :: ·)
  | '+' :: rest => tidied? rest
  | rest => tidied? rest

/-- A text that begins with an overlong numeral is refused for that, whatever follows it. -/
def read (s : String) : Except Cause Int :=
  let cs := s.toList
  if limit < reach cs then .error .tooLarge
  else
    match (cleaned? cs).bind fun cs => if limit < reach cs then none else plain? cs with
    | some n => .ok n
    | none => .error .unreadableInteger

end Indentation.Schema.Integer
