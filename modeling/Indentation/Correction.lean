import Indentation.Schema.Reader
import Indentation.Value.Key

/-! Corrections: where a misplaced node stands and where it belongs. The first correction
of a node is the one that stays. -/

namespace Indentation

structure Correction where
  observed : Int
  expected : Int
  deriving DecidableEq, Repr

namespace Correction

/-- Where a column on the same line belongs. -/
def reproject (c : Correction) (column : Int) : Int := column - c.observed + c.expected

/-- Why a value has no place on a line. -/
inductive Unplaceable where
  | notNumber
  /-- The correction is too large to be added to a float. -/
  | tooLarge
  deriving DecidableEq, Repr

/-- The same for a column that may be any number. -/
def reprojectValue (c : Correction) : Value → Except Unplaceable Value
  | .int n => .ok (.int (c.reproject n))
  | .bool b => .ok (.int (c.reproject (if b then 1 else 0)))
  | .float d =>
    match Double.ofInt? c.observed, Double.ofInt? c.expected with
    | some observed, some expected => .ok (.float ((d.sub observed).add expected))
    | _, _ => .error .tooLarge
  | _ => .error .notNumber

open Schema in
def read (form : Form) : Verdict Correction :=
  Correction.mk <$> form.required "observed" Read.integer
    <*> form.required "expected" Read.integer

end Correction

/-- Corrections in the order in which they were recorded. A node's key is its number; other
keys may be there and belong to no node. -/
abbrev Corrections := Table Key Correction

namespace Corrections

/-- Keeps what is there already. -/
def record (table : Corrections) (key : Key) (correction : Correction) : Corrections :=
  if Table.has table key then table else Table.put table key correction

/-- The correction of the node with a number. -/
def of? (table : Corrections) (number : Int) : Option Correction := Table.find? table (.whole number)

end Corrections

end Indentation
