import Indentation.Value.Basic

/-! Scalars as keys of tables. Two numbers are one key when they are equal, where true is
one and false is zero. Lists and objects are no keys. -/

namespace Indentation

inductive Key where
  | null
  /-- In lowest terms. -/
  | number (numerator : Int) (denominator : Nat)
  | infinite (negative : Bool)
  | nan
  | text (value : String)
  deriving DecidableEq, Repr

namespace Key

def whole (n : Int) : Key := .number n 1

def ratio (numerator : Int) (denominator : Nat) : Key :=
  let common := Nat.gcd numerator.natAbs denominator
  .number (numerator / common) (denominator / common)

end Key

namespace Value

def key? : Value → Option Key
  | .null => some .null
  | .bool b => some (.whole (if b then 1 else 0))
  | .int n => some (.whole n)
  | .float (.finite negative b) => some (.ratio (Double.signed negative b.ratio.1) b.ratio.2)
  | .float (.infinite negative) => some (.infinite negative)
  | .float .nan => some .nan
  | .str s => some (.text s)
  | .list _ => none
  | .obj _ => none

theorem isSome_key? (v : Value) : v.key?.isSome = v.isKey := by
  cases v with
  | float d => cases d <;> rfl
  | _ => rfl

end Value

/-- A table by scalars. A key that comes again keeps its place and its first spelling. -/
abbrev Keyed (β : Type) := Table Key (Value × β)

namespace Keyed

variable {β : Type}

def put (table : Keyed β) (key : Key) (spelling : Value) (value : β) : Keyed β :=
  Table.put table key (((Table.find? table key).map (·.1)).getD spelling, value)

/-- The values with the first spellings of their keys, in order. -/
def entries (table : Keyed β) : List (Value × β) := table.map (·.2)

end Keyed
end Indentation
