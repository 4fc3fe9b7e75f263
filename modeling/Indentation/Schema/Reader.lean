import Indentation.Schema.Integer

/-! Reading typed fields out of a record of dynamic values, by the conversions that pydantic
documents for its lax mode. An integer field takes whole numbers, truth values as one and
zero, floats without a fraction, and numerals; a text field takes texts only; a choice takes
the text of one of its members. All fields are read, and either all are accepted or the
refusals of all are kept, in field order. -/

namespace Indentation.Schema

inductive Verdict (α : Type) where
  | accepted (value : α)
  | refused (refusals : List Refusal)
  deriving Repr

namespace Verdict

variable {α β : Type}

/-- Joins the refusals of both sides. -/
def both (f : Verdict (α → β)) (x : Verdict α) : Verdict β :=
  match f, x with
  | .accepted f, .accepted x => .accepted (f x)
  | .accepted _, .refused rs => .refused rs
  | .refused rs, .accepted _ => .refused rs
  | .refused rs, .refused rs' => .refused (rs ++ rs')

instance : Applicative Verdict where
  pure := .accepted
  seq f x := both f (x ())

/-- A rule applied only to what was accepted. -/
def andThen (x : Verdict α) (f : α → Verdict β) : Verdict β :=
  match x with
  | .accepted a => f a
  | .refused rs => .refused rs

def under (step : Step) : Verdict α → Verdict α
  | .accepted a => .accepted a
  | .refused rs => .refused (rs.map (·.under step))

def toExcept (record : String) : Verdict α → Except Invalid α
  | .accepted a => .ok a
  | .refused rs => .error ⟨record, rs⟩

/-- Reads the items of a list, each under its position. -/
def items (read : β → Verdict α) : Nat → List β → Verdict (List α)
  | _, [] => .accepted []
  | position, v :: rest =>
    (· :: ·) <$> (read v).under (.item position) <*> items read (position + 1) rest

end Verdict

namespace Read

private def refuse {α : Type} (cause : Cause) (v : Value) : Verdict α := .refused [.of cause v]

/-- The whole numbers within reach of a double's conversion. -/
private def inReach (n : Int) : Bool := -Int.pow 2 63 < n && n < Int.pow 2 63

def integer : Value → Verdict Int
  | .int n => .accepted n
  | .bool b => .accepted (if b then 1 else 0)
  | .float (.finite negative b) =>
    let d : Double := .finite negative b
    match d.whole? with
    | none => refuse .fractional (.float d)
    | some n => if inReach n then .accepted n else refuse .tooLarge (.float d)
  | .float d => refuse .notFinite (.float d)
  | .str s =>
    match Integer.read s with
    | .ok n => .accepted n
    | .error cause => refuse cause (.str s)
  | v => refuse .notInteger v

def natural (v : Value) : Verdict Nat :=
  (integer v).andThen fun n => if 0 ≤ n then .accepted n.toNat else refuse .negative v

def text : Value → Verdict String
  | .str s => .accepted s
  | v => refuse .notText v

def optional {α : Type} (read : Value → Verdict α) : Value → Verdict (Option α)
  | .null => .accepted none
  | v => some <$> read v

def choice {α : Type} (choices : List (String × α)) (v : Value) : Verdict α :=
  let found : Option α :=
    match v with
    | .str s => (choices.find? (·.1 = s)).map (·.2)
    | _ => none
  match found with
  | some a => .accepted a
  | none => refuse (.notOneOf (choices.map (·.1))) v

def list {α : Type} (read : Value → Verdict α) : Value → Verdict (List α)
  | .list vs => Verdict.items read 0 vs
  | v => refuse .notList v

end Read

/-- The fields of one record, with the literal that reports show for the whole. -/
structure Form where
  fields : Fields
  shown : Unit → String := fun _ => (Value.obj fields).literal

namespace Form

variable {α : Type}

def required (form : Form) (name : String) (read : Value → Verdict α) : Verdict α :=
  match Table.find? form.fields name with
  | some v => (read v).under (.name name)
  | none => .refused [⟨[.name name], .missing, form.shown (), "dict"⟩]

/-- A field that may be left out. -/
def optional (form : Form) (name : String) (otherwise : α) (read : Value → Verdict α) : Verdict α :=
  match Table.find? form.fields name with
  | some v => (read v).under (.name name)
  | none => .accepted otherwise

/-- A rule of the record as a whole. -/
def insist (form : Form) (verdict : Except String α) : Verdict α :=
  match verdict with
  | .ok a => .accepted a
  | .error reason => .refused [⟨[], .broken reason, form.shown (), "dict"⟩]

end Form

/-- A nested record: an object, or a refusal that names the record. -/
def Read.record {α : Type} (name : String) (read : Form → Verdict α) : Value → Verdict α
  | .obj fields => read ⟨fields, fun _ => (Value.obj fields).literal⟩
  | v => .refused [.of (.notRecord name) v]

end Indentation.Schema
