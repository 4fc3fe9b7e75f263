import Indentation.Check.Finding
import Indentation.Tree.Anchor

/-! What a check has found so far. Everything is only ever added to: the findings, the
lines flagged by the rule for bodies without braces and by the rule for members, the
corrections, and notes on the course of the check. -/

namespace Indentation.Check

inductive Note where
  | began (nodes : Nat)
  | found (finding : Finding)
  | covered (lines skipped : Nat)
  deriving DecidableEq, Repr

structure State where
  corrections : Corrections := []
  bodyLines : List Int := []
  memberLines : List Int := []
  findings : List Finding := []
  notes : List Note := []
  deriving DecidableEq, Repr

namespace State

/-- Every line on which something is misplaced, as often as it was flagged. -/
def flaggedLines (s : State) : List Int := s.bodyLines ++ s.memberLines

def note (s : State) (note : Note) : State := { s with notes := s.notes ++ [note] }

def report (s : State) (finding : Finding) : State :=
  { s with findings := s.findings ++ [finding], notes := s.notes ++ [.found finding] }

/-- Reports a member, or a token that ends a body. -/
def misplaceMember (s : State) (line column required : Int) : State :=
  { s with memberLines := s.memberLines ++ [line] }.report ⟨line, column, .misplaced required⟩

/-- Reports a body without braces. -/
def misplaceBody (s : State) (line column required : Int) : State :=
  { s with bodyLines := s.bodyLines ++ [line] }.report ⟨line, column, .misplaced required⟩

def correct (s : State) (key : Key) (correction : Correction) : State :=
  { s with corrections := Corrections.record s.corrections key correction }

end State
end Indentation.Check
