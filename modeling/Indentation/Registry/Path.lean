/-! Paths of files. Empty parts and single dots are dropped; double dots stay. -/

namespace Indentation

structure Path where
  /-- Nothing for a relative path. A path that begins with exactly two slashes keeps both. -/
  root : String
  parts : List String
  deriving DecidableEq, Repr

namespace Path

def rootOf : List Char → String
  | '/' :: '/' :: '/' :: _ => "/"
  | '/' :: '/' :: _ => "//"
  | '/' :: _ => "/"
  | _ => ""

def splitParts : List Char → List (List Char)
  | [] => [[]]
  | c :: rest =>
    if c = '/' then [] :: splitParts rest
    else
      match splitParts rest with
      | [] => [[c]]
      | part :: more => (c :: part) :: more

def parse (s : String) : Path where
  root := rootOf s.toList
  parts := ((splitParts s.toList).map String.ofList).filter fun part => part ≠ "" ∧ part ≠ "."

def text (path : Path) : String :=
  if path.root = "" ∧ path.parts = [] then "." else path.root ++ "/".intercalate path.parts

def join (path : Path) (names : List String) : Path := { path with parts := path.parts ++ names }

def parent (path : Path) : Path := { path with parts := path.parts.dropLast }

def name (path : Path) : String := path.parts.getLast?.getD ""

/-- The last dot of the name and what follows it, when there is something on both sides. -/
def suffix (path : Path) : String :=
  let reversed := path.name.toList.reverse
  let tail := reversed.takeWhile (· ≠ '.')
  let stem := reversed.drop (tail.length + 1)
  if tail = [] ∨ stem = [] then "" else String.ofList ('.' :: tail.reverse)

end Path
end Indentation
