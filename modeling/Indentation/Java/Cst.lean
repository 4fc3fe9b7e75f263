/-! Concrete syntax trees as a parser for Java returns them. Rows count from zero; columns
and byte offsets count bytes of the source. -/

namespace Indentation.Java

structure Span where
  row : Int
  column : Int
  firstByte : Int
  endByte : Int
  deriving DecidableEq, Repr, Nonempty

structure Cst.Label where
  type : String
  symbol : Int
  /-- A comment, which may stand anywhere. -/
  isExtra : Bool
  /-- Put in by error recovery, with no source behind it. -/
  isMissing : Bool
  /-- Whether there are syntax errors below. -/
  hasError : Bool
  span : Span
  deriving DecidableEq, Repr, Nonempty

inductive Cst where
  | node (label : Cst.Label) (children : List Cst)
  deriving Repr, Nonempty

def Cst.label : Cst → Label
  | node label _ => label

def Cst.children : Cst → List Cst
  | node _ children => children

end Indentation.Java
