import Indentation.Schema.Reader

/-! Tokens with their positions. Comments travel on a channel of their own, and the end
of a file has a negative type; neither indents a line. -/

namespace Indentation

structure Token where
  text : String
  line : Int
  column : Int
  channel : Int := 0
  type : Int := 0
  deriving DecidableEq, Repr

namespace Token

def hiddenChannel : Int := 1

def isSignificant (t : Token) : Bool := t.channel = 0 && 0 ≤ t.type

/-- Source order. -/
def before (a b : Token) : Bool :=
  a.line < b.line || a.line = b.line && a.column ≤ b.column

open Schema in
def read (form : Form) : Verdict Token :=
  Token.mk <$> form.required "text" Read.text
    <*> form.required "line" Read.integer
    <*> form.required "column" Read.integer
    <*> form.optional "channel" 0 Read.integer
    <*> form.optional "type" 0 Read.integer

end Token
end Indentation
