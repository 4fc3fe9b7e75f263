/-! UTF-8 of any range of bytes. Encoding a text gives its bytes; decoding accepts every
row of bytes and puts one U+FFFD for each maximal part that begins no character. -/

namespace Indentation.Text.Utf8

abbrev Byte := Nat

def encodeChar (c : Char) : List Byte :=
  let n := c.toNat
  if n < 0x80 then [n]
  else if n < 0x800 then [0xc0 + n / 0x40, 0x80 + n % 0x40]
  else if n < 0x10000 then [0xe0 + n / 0x1000, 0x80 + n / 0x40 % 0x40, 0x80 + n % 0x40]
  else [0xf0 + n / 0x40000, 0x80 + n / 0x1000 % 0x40, 0x80 + n / 0x40 % 0x40, 0x80 + n % 0x40]

def encode (cs : List Char) : List Byte := cs.flatMap encodeChar

/-- The least and greatest byte that may follow. -/
structure Bounds where
  least : Byte
  greatest : Byte

def Bounds.admits (bounds : Bounds) (b : Byte) : Bool :=
  bounds.least ≤ b && b ≤ bounds.greatest

def continuation : Bounds := ⟨0x80, 0xbf⟩

/-- What a first byte carries of the code point, and what must follow it. Bytes that
continue a character, and those no character contains, begin nothing. -/
def lead? (b : Byte) : Option (Nat × List Bounds) :=
  if b < 0x80 then some (b, [])
  else if b < 0xc2 then none
  else if b < 0xe0 then some (b - 0xc0, [continuation])
  else if b = 0xe0 then some (0, [⟨0xa0, 0xbf⟩, continuation])
  else if b = 0xed then some (0xd, [⟨0x80, 0x9f⟩, continuation])
  else if b < 0xf0 then some (b - 0xe0, [continuation, continuation])
  else if b = 0xf0 then some (0, [⟨0x90, 0xbf⟩, continuation, continuation])
  else if b < 0xf4 then some (b - 0xf0, [continuation, continuation, continuation])
  else if b = 0xf4 then some (4, [⟨0x80, 0x8f⟩, continuation, continuation])
  else none

def replacement : Char := '\ufffd'

/-- Reads what follows a first byte: the character if all of it is there, else the
replacement, and in both cases the bytes not used up. -/
def finish (point : Nat) : List Bounds → List Byte → Char × List Byte
  | [], rest => (Char.ofNat point, rest)
  | _ :: _, [] => (replacement, [])
  | bounds :: more, b :: rest =>
    if bounds.admits b then finish (point * 0x40 + (b - 0x80)) more rest
    else (replacement, b :: rest)

theorem length_finish_le (point : Nat) (expected : List Bounds) (bytes : List Byte) :
    (finish point expected bytes).2.length ≤ bytes.length := by
  fun_induction finish point expected bytes with
  | case1 => simp
  | case2 => simp
  | case3 _ _ _ _ _ _ inner => simp only [List.length_cons]; omega
  | case4 => simp

def decode : List Byte → List Char
  | [] => []
  | b :: rest =>
    match lead? b with
    | none => replacement :: decode rest
    | some (point, expected) =>
      have := length_finish_le point expected rest
      (finish point expected rest).1 :: decode (finish point expected rest).2
termination_by bytes => bytes.length

/-- The part of a list between two places, either of which may count from the end;
places beyond an end mean that end. -/
def slice {α : Type} (xs : List α) (first last : Int) : List α :=
  let place (i : Int) : Nat := (if i < 0 then i + xs.length else i).toNat
  (xs.take (place last)).drop (place first)

end Indentation.Text.Utf8
