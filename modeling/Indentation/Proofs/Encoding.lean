import Indentation.Text.Utf8
import Mathlib.Data.List.Forall2

/-! Characters and their bytes. A text has the bytes of the standard encoding. The first byte
of a character says what must follow, just that follows, and none of it begins a character. So
decoding reads every character back from its bytes; it gives one replacement for a character
whose last bytes are missing, and one for each byte whose character began before it. -/

namespace Indentation.Text.Utf8

theorem admits_of_le {least greatest b : Nat} (above : least ≤ b) (below : b ≤ greatest) :
    Bounds.admits ⟨least, greatest⟩ b = true := by
  simp [Bounds.admits, above, below]

theorem admits_digit (n : Nat) : continuation.admits (0x80 + n % 0x40) = true :=
  admits_of_le (by omega) (by omega)

theorem lead?_of_continuation {b : Byte} (continues : continuation.admits b = true) : lead? b = none := by
  grind [lead?, Bounds.admits, continuation]

theorem lead?_two {b : Nat} (least : 0xc2 ≤ b) (less : b < 0xe0) : lead? b = some (b - 0xc0, [continuation]) := by
  grind [lead?]

theorem lead?_three {b : Nat} (least : 0xe0 < b) (less : b < 0xf0) (other : b ≠ 0xed) :
    lead? b = some (b - 0xe0, [continuation, continuation]) := by
  grind [lead?]

theorem lead?_four {b : Nat} (least : 0xf0 < b) (less : b < 0xf4) :
    lead? b = some (b - 0xf0, [continuation, continuation, continuation]) := by
  grind [lead?]

/-- What a row of bytes adds to a code point that has been read so far. -/
def gathered (point : Nat) (bytes : List Byte) : Nat :=
  bytes.foldl (fun point b => point * 0x40 + (b - 0x80)) point

/-- A first byte, and after it just the bytes that it calls for. -/
structure Spells (first : Byte) (rest : List Byte) (c : Char) : Prop where
  called : ∃ point expected, lead? first = some (point, expected) ∧
    List.Forall₂ (fun bounds b => Bounds.admits bounds b = true) expected rest ∧ gathered point rest = c.toNat
  continues : ∀ b ∈ rest, continuation.admits b = true

section Lengths

variable {c : Char}

theorem toNat_cases (c : Char) : c.toNat < 0xd800 ∨ 0xdfff < c.toNat ∧ c.toNat < 0x110000 := c.valid

theorem spells_one (small : c.toNat < 0x80) : Spells c.toNat [] c :=
  ⟨⟨c.toNat, [], by simp [lead?, small], .nil, rfl⟩, nofun⟩

theorem spells_two (least : 0x80 ≤ c.toNat) (small : c.toNat < 0x800) :
    Spells (0xc0 + c.toNat / 0x40) [0x80 + c.toNat % 0x40] c := by
  refine ⟨⟨c.toNat / 0x40, [continuation], ?_, .cons (admits_digit _) .nil, ?_⟩, ?_⟩
  · rw [lead?_two (by omega) (by omega), Nat.add_sub_cancel_left]
  · simp only [gathered, List.foldl_cons, List.foldl_nil]
    omega
  · simp only [List.forall_mem_singleton, admits_digit]

theorem spells_three (least : 0x800 ≤ c.toNat) (small : c.toNat < 0x10000) :
    Spells (0xe0 + c.toNat / 0x1000) [0x80 + c.toNat / 0x40 % 0x40, 0x80 + c.toNat % 0x40] c := by
  have valid := toNat_cases c
  have sum : gathered (c.toNat / 0x1000) [0x80 + c.toNat / 0x40 % 0x40, 0x80 + c.toNat % 0x40] = c.toNat := by
    simp only [gathered, List.foldl_cons, List.foldl_nil]
    omega
  refine ⟨⟨c.toNat / 0x1000, ?_⟩, by simp [admits_digit]⟩
  by_cases zero : c.toNat / 0x1000 = 0
  · refine ⟨[⟨0xa0, 0xbf⟩, continuation], by rw [zero]; rfl, .cons ?_ (.cons (admits_digit _) .nil), sum⟩
    exact admits_of_le (by omega) (by omega)
  · by_cases high : c.toNat / 0x1000 = 0xd
    · refine ⟨[⟨0x80, 0x9f⟩, continuation], by rw [high]; rfl, .cons ?_ (.cons (admits_digit _) .nil), sum⟩
      exact admits_of_le (by omega) (by omega)
    · refine ⟨[continuation, continuation], ?_, .cons (admits_digit _) (.cons (admits_digit _) .nil), sum⟩
      rw [lead?_three (by omega) (by omega) (by omega), Nat.add_sub_cancel_left]

theorem spells_four (least : 0x10000 ≤ c.toNat) :
    Spells (0xf0 + c.toNat / 0x40000)
      [0x80 + c.toNat / 0x1000 % 0x40, 0x80 + c.toNat / 0x40 % 0x40, 0x80 + c.toNat % 0x40] c := by
  have valid := toNat_cases c
  have sum : gathered (c.toNat / 0x40000)
      [0x80 + c.toNat / 0x1000 % 0x40, 0x80 + c.toNat / 0x40 % 0x40, 0x80 + c.toNat % 0x40] = c.toNat := by
    simp only [gathered, List.foldl_cons, List.foldl_nil]
    omega
  refine ⟨⟨c.toNat / 0x40000, ?_⟩, by simp [admits_digit]⟩
  by_cases zero : c.toNat / 0x40000 = 0
  · refine ⟨[⟨0x90, 0xbf⟩, continuation, continuation], by rw [zero]; rfl,
      .cons ?_ (.cons (admits_digit _) (.cons (admits_digit _) .nil)), sum⟩
    exact admits_of_le (by omega) (by omega)
  · by_cases high : c.toNat / 0x40000 = 4
    · refine ⟨[⟨0x80, 0x8f⟩, continuation, continuation], by rw [high]; rfl,
        .cons ?_ (.cons (admits_digit _) (.cons (admits_digit _) .nil)), sum⟩
      exact admits_of_le (by omega) (by omega)
    · refine ⟨[continuation, continuation, continuation], ?_,
        .cons (admits_digit _) (.cons (admits_digit _) (.cons (admits_digit _) .nil)), sum⟩
      rw [lead?_four (by omega) (by omega), Nat.add_sub_cancel_left]

end Lengths

theorem exists_spells (c : Char) : ∃ first rest, encodeChar c = first :: rest ∧ Spells first rest c := by
  unfold encodeChar
  dsimp only
  split
  next small => exact ⟨_, _, rfl, spells_one small⟩
  next least =>
    split
    next small => exact ⟨_, _, rfl, spells_two (by omega) small⟩
    next least =>
      split
      next small => exact ⟨_, _, rfl, spells_three (by omega) small⟩
      next least => exact ⟨_, _, rfl, spells_four (by omega)⟩

/-- The bytes are those of the standard encoding. -/
theorem encodeChar_eq (c : Char) : encodeChar c = (String.utf8EncodeChar c).map UInt8.toNat := by
  have valid := toNat_cases c
  have value : c.val.toNat = c.toNat := rfl
  unfold encodeChar String.utf8EncodeChar
  simp only [value, apply_ite (List.map UInt8.toNat), List.map_cons, List.map_nil, UInt8.toNat_ofNat']
  grind

theorem encode_toList (s : String) : encode s.toList = s.toByteArray.data.toList.map UInt8.toNat := by
  have bytes : s.toByteArray.data.toList = s.toList.flatMap String.utf8EncodeChar := by
    rw [← String.ofList_toList (s := s), String.toByteArray_ofList, String.toList_ofList, List.utf8Encode]
    simp
  rw [bytes, List.map_flatMap]
  exact List.flatMap_congr fun c _ => encodeChar_eq c

section Reading

variable {expected : List Bounds} {bytes : List Byte}

/-- Bytes that answer to what is expected complete a character and are used up. -/
theorem finish_of_admitted (admitted : List.Forall₂ (fun bounds b => Bounds.admits bounds b = true) expected bytes)
    (point : Nat) (rest : List Byte) :
    finish point expected (bytes ++ rest) = (Char.ofNat (gathered point bytes), rest) := by
  induction admitted generalizing point with
  | nil => rfl
  | cons fits _ ih =>
    rw [List.cons_append, finish, if_pos fits, ih, gathered, gathered, List.foldl_cons]

/-- Where the last of them are missing, all are used up for one replacement. -/
theorem finish_of_broken (admitted : List.Forall₂ (fun bounds b => Bounds.admits bounds b = true) expected bytes)
    (point : Nat) {count : Nat} (fewer : count < bytes.length) :
    finish point expected (bytes.take count) = (replacement, []) := by
  induction admitted generalizing point count with
  | nil => cases fewer
  | @cons bounds b others rest fits _ ih =>
    cases count with
    | zero => rfl
    | succ count =>
      rw [List.take_succ_cons, finish, if_pos fits]
      exact ih _ (Nat.lt_of_succ_lt_succ fewer)

theorem decode_of_lead {b point : Nat} (calls : lead? b = some (point, expected)) (rest : List Byte) :
    decode (b :: rest) = (finish point expected rest).1 :: decode (finish point expected rest).2 := by
  rw [decode, calls]

/-- Bytes that begin no character give a replacement each. -/
theorem decode_continuations (continues : ∀ b ∈ bytes, continuation.admits b = true) (rest : List Byte) :
    decode (bytes ++ rest) = List.replicate bytes.length replacement ++ decode rest := by
  induction bytes with
  | nil => rfl
  | cons b others ih =>
    rw [List.forall_mem_cons] at continues
    rw [List.cons_append, decode, lead?_of_continuation continues.1, ih continues.2, List.length_cons,
      List.replicate_succ, List.cons_append]

end Reading

theorem decode_whole (c : Char) (rest : List Byte) : decode (encodeChar c ++ rest) = c :: decode rest := by
  obtain ⟨first, tail, bytes, spells⟩ := exists_spells c
  obtain ⟨point, expected, calls, admitted, sum⟩ := spells.called
  rw [bytes, List.cons_append, decode_of_lead calls, finish_of_admitted admitted, sum, Char.ofNat_toNat]

theorem decode_broken (c : Char) {count : Nat} (some_bytes : 0 < count) (fewer : count < (encodeChar c).length) :
    decode ((encodeChar c).take count) = [replacement] := by
  obtain ⟨first, tail, bytes, spells⟩ := exists_spells c
  obtain ⟨point, expected, calls, admitted, _⟩ := spells.called
  obtain ⟨count, rfl⟩ := Nat.exists_eq_succ_of_ne_zero (Nat.ne_of_gt some_bytes)
  rw [bytes, List.length_cons] at fewer
  rw [bytes, Nat.succ_eq_add_one, List.take_succ_cons, decode_of_lead calls,
    finish_of_broken admitted _ (Nat.lt_of_succ_lt_succ fewer), decode]

theorem length_encodeChar_pos (c : Char) : 0 < (encodeChar c).length := by
  obtain ⟨first, rest, bytes, _⟩ := exists_spells c
  rw [bytes]
  exact Nat.succ_pos _

theorem encode_cons (c : Char) (cs : List Char) : encode (c :: cs) = encodeChar c ++ encode cs := List.flatMap_cons

theorem encode_append (first second : List Char) : encode (first ++ second) = encode first ++ encode second :=
  List.flatMap_append

theorem decode_encode (cs : List Char) : decode (encode cs) = cs := by
  induction cs with
  | nil => rw [encode, List.flatMap_nil, decode]
  | cons c cs ih => rw [encode_cons, decode_whole, ih]

end Indentation.Text.Utf8
