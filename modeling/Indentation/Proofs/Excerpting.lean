import Indentation.Proofs.Encoding
import Indentation.Proofs.Transcription

/-! The text of any range of bytes. A range may begin and end within a character. The bytes of
a character that began before the range give a replacement each, a character that goes on
beyond it gives one, and between them stand the characters that lie wholly in the range. -/

namespace Indentation.Text.Utf8

/-- How many bytes stand before a character of a text. -/
def offset (cs : List Char) (k : Nat) : Nat := (encode (cs.take k)).length

theorem offset_zero (cs : List Char) : offset cs 0 = 0 := rfl

theorem offset_cons (c : Char) (cs : List Char) (k : Nat) :
    offset (c :: cs) (k + 1) = (encodeChar c).length + offset cs k := by
  rw [offset, List.take_succ_cons, encode_cons, List.length_append, offset]

theorem offset_succ_pos (cs : List Char) {k : Nat} (inside : k < cs.length) : 0 < offset cs (k + 1) := by
  cases cs with
  | nil => cases inside
  | cons c cs =>
    rw [offset_cons]
    exact Nat.add_pos_left (length_encodeChar_pos c) _

/-- A character of a text, if it lies wholly between two places among the bytes. -/
def wholeAt? (cs : List Char) (i j k : Nat) : Option Char :=
  if i ≤ offset cs k ∧ offset cs (k + 1) ≤ j then cs[k]? else none

/-- The characters that lie wholly between two places among the bytes of a text. -/
def wholeBetween (cs : List Char) (i j : Nat) : List Char := (List.range cs.length).filterMap (wholeAt? cs i j)

/-- Some character begins between the two places and goes on beyond the second. -/
def BrokenOff (cs : List Char) (i j : Nat) : Prop :=
  ∃ k < cs.length, i ≤ offset cs k ∧ offset cs k < j ∧ j < offset cs (k + 1)

instance (cs : List Char) (i j : Nat) : Decidable (BrokenOff cs i j) :=
  inferInstanceAs (Decidable (∃ k < cs.length, i ≤ offset cs k ∧ offset cs k < j ∧ j < offset cs (k + 1)))

section Places

variable (c : Char) (cs : List Char) (i j : Nat)

theorem wholeAt?_zero :
    wholeAt? (c :: cs) i j 0 = if i = 0 ∧ (encodeChar c).length ≤ j then some c else none := by
  rw [wholeAt?, offset_zero, offset_cons, offset_zero]
  exact if_congr (by omega) rfl rfl

theorem wholeAt?_succ {k : Nat} (inside : k < cs.length) :
    wholeAt? (c :: cs) i j (k + 1) = wholeAt? cs (i - (encodeChar c).length) (j - (encodeChar c).length) k := by
  have some_bytes := offset_succ_pos cs inside
  rw [wholeAt?, wholeAt?, offset_cons, offset_cons, List.getElem?_cons_succ]
  exact if_congr (by omega) rfl rfl

theorem wholeBetween_cons :
    wholeBetween (c :: cs) i j =
      (if i = 0 ∧ (encodeChar c).length ≤ j then [c] else []) ++
        wholeBetween cs (i - (encodeChar c).length) (j - (encodeChar c).length) := by
  have later : (List.range cs.length).filterMap (wholeAt? (c :: cs) i j ∘ Nat.succ) =
      wholeBetween cs (i - (encodeChar c).length) (j - (encodeChar c).length) :=
    List.filterMap_congr fun k inside => wholeAt?_succ c cs i j (List.mem_range.1 inside)
  rw [wholeBetween, List.length_cons, List.range_succ_eq_map, List.filterMap_cons, wholeAt?_zero, List.filterMap_map,
    later]
  by_cases first : i = 0 ∧ (encodeChar c).length ≤ j
  · simp only [if_pos first, List.singleton_append]
  · simp only [if_neg first, List.nil_append]

theorem brokenOff_cons :
    BrokenOff (c :: cs) i j ↔
      (i = 0 ∧ 0 < j ∧ j < (encodeChar c).length) ∨
        BrokenOff cs (i - (encodeChar c).length) (j - (encodeChar c).length) := by
  constructor
  · rintro ⟨k, inside, begins, before, beyond⟩
    cases k with
    | zero =>
      rw [offset_zero] at begins before
      rw [offset_cons, offset_zero] at beyond
      exact .inl (by omega)
    | succ k =>
      rw [offset_cons] at begins before beyond
      exact .inr ⟨k, Nat.lt_of_succ_lt_succ inside, by omega, by omega, by omega⟩
  · rintro (⟨rfl, before, beyond⟩ | ⟨k, inside, begins, before, beyond⟩)
    · refine ⟨0, Nat.succ_pos _, Nat.zero_le _, before, ?_⟩
      rwa [offset_cons, offset_zero]
    · refine ⟨k + 1, Nat.succ_lt_succ inside, ?_⟩
      rw [offset_cons, offset_cons]
      omega

end Places

theorem wholeBetween_of_empty (cs : List Char) (i : Nat) : wholeBetween cs i 0 = [] := by
  induction cs generalizing i with
  | nil => rfl
  | cons c cs ih =>
    have some_bytes := length_encodeChar_pos c
    rw [wholeBetween_cons, if_neg (by omega), List.nil_append, Nat.zero_sub, ih]

theorem not_brokenOff_nil (i j : Nat) : ¬ BrokenOff [] i j := by
  rintro ⟨_, inside, _⟩
  cases inside

theorem not_brokenOff_of_empty (cs : List Char) (i : Nat) : ¬ BrokenOff cs i 0 := by
  rintro ⟨_, _, _, before, _⟩
  exact absurd before (Nat.not_lt_zero _)

/-- One replacement if a character is broken off at the end of a range. -/
def brokenEnd (cs : List Char) (i j : Nat) : List Char :=
  List.replicate (if BrokenOff cs i j then 1 else 0) replacement

section BrokenEnd

variable {c : Char} {cs : List Char} {i j : Nat}

theorem brokenEnd_of_broken (broken : BrokenOff cs i j) : brokenEnd cs i j = [replacement] := by
  rw [brokenEnd, if_pos broken, List.replicate_one]

theorem brokenEnd_of_unbroken (unbroken : ¬ BrokenOff cs i j) : brokenEnd cs i j = [] := by
  rw [brokenEnd, if_neg unbroken, List.replicate_zero]

theorem brokenEnd_cons (here : ¬ (i = 0 ∧ 0 < j ∧ j < (encodeChar c).length)) :
    brokenEnd (c :: cs) i j = brokenEnd cs (i - (encodeChar c).length) (j - (encodeChar c).length) := by
  rw [brokenEnd, brokenEnd, if_congr ((brokenOff_cons c cs i j).trans (or_iff_right here)) rfl rfl]

end BrokenEnd

/-- A range that begins with the text. -/
theorem decode_take_encode (cs : List Char) (j : Nat) :
    decode ((encode cs).take j) = wholeBetween cs 0 j ++ brokenEnd cs 0 j := by
  induction cs generalizing j with
  | nil =>
    rw [encode, List.flatMap_nil, List.take_nil, decode, brokenEnd_of_unbroken (not_brokenOff_nil 0 j)]
    rfl
  | cons c cs ih =>
    rw [encode_cons, List.take_append, wholeBetween_cons, Nat.zero_sub]
    by_cases fits : (encodeChar c).length ≤ j
    · rw [List.take_of_length_le fits, decode_whole, ih, if_pos ⟨rfl, fits⟩, brokenEnd_cons (by omega),
        Nat.zero_sub, List.singleton_append, List.cons_append]
    · have none_left : j - (encodeChar c).length = 0 := by omega
      rw [none_left, List.take_zero, List.append_nil, if_neg (by omega), List.nil_append, wholeBetween_of_empty,
        List.nil_append]
      by_cases empty : j = 0
      · rw [empty, List.take_zero, decode, brokenEnd_of_unbroken (not_brokenOff_of_empty _ _)]
      · have broken : BrokenOff (c :: cs) 0 j := (brokenOff_cons c cs 0 j).2 (.inl (by omega))
        rw [decode_broken c (by omega) (by omega), brokenEnd_of_broken broken]

/-- How many bytes at the front belong to a character that began before them. -/
def strayBytes (bytes : List Byte) : Nat := (bytes.takeWhile continuation.admits).length

theorem strayBytes_append {first : List Byte} (continues : ∀ b ∈ first, continuation.admits b = true)
    (rest : List Byte) : strayBytes (first ++ rest) = first.length + strayBytes rest := by
  rw [strayBytes, List.takeWhile_append_of_pos continues, List.length_append, strayBytes]

theorem strayBytes_take_encode (cs : List Char) (j : Nat) : strayBytes ((encode cs).take j) = 0 := by
  cases cs with
  | nil => rw [encode, List.flatMap_nil, List.take_nil, strayBytes, List.takeWhile_nil, List.length_nil]
  | cons c cs =>
    obtain ⟨first, rest, bytes, spells⟩ := exists_spells c
    obtain ⟨point, expected, calls, _⟩ := spells.called
    have begins : ¬ continuation.admits first = true := by
      intro continues
      cases calls.symm.trans (lead?_of_continuation continues)
    rw [encode_cons, bytes, List.cons_append]
    cases j with
    | zero => rfl
    | succ j => rw [List.take_succ_cons, strayBytes, List.takeWhile_cons_of_neg begins, List.length_nil]

theorem continues_of_mem_drop {c : Char} {i : Nat} (later : 0 < i) {b : Byte} (member : b ∈ (encodeChar c).drop i) :
    continuation.admits b = true := by
  obtain ⟨first, rest, bytes, spells⟩ := exists_spells c
  obtain ⟨i, rfl⟩ := Nat.exists_eq_succ_of_ne_zero (Nat.ne_of_gt later)
  rw [bytes, Nat.succ_eq_add_one, List.drop_succ_cons] at member
  exact spells.continues b (List.mem_of_mem_drop member)

theorem drop_take_append {α : Type} (first second : List α) (i j : Nat) :
    ((first ++ second).take j).drop i =
      (first.take j).drop i ++ (second.take (j - first.length)).drop (i - first.length) := by
  rw [List.take_append, List.drop_append, List.length_take]
  by_cases short : j ≤ first.length
  · rw [Nat.sub_eq_zero_of_le short, List.take_zero, List.drop_nil, List.drop_nil]
  · rw [Nat.min_eq_right (by omega)]

/-- Any range of the bytes of a text. -/
theorem decode_range (cs : List Char) (i j : Nat) :
    decode (((encode cs).take j).drop i) =
      List.replicate (strayBytes (((encode cs).take j).drop i)) replacement ++
        (wholeBetween cs i j ++ brokenEnd cs i j) := by
  induction cs generalizing i j with
  | nil =>
    rw [encode, List.flatMap_nil, List.take_nil, List.drop_nil, decode, brokenEnd_of_unbroken (not_brokenOff_nil i j)]
    rfl
  | cons c cs ih =>
    rcases Nat.eq_zero_or_pos i with rfl | later
    · rw [List.drop_zero, strayBytes_take_encode, decode_take_encode, List.replicate_zero, List.nil_append]
    · -- Of the first character only bytes that begin nothing are left, and the rest is a range of the other ones.
      have continues : ∀ b ∈ ((encodeChar c).take j).drop i, continuation.admits b = true := by
        intro b member
        rw [List.drop_take] at member
        exact continues_of_mem_drop later (List.mem_of_mem_take member)
      rw [encode_cons, drop_take_append, decode_continuations continues, strayBytes_append continues, ih,
        wholeBetween_cons, if_neg (by omega), List.nil_append, brokenEnd_cons (by omega), List.replicate_add,
        List.append_assoc]

theorem slice_eq {α : Type} (xs : List α) (i j : Nat) : slice xs i j = (xs.take j).drop i := by
  have first : ¬ (i : Int) < 0 := by omega
  have last : ¬ (j : Int) < 0 := by omega
  simp only [slice, first, last, if_false, Int.toNat_natCast]

end Indentation.Text.Utf8

namespace Indentation.Java

open Text.Utf8

/-- A range between two characters has the text between them. -/
theorem textOf_aligned (before middle after : String) (row column : Int) :
    textOf (bytesOf (before ++ middle ++ after))
      ⟨row, column, (bytesOf before).length, (bytesOf (before ++ middle)).length⟩ = middle := by
  have bytes : bytesOf (before ++ middle ++ after) = bytesOf before ++ bytesOf middle ++ bytesOf after := by
    simp only [bytesOf, String.toList_append, encode_append]
  have length : (bytesOf (before ++ middle)).length = (bytesOf before ++ bytesOf middle).length := by
    rw [bytesOf, String.toList_append, encode_append, bytesOf, bytesOf]
  rw [textOf, slice_eq, bytes, length, List.take_left, List.drop_left, bytesOf, decode_encode, String.ofList_toList]

/-- The text of a range of bytes of a text. A replacement stands for each byte at its front that
continues a character, then come the characters that lie wholly in the range, then one
replacement if the range ends within a character that it begins. Ranges between characters have
just the text between them, so those of neighbours join. -/
theorem textOf_range (s : String) (row column : Int) (i j : Nat) :
    bytesOf s = s.toByteArray.data.toList.map UInt8.toNat ∧
    (textOf (bytesOf s) ⟨row, column, i, j⟩).toList =
      List.replicate (strayBytes (((bytesOf s).take j).drop i)) replacement ++ wholeBetween s.toList i j ++
        List.replicate (if BrokenOff s.toList i j then 1 else 0) replacement ∧
    (∀ before middle after : String,
      textOf (bytesOf (before ++ middle ++ after))
        ⟨row, column, (bytesOf before).length, (bytesOf (before ++ middle)).length⟩ = middle) ∧
    ∀ before first second after : String,
      let bytes := bytesOf (before ++ first ++ second ++ after)
      let start := (bytesOf before).length
      let middle := (bytesOf (before ++ first)).length
      let stop := (bytesOf (before ++ first ++ second)).length
      textOf bytes ⟨row, column, start, middle⟩ ++ textOf bytes ⟨row, column, middle, stop⟩ =
        textOf bytes ⟨row, column, start, stop⟩ := by
  refine ⟨encode_toList s, ?_, fun before middle after => textOf_aligned before middle after row column, ?_⟩
  · rw [textOf, String.toList_ofList, slice_eq, bytesOf, decode_range, brokenEnd, List.append_assoc]
  · intro before first second after
    dsimp only
    have left := textOf_aligned before first (second ++ after) row column
    have right := textOf_aligned (before ++ first) second after row column
    have whole := textOf_aligned before (first ++ second) after row column
    simp only [← String.append_assoc] at left right whole
    rw [left, right, whole]

/-- The range cuts a character at either end. -/
example : textOf (bytesOf "é–x😀") ⟨0, 0, 1, 9⟩ = "\ufffd–x\ufffd" := by decide +kernel

end Indentation.Java
