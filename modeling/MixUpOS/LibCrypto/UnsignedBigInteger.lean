import MixUpOS.AK.Builtins
import MixUpOS.Library.RingLogs
import Mathlib.Data.List.DropRight
import Mathlib.Data.Nat.Digits.Defs

/-!
# Export of big integers

`export_data` writes the words of a number into a buffer, highest byte first,
and a constructor makes a number of such bytes.
-/

namespace MixUpOS.Crypto

open AK List

abbrev Bytes := List (BitVec 8)

/-- `m_words`, the lowest word first. -/
structure UnsignedBigInteger where
  words : List (BitVec 32)

namespace UnsignedBigInteger

variable {number : UnsignedBigInteger} {words : List (BitVec 32)} {data : Bytes}

def value (number : UnsignedBigInteger) : Nat :=
  Nat.ofDigits (2 ^ 32) (number.words.map BitVec.toNat)

/-- The words below `trimmed_length()`. -/
def trimmed (number : UnsignedBigInteger) : List (BitVec 32) := number.words.rdropWhile (· = 0)

def appendByte (word : BitVec 32) (byte : BitVec 8) : BitVec 32 :=
  word <<< 8 ||| byte.setWidth 32

/-- The loops of the constructor from bytes, with `count` bytes left to read. -/
def importWords (ptr : Bytes) : Nat → List (BitVec 32)
  | count + 4 =>
    let byte index := (ptr.getD (count + index) 0).setWidth 32
    (byte 0 <<< 24 ||| byte 1 <<< 16 ||| byte 2 <<< 8 ||| byte 3) :: importWords ptr count
  | 0 => []
  | count => [(ptr.take count).foldl appendByte 0]

def ofBytes (ptr : Bytes) : UnsignedBigInteger := ⟨importWords ptr ptr.length⟩

def wordBytes (word : BitVec 32) : Bytes :=
  [(word >>> 24).setWidth 8, (word >>> 16).setWidth 8, (word >>> 8).setWidth 8, word.setWidth 8]

def overwrite (data : Bytes) (offset : Nat) (bytes : Bytes) : Option Bytes := do
  verify (offset + bytes.length ≤ data.length)
  return Library.RingLogs.overwrite data offset bytes

/-- The loop of `export_data`, over the words from the highest one on. -/
def exportWords : List (BitVec 32) → Bytes → Nat → Option (Bytes × Nat)
  | [], data, out => some (data, out)
  | word :: words, data, out => do
    let data ← overwrite data out (wordBytes word)
    exportWords words data (out + 4)

def exportData (number : UnsignedBigInteger) (data : Bytes) (removeLeadingZeros : Bool) :
    Option (Bytes × Nat) :=
  match number.trimmed.reverse with
  | [] => some (data, 0)
  | word :: words =>
    if removeLeadingZeros then do
      let value := wordBytes word
      let leadingZeros := value.findIdx? (· ≠ 0)
      let data ← overwrite data 0 value
      let (data, out) ← exportWords words data 4
      -- The bytes stay where they are.
      return (data, out - leadingZeros.getD 0)
    else exportWords (word :: words) data 0

/-- The bytes are the number again, and with `remove_leading_zeros` they begin
with a byte that is not zero. -/
def Recovers (number : UnsignedBigInteger) (removeLeadingZeros : Bool) (bytes : Bytes) : Prop :=
  (ofBytes bytes).value = number.value ∧
    (removeLeadingZeros = true → number.value ≠ 0 → ∃ byte, bytes.head? = some byte ∧ byte ≠ 0)

theorem length_flatMap_wordBytes : (words.flatMap wordBytes).length = 4 * words.length := by
  simp [wordBytes, Nat.mul_comm]

theorem value_trimmed : (⟨number.trimmed⟩ : UnsignedBigInteger).value = number.value := by
  obtain ⟨words⟩ := number
  simp only [trimmed, value]
  induction words using reverseRecOn with
  | nil => rfl
  | append_singleton words top ih =>
    rw [rdropWhile_concat]
    split_ifs with isZero
    · simp at isZero
      rw [ih, map_append, Nat.ofDigits_append, isZero]
      rfl
    · rfl

theorem importWords_flatMap (front after : Bytes) :
    importWords (front ++ words.flatMap wordBytes ++ after) (front.length + 4 * words.length) =
      words.reverse ++ importWords (front ++ words.flatMap wordBytes ++ after) front.length := by
  induction words using reverseRecOn generalizing after with
  | nil => rfl
  | append_singleton words word ih =>
    have byte (index : Nat) :
        (front ++ words.flatMap wordBytes ++ (wordBytes word ++ after)).getD
          (front.length + 4 * words.length + index) 0 = (wordBytes word ++ after).getD index 0 := by
      rw [← length_flatMap_wordBytes, ← length_append, getD_eq_getElem?_getD,
        getElem?_append_right (by omega), Nat.add_sub_cancel_left, getD_eq_getElem?_getD]
    rw [flatMap_append, ← append_assoc, append_assoc _ _ after, flatMap_singleton, length_append,
      length_singleton, Nat.mul_succ, ← Nat.add_assoc, importWords, ih, reverse_append]
    simp only [byte]
    rw [reverse_singleton, singleton_append, cons_append]
    congr 1
    ext place below
    simp [wordBytes]
    grind

/-- The bytes of one word, possibly without some at its front. -/
theorem importWords_front {front after : Bytes} (nonempty : front ≠ []) (short : front.length ≤ 4) :
    importWords (front ++ after) front.length = [front.foldl appendByte 0] := by
  match front with
  | [_] | [_, _] | [_, _, _] => rfl
  | [_, _, _, _] =>
    simp [importWords, appendByte, BitVec.shiftLeft_or_distrib, ← BitVec.shiftLeft_add]

theorem foldl_wordBytes (word : BitVec 32) : (wordBytes word).foldl appendByte 0 = word := by
  ext place below
  simp [wordBytes, appendByte]
  grind

/-- Zero bytes at the front do not count. -/
theorem exists_firstByte {bytes : Bytes} (nonzero : bytes.foldl appendByte 0 ≠ 0) :
    ∃ zeros byte rest, bytes.findIdx? (· ≠ 0) = some zeros ∧ bytes.drop zeros = byte :: rest ∧
      byte ≠ 0 ∧ (byte :: rest).foldl appendByte 0 = bytes.foldl appendByte 0 := by
  induction bytes with
  | nil => exact absurd rfl nonzero
  | cons byte bytes ih =>
    by_cases isZero : byte = 0
    · subst isZero
      obtain ⟨zeros, first, rest, found, isRest, notZero, same⟩ := ih nonzero
      refine ⟨zeros + 1, first, rest, ?_, isRest, notZero, same⟩
      rw [findIdx?_cons, found]
      rfl
    · refine ⟨0, byte, bytes, ?_, rfl, isZero, rfl⟩
      rw [findIdx?_cons, if_pos (decide_eq_true isZero)]

theorem exportWords_eq (room : 4 * words.length ≤ data.length) :
    exportWords words (done ++ data) done.length = some
      (done ++ words.flatMap wordBytes ++ data.drop (4 * words.length),
        done.length + 4 * words.length) := by
  induction words generalizing done data with
  | nil => simp [exportWords]
  | cons word words ih =>
    rw [length_cons] at room
    have placed : overwrite (done ++ data) done.length (wordBytes word) =
        some (done ++ wordBytes word ++ data.drop 4) := by
      rw [overwrite, verify_eq_some (by simp [wordBytes]; omega)]
      simp [Library.RingLogs.overwrite, wordBytes]
    have next := @ih (data.drop 4) (done ++ wordBytes word) (by rw [length_drop]; omega)
    rw [length_append] at next
    rw [exportWords, placed]
    refine next.trans ?_
    simp [wordBytes]
    omega

theorem exportData_cons (split : number.trimmed.reverse = top :: words)
    (room : 4 * number.trimmed.length ≤ data.length) :
    exportData number data removeLeadingZeros = some
      ((top :: words).flatMap wordBytes ++ data.drop (4 * number.trimmed.length),
        4 * number.trimmed.length - if removeLeadingZeros then
          ((wordBytes top).findIdx? (· ≠ 0)).getD 0 else 0) := by
  have length : number.trimmed.length = (top :: words).length := by rw [← split, length_reverse]
  rw [length] at room ⊢
  have written := @exportWords_eq (top :: words) data [] room
  rw [nil_append, length_nil, Nat.zero_add] at written
  rw [exportData, split]
  cases removeLeadingZeros with
  | false => exact written
  | true =>
    obtain ⟨first, placed, rest⟩ := Option.bind_eq_some_iff.mp written
    simp only [if_true, placed, some_bind]
    rw [rest]
    rfl

theorem top_ne_zero (split : number.trimmed.reverse = top :: words) : top ≠ 0 := by
  have isTrimmed : number.trimmed = words.reverse ++ [top] := by
    rw [← reverse_reverse number.trimmed, split, reverse_cons]
  have last := rdropWhile_last_not (· = 0) number.words
  rw [← trimmed, isTrimmed] at last
  simpa using last

/-- The bytes that the returned length leaves of the highest word. -/
theorem exists_front (nonzero : top ≠ 0) (removeLeadingZeros : Bool) :
    ∃ zeros byte rest, (if removeLeadingZeros then
        ((wordBytes top).findIdx? (· ≠ 0)).getD 0 else 0) = zeros ∧
      (wordBytes top).drop zeros = byte :: rest ∧ (byte :: rest).foldl appendByte 0 = top ∧
      (removeLeadingZeros = true → byte ≠ 0) := by
  have whole := foldl_wordBytes top
  cases removeLeadingZeros with
  | false => exact ⟨0, _, _, rfl, rfl, whole, by simp⟩
  | true =>
    obtain ⟨zeros, byte, rest, found, isRest, notZero, same⟩ :=
      exists_firstByte (whole.trans_ne nonzero)
    exact ⟨zeros, byte, rest, by simp only [found, if_true, Option.getD_some], isRest,
      same.trans whole, fun _ => notZero⟩

/-- The number is in as many bytes up to the last one that is written as the
returned length says. -/
theorem exportData_exports (number : UnsignedBigInteger) (removeLeadingZeros : Bool)
    (room : 4 * number.trimmed.length ≤ data.length) :
    ∃ written count, exportData number data removeLeadingZeros = some (written, count) ∧
      written.drop (4 * number.trimmed.length) = data.drop (4 * number.trimmed.length) ∧
      count ≤ 4 * number.trimmed.length ∧ number.Recovers removeLeadingZeros
        ((written.take (4 * number.trimmed.length)).rtake count) := by
  cases split : number.trimmed.reverse with
  | nil =>
    have empty : number.trimmed = [] := reverse_eq_nil_iff.mp split
    have zero : number.value = 0 := by
      rw [← value_trimmed, empty]
      rfl
    refine ⟨data, 0, by rw [exportData, split], rfl, Nat.zero_le _, ?_, ?_⟩
    · rw [zero, rtake_zero]
      rfl
    · exact fun _ nonzero => absurd zero nonzero
  | cons top words =>
    obtain ⟨zeros, byte, rest, isZeros, isRest, isTop, first⟩ :=
      exists_front (top_ne_zero split) removeLeadingZeros
    have left : rest.length + 1 = 4 - zeros := by
      rw [← length_cons, ← isRest, length_drop]
      rfl
    have total : ((top :: words).flatMap wordBytes).length = 4 + 4 * words.length := by
      rw [length_flatMap_wordBytes, length_cons, Nat.mul_succ, Nat.add_comm]
    have exported := @exportData_cons number words data top removeLeadingZeros split room
    rw [isZeros, ← length_reverse, split, ← length_flatMap_wordBytes] at exported
    rw [← @length_reverse _ number.trimmed, split, ← length_flatMap_wordBytes]
    refine ⟨_, _, exported, drop_left, Nat.sub_le _ _, ?_⟩
    rw [take_left, rtake, Nat.sub_sub_self (by omega), flatMap_cons,
      drop_append_of_le_length (by rw [wordBytes]; simp; omega), isRest]
    refine ⟨?_, fun removes _ => ⟨byte, rfl, first removes⟩⟩
    rw [ofBytes, length_append, length_flatMap_wordBytes, ← append_nil (_ ++ _),
      importWords_flatMap, append_assoc, importWords_front (by simp) (by simp; omega), isTop,
      ← @value_trimmed number, ← reverse_reverse number.trimmed, split, reverse_cons]

theorem exportData_exports_two_words :
    ∃ written count, exportData ⟨[5, 0x10203, 0]⟩ (replicate 9 0) true = some (written, count) ∧
      written.drop 8 = [0] ∧ count ≤ 8 ∧
      Recovers ⟨[5, 0x10203, 0]⟩ true ((written.take 8).rtake count) :=
  exportData_exports ⟨[5, 0x10203, 0]⟩ true (by decide)

/-- The first byte of the number one is the zero byte at the top. -/
theorem not_exported_one : exportData ⟨[1]⟩ (replicate 4 0) true = some ([0, 0, 0, 1], 1) ∧
    ¬ Recovers ⟨[1]⟩ true (take 1 [0, 0, 0, 1]) := by
  refine ⟨rfl, ?_⟩
  rintro ⟨same, _⟩
  exact absurd same (by decide)

end UnsignedBigInteger

end MixUpOS.Crypto
