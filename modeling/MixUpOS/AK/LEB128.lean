import Mathlib.Algebra.Order.Ring.Int
import Mathlib.Tactic.LinearCombination
import Mathlib.Tactic.Ring

/-!
# LEB128

A number is written in groups of seven bits, the lowest group first, and all
bytes but the last have their highest bit set.
-/

namespace MixUpOS.AK.LEB128

open List

inductive ReadError where
  | endOfFile
  | moreBits
  | byteTooLarge
deriving DecidableEq

/-- What a read returns, and what it leaves in the stream. -/
abbrev Outcome (width : Nat) := Except ReadError (BitVec width) × List (BitVec 8)

def hasContinuation (byte : BitVec 8) : Bool := byte &&& 0x80 ≠ 0

/-- The bits of a byte without the highest one. -/
def group (byte : BitVec 8) : BitVec 7 := byte.setWidth 7

/-- `result |= (byte & 0x7F) << shift`. -/
def addGroup (result : BitVec width) (byte : BitVec 8) (shift : Nat) : BitVec width :=
  result ||| (byte &&& 0x7F).setWidth width <<< shift

/-- The loop of `read_from_stream` for unsigned types. -/
def readMore (result : BitVec width) (numBytes : Nat) : List (BitVec 8) → Outcome width
  | [] => (.error .endOfFile, [])
  | byte :: stream =>
    let result := addGroup result byte (numBytes * 7)
    if numBytes * 7 ≥ width - 7 ∧ byte >>> (width - numBytes * 7) ≠ 0 then
      (.error (if hasContinuation byte then .moreBits else .byteTooLarge), stream)
    else if hasContinuation byte then readMore result (numBytes + 1) stream
    else (.ok result, stream)

def readUnsigned : List (BitVec 8) → Outcome width
  | [] => (.error .endOfFile, [])
  | byte :: stream =>
    if hasContinuation byte then readMore ((byte &&& 0x7F).setWidth width) 1 stream
    else (.ok (byte.setWidth width), stream)

/-- The loop of `read_from_stream` for signed types, which begins at zero. -/
def readSigned (result : BitVec width) (shift : Nat) : List (BitVec 8) → Outcome width
  | [] => (.error .endOfFile, [])
  | byte :: stream =>
    let result := addGroup result byte shift
    if shift ≥ width - 7 then
      let signAndUnused := (byte <<< 1).sshiftRight (width - shift)
      if hasContinuation byte then (.error .moreBits, stream)
      else if signAndUnused ≠ 0 ∧ signAndUnused ≠ -1 then (.error .byteTooLarge, stream)
      else (.ok result, stream)
    else if hasContinuation byte then readSigned result (shift + 7) stream
    else if shift + 7 < width ∧ byte &&& 0x40 ≠ 0 then
      (.ok (result ||| BitVec.ofInt width (-1) <<< (shift + 7)), stream)
    else (.ok result, stream)

def readFromStream (isSigned : Bool) (stream : List (BitVec 8)) : Outcome width :=
  if isSigned then readSigned 0 0 stream else readUnsigned stream

/-- The bytes of one number. -/
inductive Encoding : List (BitVec 8) → Prop
  | last : hasContinuation byte = false → Encoding [byte]
  | more : hasContinuation byte = true → Encoding bytes → Encoding (byte :: bytes)

def lastGroup (isSigned : Bool) (byte : BitVec 8) : Int :=
  if isSigned then (group byte).toInt else (group byte).toNat

/-- The number that the groups stand for.  Only the last group has a sign. -/
def encoded (isSigned : Bool) : List (BitVec 8) → Int
  | [] => 0
  | [byte] => lastGroup isSigned byte
  | byte :: bytes => (group byte).toNat + 2 ^ 7 * encoded isSigned bytes

def Representable (isSigned : Bool) (width : Nat) (number : Int) : Prop :=
  if isSigned then -2 ^ (width - 1) ≤ number ∧ number < 2 ^ (width - 1)
  else 0 ≤ number ∧ number < 2 ^ width

instance : Decidable (Representable isSigned width number) :=
  inferInstanceAs (Decidable (ite _ _ _))

/-- The read of an encoding behind `shift` bits with the value `low`. -/
def decode (isSigned : Bool) (low shift : Nat) : List (BitVec 8) → Outcome width
  | [] => (.error .endOfFile, [])
  | byte :: stream =>
    let number := low + 2 ^ shift * lastGroup isSigned byte
    if hasContinuation byte then
      if width ≤ shift + 7 then (.error .moreBits, stream)
      else decode isSigned (low + 2 ^ shift * (group byte).toNat) (shift + 7) stream
    else if Representable isSigned width number then (.ok (BitVec.ofInt width number), stream)
    else (.error .byteTooLarge, stream)

variable {width shift low : Nat} {byte : BitVec 8}

section

variable (small : low < 2 ^ shift)
include small

theorem representable_iff (inside : shift < width) (number : Int) :
    Representable isSigned width (low + 2 ^ shift * number) ↔
      Representable isSigned (width - shift) number := by
  have positive : (0 : Int) < 2 ^ shift := pow_pos (by decide) _
  have scaled (bound : Int) : bound * 2 ^ shift ≤ low + 2 ^ shift * number ↔ bound ≤ number := by
    rw [← Int.le_ediv_iff_mul_le positive, Int.add_mul_ediv_left _ _ positive.ne',
      Int.ediv_eq_zero_of_lt (Int.natCast_nonneg _) (by exact_mod_cast small), zero_add]
  have below (bound : Int) : low + 2 ^ shift * number < bound * 2 ^ shift ↔ number < bound := by
    rw [← not_le, scaled, not_le]
  have split {bits : Nat} (fits : shift ≤ bits) :
      (2 : Int) ^ bits = 2 ^ (bits - shift) * 2 ^ shift := by
    rw [← pow_add, Nat.sub_add_cancel fits]
  cases isSigned with
  | false =>
    have least := scaled 0
    rw [zero_mul] at least
    simp [Representable, split inside.le, least, below]
  | true =>
    have half := split (Nat.le_sub_one_of_lt inside)
    rw [Nat.sub_right_comm] at half
    simp [Representable, half, ← neg_mul, scaled, below]

theorem ofNat_or (number : Int) : BitVec.ofNat width low ||| BitVec.ofInt width number <<< shift =
    BitVec.ofInt width (low + 2 ^ shift * number) := by
  have disjoint : BitVec.ofNat width low &&& BitVec.ofInt width number <<< shift = 0 := by
    ext index bound
    have bit (above : shift ≤ index) : low.testBit index = false :=
      Nat.testBit_lt_two_pow (small.trans_le (Nat.pow_le_pow_right (by decide) above))
    by_cases above : shift ≤ index
    · simp [BitVec.getElem_eq_testBit_toNat, bit above]
    · simp [above]
  have power : BitVec.twoPow width shift = BitVec.ofInt width (2 ^ shift) := by
    apply BitVec.eq_of_toNat_eq
    exact_mod_cast (BitVec.toNat_twoPow width shift).trans (BitVec.toNat_ofNat _ _).symm
  rw [← BitVec.add_eq_or_of_and_eq_zero _ _ disjoint, BitVec.shiftLeft_eq_mul_twoPow, power,
    ← BitVec.ofInt_natCast, ← BitVec.ofInt_mul, ← BitVec.ofInt_add, mul_comm]

theorem addGroup_eq : addGroup (BitVec.ofNat width low) byte shift =
    BitVec.ofNat width (low + 2 ^ shift * (group byte).toNat) := by
  have masked : (byte &&& 0x7F).setWidth width = BitVec.ofInt width (group byte).toNat := by
    apply BitVec.eq_of_toNat_eq
    rw [BitVec.toNat_setWidth]
    exact congrArg (· % _) (Nat.and_two_pow_sub_one_eq_mod _ 7)
  rw [addGroup, masked, ofNat_or small]
  rfl

theorem add_group_lt : low + 2 ^ shift * (group byte).toNat < 2 ^ (shift + 7) := by
  have next := Nat.mul_le_mul_left (2 ^ shift) (group byte).isLt
  rw [Nat.mul_succ] at next
  rw [Nat.pow_add]
  omega

end

theorem toInt_group (byte : BitVec 8) : (group byte).toInt =
    (group byte).toNat - if byte &&& 0x40 ≠ 0 then 2 ^ 7 else 0 := by
  revert byte
  decide +kernel

theorem representable_lastGroup (wide : 7 ≤ width) :
    Representable isSigned width (lastGroup isSigned byte) := by
  have seven : Representable isSigned 7 (lastGroup isSigned byte) := by
    revert isSigned byte
    decide +kernel
  have wider {less more : Nat} (isLess : less ≤ more) : (2 : Int) ^ less ≤ 2 ^ more :=
    pow_le_pow_right₀ (by decide) isLess
  cases isSigned with
  | false => exact ⟨seven.1, seven.2.trans_le (wider wide)⟩
  | true =>
    have half := wider (Nat.sub_le_sub_right wide 1)
    exact ⟨(neg_le_neg half).trans seven.1, seven.2.trans_le half⟩

theorem large_iff (room : Fin 8) (byte : BitVec 8) : byte >>> room.val ≠ 0 ↔
    hasContinuation byte = true ∨ ¬ Representable false room (lastGroup false byte) := by
  revert room byte
  decide +kernel

theorem signAndUnused_iff (room : Fin 8) (byte : BitVec 8) : 0 < room.val →
    ((byte <<< 1).sshiftRight room ≠ 0 ∧ (byte <<< 1).sshiftRight room ≠ -1 ↔
      ¬ Representable true room (lastGroup true byte)) := by
  revert room byte
  decide +kernel

theorem readMore_eq (small : low < 2 ^ shift) (bits : shift = numBytes * 7)
    (inside : shift < width) :
    readMore (BitVec.ofNat width low) numBytes bytes = decode false low shift bytes := by
  induction bytes generalizing low shift numBytes with
  | nil => rfl
  | cons byte stream ih =>
    have fits : Representable false width (low + 2 ^ shift * lastGroup false byte) ↔ _ :=
      representable_iff small inside _
    have number : BitVec.ofInt width (low + 2 ^ shift * lastGroup false byte) =
        BitVec.ofNat width (low + 2 ^ shift * (group byte).toNat) :=
      mod_cast BitVec.ofInt_natCast _ _
    simp only [readMore, decode, ← bits, addGroup_eq small, fits, number]
    by_cases last : width ≤ shift + 7
    · have large := large_iff ⟨width - shift, by omega⟩ byte
      have close : shift ≥ width - 7 := by omega
      simp only [last, close, true_and, large, if_true]
      cases hasContinuation byte <;> simp
    · have room : Representable false (width - shift) (lastGroup false byte) :=
        representable_lastGroup (by omega)
      rw [if_neg (by omega), if_neg last, if_pos room,
        ih (add_group_lt small) (by omega) (by omega)]

theorem readSigned_eq (small : low < 2 ^ shift) (inside : shift < width) :
    readSigned (BitVec.ofNat width low) shift bytes = decode true low shift bytes := by
  induction bytes generalizing low shift with
  | nil => rfl
  | cons byte stream ih =>
    have fits : Representable true width (low + 2 ^ shift * lastGroup true byte) ↔ _ :=
      representable_iff small inside _
    have sign : lastGroup true byte = _ := toInt_group byte
    simp only [readSigned, decode, addGroup_eq small, fits]
    by_cases last : shift ≥ width - 7
    · have unused := signAndUnused_iff ⟨width - shift, by omega⟩ byte (by simpa using inside)
      have number : BitVec.ofInt width (low + 2 ^ shift * lastGroup true byte) =
          BitVec.ofNat width (low + 2 ^ shift * (group byte).toNat) := by
        rw [sign, ← BitVec.ofInt_natCast]
        split_ifs
        · have whole : ((low + 2 ^ shift * (group byte).toNat : Nat) : Int) =
              low + 2 ^ shift * ((group byte).toNat - 2 ^ 7) +
                (2 ^ width : Nat) * 2 ^ (shift + 7 - width) := by
            have room : (2 : Int) ^ width * 2 ^ (shift + 7 - width) = 2 ^ shift * 2 ^ 7 := by
              rw [← pow_add, ← pow_add]
              congr 1
              omega
            push_cast
            linear_combination -room
          apply BitVec.eq_of_toInt_eq
          rw [whole, BitVec.toInt_ofInt, BitVec.toInt_ofInt, Int.add_mul_bmod_self_left]
        · simp
      have close : width ≤ shift + 7 := by omega
      simp only [number, last, close, if_true, unused, ite_not]
    · have room : Representable true (width - shift) (lastGroup true byte) :=
        representable_lastGroup (by omega)
      rw [if_neg (by omega : ¬ width ≤ shift + 7), ih (add_group_lt small) (by omega)]
      split_ifs with continues negative
      · rfl
      · rw [ofNat_or (add_group_lt small), sign, if_pos negative.2]
        push_cast
        ring_nf
      · rw [sign, if_neg (fun set => negative ⟨by omega, set⟩), sub_zero]
        exact_mod_cast rfl

theorem readUnsigned_eq (wide : 8 ≤ width) :
    (readUnsigned bytes : Outcome width) = readMore 0 0 bytes := by
  cases bytes with
  | nil => rfl
  | cons byte stream =>
    have early : ¬ (0 * 7 ≥ width - 7 ∧ byte >>> (width - 0 * 7) ≠ 0) := by omega
    have first : addGroup (0 : BitVec width) byte 0 = (byte &&& 0x7F).setWidth width := by
      simp [addGroup]
    rw [readUnsigned, readMore, first]
    split_ifs with continues
    · rfl
    · have masked : ∀ byte, ¬ hasContinuation byte = true → byte &&& 0x7F = byte := by
        decide +kernel
      rw [masked byte continues]

theorem Encoding.length_pos (encoding : Encoding code) : 0 < code.length := by
  cases encoding <;> simp

theorem encoded_cons (nonempty : 0 < code.length) :
    (low + 2 ^ shift * encoded isSigned (byte :: code) : Int) =
      (low + 2 ^ shift * (group byte).toNat : Nat) + 2 ^ (shift + 7) * encoded isSigned code := by
  cases code with
  | nil => simp at nonempty
  | cons =>
    simp only [encoded]
    push_cast
    ring

theorem decode_append (encoding : Encoding code) (inside : shift < width) :
    let number := low + 2 ^ shift * encoded isSigned code
    if shift + 7 * code.length < width + 7 ∧ Representable isSigned width number then
      decode isSigned low shift (code ++ rest) = (.ok (BitVec.ofInt width number), rest)
    else ∃ error left, rest <:+ left ∧
      (decode isSigned low shift (code ++ rest) : Outcome width) = (.error error, left) := by
  induction encoding generalizing low shift with
  | last ends =>
    simp only [cons_append, decode, ends, Bool.false_eq_true, if_false, encoded, nil_append]
    split_ifs with fits unfit representable
    · rfl
    · exact absurd fits.2 unfit
    · exact absurd ⟨by simpa using inside, representable⟩ fits
    · exact ⟨_, _, suffix_refl rest, rfl⟩
  | more continues encoding ih =>
    have nonempty := encoding.length_pos
    simp only [cons_append, decode, continues, if_true, encoded_cons nonempty, length_cons]
    by_cases last : width ≤ shift + 7
    · rw [if_neg (by omega), if_pos last]
      exact ⟨_, _, suffix_append _ _, rfl⟩
    · rw [if_neg last, Nat.mul_succ, Nat.add_comm _ 7, ← Nat.add_assoc]
      exact ih (by omega)

theorem decode_unterminated (continues : ∀ byte ∈ bytes, hasContinuation byte = true) :
    ∃ error left, (decode isSigned low shift bytes : Outcome width) = (.error error, left) := by
  induction bytes generalizing low shift with
  | nil => exact ⟨_, _, rfl⟩
  | cons byte stream ih =>
    rw [forall_mem_cons] at continues
    rw [decode, if_pos continues.1]
    split_ifs
    · exact ⟨_, _, rfl⟩
    · exact ih continues.2

/-- What an encoding stands for is returned if it has the type and the bytes
are not too many; otherwise the read fails, at the end of the encoding or
before.  It also fails if no byte ends the encoding. -/
theorem readFromStream_correct (wide : 8 ≤ width) (isSigned : Bool) : (∀ code rest, Encoding code →
      if code.length ≤ (width + 6) / 7 ∧ Representable isSigned width (encoded isSigned code) then
        readFromStream isSigned (code ++ rest) =
          (.ok (BitVec.ofInt width (encoded isSigned code)), rest)
      else ∃ error left, rest <:+ left ∧
        (readFromStream isSigned (code ++ rest) : Outcome width) = (.error error, left)) ∧
    ∀ bytes, (∀ byte ∈ bytes, hasContinuation byte = true) → ∃ error left,
      (readFromStream isSigned bytes : Outcome width) = (.error error, left) := by
  have reads bytes : (readFromStream isSigned bytes : Outcome width) =
      decode isSigned 0 0 bytes := by
    cases isSigned with
    | false => exact (readUnsigned_eq wide).trans (readMore_eq (by decide) rfl (by omega))
    | true => exact readSigned_eq (by decide) (by omega)
  have notTooLong (length : Nat) : length ≤ (width + 6) / 7 ↔ 7 * length < width + 7 := by
    omega
  simp only [reads, notTooLong]
  constructor
  · intro code rest encoding
    simpa using @decode_append width 0 0 code isSigned rest encoding (by omega)
  · intro bytes continues
    exact decode_unterminated continues

theorem readFromStream_two_bytes :
    (readFromStream true [0xFF, 0x00, 0x07] : Outcome 8) = (.ok 0x7F, [0x07]) := by
  have encoding : Encoding [0xFF, 0x00] := .more (by decide) (.last (by decide))
  exact (@readFromStream_correct 8 (by decide) true).1 _ [0x07] encoding

end MixUpOS.AK.LEB128
