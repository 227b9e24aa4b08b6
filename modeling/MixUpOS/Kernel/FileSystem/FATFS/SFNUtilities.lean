import MixUpOS.AK.Builtins
import MixUpOS.AK.StringView
import Mathlib.Data.Nat.Digits.Lemmas

/-!
# Short file names

A name that is no 8.3 name gets one that no file of the directory has: what is
left of its characters, a tilde and a number.
-/

namespace MixUpOS.Kernel.SFNUtils

open AK List Nat

def space : UInt8 := 32

def tilde : UInt8 := 126

def underscore : UInt8 := 95

def validMiscSfnChars : List UInt8 := [36, 37, 39, 45, underscore, 64, space, tilde, 96, 33, 40, 41]

def isValidSfnChar (c : UInt8) : Bool :=
  65 ≤ c && c ≤ 90 || 48 ≤ c && c ≤ 57 || validMiscSfnChars.contains c

def toAsciiUppercase (c : UInt8) : UInt8 := if 97 ≤ c ∧ c ≤ 122 then c - 32 else c

def padded (size : Nat) (text : List UInt8) : List UInt8 :=
  text ++ List.replicate (size - text.length) space

/-- A positive number as text. -/
def decimal (number : Nat) : List UInt8 :=
  (Nat.digits 10 number).reverse.map fun digit => .ofNat (48 + digit)

/-- The loop of `digits`. -/
def digits (w : Nat) : Nat := if w / 10 = 0 then 0 else digits (w / 10) + 1

structure SFN where
  name : List UInt8
  extension : List UInt8
  unique : Nat

namespace SFN

def tryCreate (name extension : List UInt8) (unique : Nat) : Option SFN := do
  verify (0 < name.length)
  return ⟨name.take 6, extension.take 3, unique⟩

/-- The number of bytes that are copied must not underflow. -/
def serializeName (sfn : SFN) : Option (List UInt8) := do
  verify (digits sfn.unique ≤ sfn.name.length)
  return padded 8 (sfn.name.take (sfn.name.length - digits sfn.unique) ++
    tilde :: decimal sfn.unique)

def serializeExtension (sfn : SFN) : List UInt8 := padded 3 sfn.extension

end SFN

/-- The first loop of `create_sfn_from_lfn`.  A period with another one behind
it is not the last one. -/
def removeExtra : List UInt8 → List UInt8
  | [] => []
  | c :: rest =>
    if c = space ∨ c = dot ∧ dot ∈ rest then removeExtra rest
    else toAsciiUppercase c :: removeExtra rest

def translate (c : UInt8) : UInt8 := if !isValidSfnChar c && c ≠ dot then underscore else c

def trim (lfn : StringView) : StringView := StringView.trimRight (lfn.dropWhile (· == dot)) dot

def createSfnFromLfn (lfn : StringView) : Option SFN :=
  let out := (removeExtra (trim lfn)).map translate
  match StringView.findLast out dot with
  | none => SFN.tryCreate (out.take 6) [] 1
  | some lastPeriod =>
    SFN.tryCreate (out.take (min lastPeriod 6)) ((out.drop (lastPeriod + 1)).take 3) 1

/-- `create_unique_sfn_for`, with a bound on the numbers that are tried. -/
def createUniqueSfnFor (existing : List (List UInt8 × List UInt8)) :
    Nat → SFN → Option (List UInt8 × List UInt8)
  | 0, _ => none
  | bound + 1, sfn => do
    let name ← sfn.serializeName
    if (name, sfn.serializeExtension) ∈ existing then
      createUniqueSfnFor existing bound { sfn with unique := sfn.unique + 1 }
    else return (name, sfn.serializeExtension)

/-- What is used of the characters in front of the last period. -/
def stem : List UInt8 → List UInt8
  | [] => []
  | c :: rest =>
    if c = dot ∧ dot ∉ rest then []
    else if c = space ∨ c = dot then stem rest
    else translate (toAsciiUppercase c) :: stem rest

/-- What is used of the characters behind it. -/
def extensionOf : List UInt8 → List UInt8
  | [] => []
  | c :: rest => if c = dot ∧ dot ∉ rest then stem rest else extensionOf rest

def base (lfn : StringView) : List UInt8 := (stem (trim lfn)).take 6

def sfnOf (lfn : StringView) (unique : Nat) : SFN :=
  ⟨base lfn, (extensionOf (trim lfn)).take 3, unique⟩

/-- The short name with a number. -/
def shortName (lfn : StringView) (unique : Nat) : List UInt8 × List UInt8 :=
  (padded 8 ((base lfn).take ((base lfn).length - Nat.log 10 unique) ++ tilde :: decimal unique),
    padded 3 ((extensionOf (trim lfn)).take 3))

/-- A short name is found, is legal and is new. -/
def Generates (lfn : StringView) (existing : List (List UInt8 × List UInt8)) : Prop :=
  ∃ sfn bound name extension, createSfnFromLfn lfn = some sfn ∧
    createUniqueSfnFor existing bound sfn = some (name, extension) ∧
    name.length = 8 ∧ extension.length = 3 ∧
    (∀ c ∈ name ++ extension, isValidSfnChar c = true) ∧ (name, extension) ∉ existing

theorem digits_eq (w : Nat) : digits w = log 10 w := by
  fun_induction digits w with
  | case1 w small => exact (log_of_lt (by omega)).symm
  | case2 w large ih =>
    rw [ih]
    exact (log_of_one_lt_of_le (by decide) (by omega)).symm

theorem translate_valid {c : UInt8} (notDot : c ≠ dot) :
    isValidSfnChar (translate (toAsciiUppercase c)) = true := by
  have stillNotDot : toAsciiUppercase c ≠ dot := by
    unfold toAsciiUppercase
    split
    next lower =>
      intro isDot
      rw [← UInt8.sub_add_cancel c 32, isDot] at lower
      exact absurd lower (by decide)
    next => exact notDot
  unfold translate
  split
  next => decide
  next kept => simpa [stillNotDot] using kept

theorem stem_valid : ∀ c ∈ stem text, isValidSfnChar c = true := by
  fun_induction stem text with
  | case1 | case2 => simp
  | case3 _ _ _ _ ih => exact ih
  | case4 c rest _ other ih =>
    exact forall_mem_cons.mpr ⟨translate_valid (not_or.mp other).2, ih⟩

theorem extensionOf_valid : ∀ c ∈ extensionOf text, isValidSfnChar c = true := by
  fun_induction extensionOf text with
  | case1 => simp
  | case2 => exact stem_valid
  | case3 _ _ _ ih => exact ih

theorem extensionOf_eq_nil (noDot : dot ∉ text) : extensionOf text = [] := by
  fun_induction extensionOf text with
  | case1 => rfl
  | case2 c rest last => simp [last.1] at noDot
  | case3 c rest _ ih => exact ih (not_mem_of_not_mem_cons noDot)

theorem map_removeExtra : (removeExtra text).map translate =
    stem text ++ if dot ∈ text then dot :: extensionOf text else [] := by
  induction text with
  | nil => rfl
  | cons c rest ih =>
    rw [removeExtra, stem, extensionOf]
    by_cases isDot : c = dot
    · subst isDot
      by_cases more : dot ∈ rest
      · simp [more, ih]
      · have notSpace : dot ≠ space := by decide
        have same : translate (toAsciiUppercase dot) = dot := by decide
        simp [more, notSpace, same, ih]
    · by_cases isSpace : c = space
      · simp [isSpace, ih, show space ≠ dot by decide, show dot ≠ space by decide]
      · simp [isDot, isSpace, ih, Ne.symm isDot]

theorem createSfnFromLfn_eq (lfn : StringView) :
    createSfnFromLfn lfn = if base lfn = [] then none else some (sfnOf lfn 1) := by
  have noDot : ∀ {text : List UInt8}, (∀ c ∈ text, isValidSfnChar c = true) →
      text.reverse.findIdx? (· == dot) = none := by
    intro text valid
    rw [findIdx?_eq_none_iff]
    intro c member
    rw [beq_eq_false_iff_ne]
    rintro rfl
    exact absurd (valid dot (mem_reverse.mp member)) (by decide)
  have create : ∀ name extension : List UInt8, SFN.tryCreate name extension 1 =
      if name = [] then none else some ⟨name.take 6, extension.take 3, 1⟩ := by
    intro name extension
    cases name <;> rfl
  rw [createSfnFromLfn, map_removeExtra, sfnOf, base]
  generalize trim lfn = text
  by_cases hasDot : dot ∈ text
  · have found : StringView.findLast (stem text ++ dot :: extensionOf text) dot =
        some (stem text).length := by
      simp [StringView.findLast, noDot extensionOf_valid, findIdx?_cons]
    have front : (stem text ++ dot :: extensionOf text).take (min (stem text).length 6) =
        (stem text).take 6 := by
      rw [take_append_of_le_length (min_le_left ..), min_comm, ← take_take, take_length]
    simp [if_pos hasDot, found, create, front, take_take]
  · have found : StringView.findLast (stem text) dot = none := by
      simp [StringView.findLast, noDot stem_valid]
    simp [if_neg hasDot, found, create, extensionOf_eq_nil hasDot, take_take]

theorem createUniqueSfnFor_succ : createUniqueSfnFor existing (bound + 1) (sfnOf lfn unique) =
    if log 10 unique ≤ (base lfn).length then
      if shortName lfn unique ∈ existing then
        createUniqueSfnFor existing bound (sfnOf lfn (unique + 1))
      else some (shortName lfn unique)
    else none := by
  rw [createUniqueSfnFor, SFN.serializeName, digits_eq]
  change (verify (decide (log 10 unique ≤ (base lfn).length)) >>= _) >>= _ = _
  by_cases fits : log 10 unique ≤ (base lfn).length
  · rw [decide_eq_true fits, if_pos fits]
    rfl
  · rw [decide_eq_false fits, if_neg fits]
    rfl

theorem exists_new_of_createUniqueSfnFor
    (created : createUniqueSfnFor existing bound (sfnOf lfn unique) = some result) :
    ∃ number, unique ≤ number ∧ log 10 number ≤ (base lfn).length ∧
      result = shortName lfn number ∧ result ∉ existing := by
  induction bound generalizing unique with
  | zero => cases created
  | succ bound ih =>
    rw [createUniqueSfnFor_succ] at created
    split_ifs at created with fits used
    · obtain ⟨number, later, rest⟩ := ih created
      exact ⟨number, by omega, rest⟩
    · cases created
      exact ⟨unique, le_refl _, fits, rfl, used⟩

/-- The loop ends at the latest with a number that gives a new name. -/
theorem exists_createUniqueSfnFor (new : shortName lfn number ∉ existing)
    (fits : log 10 number ≤ (base lfn).length) (notAbove : unique ≤ number) :
    ∃ bound result, createUniqueSfnFor existing bound (sfnOf lfn unique) = some result := by
  induction notAbove using decreasingInduction with
  | self => exact ⟨1, _, by rw [createUniqueSfnFor_succ, if_pos fits, if_neg new]⟩
  | of_succ unique below ih =>
    have fitsHere := (log_mono_right (le_of_lt below)).trans fits
    by_cases used : shortName lfn unique ∈ existing
    · obtain ⟨bound, result, created⟩ := ih
      refine ⟨bound + 1, result, ?_⟩
      rw [createUniqueSfnFor_succ, if_pos fitsHere, if_pos used, created]
    · exact ⟨1, _, by rw [createUniqueSfnFor_succ, if_pos fitsHere, if_neg used]⟩

theorem shortName_legal (pos : 0 < unique) (fits : log 10 unique ≤ (base lfn).length) :
    (shortName lfn unique).1.length = 8 ∧ (shortName lfn unique).2.length = 3 ∧
      ∀ c ∈ (shortName lfn unique).1 ++ (shortName lfn unique).2, isValidSfnChar c = true := by
  have length : (decimal unique).length = log 10 unique + 1 := by
    rw [decimal, length_map, length_reverse, length_digits 10 _ (by decide) (by omega)]
  have short : (base lfn).length ≤ 6 := length_take_le ..
  refine ⟨?_, by simp [shortName, padded], ?_⟩
  · simp [shortName, padded, length]
    omega
  intro c member
  simp only [shortName, padded, mem_append, mem_cons, mem_replicate] at member
  rcases member with ((inName | rfl | inNumber) | ⟨_, rfl⟩) | inExtension | ⟨_, rfl⟩
  · exact stem_valid c (mem_of_mem_take (mem_of_mem_take inName))
  · decide
  · obtain ⟨digit, isDigit, rfl⟩ := mem_map.mp inNumber
    have small := digits_lt_base (by decide) (mem_reverse.mp isDigit)
    interval_cases digit <;> decide
  · decide
  · exact extensionOf_valid c (mem_of_mem_take inExtension)
  · decide

/-- A legal new name is generated iff there is a character in front of the
last period, and one of the numbers that the characters leave room for is
not taken. -/
theorem generates_iff (lfn : StringView) (existing : List (List UInt8 × List UInt8)) :
    Generates lfn existing ↔ base lfn ≠ [] ∧ ∃ unique, 0 < unique ∧
      unique < 10 ^ ((base lfn).length + 1) ∧ shortName lfn unique ∉ existing := by
  have room : ∀ {unique}, 0 < unique →
      (Nat.log 10 unique ≤ (base lfn).length ↔ unique < 10 ^ ((base lfn).length + 1)) := by
    intro unique positive
    rw [← Nat.lt_succ_iff, ← Nat.log_lt_iff_lt_pow (by decide) (Nat.ne_of_gt positive)]
  constructor
  · rintro ⟨sfn, bound, name, extension, created, found, _⟩
    rw [createSfnFromLfn_eq] at created
    split_ifs at created with empty
    cases created
    obtain ⟨unique, positive, fits, isName, new⟩ := exists_new_of_createUniqueSfnFor found
    exact ⟨empty, unique, positive, (room positive).mp fits, isName ▸ new⟩
  · rintro ⟨notEmpty, unique, positive, below, new⟩
    obtain ⟨bound, result, created⟩ :=
      exists_createUniqueSfnFor new ((room positive).mpr below) positive
    obtain ⟨number, above, fits, rfl, new⟩ := exists_new_of_createUniqueSfnFor created
    obtain ⟨nameLength, extensionLength, legal⟩ := shortName_legal above fits
    exact ⟨_, bound, _, _, by rw [createSfnFromLfn_eq, if_neg notEmpty], created, nameLength,
      extensionLength, legal, new⟩

/-- A name of one space. -/
theorem not_generates_space : ¬ Generates [space] [] := by
  rintro ⟨sfn, _, _, _, created, _⟩
  cases created

end MixUpOS.Kernel.SFNUtils
