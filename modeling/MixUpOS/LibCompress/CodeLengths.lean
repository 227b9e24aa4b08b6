import Mathlib
import MixUpOS.AK.Builtins

/-!
# The code lengths of a dynamic block

The compressor writes the lengths of the two codes of a block as runs, and the
decompressor expands the runs.
-/

namespace MixUpOS.Compress

open AK List

def deflateSpecialCodeLengthCopy : Nat := 16

def deflateSpecialCodeLengthZeros : Nat := 17

def deflateSpecialCodeLengthLongZeros : Nat := 18

def maxHuffmanLiterals : Nat := 288

def maxHuffmanDistances : Nat := 32

def endOfBlock : Nat := 256

/-- The count of a symbol that is a length is not used. -/
structure CodeLengthSymbol where
  symbol : Nat
  count : Nat := 0

/-- The inner loops of `encode_huffman_lengths`: the entries in front that have
the value, of which at most `bound` are counted. -/
def runLength (value : Nat) : Nat → List Nat → Nat
  | bound + 1, length :: rest => if length = value then runLength value bound rest + 1 else 0
  | _, _ => 0

section

variable {value bound : Nat}

theorem runLength_le : runLength value bound lengths ≤ bound ∧
    runLength value bound lengths ≤ lengths.length := by
  fun_induction runLength value bound lengths with
  | case1 bound rest ih => exact ⟨Nat.succ_le_succ ih.1, Nat.succ_le_succ ih.2⟩
  | case2 | case3 => exact ⟨Nat.zero_le _, Nat.zero_le _⟩

theorem replicate_append_drop_runLength : replicate (runLength value bound lengths) value ++
      lengths.drop (runLength value bound lengths) = lengths := by
  fun_induction runLength value bound lengths with
  | case1 bound rest ih => rw [replicate_succ, cons_append, drop_succ_cons, ih]
  | case2 | case3 => rfl

end

def encodeHuffmanLengths : List Nat → List CodeLengthSymbol
  | [] => []
  | length :: rest =>
    if length = 0 then
      let zeroCount := runLength 0 138 (length :: rest)
      if zeroCount < 3 then { symbol := 0 } :: encodeHuffmanLengths rest
      else if zeroCount ≤ 10 then
        ⟨deflateSpecialCodeLengthZeros, zeroCount⟩ ::
          encodeHuffmanLengths ((length :: rest).drop zeroCount)
      else
        ⟨deflateSpecialCodeLengthLongZeros, zeroCount⟩ ::
          encodeHuffmanLengths ((length :: rest).drop zeroCount)
    else
      let copyCount := runLength length 6 rest
      if 3 ≤ copyCount then
        { symbol := length } :: ⟨deflateSpecialCodeLengthCopy, copyCount⟩ ::
          encodeHuffmanLengths (rest.drop copyCount)
      else { symbol := length } :: encodeHuffmanLengths rest
termination_by lengths => lengths.length
decreasing_by all_goals simp +zetaDelta <;> omega

/-- How many of the code lengths are written. -/
def codeCount (bitLengths : List Nat) (least : Nat) : Nat → Nat
  | 0 => 0
  | count + 1 =>
    if bitLengths[count]? = some 0 ∧ least ≤ count then codeCount bitLengths least count
    else count + 1

def encodeBlockLengths (literal distance : List Nat) :
    Option (List CodeLengthSymbol × Nat × Nat) := do
  verify (literal[endOfBlock]? ≠ some 0)
  let literalCount := codeCount literal 0 maxHuffmanLiterals
  let distanceCount := codeCount distance 1 maxHuffmanDistances
  return (encodeHuffmanLengths (literal.take literalCount ++ distance.take distanceCount),
    literalCount, distanceCount)

/-- A number as it is read back from that many bits. -/
def readBits (width number : Nat) : Nat := number % 2 ^ width

/-- One round of the loop of `decode_codes`. -/
def appendLengths (codeLengths : List Nat) (symbol : CodeLengthSymbol) : Option (List Nat) :=
  if symbol.symbol < deflateSpecialCodeLengthCopy then some (codeLengths ++ [symbol.symbol])
  else if symbol.symbol = deflateSpecialCodeLengthCopy then do
    let last ← codeLengths.getLast?
    return codeLengths ++ replicate (3 + readBits 2 (symbol.count - 3)) last
  else if symbol.symbol = deflateSpecialCodeLengthZeros then
    some (codeLengths ++ replicate (3 + readBits 3 (symbol.count - 3)) 0)
  else do
    verify (symbol.symbol = deflateSpecialCodeLengthLongZeros)
    return codeLengths ++ replicate (11 + readBits 7 (symbol.count - 11)) 0

/-- The lengths with the symbols that are not read, or an error. -/
def decodeCodes (total : Nat) :
    List CodeLengthSymbol → List Nat → Option (List Nat × List CodeLengthSymbol)
  | symbols, codeLengths =>
    if codeLengths.length < total then
      match symbols with
      | [] => none
      | symbol :: rest => do decodeCodes total rest (← appendLengths codeLengths symbol)
    else if codeLengths.length = total then some (codeLengths, symbols) else none

/-- The lengths of a literal and a distance code that can be written. -/
structure BlockLengths where
  literal : List Nat
  distance : List Nat
  literalSize : literal.length = maxHuffmanLiterals
  distanceSize : distance.length = maxHuffmanDistances
  small : ∀ length ∈ literal ++ distance, length ≤ 15
  hasEnd : literal[endOfBlock]? ≠ some 0
  literalUnused : literal[286]? = some 0 ∧ literal[287]? = some 0
  distanceUnused : distance[30]? = some 0 ∧ distance[31]? = some 0

section

variable {lengths done : List Nat} {symbols : List CodeLengthSymbol}

theorem length_encodeHuffmanLengths_le :
    (encodeHuffmanLengths lengths).length ≤ lengths.length := by
  fun_induction encodeHuffmanLengths lengths with
  | case1 => exact Nat.le_refl _
  | case2 _ _ _ ih | case6 _ _ _ _ _ ih => exact Nat.succ_le_succ ih
  | case3 | case4 =>
    simp_all
    omega
  | case5 length rest _ copyCount isRun ih =>
    have inside := (@runLength_le length 6 rest).2
    simp only [length_cons, length_drop] at ih ⊢
    omega

/-- The symbols stand for the lengths, behind others. -/
def Expands (symbols : List CodeLengthSymbol) (lengths done : List Nat) : Prop :=
  decodeCodes (done.length + lengths.length) symbols done = some (done ++ lengths, [])

theorem Expands.cons (appended : appendLengths done symbol = some (done ++ new))
    (nonempty : 0 < new.length) (expands : Expands symbols lengths (done ++ new)) :
    Expands (symbol :: symbols) (new ++ lengths) done := by
  rw [Expands, length_append, Nat.add_assoc, ← length_append, append_assoc] at expands
  rw [Expands, decodeCodes, if_pos (by rw [length_append]; omega)]
  simp only [appended]
  exact expands

theorem Expands.length {length : Nat} (small : length ≤ 15)
    (expands : Expands symbols lengths (done ++ [length])) :
    Expands ({ symbol := length } :: symbols) (length :: lengths) done := by
  have appended : appendLengths done { symbol := length } = some (done ++ [length]) :=
    if_pos (Nat.lt_succ_of_le small)
  exact expands.cons appended Nat.one_pos

theorem Expands.run (least width : Nat) (many : least ≤ runLength value bound lengths)
    (pos : 0 < least) (few : runLength value bound lengths < least + 2 ^ width)
    (appended : appendLengths done symbol = some (done ++
      replicate (least + readBits width (runLength value bound lengths - least)) value))
    (expands : ∀ done, Expands symbols (lengths.drop (runLength value bound lengths)) done) :
    Expands (symbol :: symbols) lengths done := by
  have read : least + readBits width (runLength value bound lengths - least) =
      runLength value bound lengths := by
    rw [readBits, Nat.mod_eq_of_lt (by omega), Nat.add_sub_cancel' many]
  rw [read] at appended
  have expanded := (expands _).cons appended (by rw [length_replicate]; omega)
  rwa [replicate_append_drop_runLength] at expanded

theorem expands_encodeHuffmanLengths (lengths : List Nat) : (∀ length ∈ lengths, length ≤ 15) →
      ∀ done, Expands (encodeHuffmanLengths lengths) lengths done := by
  fun_induction encodeHuffmanLengths lengths with
  | case1 => exact fun _ done => by simp [Expands, decodeCodes]
  | case2 rest zeroCount few ih =>
    exact fun small done => (ih (forall_mem_cons.mp small).2 _).length (Nat.zero_le _)
  | case3 rest zeroCount many short ih =>
    intro small done
    apply Expands.run 3 3 (Nat.le_of_not_lt many) (by decide) (by omega) rfl
    exact ih fun length member => small length (mem_of_mem_drop member)
  | case4 rest zeroCount many long ih =>
    intro small done
    have bounded := (@runLength_le 0 138 (0 :: rest)).1
    apply Expands.run 11 7 (Nat.lt_of_not_le long) (by decide) (by omega) rfl
    exact ih fun length member => small length (mem_of_mem_drop member)
  | case5 length rest notZero copyCount isRun ih =>
    intro small done
    obtain ⟨first, others⟩ := forall_mem_cons.mp small
    have bounded := (@runLength_le length 6 rest).1
    refine .length first (.run 3 2 isRun (by decide) (by omega) ?_ ?_)
    · change ((done ++ [length]).getLast?.bind fun last => _) = _
      rw [getLast?_concat]
      rfl
    · exact ih fun length member => others length (mem_of_mem_drop member)
  | case6 length rest notZero copyCount noRun ih =>
    intro small done
    obtain ⟨first, others⟩ := forall_mem_cons.mp small
    exact (ih others _).length first

end

section

variable {bitLengths : List Nat} {least count : Nat}

theorem codeCount_spec :
    codeCount bitLengths least count ≤ count ∧ min least count ≤ codeCount bitLengths least count ∧
      ∀ index < count, codeCount bitLengths least count ≤ index → bitLengths[index]? = some 0 := by
  induction count with
  | zero => simp [codeCount]
  | succ count ih =>
    obtain ⟨upper, lower, zeros⟩ := ih
    rw [codeCount]
    split_ifs with isZero
    · refine ⟨by omega, by omega, ?_⟩
      intro index below above
      rcases Nat.lt_succ_iff_lt_or_eq.mp below with earlier | rfl
      · exact zeros index earlier above
      · exact isZero.1
    · exact ⟨Nat.le_refl _, Nat.min_le_right _ _, fun index below above => by omega⟩

theorem codeCount_le (unused : bitLengths[count]? = some 0 ∧ bitLengths[count + 1]? = some 0)
    (few : least ≤ count) : codeCount bitLengths least (count + 2) ≤ count := by
  rw [codeCount, if_pos ⟨unused.2, Nat.le_succ_of_le few⟩, codeCount, if_pos ⟨unused.1, few⟩]
  exact codeCount_spec.1

theorem eq_zero_of_mem_drop {length : Nat} (size : bitLengths.length = count)
    (member : length ∈ bitLengths.drop (codeCount bitLengths least count)) : length = 0 := by
  obtain ⟨index, found⟩ := mem_iff_getElem?.mp member
  rw [getElem?_drop] at found
  obtain ⟨inside, _⟩ := List.getElem?_eq_some_iff.mp found
  have isZero := codeCount_spec.2.2 _ (size ▸ inside) (Nat.le_add_right _ index)
  exact Option.some.inj (found.symm.trans isZero)

end

/-- The lengths that are not written are zero, and the others are read back. -/
theorem encodeBlockLengths_roundTrip (lengths : BlockLengths) :
    ∃ symbols literalCount distanceCount, encodeBlockLengths lengths.literal lengths.distance =
        some (symbols, literalCount, distanceCount) ∧
      (257 ≤ literalCount ∧ literalCount ≤ 286) ∧ (1 ≤ distanceCount ∧ distanceCount ≤ 30) ∧
      symbols.length ≤ maxHuffmanLiterals + maxHuffmanDistances ∧
      decodeCodes (literalCount + distanceCount) symbols [] =
        some (lengths.literal.take literalCount ++ lengths.distance.take distanceCount, []) ∧
      ∀ length ∈ lengths.literal.drop literalCount ++ lengths.distance.drop distanceCount,
        length = 0 := by
  obtain ⟨literalUpper, _, literalZeros⟩ := @codeCount_spec lengths.literal 0 maxHuffmanLiterals
  obtain ⟨distanceUpper, distanceLower, _⟩ := @codeCount_spec lengths.distance 1 maxHuffmanDistances
  have literalLower : 257 ≤ codeCount lengths.literal 0 maxHuffmanLiterals := by
    by_contra fewer
    exact lengths.hasEnd (literalZeros _ (by decide) (by rw [endOfBlock]; omega))
  have expands := expands_encodeHuffmanLengths
    (lengths.literal.take (codeCount lengths.literal 0 maxHuffmanLiterals) ++
      lengths.distance.take (codeCount lengths.distance 1 maxHuffmanDistances))
    (fun length member => lengths.small length
      (((take_sublist _ _).append (take_sublist _ _)).subset member)) []
  rw [Expands, length_append, length_take, length_take, lengths.literalSize, lengths.distanceSize,
    length_nil, Nat.zero_add, Nat.min_eq_left literalUpper, Nat.min_eq_left distanceUpper]
    at expands
  refine ⟨_, _, _, ?_, ⟨literalLower, codeCount_le lengths.literalUnused (Nat.zero_le _)⟩,
    ⟨distanceLower, codeCount_le lengths.distanceUnused (by decide)⟩, ?_, expands, ?_⟩
  · rw [encodeBlockLengths, decide_eq_true lengths.hasEnd]
    rfl
  · refine length_encodeHuffmanLengths_le.trans ?_
    rw [length_append, length_take, length_take]
    omega
  · intro length member
    rcases mem_append.mp member with inLiteral | inDistance
    · exact eq_zero_of_mem_drop lengths.literalSize inLiteral
    · exact eq_zero_of_mem_drop lengths.distanceSize inDistance

/-- Every length is nine, so a run goes on from the literals to the distances. -/
theorem encodeBlockLengths_roundTrip_across :
    ∃ symbols, encodeBlockLengths (replicate 257 9 ++ replicate 31 0)
        (replicate 30 9 ++ replicate 2 0) = some (symbols, 257, 30) ∧
      decodeCodes 287 symbols [] = some (replicate 287 9, []) := by
  obtain ⟨symbols, _, _, encoded, _, _, _, decoded, _⟩ := encodeBlockLengths_roundTrip
    ⟨replicate 257 9 ++ replicate 31 0, replicate 30 9 ++ replicate 2 0, by decide +kernel, rfl,
      by decide +kernel, by decide +kernel, by decide +kernel, by decide⟩
  have counts : (encodeBlockLengths (replicate 257 9 ++ replicate 31 0)
      (replicate 30 9 ++ replicate 2 0)).map Prod.snd = some (257, 30) := by
    decide +kernel
  rw [encoded] at counts
  cases counts
  rw [take_left' length_replicate, take_left' length_replicate, replicate_append_replicate]
    at decoded
  exact ⟨symbols, encoded, decoded⟩

end MixUpOS.Compress
