import Mathlib.Data.Nat.Bitwise
import MixUpOS.AK.Builtins

/-!
# Bitmaps

The searches of `BitmapView` read a bitmap in buckets of 64 bits, skip full
and empty buckets at once, and take the others apart by counting trailing
zeroes and ones.  What they find is a run of unset bits, possibly in front of
the position from which they were asked to search, but not by a whole bucket.
-/

namespace MixUpOS.AK

structure Bitmap where
  bits : List Bool
deriving DecidableEq, Repr

namespace Bitmap

variable (bitmap : Bitmap)

def size : Nat := bitmap.bits.length

/-- `VERIFY(index < m_size)` and the bit. -/
def get (index : Nat) : Option Bool := bitmap.bits[index]?

/-- The bit at an index, as the searches read it. -/
def bitAt (index : Nat) : Bool := bitmap.bits.getD index false

/-- The bitmap with a range of bits replaced. -/
def withRange (start len : Nat) (value : Bool) : Bitmap :=
  ⟨bitmap.bits.take start ++ List.replicate len value ++ bitmap.bits.drop (start + len)⟩

/-- `set_range_and_verify_that_all_bits_flip`, which verifies the bits that
share a byte with the start or the end of the range. -/
def setRangeAndVerifyThatAllBitsFlip (start len : Nat) (value : Bool) : Option Bitmap := do
  verify (start < bitmap.size)
  verify (start + len ≤ bitmap.size)
  verify ((List.range len).all fun offset =>
    ((start + offset) / 8 != start / 8 && (start + offset) / 8 != (start + len) / 8) ||
      bitmap.bitAt (start + offset) != value)
  return bitmap.withRange start len value

/-- `bit_size`, the bits of a `size_t`. -/
def bitSize : Nat := 64

/-- `bitmap[bucket_index]`. -/
def bucket (bucketIndex : Nat) : Nat := Nat.ofBits fun bit : Fin bitSize =>
    bitmap.bitAt (bucketIndex * bitSize + bit)

/-- `*start_of_free_chunks` and `free_chunks`. -/
structure RangeSearch where
  start : Nat
  freeChunks : Nat
deriving DecidableEq, Repr

/-- The state after a part of the search, or a range that was returned. -/
inductive SearchResult where
  | next (search : RangeSearch)
  | found (start length : Nat)
deriving DecidableEq, Repr

namespace RangeSearch

/-- Count unset bits; the first of a run are at the given position. -/
def extend (search : RangeSearch) (position count : Nat) : RangeSearch where
  start := if search.freeChunks = 0 then position else search.start
  freeChunks := search.freeChunks + count

/-- `free_chunks = 0`. -/
def reset (search : RangeSearch) : RangeSearch := { search with freeChunks := 0 }

/-- `return min(free_chunks, max_length)`. -/
def report (search : RangeSearch) (maxLength : Nat) : SearchResult :=
  .found search.start (min search.freeChunks maxLength)

end RangeSearch

/-- The loop over the bits of one bucket, with the bits that are not viewed
yet and an upper bound for the iterations. -/
def scanBucket (minLength maxLength bucketStart : Nat) :
    Nat → Nat → Nat → RangeSearch → SearchResult
  | 0, _, _, search => .next search
  | iterations + 1, bucket, viewedBits, search =>
    if viewedBits < bitSize then
      if bucket = 0 then
        scanBucket minLength maxLength bucketStart iterations bucket bitSize
          (search.extend (bucketStart + viewedBits) (bitSize - viewedBits))
      else
        let trailingZeroes := countTrailingZeroes bitSize bucket
        let rest := bucket >>> trailingZeroes
        let counted := search.extend (bucketStart + viewedBits) trailingZeroes
        if minLength ≤ counted.freeChunks then counted.report maxLength
        else
          let trailingOnes := countTrailingZeroes bitSize (2 ^ bitSize - (rest + 1))
          scanBucket minLength maxLength bucketStart iterations (rest >>> trailingOnes)
            (viewedBits + trailingZeroes + trailingOnes) counted.reset
    else .next search

def searchBucket (minLength maxLength bucketIndex
    startBucketBit : Nat) (search : RangeSearch) : SearchResult :=
  let bucket := bitmap.bucket bucketIndex
  if bucket = 2 ^ bitSize - 1 then
    if minLength ≤ search.freeChunks then search.report maxLength
    else .next search.reset
  else if bucket = 0 then
    let extended := search.extend (bucketIndex * bitSize) bitSize
    if maxLength ≤ extended.freeChunks then .found extended.start maxLength
    else .next extended
  else
    scanBucket minLength maxLength (bucketIndex * bitSize) bitSize
      (bucket >>> startBucketBit) startBucketBit search

/-- The loop over a number of buckets. -/
def searchBuckets (bitmap : Bitmap) (minLength maxLength : Nat) :
    Nat → Nat → Nat → RangeSearch → SearchResult
  | 0, _, _, search => .next search
  | remaining + 1, bucketIndex, startBucketBit, search =>
    match bitmap.searchBucket minLength maxLength bucketIndex startBucketBit search with
    | .found start length => .found start length
    | .next later =>
      bitmap.searchBuckets minLength maxLength remaining (bucketIndex + 1) 0 later

/-- The loop over the bits behind the last bucket. -/
def searchTrailingBits (bitmap : Bitmap) (minLength maxLength : Nat) :
    Nat → Nat → RangeSearch → SearchResult
  | 0, _, search => .next search
  | remaining + 1, position, search =>
    if bitmap.bitAt position then
      bitmap.searchTrailingBits minLength maxLength remaining (position + 1) search.reset
    else
      let extended := search.extend position 1
      if minLength ≤ extended.freeChunks then extended.report maxLength
      else
        bitmap.searchTrailingBits minLength maxLength remaining (position + 1) extended

/-- The start and the length of the next range. -/
def findNextRangeOfUnsetBits («from» minLength maxLength : Nat) : Option (Nat × Nat) :=
  if maxLength < minLength then none
  else
    let buckets := bitmap.size / bitSize
    match bitmap.searchBuckets minLength maxLength
      (buckets - «from» / bitSize) («from» / bitSize) («from» % bitSize)
      ⟨«from», 0⟩ with
    | .found start length => some (start, length)
    | .next search =>
      if search.freeChunks < minLength then
        match bitmap.searchTrailingBits minLength maxLength
          (bitmap.size % bitSize) (buckets * bitSize) search with
        | .found start length => some (start, length)
        | .next _ => none
      else some (search.start, min search.freeChunks maxLength)

def findFirstFit (minimumLength : Nat) : Option Nat :=
  (bitmap.findNextRangeOfUnsetBits 0 minimumLength minimumLength).map Prod.fst

/-- The best region so far. -/
structure BestRegion where
  start : Nat
  size : Nat
  found : Bool

def maxSize : Nat := 0xffffffff

/-- The loop of `find_best_fit`; `none` means that it goes on after the given
number of iterations. -/
def searchBestFit (bitmap : Bitmap) (minimumLength : Nat) :
    Nat → Nat → BestRegion → Option (Option Nat)
  | 0, _, _ => none
  | iterations + 1, start, best =>
    match bitmap.findNextRangeOfUnsetBits start minimumLength best.size with
    | some (next, length) =>
      bitmap.searchBestFit minimumLength iterations (next + length)
        (if length < best.size || !best.found then ⟨next, length, true⟩
        else best)
    | none => some (if best.found then some best.start else none)

def findBestFit (minimumLength : Nat) : Option (Option Nat) :=
  bitmap.searchBestFit minimumLength (bitmap.size + 2) 0 ⟨0, maxSize, false⟩

end Bitmap

end MixUpOS.AK
