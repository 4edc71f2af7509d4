import Aim.Lib.Run

/-!
# `kern/lib/libbitmap`: bitmaps

A bitmap is an array of words of 32 bits. The searches count the bits from 1, and
answer 0 where there is none; a pointer into the array is what is left of it. A
read or a write outside of an array stops with an error.

Sizes and offsets are `unsigned long`. They only become smaller, and `result` is
at most the number of bits that were looked at, so nothing wraps around and they
are numbers. `x & ~(BITS_PER_LONG - 1)` is `x` without its remainder.

The shifts are given `int`s that are not negative. A word is shifted by 32 only
where it is 0.

The operations on two bitmaps read the word `k` of both before they store it, so
the result may be one of the two.
-/

namespace Aim.Kern

open Aim.Lib

/-- `BITS_TO_LONGS`, which divides by the bytes of a word. -/
def bitsToLongs (n : Nat) : Nat := (n + 4 - 1) / 4

/-- `BIT_WORD`. -/
def bitWord (nr : Nat) : Nat := nr / 32

/-! ## Searches -/

/-- `__generic_ffs`. -/
def genericFfs (word : BitVec 32) : Nat :=
  if word = 0 then 0
  else
    let (num, word) := if word &&& 0xffff = 0 then (1 + 16, word >>> 16) else (1, word)
    let (num, word) := if word &&& 0xff = 0 then (num + 8, word >>> 8) else (num, word)
    let (num, word) := if word &&& 0xf = 0 then (num + 4, word >>> 4) else (num, word)
    let (num, word) := if word &&& 0x3 = 0 then (num + 2, word >>> 2) else (num, word)
    if word &&& 0x1 = 0 then num + 1 else num

def ffz (word : BitVec 32) : Nat := genericFfs (~~~word)

/-- `__generic_fls`. -/
def genericFls (word : BitVec 32) : Nat :=
  if word = 0 then 0
  else
    let (num, word) := if word &&& (BitVec.allOnes 32 <<< (32 - 16)) = 0
      then (32 - 16, word <<< 16) else (32, word)
    let (num, word) := if word &&& (BitVec.allOnes 32 <<< (32 - 8)) = 0
      then (num - 8, word <<< 8) else (num, word)
    let (num, word) := if word &&& (BitVec.allOnes 32 <<< (32 - 4)) = 0
      then (num - 4, word <<< 4) else (num, word)
    let (num, word) := if word &&& (BitVec.allOnes 32 <<< (32 - 2)) = 0
      then (num - 2, word <<< 2) else (num, word)
    if word &&& (BitVec.allOnes 32 <<< (32 - 1)) = 0 then num - 1 else num

def flz (word : BitVec 32) : Nat := genericFls (~~~word)

/-- `bitmap_find_first_zero_bit`, with the words from `p` on, after the
`result` bits in front of them. -/
def findFirstZeroBit : List (BitVec 32) → Nat → Nat → Except Stop Nat
  | [], result, size => if size = 0 then .ok 0 else .error (.oob (result / 32 : Nat))
  | tmp :: p, result, size =>
      if 32 ≤ size then
        if ~~~tmp ≠ 0 then .ok (result + ffz tmp)
        else findFirstZeroBit p (result + 32) (size - 32)
      else if size = 0 then .ok 0
      else
        let tmp := tmp ||| (BitVec.allOnes 32 <<< size)
        if tmp = BitVec.allOnes 32 then .ok 0 else .ok (result + ffz tmp)

def bitmapFindFirstZeroBit (addr : List (BitVec 32)) (size : Nat) : Except Stop Nat :=
  findFirstZeroBit addr 0 size

/-- What the searches for set bits and those for zero bits differ in: the masks for
the bits before the first one and behind the last, the test of a word, and the
first bit of a word. -/
structure BitSearch where
  first : BitVec 32 → Nat → BitVec 32
  last : BitVec 32 → Nat → BitVec 32
  hit : BitVec 32 → Bool
  index : BitVec 32 → Nat

def setBits : BitSearch where
  first tmp offset := tmp &&& (BitVec.allOnes 32 <<< offset)
  last tmp size := tmp &&& (BitVec.allOnes 32 >>> (32 - size))
  hit tmp := tmp ≠ 0
  index := genericFfs

def zeroBits : BitSearch where
  first tmp offset := tmp ||| (BitVec.allOnes 32 >>> (32 - offset))
  last tmp size := tmp ||| (BitVec.allOnes 32 <<< size)
  hit tmp := ~~~tmp ≠ 0
  index := ffz

namespace BitSearch

variable (S : BitSearch)

/-- From the label `found_first`. -/
def foundFirst (tmp : BitVec 32) (result size : Nat) : Nat :=
  let tmp := S.last tmp size
  if S.hit tmp then result + S.index tmp else 0

/-- The loop over the whole words and the word behind them, after the `result` bits
in front. -/
def words : List (BitVec 32) → Nat → Nat → Except Stop Nat
  | [], result, size => if size = 0 then .ok 0 else .error (.oob (result / 32 : Nat))
  | tmp :: p, result, size =>
      if 32 ≤ size then
        if S.hit tmp then .ok (result + S.index tmp)
        else words p (result + 32) (size - 32)
      else if size = 0 then .ok 0
      else .ok (S.foundFirst tmp result size)

def findNext (addr : List (BitVec 32)) (size offset : Nat) : Except Stop Nat :=
  if offset = 0 then .ok 0
  else
    let offset := offset - 1
    let p := addr.drop (bitWord offset)
    let result := offset / 32 * 32
    if size ≤ offset then .ok 0
    else
      let size := size - result
      if offset % 32 ≠ 0 then
        match p with
        | [] => .error (.oob (bitWord offset))
        | tmp :: p =>
            let tmp := S.first tmp (offset % 32)
            if size < 32 then .ok (S.foundFirst tmp result size)
            else if S.hit tmp then .ok (result + S.index tmp)
            else S.words p (result + 32) (size - 32)
      else S.words p result size

end BitSearch

def bitmapFindFirstBit (addr : List (BitVec 32)) (size : Nat) : Except Stop Nat :=
  setBits.words addr 0 size

def bitmapFindNextBit (addr : List (BitVec 32)) (size offset : Nat) : Except Stop Nat :=
  setBits.findNext addr size offset

def bitmapFindNextZeroBit (addr : List (BitVec 32)) (size offset : Nat) : Except Stop Nat :=
  zeroBits.findNext addr size offset

/-! ## Single words -/

def loadWord (addr : List (BitVec 32)) (i : Nat) : Except Stop (BitVec 32) :=
  match addr[i]? with
  | some word => .ok word
  | none => .error (.oob i)

def storeWord (addr : List (BitVec 32)) (i : Nat) (word : BitVec 32) :
    Except Stop (List (BitVec 32)) :=
  if i < addr.length then .ok (addr.set i word) else .error (.oob i)

/-- The loop of `bitmap_find_last_bit`, with `words` words to go. -/
def findLastWord (addr : List (BitVec 32)) (size : Nat) : Nat → Except Stop Nat
  | 0 => .ok size
  | words + 1 => do
      let tmp ← loadWord addr words
      if tmp ≠ 0 then return words * 32 + genericFls tmp
      else findLastWord addr size words

/-- The part of a word in front of the loop goes to the label `found` in it. -/
def bitmapFindLastBit (addr : List (BitVec 32)) (size : Nat) : Except Stop Nat :=
  let words := size / 32
  if size % 32 ≠ 0 then do
    let tmp ← loadWord addr words
    let tmp := tmp &&& (BitVec.allOnes 32 >>> (32 - size % 32))
    if tmp ≠ 0 then return words * 32 + genericFls tmp
    else findLastWord addr size words
  else findLastWord addr size words

/-- The word is that of a bit counted from 0, and the place in it that of one counted
from 1. -/
def bitmapTestBit (nr : Int) (addr : List (BitVec 32)) : Except Stop Nat :=
  if 0 < nr then do
    let word ← loadWord addr (bitWord nr.toNat)
    return (1 &&& (word >>> ((nr - 1).toNat % 32))).toNat
  else .error (.panic "Assertion failed in bitmap_test_bit (%s:%d): nr > 0\n" [211])

/-! ## Shifts -/

/-- `memset` of whole words to 0. -/
def clearWords (dst : List (BitVec 32)) (start n : Nat) : Except Stop (List (BitVec 32)) :=
  (List.range n).foldlM (fun dst k => storeWord dst (start + k) 0) dst

/-- `(1UL << left) - 1`. -/
def leftMask (left : Nat) : BitVec 32 := ((1 : BitVec 32) <<< left) - 1

/-- The word above, for the word `k` of `__bitmap_shift_right`. -/
def shiftRightUpper (src : List (BitVec 32)) (lim left off rem k : Nat) :
    Except Stop (BitVec 32) :=
  if rem = 0 ∨ lim ≤ off + k + 1 then .ok 0
  else do
    let upper ← loadWord src (off + k + 1)
    return if off + k + 1 = lim - 1 ∧ left ≠ 0 then upper &&& leftMask left else upper

/-- The word `k` of `__bitmap_shift_right`. -/
def shiftRightWord (src : List (BitVec 32)) (lim left off rem : Nat) (dst : List (BitVec 32))
    (k : Nat) : Except Stop (List (BitVec 32)) := do
  let upper ← shiftRightUpper src lim left off rem k
  let lower ← loadWord src (off + k)
  let lower := if left ≠ 0 ∧ off + k = lim - 1 then lower &&& leftMask left else lower
  let word := upper <<< (32 - rem) ||| lower >>> rem
  storeWord dst k (if left ≠ 0 ∧ k = lim - 1 then word &&& leftMask left else word)

def bitmapShiftRight (dst src : List (BitVec 32)) (shift bits : Nat) :
    Except Stop (List (BitVec 32)) := do
  let lim := bitsToLongs bits
  let off := shift / 32
  let dst ← (List.range (lim - off)).foldlM
    (shiftRightWord src lim (bits % 32) off (shift % 32)) dst
  if off ≠ 0 then clearWords dst (lim - off) off else .ok dst

/-- The word below, for the word `k + off` of `__bitmap_shift_left`. -/
def shiftLeftLower (src : List (BitVec 32)) (rem k : Nat) : Except Stop (BitVec 32) :=
  if rem ≠ 0 ∧ 0 < k then loadWord src (k - 1) else .ok 0

/-- The word `k + off` of `__bitmap_shift_left`. -/
def shiftLeftWord (src : List (BitVec 32)) (lim left off rem : Nat) (dst : List (BitVec 32))
    (k : Nat) : Except Stop (List (BitVec 32)) := do
  let lower ← shiftLeftLower src rem k
  let upper ← loadWord src k
  let upper := if left ≠ 0 ∧ k = lim - 1 then upper &&& leftMask left else upper
  let word := lower >>> (32 - rem) ||| upper <<< rem
  storeWord dst (k + off) (if left ≠ 0 ∧ k + off = lim - 1 then word &&& leftMask left else word)

/-- From the last word to the first. -/
def bitmapShiftLeft (dst src : List (BitVec 32)) (shift bits : Nat) :
    Except Stop (List (BitVec 32)) := do
  let lim := bitsToLongs bits
  let off := shift / 32
  let dst ← (List.range (lim - off)).reverse.foldlM
    (shiftLeftWord src lim (bits % 32) off (shift % 32)) dst
  if off ≠ 0 then clearWords dst 0 off else .ok dst

/-! ## Two bitmaps -/

/-- `BITMAP_LAST_WORD_MASK`. -/
def bitmapLastWordMask (nbits : Nat) : BitVec 32 :=
  if nbits % 32 ≠ 0 then leftMask (nbits % 32) else BitVec.allOnes 32

def bitmapZero (dst : List (BitVec 32)) (nbits : Nat) : Except Stop (List (BitVec 32)) :=
  clearWords dst 0 (bitsToLongs nbits)

/-- The bytes `0xff` of the `memset` in words. -/
def bitmapFill (dst : List (BitVec 32)) (nbits : Nat) : Except Stop (List (BitVec 32)) := do
  let nlongs := bitsToLongs nbits
  let dst ← (List.range (nlongs - 1)).foldlM
    (fun dst k => storeWord dst k (BitVec.allOnes 32)) dst
  storeWord dst (nlongs - 1) (bitmapLastWordMask nbits)

/-- A round of `__bitmap_and` and `__bitmap_andnot`: the word `k` of the result, and
the words so far as `result`. -/
def combineWord (op : BitVec 32 → BitVec 32 → BitVec 32) (bitmap1 bitmap2 : List (BitVec 32))
    (s : List (BitVec 32) × BitVec 32) (k : Nat) : Except Stop (List (BitVec 32) × BitVec 32) := do
  let word1 ← loadWord bitmap1 k
  let word2 ← loadWord bitmap2 k
  let dst ← storeWord s.1 k (op word1 word2)
  return (dst, s.2 ||| op word1 word2)

def combineWords (op : BitVec 32 → BitVec 32 → BitVec 32)
    (dst bitmap1 bitmap2 : List (BitVec 32)) (bits : Nat) :
    Except Stop (List (BitVec 32) × Nat) := do
  let (dst, result) ← (List.range (bitsToLongs bits)).foldlM
    (combineWord op bitmap1 bitmap2) (dst, 0)
  return (dst, if result ≠ 0 then 1 else 0)

def bitmapAnd (dst bitmap1 bitmap2 : List (BitVec 32)) (bits : Nat) :
    Except Stop (List (BitVec 32) × Nat) :=
  combineWords (fun word1 word2 => word1 &&& word2) dst bitmap1 bitmap2 bits

def bitmapAndnot (dst bitmap1 bitmap2 : List (BitVec 32)) (bits : Nat) :
    Except Stop (List (BitVec 32) × Nat) :=
  combineWords (fun word1 word2 => word1 &&& ~~~word2) dst bitmap1 bitmap2 bits

/-- The loop of `__bitmap_intersects` and `__bitmap_subset`, from the word `k` on with
`n` to go: whether it returns early. -/
def anyWord (op : BitVec 32 → BitVec 32 → BitVec 32) (bitmap1 bitmap2 : List (BitVec 32)) :
    Nat → Nat → Except Stop Bool
  | _, 0 => .ok false
  | k, n + 1 => do
      let word1 ← loadWord bitmap1 k
      let word2 ← loadWord bitmap2 k
      if op word1 word2 ≠ 0 then return true
      else anyWord op bitmap1 bitmap2 (k + 1) n

def anyBit (op : BitVec 32 → BitVec 32 → BitVec 32) (bitmap1 bitmap2 : List (BitVec 32))
    (bits : Nat) : Except Stop Bool := do
  let lim := bits / 32
  if ← anyWord op bitmap1 bitmap2 0 lim then return true
  else if bits % 32 ≠ 0 then do
    let word1 ← loadWord bitmap1 lim
    let word2 ← loadWord bitmap2 lim
    return decide (op word1 word2 &&& bitmapLastWordMask bits ≠ 0)
  else return false

def bitmapIntersects (bitmap1 bitmap2 : List (BitVec 32)) (bits : Nat) : Except Stop Nat := do
  let any ← anyBit (fun word1 word2 => word1 &&& word2) bitmap1 bitmap2 bits
  return if any then 1 else 0

def bitmapSubset (bitmap1 bitmap2 : List (BitVec 32)) (bits : Nat) : Except Stop Nat := do
  let any ← anyBit (fun word1 word2 => word1 &&& ~~~word2) bitmap1 bitmap2 bits
  return if any then 0 else 1

end Aim.Kern
