import Aim.Kern.Bitmap

/-!
# `include/bitops.h`: words of 64 bits

With a `long` of 32 bits, each of these looks at one half of the word. Which one it
is depends on the lower half, under the condition `BITS_PER_LONG == 32`. Only in
`__generic_ffz64` the condition is `bits_per_long == 32`, with a name that is not
defined, and the lines under it are not compiled.
-/

namespace Aim.Kern

/-- `(uint32_t)word`, which `(unsigned long)word` is too. -/
def lowHalf (word : BitVec 64) : BitVec 32 := word.setWidth 32

/-- `(uint32_t)(word >> 32)`. -/
def highHalf (word : BitVec 64) : BitVec 32 := (word >>> 32).setWidth 32

/-- `__generic_ffs64`, and the like. -/
def genericFfs64 (word : BitVec 64) : Nat :=
  if lowHalf word = 0 then genericFfs (highHalf word) + 32 else genericFfs (lowHalf word)

def genericFls64 (word : BitVec 64) : Nat :=
  if lowHalf word = 0 then genericFls (highHalf word) + 32 else genericFls (lowHalf word)

def genericFfz64 (word : BitVec 64) : Nat := ffz (lowHalf word)

def genericFlz64 (word : BitVec 64) : Nat :=
  if lowHalf word = 0 then flz (highHalf word) + 32 else flz (lowHalf word)

end Aim.Kern
