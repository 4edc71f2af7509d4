import Aim.Kern.DevCore

/-!
# The names of devices, byte by byte

Elsewhere the name of a device is a string. Here it is the array `name` of
`struct device`, with `strlcpy` and `strcmp` as they go through it: an access behind
the end of the array stops with an error. The loop of `strlcpy` counts with an `int`,
which is enough for an array.

The index is the list of its devices, each with its address and the array.
-/

namespace Aim.Kern

open Aim.Lib

/-- The loop of `strlcpy` (`lib/libc/strlcpy.c`), with what is left of the source and of
the array behind `dst[i]`, and `n` rounds to go. -/
def strlcpyLoop : List UInt8 → Nat → Nat → List UInt8 → Except Stop (List UInt8 × Nat)
  | _, 0, i, dst => .ok (dst, i)
  | _, _ + 1, i, [] => .error (.oob i)
  | [], _ + 1, i, _ :: dst => .ok (0 :: dst, i)
  | c :: src, n + 1, i, _ :: dst => do
      let (dst, i) ← strlcpyLoop src n (i + 1) dst
      return (c :: dst, i)

/-- `strlcpy` to an array: the array after it, and what it returns. -/
def strlcpyTo (dst : List UInt8) (src : CString) (dsize : Nat) : Except Stop (List UInt8 × Nat) :=
  strlcpyLoop src.bytes dsize 0 dst

/-- The loop of `strcmp` (`lib/libc/strcmp.c`), with what is left of the array behind
`s1[i]` and of the string. -/
def strcmpFrom : List UInt8 → List UInt8 → Nat → Except Stop Int
  | [], _, i => .error (.oob i)
  | c₁ :: _, [], _ => .ok (c₁.toNat - 0)
  | c₁ :: s₁, c₂ :: s₂, i =>
      if c₁ = c₂ then if c₁ = 0 then .ok 0 else strcmpFrom s₁ s₂ (i + 1)
      else .ok (c₁.toNat - c₂.toNat)

/-- `strcmp` of the name in an array and a string. -/
def strcmpName (name : List UInt8) (s : CString) : Except Stop Int := strcmpFrom name s.bytes 0

/-- `DEVCLASS_NON` and the others. -/
def devClasses : List Int := [0, 1, 2, 3, 4]

/-- `struct driver`: its class, and what `initdev` copies of it. -/
structure DriverOps (δ : Type) where
  cls : Int
  ops : δ

/-- What `initdev` sets of a `struct device`. -/
structure RawDevice (δ : Type) where
  name : List UInt8
  cls : Int
  devno : Nat
  driver : δ

/-- `initdev` (`drivers/common/core.c`). -/
def initdev {δ : Type} (dev : RawDevice δ) (cls : Int) (name : CString) (devno : Nat)
    (drv : DriverOps δ) : Except Stop (RawDevice δ) := do
  let (array, _) ← strlcpyTo dev.name name devNameMax
  if cls ≠ drv.cls then
    .error (.panic "Assertion failed in initdev (%s:%d): dev->class == drv->class\n" [65])
  else if cls ∈ devClasses then .ok ⟨array, cls, devno, drv.ops⟩
  else .error (.panic "initdev: unknown device class %d\n" [cls])

/-- `__from_name` (`kern/dev/index/devlist.c`): the address of the device, or 0. -/
def fromNameBytes : List (Nat × List UInt8) → CString → Except Stop Nat
  | [], _ => .ok 0
  | (addr, array) :: devs, name => do
      let r ← strcmpName array name
      if r = 0 then return addr else fromNameBytes devs name

end Aim.Kern
