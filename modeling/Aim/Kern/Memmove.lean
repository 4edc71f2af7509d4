import Aim.Lib.Mem

/-!
# `lib/libc/memmove.c`

Pointers are compared and moved as addresses, modulo `2 ^ 32`.
-/

namespace Aim.Kern

open Aim.Lib

/-- The loop from the end, with the pointers behind the bytes that are left. -/
def memmoveDown : Nat → Nat → Nat → Mem → Mem
  | 0, _, _, m => m
  | n + 1, d, s, m =>
      let d := (d + 2 ^ 32 - 1) % 2 ^ 32
      let s := (s + 2 ^ 32 - 1) % 2 ^ 32
      memmoveDown n d s (m.store8 d (m s))

/-- The loop from the start. -/
def memmoveUp : Nat → Nat → Nat → Mem → Mem
  | 0, _, _, m => m
  | n + 1, d, s, m => memmoveUp n ((d + 1) % 2 ^ 32) ((s + 1) % 2 ^ 32) (m.store8 d (m s))

/-- `memmove`, and the memory after it. -/
def memmove (dst src n : Nat) (m : Mem) : Nat × Mem :=
  if src < dst ∧ dst < (src + n) % 2 ^ 32 then
    (dst, memmoveDown n ((dst + n) % 2 ^ 32) ((src + n) % 2 ^ 32) m)
  else (dst, memmoveUp n dst src m)

end Aim.Kern
