import Aim.Kern.Memmove

/-!
# `memmove` copies all bytes at once

Each loop stores a byte and leaves the rest to the next round, which reads from the
memory the store has changed. It reads the same there as in the memory before,
because the byte that was stored is not one of those still to be read: going up,
they are all behind it, unless the two blocks are apart; going down, they are all
in front of it.
-/

namespace Aim.Kern

open Aim.Lib

theorem memmoveUp_eq {n d s : Nat} {m : Mem} (hd : d + n < 2 ^ 32) (hs : s + n < 2 ^ 32)
    (h : d ≤ s ∨ s + n ≤ d) : memmoveUp n d s m = m.put d n fun i => m (s + i) := by
  induction n generalizing d s m with
  | zero => exact Mem.put_zero.symm
  | succ n ih =>
      have hread : ∀ i < n, m.store8 d (m s) (s + 1 + i) = m (s + (i + 1)) := by
        intro i hi
        rw [Mem.store8_ne (by omega), Nat.add_right_comm, Nat.add_assoc]
      rw [memmoveUp, Nat.mod_eq_of_lt (show d + 1 < 2 ^ 32 by omega),
        Nat.mod_eq_of_lt (show s + 1 < 2 ^ 32 by omega), ih (by omega) (by omega) (by omega),
        Mem.put_congr hread]
      exact Mem.put_store8_first (f := fun i => m (s + i)) (by omega)

theorem memmoveDown_eq {n d s : Nat} {m : Mem} (hd : d + n < 2 ^ 32) (hs : s + n < 2 ^ 32)
    (h : s ≤ d) : memmoveDown n (d + n) (s + n) m = m.put d n fun i => m (s + i) := by
  induction n generalizing m with
  | zero => exact Mem.put_zero.symm
  | succ n ih =>
      have hread : ∀ i < n, m.store8 (d + n) (m (s + n)) (s + i) = m (s + i) :=
        fun i hi => Mem.store8_ne (by omega)
      rw [memmoveDown, show (d + (n + 1) + 2 ^ 32 - 1) % 2 ^ 32 = d + n by omega,
        show (s + (n + 1) + 2 ^ 32 - 1) % 2 ^ 32 = s + n by omega, ih (by omega) (by omega),
        Mem.put_congr hread]
      exact Mem.put_store8_last (f := fun i => m (s + i)) (by omega)

/-- The test picks the loop that is safe for the two blocks. -/
theorem memmove_eq {dst src n : Nat} {m : Mem} (hdst : dst + n < 2 ^ 32)
    (hsrc : src + n < 2 ^ 32) : memmove dst src n m = (dst, m.put dst n fun i => m (src + i)) := by
  rw [memmove, Nat.mod_eq_of_lt hsrc, Nat.mod_eq_of_lt hdst]
  by_cases hdown : src < dst ∧ dst < src + n
  · rw [if_pos hdown, memmoveDown_eq hdst hsrc hdown.1.le]
  · rw [if_neg hdown, memmoveUp_eq hdst hsrc (by omega)]

theorem memmove_copies {dst src n : Nat} (m : Mem) (hdst : dst + n ≤ 2 ^ 32 - 1)
    (hsrc : src + n ≤ 2 ^ 32 - 1) :
    (memmove dst src n m).1 = dst ∧
      (∀ i < n, (memmove dst src n m).2 (dst + i) = m (src + i)) ∧
      ∀ x, x < dst ∨ dst + n ≤ x → (memmove dst src n m).2 x = m x := by
  rw [memmove_eq (by omega) (by omega)]
  refine ⟨rfl, fun i hi => ?_, fun x hx => ?_⟩
  · exact Mem.put_at (f := fun i => m (src + i)) hi
  · exact Mem.put_of_outside (f := fun i => m (src + i)) hx

/-- Four bytes are moved by two, up and down. -/
theorem memmove_copies_overlap : (0x102 + 4 ≤ 2 ^ 32 - 1 ∧ 0x100 + 4 ≤ 2 ^ 32 - 1) ∧
    (∀ i < 4, (memmove 0x102 0x100 4 UInt8.ofNat).2 (0x102 + i) = UInt8.ofNat (0x100 + i)) ∧
    ∀ i < 4, (memmove 0x100 0x102 4 UInt8.ofNat).2 (0x100 + i) = UInt8.ofNat (0x102 + i) :=
  ⟨by decide, (memmove_copies UInt8.ofNat (by decide) (by decide)).2.1,
    (memmove_copies UInt8.ofNat (by decide) (by decide)).2.1⟩

end Aim.Kern
