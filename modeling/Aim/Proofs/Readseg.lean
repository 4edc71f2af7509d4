import Aim.Kern.Boot

/-!
# `readseg` reads whole sectors

The pointer and the sector number are rounded down separately, by the same number
of bytes, so the requested byte of the disk comes to the requested address. The
loop goes up to the end of the requested bytes and reads whole sectors, so it writes
up to 511 bytes in front of them and behind them (`run_readseg`).

The loop compares pointers. It ends only if the pointer behind the last sector is
an address: where it goes round to 0, it is below the end again, and the loop goes
round with it (`run_readseg_round`).
-/

namespace Aim.Kern

open Aim.Lib

/-- The sectors that have `count` bytes from `offset` on. -/
def sectorsFor (count offset : Nat) : Nat := (count + offset % sectSize + (sectSize - 1)) / sectSize

theorem sectorsFor_spec (count offset : Nat) :
    count + offset % sectSize ≤ sectSize * sectorsFor count offset ∧
      sectSize * sectorsFor count offset < count + offset % sectSize + sectSize := by
  rw [sectorsFor, sectSize]
  omega

section Loop

variable {disk : Nat → UInt8} {m : Mem}

theorem run_readsect {dst : Nat} (h : dst + sectSize ≤ 2 ^ 32) (offset : Nat) :
    (readsect disk dst offset).run m =
      .ok () (m.put dst sectSize fun i => disk (sectSize * offset + i)) := by
  rw [← Mem.write_eq_put h]
  rfl

/-- The loop with `k` sectors to go, of which the last one is needed. -/
theorem run_readsegLoop {epa k fuel pa sector : Nat} (hepa : epa ≤ pa + sectSize * k)
    (hlast : pa + sectSize * k < epa + sectSize) (hpa : pa + sectSize * k < 2 ^ 32)
    (hsector : sector + k < 2 ^ 32) (hfuel : k < fuel) :
    (readsegLoop disk epa fuel pa sector).run m =
      .ok () (m.put pa (sectSize * k) fun i => disk (sectSize * sector + i)) := by
  obtain ⟨fuel, rfl⟩ : ∃ f, fuel = f + 1 := ⟨fuel - 1, by omega⟩
  induction k generalizing fuel pa sector m with
  | zero =>
      rw [readsegLoop, if_neg (by omega), Nat.mul_zero, Mem.put_zero]
      rfl
  | succ k ih =>
      rw [Nat.mul_succ] at hepa hlast hpa ⊢
      have hsect : 0 < sectSize := by decide
      obtain ⟨fuel, rfl⟩ : ∃ f, fuel = f + 1 := ⟨fuel - 1, by omega⟩
      have hrest : ∀ m : Mem, (readsegLoop disk epa (fuel + 1) (pa + sectSize) (sector + 1)).run m =
          .ok () (m.put (pa + sectSize) (sectSize * k) fun i =>
            disk (sectSize * (sector + 1) + i)) :=
        fun m => ih (by omega) (by omega) (by omega) (by omega) fuel (by omega)
      have hparts := Mem.put_put m pa sectSize (sectSize * k) fun i => disk (sectSize * sector + i)
      rw [readsegLoop, if_pos (by omega), run_bind_ok (run_readsect (by omega) sector),
        Nat.mod_eq_of_lt (show pa + sectSize < 2 ^ 32 by omega),
        Nat.mod_eq_of_lt (show sector + 1 < 2 ^ 32 by omega), hrest, Nat.add_comm (sectSize * k),
        ← hparts]
      simp only [Nat.mul_succ, Nat.add_assoc]

/-- The whole call, with what it writes. -/
theorem run_readseg {pa count offset : Nat} (hoffset : offset < 2 ^ 32)
    (hpa : offset % sectSize ≤ pa)
    (hwrap : pa - offset % sectSize + sectSize * sectorsFor count offset < 2 ^ 32) :
    (readseg disk pa count offset).run m =
      .ok () (m.put (pa - offset % sectSize) (sectSize * sectorsFor count offset) fun i =>
        disk (offset - offset % sectSize + i)) := by
  obtain ⟨hend, hneed⟩ := sectorsFor_spec count offset
  have hstart : (pa + 2 ^ 32 - offset % sectSize) % 2 ^ 32 = pa - offset % sectSize := by omega
  have hepa : (pa + count) % 2 ^ 32 = pa + count := Nat.mod_eq_of_lt (by omega)
  have hsector : sectSize * (offset / sectSize) = offset - offset % sectSize := by
    rw [sectSize]
    omega
  have hfew : sectorsFor count offset < 2 ^ 23 := by
    rw [show sectSize = 512 from rfl] at hwrap
    omega
  have hnumber : offset / sectSize < 2 ^ 23 := by
    rw [sectSize]
    omega
  rw [readseg, hstart, hepa, run_readsegLoop (by omega) (by omega) hwrap (by omega)
    (by rw [readFuel]; omega), hsector]

/-- A pointer that goes round stays below an end that is in the last sector of the
address space, and so do all that follow it. -/
theorem run_readsegLoop_round {epa pa : Nat} (hpa : pa < 2 ^ 32)
    (hepa : 2 ^ 32 - sectSize + pa % sectSize < epa) (fuel sector : Nat) :
    ∃ m', (readsegLoop disk epa fuel pa sector).run m = .error .fuel m' := by
  rw [sectSize] at hepa
  induction fuel generalizing pa sector m with
  | zero => exact ⟨m, rfl⟩
  | succ fuel ih =>
      have hround : (readsect disk pa sector).run m =
          .ok () (m.write pa sectSize fun i => disk (sectSize * sector + i)) := rfl
      rw [readsegLoop, if_pos (by omega), run_bind_ok hround]
      exact ih (by rw [sectSize]; omega) (by rw [sectSize]; omega) _

/-- Where the pointer behind the last sector is no address, the call does not return,
with any fuel. -/
theorem run_readseg_round {pa count offset : Nat} (hpa : offset % sectSize ≤ pa)
    (hcount : pa + count < 2 ^ 32)
    (hwrap : 2 ^ 32 ≤ pa - offset % sectSize + sectSize * sectorsFor count offset) (fuel : Nat) :
    ∃ m', (readsegLoop disk ((pa + count) % 2 ^ 32) fuel
      ((pa + 2 ^ 32 - offset % sectSize) % 2 ^ 32) (offset / sectSize)).run m =
        .error .fuel m' := by
  have hneed := (sectorsFor_spec count offset).2
  rw [Nat.mod_eq_of_lt hcount,
    show (pa + 2 ^ 32 - offset % sectSize) % 2 ^ 32 = pa - offset % sectSize by omega]
  refine run_readsegLoop_round (by omega) ?_ fuel _
  rw [show sectSize = 512 from rfl] at *
  omega

/-- One byte of the last sector of the address space. -/
theorem run_readseg_round_last : 0xfffffe00 + 1 < 2 ^ 32 ∧ ∀ fuel, ∃ m', (readsegLoop (fun _ => 0)
    ((0xfffffe00 + 1) % 2 ^ 32) fuel ((0xfffffe00 + 2 ^ 32 - 0 % sectSize) % 2 ^ 32)
    (0 / sectSize)).run (fun _ => 0) = .error .fuel m' :=
  ⟨by decide, run_readseg_round (by decide) (by decide) (by decide)⟩

end Loop

/-- `readseg` brings the requested bytes, and writes no others than those of their
sectors, as long as the pointer behind the last one is an address. -/
theorem readseg_exact (disk : Nat → UInt8) (m : Mem) {pa count offset : Nat}
    (hoffset : offset < 2 ^ 32) (hpa : offset % 512 ≤ pa)
    (hwrap : pa - offset % 512 + 512 * ((count + offset % 512 + 511) / 512) < 2 ^ 32) :
    ∃ m', (readseg disk pa count offset).run m = .ok () m' ∧
      (∀ i < count, m' (pa + i) = disk (offset + i)) ∧
      ∀ x, x < pa - offset % 512 ∨
          pa - offset % 512 + 512 * ((count + offset % 512 + 511) / 512) ≤ x → m' x = m x := by
  have hend := (sectorsFor_spec count offset).1
  refine ⟨_, run_readseg hoffset hpa hwrap, fun i hi => ?_, fun x hx => Mem.put_of_outside hx⟩
  rw [Mem.put_of_mem (by omega) (by omega), show sectSize = 512 from rfl]
  congr 1
  omega

/-- 700 bytes that start in the middle of the third sector and end in the fifth. -/
theorem readseg_exact_three : (0x500 < 2 ^ 32 ∧ 0x500 % 512 ≤ 0x100100 ∧
      0x100100 - 0x500 % 512 + 512 * ((700 + 0x500 % 512 + 511) / 512) < 2 ^ 32) ∧
    ∃ m', (readseg UInt8.ofNat 0x100100 700 0x500).run (fun _ => 0) = .ok () m' ∧
      (∀ i < 700, m' (0x100100 + i) = UInt8.ofNat (0x500 + i)) ∧
      ∀ x, x < 0x100100 - 0x500 % 512 ∨
        0x100100 - 0x500 % 512 + 512 * ((700 + 0x500 % 512 + 511) / 512) ≤ x → m' x = 0 :=
  ⟨by decide, readseg_exact UInt8.ofNat (fun _ => 0) (by decide) (by decide) (by decide)⟩

end Aim.Kern
