import Aim.Kern.Bitops
import Aim.Proofs.BitLast

/-!
# The first and the last bit of 64

A search in a word of 64 bits is one in each half, and the half to look at first is
the lower one for a first bit and the upper one for a last bit (`NextFrom.join`,
`LastBelow.join`). All four functions look at the lower half first, and three of
them ask whether it is 0, whichever bit they look for. So each is right in some of
the cases only (`bits64_iff`).
-/

namespace Aim.Kern

open Aim.Lib

/-! ## Halves -/

section Halves

variable {x : BitVec 64} {j : Nat}

theorem getLsbD_lowHalf (hj : j < 32) : (lowHalf x).getLsbD j = x.getLsbD j := by
  rw [lowHalf, BitVec.getLsbD_setWidth, decide_eq_true hj, Bool.true_and]

theorem getLsbD_highHalf (hj : j < 32) : (highHalf x).getLsbD j = x.getLsbD (32 + j) := by
  rw [highHalf, BitVec.getLsbD_setWidth, BitVec.getLsbD_ushiftRight, decide_eq_true hj,
    Bool.true_and]

theorem eq_zero_iff_halves : x = 0 ↔ lowHalf x = 0 ∧ highHalf x = 0 := by
  constructor
  · rintro rfl
    exact ⟨rfl, rfl⟩
  · rintro ⟨hlow, hhigh⟩
    refine BitVec.eq_of_getLsbD_eq fun i hi => ?_
    rcases Nat.lt_or_ge i 32 with hi' | hi'
    · rw [← getLsbD_lowHalf hi', hlow]
      simp
    · rw [show i = 32 + (i - 32) by omega, ← getLsbD_highHalf (by omega), hhigh]
      simp

variable {v : Bool} {l h r : Nat}

/-- The first bit with the value `v` is that of the lower half, or else that of the
upper half. -/
theorem nextFrom_halves (hl : NextFrom (fun i => (lowHalf x).getLsbD i = v) 0 32 l)
    (hh : NextFrom (fun i => (highHalf x).getLsbD i = v) 0 32 h) :
    NextFrom (fun i => x.getLsbD i = v) 0 64 r ↔
      r = if l = 0 then if h = 0 then 0 else h + 32 else l := by
  have hlow : NextFrom (fun i => x.getLsbD i = v) 0 32 l :=
    hl.congr fun i hi => by rw [getLsbD_lowHalf hi]
  have hhigh : NextFrom (fun i => x.getLsbD (32 + i) = v) 0 32 h :=
    hh.congr fun i hi => by rw [getLsbD_highHalf hi]
  exact (hlow.join hhigh).iff_eq

/-- The last bit with the value `v` is that of the upper half, or else that of the
lower half. -/
theorem lastBelow_halves (hl : LastBelow (fun i => (lowHalf x).getLsbD i = v) 32 l)
    (hh : LastBelow (fun i => (highHalf x).getLsbD i = v) 32 h) :
    LastBelow (fun i => x.getLsbD i = v) 64 r ↔ r = if h = 0 then l else h + 32 := by
  have hlow : LastBelow (fun i => x.getLsbD i = v) 32 l :=
    hl.narrow le_rfl fun i hi => by simp only [getLsbD_lowHalf hi, hi, true_and]
  have hhigh : LastBelow (fun i => x.getLsbD (32 + i) = v) 32 h :=
    hh.narrow le_rfl fun i hi => by simp only [getLsbD_highHalf hi, hi, true_and]
  exact (hlow.join hhigh).iff_eq

end Halves

/-! ## Words of 32 bits -/

theorem genericFfs_nextFrom (word : BitVec 32) :
    NextFrom (fun i => word.getLsbD i = true) 0 32 (genericFfs word) := by
  have hbits : ∀ j < 32, (word.getLsbD j = true ↔
      0 ≤ j ∧ j < 32 ∧ word.getLsbD (0 + j) = true) := by
    intro j hj
    simp [hj]
  have h := setBits_finds.nextFrom_word (p := fun i => word.getLsbD i = true) hbits le_rfl
  rw [Nat.zero_add, Nat.zero_add, Nat.zero_add] at h
  by_cases hzero : word = 0
  · rw [hzero] at h ⊢
    exact h
  · rwa [if_pos (by simpa [setBits] using hzero)] at h

theorem ffz_nextFrom (word : BitVec 32) :
    NextFrom (fun i => word.getLsbD i = false) 0 32 (ffz word) :=
  (genericFfs_nextFrom (~~~word)).congr fun _ hi => getLsbD_not_eq_true hi

theorem flz_lastBelow (word : BitVec 32) :
    LastBelow (fun i => word.getLsbD i = false) 32 (flz word) :=
  (genericFls_lastBelow (~~~word)).narrow le_rfl fun i hi => by
    rw [getLsbD_not_eq_true hi]
    simp [hi]

theorem genericFfs_eq_zero_iff (word : BitVec 32) : genericFfs word = 0 ↔ word = 0 := by
  constructor
  · intro h
    by_contra hne
    obtain ⟨j, hj, hbit⟩ := ne_zero_iff.mp hne
    rcases genericFfs_nextFrom word with ⟨-, hnone⟩ | ⟨i, hi, -⟩
    · exact hnone j j.zero_le hj hbit
    · omega
  · rintro rfl
    rfl

theorem ffz_eq_zero_iff (word : BitVec 32) : ffz word = 0 ↔ word = BitVec.allOnes 32 := by
  rw [ffz, genericFfs_eq_zero_iff, not_eq_zero_iff]

theorem flz_eq_zero_iff (word : BitVec 32) : flz word = 0 ↔ word = BitVec.allOnes 32 := by
  rw [flz, genericFls_eq_zero_iff, not_eq_zero_iff]

/-! ## Words of 64 bits -/

section Words

variable (x : BitVec 64)

theorem genericFfs64_iff :
    NextFrom (fun i => x.getLsbD i = true) 0 64 (genericFfs64 x) ↔ x ≠ 0 := by
  rw [nextFrom_halves (genericFfs_nextFrom _) (genericFfs_nextFrom _), genericFfs64, Ne,
    eq_zero_iff_halves]
  simp only [← genericFfs_eq_zero_iff]
  grind

/-- Of a word with bits in both halves the lower half is looked at. -/
theorem genericFls64_iff : LastBelow (fun i => x.getLsbD i = true) 64 (genericFls64 x) ↔
    x ≠ 0 ∧ (lowHalf x = 0 ∨ highHalf x = 0) := by
  have hle := (genericFls_lastBelow (lowHalf x)).le
  rw [lastBelow_halves (genericFls_lastBelow _) (genericFls_lastBelow _), genericFls64, Ne,
    eq_zero_iff_halves]
  simp only [← genericFls_eq_zero_iff]
  grind

/-- The upper half is never looked at. -/
theorem genericFfz64_iff : NextFrom (fun i => x.getLsbD i = false) 0 64 (genericFfz64 x) ↔
    lowHalf x ≠ BitVec.allOnes 32 ∨ highHalf x = BitVec.allOnes 32 := by
  rw [nextFrom_halves (ffz_nextFrom _) (ffz_nextFrom _), genericFfz64, Ne, ← ffz_eq_zero_iff,
    ← ffz_eq_zero_iff]
  grind

/-- The upper half is looked at where the lower one is 0, and then its bits may all be
set: bit 31 is the last zero bit then. -/
theorem genericFlz64_iff : LastBelow (fun i => x.getLsbD i = false) 64 (genericFlz64 x) ↔
    lowHalf x = 0 ∨ highHalf x = BitVec.allOnes 32 := by
  have hle := (flz_lastBelow (lowHalf x)).le
  rw [lastBelow_halves (flz_lastBelow _) (flz_lastBelow _), genericFlz64, ← flz_eq_zero_iff]
  by_cases hlow : lowHalf x = 0
  · have hlast : flz (lowHalf x) = 32 := by
      rw [hlow]
      decide
    rw [if_pos hlow]
    grind
  · rw [if_neg hlow]
    grind

/-- When each of the four is the number of the bit, counted from 1, and 0 if there is
no such bit. -/
theorem bits64_iff :
    (NextFrom (fun i => x.getLsbD i = true) 0 64 (genericFfs64 x) ↔ x ≠ 0) ∧
    (LastBelow (fun i => x.getLsbD i = true) 64 (genericFls64 x) ↔
      x ≠ 0 ∧ (lowHalf x = 0 ∨ highHalf x = 0)) ∧
    (NextFrom (fun i => x.getLsbD i = false) 0 64 (genericFfz64 x) ↔
      lowHalf x ≠ BitVec.allOnes 32 ∨ highHalf x = BitVec.allOnes 32) ∧
    (LastBelow (fun i => x.getLsbD i = false) 64 (genericFlz64 x) ↔
      lowHalf x = 0 ∨ highHalf x = BitVec.allOnes 32) :=
  ⟨genericFfs64_iff x, genericFls64_iff x, genericFfz64_iff x, genericFlz64_iff x⟩

end Words

/-- One word for each of the four: no bit, a bit in each half, all bits of the lower
half, and one bit of the lower half. -/
theorem bits64_wrong :
    genericFfs64 0 = 32 ∧
    (genericFls64 0x100000001 = 1 ∧ (0x100000001 : BitVec 64).getLsbD 32 = true) ∧
    (genericFfz64 0xffffffff = 0 ∧ (0xffffffff : BitVec 64).getLsbD 32 = false) ∧
    (genericFlz64 1 = 32 ∧ (1 : BitVec 64).getLsbD 63 = false) := by
  decide

end Aim.Kern
