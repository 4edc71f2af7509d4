import Aim.Kern.Buddy
import Mathlib.Data.Nat.Log

/-!
# `next_pow_of_2` rounds up

The five shifts of `next_pow_of_2` copy the highest set bit downwards. After
the shift by `k` the top `2 * k` bits of the number are set, so after the
fifth all of them are, and adding one carries into the bit above
(`smear_step`). What the rest of the development uses is `blockSize_eq`: the
size `buddy_alloc` looks for is the least power of two that holds the
request. It stops there at requests of `2 ^ 30` pages, since above that the
result no longer fits the `int` it is cast to.
-/

namespace Aim.Kern

/-- No bit from `m` on is set, and the `k` bits below `m` are. -/
def TopBits (m k : Nat) (x : BitVec 32) : Prop :=
  (∀ i, m ≤ i → x.getLsbD i = false) ∧
  ∀ i, i < m → m ≤ i + k → x.getLsbD i = true

variable {x : BitVec 32}

theorem smear_step {m k : Nat} (h : TopBits m k x) : TopBits m (2 * k) (x ||| x >>> k) := by
  obtain ⟨habove, htop⟩ := h
  constructor
  · intro i hi
    simp [habove i hi, habove (k + i) (by omega)]
  · intro i hi hk
    rw [BitVec.getLsbD_or, BitVec.getLsbD_ushiftRight]
    rcases Nat.lt_or_ge (k + i) m with hlt | hge
    · rw [htop (k + i) hlt (by omega), Bool.or_true]
    · rw [htop i hi (by omega), Bool.true_or]

/-- The highest set bit is bit `log2`. -/
theorem topBits_log2 (hx : x ≠ 0) : TopBits (x.toNat.log2 + 1) 1 x := by
  have hne : x.toNat ≠ 0 := by
    intro h0
    exact hx (BitVec.eq_of_toNat_eq h0)
  constructor
  · intro i hi
    exact Nat.testBit_lt_two_pow ((Nat.log2_lt hne).mp (by omega))
  · intro i hi hk
    obtain rfl : i = x.toNat.log2 := by omega
    exact Nat.testBit_log2 hne

/-- With all of its bits below `m` set a word is `2 ^ m - 1`. -/
theorem TopBits.toNat_eq {m : Nat} (h : TopBits m 32 x) (hm : m ≤ 32) : x.toNat = 2 ^ m - 1 := by
  refine Nat.eq_of_testBit_eq fun i => ?_
  rw [Nat.testBit_two_pow_sub_one]
  rcases Nat.lt_or_ge i m with hi | hi
  · rw [decide_eq_true hi]
    exact h.2 i hi (by omega)
  · rw [decide_eq_false (Nat.not_lt.mpr hi)]
    exact h.1 i hi

theorem TopBits.toNat_add_one {m : Nat} (h : TopBits m 32 x) (hm : m < 32) :
    (x + 1).toNat = 2 ^ m := by
  have hpos : 0 < 2 ^ m := Nat.pow_pos (by omega)
  have hlt : 2 ^ m < 2 ^ 32 := Nat.pow_lt_pow_right (by omega) hm
  rw [BitVec.toNat_add, h.toNat_eq (by omega), show (1 : BitVec 32).toNat = 1 from rfl]
  omega

theorem isPowOf2_iff (hx : x ≠ 0) : isPowOf2 x = true ↔ ∃ k, x.toNat = 2 ^ k := by
  have hpos : 0 < x.toNat := by
    rw [Nat.pos_iff_ne_zero]
    intro h0
    exact hx (BitVec.eq_of_toNat_eq h0)
  have hsub : (x - 1).toNat = x.toNat - 1 := by
    have := x.isLt
    rw [BitVec.toNat_sub, show (1 : BitVec 32).toNat = 1 from rfl]
    omega
  rw [isPowOf2, beq_iff_eq, ← BitVec.toNat_inj, BitVec.toNat_and, hsub]
  exact Nat.and_sub_one_eq_zero_iff_isPowerOfTwo (by omega)

/-- The least power of two not below `x`. -/
theorem nextPowOf2_toNat (h0 : x ≠ 0) (hx : x.toNat ≤ 2 ^ 31) :
    (nextPowOf2 x).toNat = 2 ^ Nat.clog 2 x.toNat := by
  have hne : x.toNat ≠ 0 := by
    intro h
    exact h0 (BitVec.eq_of_toNat_eq h)
  unfold nextPowOf2
  split
  · next hp =>
      obtain ⟨k, hk⟩ := (isPowOf2_iff h0).mp hp
      rw [hk, Nat.clog_pow 2 k (by omega)]
  · next hp =>
      -- Not a power of two, so strictly below the next one.
      have hlow : 2 ^ x.toNat.log2 ≤ x.toNat := Nat.log2_self_le hne
      have hhigh : x.toNat < 2 ^ (x.toNat.log2 + 1) := Nat.lt_log2_self
      have hstrict : 2 ^ x.toNat.log2 ≠ x.toNat := by
        intro he
        exact hp ((isPowOf2_iff h0).mpr ⟨_, he.symm⟩)
      have hm : x.toNat.log2 + 1 < 32 := by
        have : x.toNat.log2 < 31 := by
          refine (Nat.pow_lt_pow_iff_right (a := 2) (by omega)).mp ?_
          omega
        omega
      have hsmear := smear_step (smear_step (smear_step (smear_step
        (smear_step (topBits_log2 h0)))))
      have hclog : Nat.clog 2 x.toNat = x.toNat.log2 + 1 := by
        refine Nat.le_antisymm ?_ ?_
        · exact (Nat.clog_le_iff_le_pow (by omega)).mpr (by omega)
        · exact (Nat.lt_clog_iff_pow_lt (by omega)).mpr (by omega)
      rw [hclog]
      exact hsmear.toNat_add_one hm

/-- The size `buddy_alloc` looks for when asked for `s` pages. -/
theorem blockSize_eq {s : Int} (h0 : 0 ≤ s) (hs : s ≤ 2 ^ 30) :
    blockSize s = 2 ^ Nat.clog 2 s.toNat := by
  unfold blockSize
  split
  · next hz => subst hz; rfl
  · next hz =>
      have hx : (BitVec.ofInt 32 s).toNat = s.toNat := by
        rw [BitVec.toNat_ofInt]
        omega
      have hne : BitVec.ofInt 32 s ≠ 0 := by
        intro h
        rw [h] at hx
        simp only [BitVec.ofNat_eq_ofNat, BitVec.toNat_ofNat] at hx
        omega
      have hn := nextPowOf2_toNat hne (by omega)
      rw [hx] at hn
      have hle : 2 ^ Nat.clog 2 s.toNat ≤ 2 ^ 30 :=
        Nat.pow_le_pow_right (by omega)
          ((Nat.clog_le_iff_le_pow (by omega)).mpr (by omega))
      rw [BitVec.toInt_eq_toNat_of_lt (by omega), hn]
      push_cast
      rfl

/-- Above `2 ^ 31` there is no power of two left in a word: the carry of the
last addition is lost. -/
theorem nextPowOf2_wrap (hx : 2 ^ 31 < x.toNat) : (nextPowOf2 x).toNat = 0 := by
  have h0 : x ≠ 0 := by
    intro h
    rw [h] at hx
    exact absurd hx (by decide)
  have hlow : 2 ^ x.toNat.log2 ≤ x.toNat := Nat.log2_self_le (by omega)
  have hlog : x.toNat.log2 = 31 := by
    have hlt : x.toNat.log2 < 32 := (Nat.log2_lt (by omega)).mpr x.isLt
    have hge : ¬ x.toNat.log2 < 31 := by
      rw [Nat.log2_lt (by omega)]
      omega
    omega
  have hp : ¬ isPowOf2 x = true := by
    rw [isPowOf2_iff h0]
    intro hk
    obtain ⟨k, hk⟩ := hk
    have hk31 : 31 < k := (Nat.pow_lt_pow_iff_right (a := 2) (by omega)).mp (hk ▸ hx)
    have hk32 : k < 32 := (Nat.pow_lt_pow_iff_right (a := 2) (by omega)).mp (hk ▸ x.isLt)
    omega
  rw [nextPowOf2, if_neg hp]
  have hsmear := smear_step (smear_step (smear_step (smear_step
    (smear_step (topBits_log2 h0)))))
  rw [hlog] at hsmear
  show (_ + 1 : BitVec 32).toNat = 0
  rw [BitVec.toNat_add, hsmear.toNat_eq (by omega)]
  rfl

/-- A request that no power of two in an `int` can hold is taken for one of
no or of a negative number of pages. -/
theorem blockSize_nonpos {s : Int} (hlo : -2 ^ 31 ≤ s) (hhi : s < 2 ^ 31)
    (hs : s < 0 ∨ 2 ^ 30 < s) : blockSize s ≤ 0 := by
  have hx : (BitVec.ofInt 32 s).toNat = (s % 2 ^ 32).toNat := BitVec.toNat_ofInt s
  rw [blockSize, if_neg (by omega)]
  by_cases hle : (BitVec.ofInt 32 s).toNat ≤ 2 ^ 31
  · have h0 : BitVec.ofInt 32 s ≠ 0 := by
      intro h
      rw [h] at hx
      simp only [BitVec.ofNat_eq_ofNat, BitVec.toNat_ofNat] at hx
      omega
    have hclog : Nat.clog 2 (BitVec.ofInt 32 s).toNat = 31 := by
      refine Nat.le_antisymm ?_ ?_
      · exact (Nat.clog_le_iff_le_pow (by omega)).mpr hle
      · exact (Nat.lt_clog_iff_pow_lt (by omega)).mpr (by omega)
    have hn := nextPowOf2_toNat h0 hle
    rw [hclog] at hn
    rw [BitVec.toInt_eq_toNat_cond, hn]
    decide
  · rw [BitVec.toInt_eq_toNat_cond, nextPowOf2_wrap (by omega)]
    decide

end Aim.Kern
