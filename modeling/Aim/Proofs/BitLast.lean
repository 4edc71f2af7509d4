import Aim.Proofs.BitSearch

/-!
# The last bit of a bitmap

`__generic_fls` halves the part of the word in which the last set bit is, five times
(`FlsIn`), as `__generic_ffs` does from the other end. `bitmap_find_last_bit` looks
at the words from the last one down, and its answer is the last set bit if there is
one. If there is none, it answers the size, which is also what it answers where the
last bit of all is set (`findLastBit_iff`).
-/

namespace Aim.Kern

open Aim.Lib

/-! ## `fls` -/

/-- Bit `j` of a word is its last one. -/
def LastBit (word : BitVec 32) (j : Nat) : Prop :=
  word.getLsbD j = true ∧ ∀ i, j < i → word.getLsbD i = false

/-- The last bit is among the `span` highest ones of what is left of the word, and
they end at the number beside it. -/
def FlsIn (target : Nat) (s : Nat × BitVec 32) (span : Nat) : Prop :=
  ∃ j < span, s.1 = target + j ∧ LastBit s.2 (31 - j)

theorem and_top_eq_zero {word : BitVec 32} {k : Nat} :
    word &&& (BitVec.allOnes 32 <<< (32 - k)) = 0 ↔
      ∀ i, 32 - k ≤ i → word.getLsbD i = false := by
  constructor
  · intro h i hi
    rcases Nat.lt_or_ge i 32 with hi' | hi'
    · have hbit := congrArg (fun x => x.getLsbD i) h
      rw [BitVec.getLsbD_and, getLsbD_from _ hi', decide_eq_true hi, Bool.and_true] at hbit
      exact hbit.trans BitVec.getLsbD_zero
    · exact BitVec.getLsbD_of_ge word i hi'
  · intro h
    refine BitVec.eq_of_getLsbD_eq fun i hi => ?_
    rw [BitVec.getLsbD_and, getLsbD_from _ hi]
    by_cases hik : 32 - k ≤ i
    · simp [h i hik]
    · simp [hik]

/-- One of the steps. -/
theorem FlsIn.step {target num k : Nat} {word : BitVec 32} (hk : k ≤ 16)
    (h : FlsIn target (num, word) (2 * k)) :
    FlsIn target
      (if word &&& (BitVec.allOnes 32 <<< (32 - k)) = 0 then (num - k, word <<< k)
        else (num, word)) k := by
  obtain ⟨j, hj, hnum, hbit, habove⟩ := h
  by_cases hzero : word &&& (BitVec.allOnes 32 <<< (32 - k)) = 0
  · have hempty := and_top_eq_zero.mp hzero
    have hge : k ≤ j := by
      by_contra hlt
      rw [hempty (31 - j) (by omega)] at hbit
      cases hbit
    rw [if_pos hzero]
    refine ⟨j - k, by omega, by simp only at hnum ⊢; omega, ?_, ?_⟩
    · rw [BitVec.getLsbD_shiftLeft, show 31 - (j - k) - k = 31 - j by omega, hbit]
      simp only [Bool.and_true, Bool.and_eq_true, decide_eq_true_eq, Bool.not_eq_true',
        decide_eq_false_iff_not]
      omega
    · intro i hi
      rw [BitVec.getLsbD_shiftLeft, habove (i - k) (by omega), Bool.and_false]
  · rw [if_neg hzero]
    refine ⟨j, ?_, hnum, hbit, habove⟩
    by_contra hge
    exact hzero (and_top_eq_zero.mpr fun i hi => habove i (by omega))

theorem genericFls_eq {word : BitVec 32} {j : Nat} (hj : j < 32) (h : LastBit word j) :
    genericFls word = j + 1 := by
  have hne : word ≠ 0 := by
    rintro rfl
    have hbit := h.1
    simp at hbit
  have h0 : FlsIn (j + 1) (32, word) (2 * 16) :=
    ⟨31 - j, by omega, by simp only; omega, by rwa [show 31 - (31 - j) = j by omega]⟩
  have h1 := h0.step (by decide)
  rw [genericFls, if_neg hne]
  generalize (if word &&& (BitVec.allOnes 32 <<< (32 - 16)) = 0 then (32 - 16, word <<< 16)
    else (32, word)) = s at h1 ⊢
  obtain ⟨num, word⟩ := s
  have h2 := FlsIn.step (k := 8) (by decide) h1
  dsimp only
  generalize (if word &&& (BitVec.allOnes 32 <<< (32 - 8)) = 0 then (num - 8, word <<< 8)
    else (num, word)) = s at h2 ⊢
  obtain ⟨num, word⟩ := s
  have h3 := FlsIn.step (k := 4) (by decide) h2
  dsimp only
  generalize (if word &&& (BitVec.allOnes 32 <<< (32 - 4)) = 0 then (num - 4, word <<< 4)
    else (num, word)) = s at h3 ⊢
  obtain ⟨num, word⟩ := s
  have h4 := FlsIn.step (k := 2) (by decide) h3
  dsimp only
  generalize (if word &&& (BitVec.allOnes 32 <<< (32 - 2)) = 0 then (num - 2, word <<< 2)
    else (num, word)) = s at h4 ⊢
  obtain ⟨num, word⟩ := s
  have h5 := FlsIn.step (k := 1) (by decide) h4
  dsimp only
  obtain ⟨i, hi, hnum, -⟩ := h5
  obtain rfl : i = 0 := by omega
  by_cases hlast : word &&& (BitVec.allOnes 32 <<< (32 - 1)) = 0
  · rw [if_pos hlast] at hnum ⊢
    exact hnum
  · rw [if_neg hlast] at hnum ⊢
    exact hnum

theorem genericFls_lastBelow (word : BitVec 32) :
    LastBelow (fun i => word.getLsbD i = true) 32 (genericFls word) := by
  obtain ⟨r, hr⟩ := LastBelow.exists (fun i => word.getLsbD i = true) 32
  rcases hr with ⟨rfl, hnone⟩ | ⟨j, rfl, hj, hbit, habove⟩
  · obtain rfl : word = 0 := by
      by_contra hne
      obtain ⟨j, hj, hbit⟩ := ne_zero_iff.mp hne
      exact hnone j hj hbit
    exact .inl ⟨rfl, hnone⟩
  · have hlast : LastBit word j := by
      refine ⟨hbit, fun i hi => ?_⟩
      rcases Nat.lt_or_ge i 32 with hi' | hi'
      · simpa using habove i hi hi'
      · exact BitVec.getLsbD_of_ge word i hi'
    rw [genericFls_eq hj hlast]
    exact .inr ⟨j, rfl, hj, hbit, habove⟩

/-! ## The words of a bitmap -/

theorem genericFls_eq_zero_iff (word : BitVec 32) : genericFls word = 0 ↔ word = 0 := by
  rw [(genericFls_lastBelow word).eq_zero_iff, ← not_iff_not]
  refine Iff.trans ?_ ne_zero_iff.symm
  simp

section Words

variable {addr : List (BitVec 32)}

/-- A word that is looked at, with `n` of its bits, after the words in front of it
have `l` as their last bit. -/
theorem lastBelow_word {words n l : Nat} {tmp : BitVec 32} (hn : n ≤ 32)
    (htmp : ∀ j < 32, (tmp.getLsbD j = true ↔ j < n ∧ bit addr (32 * words + j) = true))
    (hl : LastBelow (fun i => bit addr i = true) (32 * words) l) :
    LastBelow (fun i => bit addr i = true) (32 * words + n)
      (if tmp ≠ 0 then words * 32 + genericFls tmp else l) := by
  have hword := (genericFls_lastBelow tmp).narrow hn htmp
  have hjoin := hl.join (p := fun i => bit addr i = true) hword
  simp only [genericFls_eq_zero_iff] at hjoin
  rwa [ite_not, Nat.mul_comm words, Nat.add_comm _ (genericFls tmp)]

/-- What the loop answers where the words have `l` as their last bit. -/
def lastOr (size l : Nat) : Nat := if l = 0 then size else l

theorem lastOr_ite {size l : Nat} {tmp : BitVec 32} (words : Nat) :
    lastOr size (if tmp ≠ 0 then words * 32 + genericFls tmp else l) =
      if tmp ≠ 0 then words * 32 + genericFls tmp else lastOr size l := by
  by_cases hne : tmp ≠ 0
  · have hpos := mt (genericFls_eq_zero_iff tmp).mp hne
    rw [if_pos hne, if_pos hne, lastOr, if_neg (by omega)]
  · rw [if_neg hne, if_neg hne]

theorem loadWord_bits {i : Nat} (h : i < addr.length) :
    ∃ word, loadWord addr i = .ok word ∧ ∀ j < 32, word.getLsbD j = bit addr (32 * i + j) := by
  have hget := List.getElem?_eq_getElem h
  refine ⟨addr.get ⟨i, h⟩, ?_, fun j hj => (bit_of_getElem? hget hj).symm⟩
  rw [loadWord, hget]
  rfl

theorem findLastWord_eq (size words : Nat) (h : words ≤ addr.length) :
    ∃ l, LastBelow (fun i => bit addr i = true) (32 * words) l ∧
      findLastWord addr size words = .ok (lastOr size l) := by
  induction words with
  | zero => exact ⟨0, .inl ⟨rfl, fun i hi => absurd hi (Nat.not_lt_zero i)⟩, rfl⟩
  | succ words ih =>
      obtain ⟨l, hl, hloop⟩ := ih (by omega)
      obtain ⟨tmp, hload, hbits⟩ := loadWord_bits (show words < addr.length by omega)
      have htmp : ∀ j < 32, (tmp.getLsbD j = true ↔
          j < 32 ∧ bit addr (32 * words + j) = true) := by
        intro j hj
        rw [hbits j hj]
        simp [hj]
      refine ⟨_, lastBelow_word le_rfl htmp hl, ?_⟩
      rw [findLastWord, hload, lastOr_ite]
      show (if tmp ≠ 0 then _ else _) = _
      split
      · rfl
      · exact hloop

/-- The answer is the last set bit, or the size. -/
theorem bitmapFindLastBit_eq {size : Nat} (hsize : size ≤ 32 * addr.length) :
    ∃ l, LastBelow (fun i => bit addr i = true) size l ∧
      bitmapFindLastBit addr size = .ok (lastOr size l) := by
  obtain ⟨l, hl, hloop⟩ := findLastWord_eq size (size / 32) (show size / 32 ≤ addr.length by omega)
  have hparts : size = 32 * (size / 32) + size % 32 := by omega
  rw [bitmapFindLastBit]
  by_cases hrem : size % 32 = 0
  · rw [if_neg (by omega), hloop]
    refine ⟨l, ?_, rfl⟩
    rwa [hparts, hrem]
  · obtain ⟨tmp, hload, hbits⟩ := loadWord_bits (show size / 32 < addr.length by omega)
    have hmask : ∀ j < 32, ((tmp &&& (BitVec.allOnes 32 >>> (32 - size % 32))).getLsbD j = true ↔
        j < size % 32 ∧ bit addr (32 * (size / 32) + j) = true) := by
      intro j hj
      rw [BitVec.getLsbD_and, getLsbD_below (by omega), hbits j hj, Bool.and_eq_true,
        decide_eq_true_iff, and_comm]
    have hword := lastBelow_word (show size % 32 ≤ 32 by omega) hmask hl
    rw [← hparts] at hword
    refine ⟨_, hword, ?_⟩
    rw [if_pos hrem, hload, lastOr_ite]
    show (if _ then _ else _) = _
    split
    · rfl
    · exact hloop

end Words

/-- The answer of `bitmap_find_last_bit` is the number of the last set bit, counted
from 1, and 0 if there is none, only where one of the bits is set or the size is 0. -/
theorem findLastBit_iff {addr : List (BitVec 32)} {n : Nat} (hsize : n ≤ 32 * addr.length) :
    ∃ r, bitmapFindLastBit addr n = .ok r ∧
      (LastBelow (fun i => bit addr i = true) n r ↔ n = 0 ∨ ∃ i < n, bit addr i = true) ∧
      ((∀ i < n, bit addr i = false) → r = n) := by
  obtain ⟨l, hl, hr⟩ := bitmapFindLastBit_eq hsize
  refine ⟨_, hr, ?_, ?_⟩
  · rw [hl.iff_eq, lastOr]
    by_cases hzero : l = 0
    · have hnone : ¬ ∃ i < n, bit addr i = true := by
        rintro ⟨i, hi, hbit⟩
        exact hl.eq_zero_iff.mp hzero i hi hbit
      simp only [hzero, if_true, hnone, or_false]
    · have hsome : ∃ i < n, bit addr i = true := by
        rw [hl.eq_zero_iff] at hzero
        simpa using hzero
      simp only [hzero, if_false, hsome, or_true]
  · intro hnone
    have hzero : l = 0 := hl.eq_zero_iff.mpr fun i hi => by simp [hnone i hi]
    rw [hzero, lastOr, if_pos rfl]

/-- 40 bits, of which the 3rd and the 34th are set. -/
theorem findLastBit_iff_two : 40 ≤ 32 * [(4 : BitVec 32), 2].length ∧
    ∃ r, bitmapFindLastBit [4, 2] 40 = .ok r ∧
      (LastBelow (fun i => bit [(4 : BitVec 32), 2] i = true) 40 r ↔
        40 = 0 ∨ ∃ i < 40, bit [(4 : BitVec 32), 2] i = true) ∧
      ((∀ i < 40, bit [(4 : BitVec 32), 2] i = false) → r = 40) :=
  ⟨by decide, findLastBit_iff (by decide)⟩

/-- 40 bits of which none is set, and 40 bits of which only the last one is. -/
theorem findLastBit_ambiguous : bitmapFindLastBit [0, 0] 40 = .ok 40 ∧
    bitmapFindLastBit [0, 0x80] 40 = .ok 40 ∧
    (∀ i < 40, bit [(0 : BitVec 32), 0] i = false) ∧ bit [(0 : BitVec 32), 0x80] 39 = true := by
  refine ⟨rfl, rfl, ?_, by decide⟩
  intro i _
  exact bit_replicate_zero 2 i

end Aim.Kern
