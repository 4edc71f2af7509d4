import Aim.Kern.Bitmap
import Aim.Lib.WordArray
import Mathlib.Data.List.GetD

/-!
# The shifts of a bitmap

A shift goes over the words of the bitmap, and masks the last one. Which one is the
last is computed with `BITS_TO_LONGS`, and that divides by the bytes of a word: the
array is eight times as long as it has to be, and the word that is masked is its
last one. So what is shifted are the bits up to `liveEnd`, for which the shifts are
right (`shiftRight_bits`, `shiftLeft_bits`). Up to 4 bits these are the bits of the
bitmap; from 5 on they are at least twice as many, and a bit that is moved in or
lost is one of those behind the bitmap.
-/

namespace Aim.Kern

open Aim.Lib

/-! ## The last word -/

/-- The mask on the last word, if it is not a whole one. -/
def maskLast (lim left k : Nat) (word : BitVec 32) : BitVec 32 :=
  if left ≠ 0 ∧ k = lim - 1 then word &&& leftMask left else word

/-- The bits up to the last one that is not masked. -/
def liveEnd (lim left : Nat) : Nat := 32 * (lim - 1) + if left = 0 then 32 else left

theorem getLsbD_leftMask {left j : Nat} (hleft : left < 32) (hj : j < 32) :
    (leftMask left).getLsbD j = decide (j < left) := by
  have hall : ∀ left < 32, leftMask left = BitVec.ofNat 32 (2 ^ left - 1) := by decide
  rw [hall left hleft, getLsbD_mask hj]

section Words

variable {lim left : Nat} {src : List (BitVec 32)}

theorem getLsbD_maskLast (hleft : left < 32) {k j : Nat} (hk : k < lim) (hj : j < 32)
    (word : BitVec 32) : (maskLast lim left k word).getLsbD j =
      (decide (32 * k + j < liveEnd lim left) && word.getLsbD j) := by
  rw [maskLast, liveEnd]
  by_cases hlast : left ≠ 0 ∧ k = lim - 1
  · obtain ⟨hne, rfl⟩ := hlast
    rw [if_pos ⟨hne, rfl⟩, if_neg hne, BitVec.getLsbD_and, getLsbD_leftMask hleft hj,
      Bool.and_comm]
    congr 1
    rw [decide_eq_decide, Nat.add_lt_add_iff_left]
  · rw [if_neg hlast, decide_eq_true, Bool.true_and]
    split
    · omega
    · next hne =>
        have hk' : k ≠ lim - 1 := fun h => hlast ⟨hne, h⟩
        omega

/-- The words that are shifted. -/
def liveWord (src : List (BitVec 32)) (lim left q : Nat) : BitVec 32 :=
  maskLast lim left q (src.getD q 0)

/-- The bits that are shifted. -/
def liveBit (src : List (BitVec 32)) (lim left i : Nat) : Bool :=
  decide (i < liveEnd lim left) && bit src i

theorem liveWord_of_le (hsrc : src.length = lim) {q : Nat} (hq : lim ≤ q) :
    liveWord src lim left q = 0 := by
  rw [liveWord, List.getD_eq_default _ _ (by omega), maskLast]
  split
  · exact BitVec.zero_and
  · rfl

theorem spells_liveWord (hsrc : src.length = lim) (hleft : left < 32) :
    Spells (liveWord src lim left) (liveBit src lim left) := by
  intro q j hj
  rw [liveBit]
  rcases Nat.lt_or_ge q lim with hq | hq
  · rw [liveWord, getLsbD_maskLast hleft hq hj, spells_bit src q j hj]
  · have hzero := spells_bit src q j hj
    dsimp only at hzero
    rw [List.getD_eq_default _ _ (by omega)] at hzero
    rw [liveWord_of_le hsrc hq, ← hzero]
    simp

theorem liveBit_of_le (hsrc : src.length = lim) {i : Nat} (hi : 32 * lim ≤ i) :
    liveBit src lim left i = false := by
  rw [liveBit, bit, List.getD_eq_default _ _ (by omega)]
  simp

/-- What is in front of a bit that is shifted is shifted as well. -/
theorem and_liveBit_of_le {i i' : Nat} (h : i ≤ i') :
    (decide (i < liveEnd lim left) && liveBit src lim left i') = liveBit src lim left i' := by
  rw [liveBit]
  by_cases hlive : i' < liveEnd lim left
  · rw [decide_eq_true (show i < liveEnd lim left by omega), Bool.true_and]
  · rw [decide_eq_false hlive, Bool.false_and, Bool.and_false]

end Words

variable {addr dst : List (BitVec 32)} {i start n : Nat}

theorem loadWord_eq (hi : i < addr.length) :
    loadWord addr i = .ok (addr.getD i 0) := by
  rw [loadWord, List.getElem?_eq_getElem hi, List.getD_eq_getElem _ _ hi]

theorem storeWord_eq (hi : i < addr.length) (word : BitVec 32) :
    storeWord addr i word = .ok (addr.set i word) := if_pos hi

theorem clearWords_eq (h : start + n ≤ dst.length) :
    ∃ dst', (if n ≠ 0 then clearWords dst start n else .ok dst) = .ok dst' ∧
      dst'.length = dst.length ∧
      ∀ q, dst'[q]? = if start ≤ q ∧ q < start + n then some 0 else dst[q]? := by
  have hrun : (if n ≠ 0 then clearWords dst start n else .ok dst) =
      .ok (storeAll (start + ·) (fun _ => 0) (List.range n) dst) := by
    rcases Nat.eq_zero_or_pos n with rfl | hn
    · rfl
    · rw [if_pos hn.ne']
      refine foldlM_store fun dst' hdst' k hk => storeWord_eq ?_ 0
      have hlt := List.mem_range.mp hk
      omega
  refine ⟨_, hrun, length_storeAll dst, fun q => ?_⟩
  by_cases hin : start ≤ q ∧ q < start + n
  · have hplace : start + (q - start) = q := by omega
    have hmem : q - start ∈ List.range n := List.mem_range.mpr (by omega)
    have hget := getElem?_storeAll (start + ·) (fun _ => (0 : BitVec 32)) hmem
      (fun _ _ => Nat.add_left_cancel) (show start + (q - start) < dst.length by omega)
    rw [if_pos hin]
    rwa [hplace] at hget
  · rw [if_neg hin]
    refine getElem?_storeAll_of_ne (fun k hk => ?_) dst
    have hlt := List.mem_range.mp hk
    omega

/-- A loop over the words of the bitmap, and the words it leaves out. -/
theorem loop_clear_eq {step : List (BitVec 32) → Nat → Except Stop (List (BitVec 32))}
    {place : Nat → Nat} {val : Nat → BitVec 32} {ks : List Nat}
    (hstep : ∀ dst' : List (BitVec 32), dst'.length = dst.length → ∀ k ∈ ks,
      step dst' k = .ok (dst'.set (place k) (val k)))
    (h : start + n ≤ dst.length) :
    ∃ dst', (do
      let mid ← ks.foldlM step dst
      if n ≠ 0 then clearWords mid start n else .ok mid) = .ok dst' ∧ dst'.length = dst.length ∧
      ∀ q, dst'[q]? =
        if start ≤ q ∧ q < start + n then some 0 else (storeAll place val ks dst)[q]? := by
  have hlength : (storeAll place val ks dst).length = dst.length := length_storeAll dst
  obtain ⟨dst', hclear, hlength', hwords⟩ := clearWords_eq (h.trans_eq hlength.symm)
  refine ⟨dst', ?_, hlength'.trans hlength, hwords⟩
  rw [foldlM_store hstep]
  exact hclear

/-! ## Right -/

section Right

variable {src dst : List (BitVec 32)} {lim left off rem k n shift : Nat}

def rightWord (src : List (BitVec 32)) (lim left off rem k : Nat) : BitVec 32 :=
  maskLast lim left k
    (liveWord src lim left (off + k + 1) <<< (32 - rem) ||| liveWord src lim left (off + k) >>> rem)

theorem shiftRightUpper_eq (hsrc : src.length = lim) :
    shiftRightUpper src lim left off rem k =
      .ok (if rem = 0 then 0 else liveWord src lim left (off + k + 1)) := by
  rw [shiftRightUpper]
  by_cases hrem : rem = 0
  · rw [if_pos (.inl hrem), if_pos hrem]
  · rw [if_neg hrem]
    by_cases hend : lim ≤ off + k + 1
    · rw [if_pos (.inr hend), liveWord_of_le hsrc hend]
    · rw [if_neg (by omega), loadWord_eq (by omega), liveWord, maskLast]
      simp only [and_comm]
      rfl

theorem shiftRightWord_eq (hsrc : src.length = lim) (hk : off + k < lim) (hdst : k < dst.length) :
    shiftRightWord src lim left off rem dst k =
      .ok (dst.set k (rightWord src lim left off rem k)) := by
  -- A word that is not shifted takes nothing of the next one.
  have hshift : (if rem = 0 then 0 else liveWord src lim left (off + k + 1)) <<< (32 - rem) =
      liveWord src lim left (off + k + 1) <<< (32 - rem) := by
    by_cases hrem : rem = 0
    · rw [if_pos hrem, hrem, BitVec.shiftLeft_eq_zero le_rfl, BitVec.shiftLeft_eq_zero le_rfl]
    · rw [if_neg hrem]
  rw [shiftRightWord, shiftRightUpper_eq hsrc, loadWord_eq (by omega), rightWord, ← hshift]
  exact storeWord_eq hdst _

/-- The words the loop leaves, and the zeros behind them. -/
theorem bitmapShiftRight_eq (hsrc : src.length = bitsToLongs n) (hdst : dst.length = bitsToLongs n)
    (hoff : shift / 32 ≤ bitsToLongs n) :
    ∃ dst', bitmapShiftRight dst src shift n = .ok dst' ∧ dst'.length = bitsToLongs n ∧
      ∀ q < bitsToLongs n, dst'[q]? = some (if q < bitsToLongs n - shift / 32 then
        rightWord src (bitsToLongs n) (n % 32) (shift / 32) (shift % 32) q else 0) := by
  rw [bitmapShiftRight]
  generalize bitsToLongs n = lim at *
  generalize shift / 32 = off at *
  have hstep : ∀ dst' : List (BitVec 32), dst'.length = dst.length → ∀ k ∈ List.range (lim - off),
      shiftRightWord src lim (n % 32) off (shift % 32) dst' k =
        .ok (dst'.set (id k) (rightWord src lim (n % 32) off (shift % 32) k)) := by
    intro dst' hdst' k hk
    have hlt := List.mem_range.mp hk
    exact shiftRightWord_eq hsrc (by omega) (by omega)
  obtain ⟨dst', hrun, hlength, hwords⟩ :=
    loop_clear_eq hstep (show lim - off + off ≤ dst.length by omega)
  refine ⟨dst', hrun, by omega, fun q hq => ?_⟩
  rw [hwords]
  by_cases hlow : q < lim - off
  · rw [if_neg (by omega), if_pos hlow]
    exact getElem?_storeAll id _ (List.mem_range.mpr hlow) (fun _ _ h => h)
      (show q < dst.length by omega)
  · rw [if_pos (by omega), if_neg hlow]

theorem rightWord_bits (hsrc : src.length = lim) (hleft : left < 32) (hrem : rem < 32) {j : Nat}
    (hk : k < lim) (hj : j < 32) : (rightWord src lim left off rem k).getLsbD j =
      (decide (32 * k + j < liveEnd lim left) &&
        liveBit src lim left (32 * k + j + (32 * off + rem))) := by
  rw [rightWord, getLsbD_maskLast hleft hk hj, (spells_liveWord hsrc hleft).funnel _ hrem.le hj]
  congr 2
  omega

/-- A right shift of the bits up to `liveEnd`. -/
theorem shiftRight_bits (hsrc : src.length = bitsToLongs n) (hdst : dst.length = bitsToLongs n)
    (hoff : shift / 32 ≤ bitsToLongs n) :
    ∃ dst', bitmapShiftRight dst src shift n = .ok dst' ∧ dst'.length = bitsToLongs n ∧
      ∀ i < 32 * bitsToLongs n, bit dst' i = liveBit src (bitsToLongs n) (n % 32) (i + shift) := by
  obtain ⟨dst', hrun, hlength, hwords⟩ := bitmapShiftRight_eq hsrc hdst hoff
  refine ⟨dst', hrun, hlength, fun i hi => ?_⟩
  have hplace : 32 * (i / 32) + i % 32 = i := by omega
  rw [bit_eq_of_getElem? (hwords (i / 32) (by omega))]
  by_cases hlow : i / 32 < bitsToLongs n - shift / 32
  · rw [if_pos hlow, rightWord_bits hsrc (by omega) (by omega) (by omega) (by omega), hplace,
      show 32 * (shift / 32) + shift % 32 = shift by omega]
    exact and_liveBit_of_le (Nat.le_add_right i shift)
  · rw [if_neg hlow, liveBit_of_le hsrc (by omega)]
    exact BitVec.getLsbD_zero

end Right

/-! ## Left -/

section Left

variable {src dst : List (BitVec 32)} {lim left off rem k n shift : Nat}

def leftWord (src : List (BitVec 32)) (lim left off rem k : Nat) : BitVec 32 :=
  maskLast lim left (k + off) (wordsUp (liveWord src lim left) (k + 1) <<< (32 - (32 - rem)) |||
    wordsUp (liveWord src lim left) k >>> (32 - rem))

theorem shiftLeftLower_eq (left rem : Nat) (hsrc : src.length = lim) (hk : k < lim) : ∃ lower,
    shiftLeftLower src rem k = .ok lower ∧
      lower >>> (32 - rem) = wordsUp (liveWord src lim left) k >>> (32 - rem) := by
  by_cases hlow : rem ≠ 0 ∧ 0 < k
  · obtain ⟨k, rfl⟩ := Nat.exists_eq_succ_of_ne_zero hlow.2.ne'
    refine ⟨liveWord src lim left k, ?_, rfl⟩
    rw [shiftLeftLower, if_pos hlow, loadWord_eq (by omega), liveWord, maskLast, if_neg (by omega)]
    rfl
  · refine ⟨0, if_neg hlow, ?_⟩
    rcases Nat.eq_zero_or_pos k with rfl | hk
    · rfl
    · obtain rfl : rem = 0 := by omega
      rw [BitVec.ushiftRight_eq_zero le_rfl, BitVec.ushiftRight_eq_zero le_rfl]

theorem shiftLeftWord_eq (hsrc : src.length = lim) (hk : k < lim) (hrem : rem < 32)
    (hdst : k + off < dst.length) : shiftLeftWord src lim left off rem dst k =
      .ok (dst.set (k + off) (leftWord src lim left off rem k)) := by
  obtain ⟨lower, hload, hlower⟩ := shiftLeftLower_eq left rem hsrc hk
  rw [shiftLeftWord, hload, loadWord_eq (by omega), leftWord, ← hlower,
    show 32 - (32 - rem) = rem by omega, BitVec.or_comm]
  exact storeWord_eq hdst _

/-- The words the loop leaves, and the zeros in front of them. -/
theorem bitmapShiftLeft_eq (hsrc : src.length = bitsToLongs n) (hdst : dst.length = bitsToLongs n)
    (hoff : shift / 32 ≤ bitsToLongs n) :
    ∃ dst', bitmapShiftLeft dst src shift n = .ok dst' ∧ dst'.length = bitsToLongs n ∧
      ∀ q < bitsToLongs n, dst'[q]? = some (if q < shift / 32 then 0 else
        leftWord src (bitsToLongs n) (n % 32) (shift / 32) (shift % 32) (q - shift / 32)) := by
  have hrem : shift % 32 < 32 := Nat.mod_lt _ (by decide)
  rw [bitmapShiftLeft]
  generalize bitsToLongs n = lim at *
  generalize shift / 32 = off at *
  generalize shift % 32 = rem at *
  have hstep : ∀ dst' : List (BitVec 32), dst'.length = dst.length →
      ∀ k ∈ (List.range (lim - off)).reverse, shiftLeftWord src lim (n % 32) off rem dst' k =
        .ok (dst'.set (k + off) (leftWord src lim (n % 32) off rem k)) := by
    intro dst' hdst' k hk
    have hlt := List.mem_range.mp (List.mem_reverse.mp hk)
    exact shiftLeftWord_eq hsrc (by omega) hrem (by omega)
  obtain ⟨dst', hrun, hlength, hwords⟩ :=
    loop_clear_eq hstep (show 0 + off ≤ dst.length by omega)
  refine ⟨dst', hrun, by omega, fun q hq => ?_⟩
  rw [hwords]
  by_cases hlow : q < off
  · rw [if_pos (by omega), if_pos hlow]
  · have hplace : q - off + off = q := by omega
    have hmem : q - off ∈ (List.range (lim - off)).reverse :=
      List.mem_reverse.mpr (List.mem_range.mpr (by omega))
    have hget := getElem?_storeAll (· + off) (leftWord src lim (n % 32) off rem) hmem
      (fun _ _ => Nat.add_right_cancel) (show q - off + off < dst.length by omega)
    rw [if_neg (by omega), if_neg hlow]
    rwa [hplace] at hget

theorem leftWord_bits (hsrc : src.length = lim) (hleft : left < 32) (hrem : rem < 32) {j : Nat}
    (hk : k + off < lim) (hj : j < 32) : (leftWord src lim left off rem k).getLsbD j =
      (decide (32 * (k + off) + j < liveEnd lim left) &&
        (decide (rem ≤ 32 * k + j) && liveBit src lim left (32 * k + j - rem))) := by
  rw [leftWord, getLsbD_maskLast hleft hk hj,
    (spells_liveWord hsrc hleft).wordsUp.funnel _ (Nat.sub_le 32 rem) hj]
  congr 2
  · rw [decide_eq_decide]
    omega
  · congr 1
    omega

/-- A left shift of the bits up to `liveEnd`. -/
theorem shiftLeft_bits (hsrc : src.length = bitsToLongs n) (hdst : dst.length = bitsToLongs n)
    (hoff : shift / 32 ≤ bitsToLongs n) :
    ∃ dst', bitmapShiftLeft dst src shift n = .ok dst' ∧ dst'.length = bitsToLongs n ∧
      ∀ i < 32 * bitsToLongs n, bit dst' i = (decide (i < liveEnd (bitsToLongs n) (n % 32)) &&
        (decide (shift ≤ i) && liveBit src (bitsToLongs n) (n % 32) (i - shift))) := by
  obtain ⟨dst', hrun, hlength, hwords⟩ := bitmapShiftLeft_eq hsrc hdst hoff
  refine ⟨dst', hrun, hlength, fun i hi => ?_⟩
  have hplace : 32 * (i / 32) + i % 32 = i := by omega
  rw [bit_eq_of_getElem? (hwords (i / 32) (by omega))]
  by_cases hlow : i / 32 < shift / 32
  · rw [if_pos hlow, decide_eq_false (show ¬ shift ≤ i by omega), Bool.false_and, Bool.and_false]
    exact BitVec.getLsbD_zero
  · rw [if_neg hlow, leftWord_bits hsrc (by omega) (by omega) (by omega) (by omega),
      show 32 * (i / 32 - shift / 32 + shift / 32) + i % 32 = i by omega]
    congr 2
    · rw [decide_eq_decide]
      omega
    · congr 1
      omega

end Left

/-! ## The bits of the bitmap -/

section Bitmap

variable {n shift : Nat}

theorem le_bitsToLongs (n : Nat) : n ≤ 4 * bitsToLongs n := by
  rw [bitsToLongs]
  omega

theorem liveEnd_of_le (hn : 1 ≤ n) (h4 : n ≤ 4) : liveEnd (bitsToLongs n) (n % 32) = n := by
  rw [liveEnd, bitsToLongs, if_neg (by omega)]
  omega

theorem two_mul_le_liveEnd (h5 : 5 ≤ n) : 2 * n ≤ liveEnd (bitsToLongs n) (n % 32) := by
  rw [liveEnd, bitsToLongs]
  omega

/-- The bits `b` with the places of which something is to be 0 because the bitmap ends
there, and is because what is shifted ends there. -/
theorem end_agrees_iff (hn : 1 ≤ n) (hshift : shift ≤ n) (b : Nat → Bool) :
    (∀ i < n, (decide (i + shift < liveEnd (bitsToLongs n) (n % 32)) && b i) =
      (decide (i + shift < n) && b i)) ↔
    n ≤ 4 ∨ ∀ i < n, n ≤ i + shift → b i = false := by
  by_cases h4 : n ≤ 4
  · rw [liveEnd_of_le hn h4]
    exact iff_of_true (fun _ _ => rfl) (.inl h4)
  · have hend := two_mul_le_liveEnd (show 5 ≤ n by omega)
    rw [or_iff_right h4]
    refine forall_congr' fun i => forall_congr' fun hi => ?_
    rw [decide_eq_true (show i + shift < liveEnd (bitsToLongs n) (n % 32) by omega), Bool.true_and]
    by_cases hin : i + shift < n
    · rw [decide_eq_true hin, Bool.true_and]
      exact iff_of_true rfl fun hge => absurd hin (by omega)
    · rw [decide_eq_false hin, Bool.false_and]
      exact ⟨fun h _ => h, fun h => h (by omega)⟩

variable {src mid dst : List (BitVec 32)}

theorem shiftRight_iff (hn : 1 ≤ n) (hshift : shift ≤ n) (hsrc : src.length = bitsToLongs n)
    (hdst : dst.length = bitsToLongs n) :
    (∃ dst', bitmapShiftRight dst src shift n = .ok dst' ∧
      ∀ i < n, bit dst' i = (decide (i + shift < n) && bit src (i + shift))) ↔
    n ≤ 4 ∨ ∀ i, n ≤ i → i < n + shift → bit src i = false := by
  have hlim := le_bitsToLongs n
  obtain ⟨dst', hrun, -, hbits⟩ :=
    shiftRight_bits hsrc hdst (show shift / 32 ≤ bitsToLongs n by omega)
  have hmoved : (∀ i < n, n ≤ i + shift → bit src (i + shift) = false) ↔
      ∀ i, n ≤ i → i < n + shift → bit src i = false := by
    constructor
    · intro h i hi hlt
      have hbit := h (i - shift) (by omega) (by omega)
      rwa [Nat.sub_add_cancel (by omega)] at hbit
    · intro h i hi hge
      exact h (i + shift) hge (by omega)
  rw [← hmoved, ← end_agrees_iff hn hshift fun i => bit src (i + shift), hrun]
  simp only [Except.ok.injEq, exists_eq_left']
  refine forall₂_congr fun i hi => ?_
  rw [hbits i (by omega), liveBit]

theorem shiftLeftRight_iff (hn : 1 ≤ n) (hshift : shift ≤ n) (hsrc : src.length = bitsToLongs n)
    (hmid : mid.length = bitsToLongs n) (hdst : dst.length = bitsToLongs n) :
    (∃ mid' dst', bitmapShiftLeft mid src shift n = .ok mid' ∧
      bitmapShiftRight dst mid' shift n = .ok dst' ∧
      ∀ i < n, bit dst' i = (decide (i + shift < n) && bit src i)) ↔
    n ≤ 4 ∨ ∀ i < n, n ≤ i + shift → bit src i = false := by
  have hlim := le_bitsToLongs n
  have hoff : shift / 32 ≤ bitsToLongs n := by omega
  obtain ⟨mid', hleft, hmid', hmidBits⟩ := shiftLeft_bits hsrc hmid hoff
  obtain ⟨dst', hright, -, hbits⟩ := shiftRight_bits hmid' hdst hoff
  have hboth : ∀ i < n, bit dst' i =
      (decide (i + shift < liveEnd (bitsToLongs n) (n % 32)) && bit src i) := by
    intro i hi
    rw [hbits i (by omega), liveBit, hmidBits (i + shift) (by omega), Nat.add_sub_cancel, liveBit,
      decide_eq_true (Nat.le_add_left shift i), Bool.true_and]
    by_cases hlive : i + shift < liveEnd (bitsToLongs n) (n % 32)
    · rw [decide_eq_true hlive, decide_eq_true (show i < _ by omega)]
      simp only [Bool.true_and]
    · rw [decide_eq_false hlive, Bool.false_and, Bool.false_and]
  rw [← end_agrees_iff hn hshift (bit src), hleft]
  simp only [Except.ok.injEq, exists_and_left, exists_eq_left', hright]
  refine forall₂_congr fun i hi => ?_
  rw [hboth i hi]

end Bitmap

/-- The shift to the right, and the shift to the left and back. -/
theorem bitmapShift_iff (src mid dst : List (BitVec 32)) (n shift : Nat) (hn : 1 ≤ n)
    (hshift : shift ≤ n) (hsrc : src.length = bitsToLongs n) (hmid : mid.length = bitsToLongs n)
    (hdst : dst.length = bitsToLongs n) :
    ((∃ dst', bitmapShiftRight dst src shift n = .ok dst' ∧
      ∀ i < n, bit dst' i = (decide (i + shift < n) && bit src (i + shift))) ↔
      n ≤ 4 ∨ ∀ i, n ≤ i → i < n + shift → bit src i = false) ∧
    ((∃ mid' dst', bitmapShiftLeft mid src shift n = .ok mid' ∧
      bitmapShiftRight dst mid' shift n = .ok dst' ∧
      ∀ i < n, bit dst' i = (decide (i + shift < n) && bit src i)) ↔
      n ≤ 4 ∨ ∀ i < n, n ≤ i + shift → bit src i = false) :=
  ⟨shiftRight_iff hn hshift hsrc hdst, shiftLeftRight_iff hn hshift hsrc hmid hdst⟩

/-- Nothing behind the 40 bits is moved in. -/
theorem bitmapShift_forty : ∃ dst', bitmapShiftRight (List.replicate 10 0)
    (0x80000000 :: 0x80 :: List.replicate 8 0) 33 40 = .ok dst' ∧
      ∀ i < 40, bit dst' i = (decide (i + 33 < 40) &&
        bit ((0x80000000 : BitVec 32) :: 0x80 :: List.replicate 8 0) (i + 33)) :=
  (bitmapShift_iff (0x80000000 :: 0x80 :: List.replicate 8 0) (List.replicate 10 0)
    (List.replicate 10 0) 40 33 (by decide) (by decide) (by decide) (by decide)
    (by decide)).1.mpr (.inr (by decide))

/-- Of 5 bits, shifted by one: bit 5, behind them, comes in, and bit 4 comes back. -/
theorem bitmapShift_wrong_end :
    (bitmapShiftRight [0, 0] [0x20, 0] 1 5 = .ok [0x10, 0] ∧
      ¬ ∀ i < 5, bit [(0x10 : BitVec 32), 0] i =
        (decide (i + 1 < 5) && bit [(0x20 : BitVec 32), 0] (i + 1))) ∧
    bitmapShiftLeft [0, 0] [0x10, 0] 1 5 = .ok [0x20, 0] ∧
      ¬ ∀ i < 5, bit [(0x10 : BitVec 32), 0] i =
        (decide (i + 1 < 5) && bit [(0x10 : BitVec 32), 0] i) := by
  decide

end Aim.Kern
