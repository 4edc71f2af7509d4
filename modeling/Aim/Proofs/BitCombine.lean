import Aim.Proofs.BitSearch
import Aim.Proofs.BitShift

/-!
# What two bitmaps have in common

`bitmap_and` and `bitmap_andnot` store a word for each word of the arrays and tell
whether one of them is not 0; the arrays have `BITS_TO_LONGS` words, eight times as
many as the bits need. `bitmap_intersects` and `bitmap_subset` look at the bits of
the bitmap and at no other. So the two kinds agree unless the first set bit of the
result is one behind the bitmap (`bitmap_tests_iff`), and `bitmap_fill` sets such bits
(`bitmap_tests_fill`).
-/

namespace Aim.Kern

open Aim.Lib

/-- On each bit of two words, `op` works as `f` does. -/
def Bitwise (op : BitVec 32 → BitVec 32 → BitVec 32) (f : Bool → Bool → Bool) : Prop :=
  ∀ x y : BitVec 32, ∀ j < 32, (op x y).getLsbD j = f (x.getLsbD j) (y.getLsbD j)

theorem bitwise_and : Bitwise (fun x y => x &&& y) fun u v => u && v :=
  fun _ _ _ _ => BitVec.getLsbD_and

theorem bitwise_andnot : Bitwise (fun x y => x &&& ~~~y) fun u v => u && !v := by
  intro x y j hj
  rw [BitVec.getLsbD_and, BitVec.getLsbD_not, decide_eq_true hj, Bool.true_and]

section Combine

variable {op : BitVec 32 → BitVec 32 → BitVec 32} {f : Bool → Bool → Bool}
  {a b dst : List (BitVec 32)} {n : Nat}

/-- The word `k` of the result. -/
def wordOf (op : BitVec 32 → BitVec 32 → BitVec 32) (a b : List (BitVec 32)) (k : Nat) :
    BitVec 32 := op (a.getD k 0) (b.getD k 0)

theorem Bitwise.getLsbD_wordOf (hop : Bitwise op f) (k : Nat) {j : Nat} (hj : j < 32) :
    (wordOf op a b k).getLsbD j = f (bit a (32 * k + j)) (bit b (32 * k + j)) := by
  rw [wordOf, hop _ _ j hj, ← spells_bit a k j hj, ← spells_bit b k j hj]

theorem Bitwise.wordOf_ne_zero_iff (hop : Bitwise op f) (k : Nat) : wordOf op a b k ≠ 0 ↔
    ∃ i, 32 * k ≤ i ∧ i < 32 * (k + 1) ∧ f (bit a i) (bit b i) = true := by
  rw [ne_zero_iff]
  constructor
  · rintro ⟨j, hj, hbit⟩
    rw [hop.getLsbD_wordOf k hj] at hbit
    exact ⟨32 * k + j, by omega, by omega, hbit⟩
  · rintro ⟨i, hlo, hhi, hbit⟩
    refine ⟨i - 32 * k, by omega, ?_⟩
    rwa [hop.getLsbD_wordOf k (by omega), Nat.add_sub_cancel' hlo]

/-! ## The operations that store -/

theorem combineWord_eq {k : Nat} (ha : k < a.length) (hb : k < b.length) (hdst : k < dst.length)
    (result : BitVec 32) : combineWord op a b (dst, result) k =
      .ok (dst.set k (wordOf op a b k), result ||| wordOf op a b k) := by
  rw [combineWord, loadWord_eq ha, loadWord_eq hb]
  show (storeWord dst k (wordOf op a b k) >>= _) = _
  rw [storeWord_eq hdst]
  rfl

/-- The loop: every word is in its place, and `result` has the bits of all of them. -/
theorem foldlM_combineWord {ks : List Nat} (hks : ∀ k ∈ ks, k < n) (ha : n ≤ a.length)
    (hb : n ≤ b.length) (hdst : n ≤ dst.length) (result : BitVec 32) :
    ks.foldlM (combineWord op a b) (dst, result) =
      .ok (storeAll (fun k => k) (wordOf op a b) ks dst,
        ks.foldl (fun r k => r ||| wordOf op a b k) result) := by
  induction ks generalizing dst result with
  | nil => rfl
  | cons k ks ih =>
      obtain ⟨hk, hks⟩ := List.forall_mem_cons.mp hks
      rw [List.foldlM_cons, combineWord_eq (by omega) (by omega) (by omega)]
      exact ih hks (by rwa [List.length_set]) _

theorem foldl_or_ne_zero_iff {val : Nat → BitVec 32} (ks : List Nat) (result : BitVec 32) :
    ks.foldl (fun r k => r ||| val k) result ≠ 0 ↔ result ≠ 0 ∨ ∃ k ∈ ks, val k ≠ 0 := by
  induction ks generalizing result with
  | nil => simp
  | cons k ks ih =>
      have hor : result ||| val k = 0 ↔ result = 0 ∧ val k = 0 := BitVec.or_eq_zero_iff
      rw [List.foldl_cons, ih, Ne, hor, not_and_or, or_assoc]
      simp

/-- The bits of the result are those of all the words, and the answer is about them. -/
theorem Bitwise.combineWords (hop : Bitwise op f) (ha : a.length = bitsToLongs n)
    (hb : b.length = bitsToLongs n) (hdst : dst.length = bitsToLongs n) :
    ∃ dst' r, combineWords op dst a b n = .ok (dst', r) ∧
      (∀ i < 32 * bitsToLongs n, bit dst' i = f (bit a i) (bit b i)) ∧
      (r ≠ 0 ↔ ∃ i < 32 * bitsToLongs n, f (bit a i) (bit b i) = true) := by
  have hks : ∀ k ∈ List.range (bitsToLongs n), k < bitsToLongs n := fun k hk => List.mem_range.mp hk
  rw [Aim.Kern.combineWords, foldlM_combineWord hks ha.ge hb.ge hdst.ge 0]
  refine ⟨_, _, rfl, ?_, ?_⟩
  · intro i hi
    have hk : i / 32 < bitsToLongs n := by omega
    have hget : (storeAll (fun k => k) (wordOf op a b) (List.range (bitsToLongs n)) dst)[i / 32]? =
        some (wordOf op a b (i / 32)) :=
      getElem?_storeAll (fun k => k) (wordOf op a b) (List.mem_range.mpr hk)
        (fun _ _ heq => heq) (hk.trans_eq hdst.symm)
    rw [bit_eq_of_getElem? hget, hop.getLsbD_wordOf _ (by omega), Nat.div_add_mod]
  · rw [Ne, ite_eq_right_iff, Classical.not_imp, and_iff_left (by decide), foldl_or_ne_zero_iff]
    simp only [ne_eq, not_true_eq_false, false_or, List.mem_range]
    constructor
    · rintro ⟨k, hk, hne⟩
      obtain ⟨i, -, hi, hbit⟩ := (hop.wordOf_ne_zero_iff k).mp hne
      exact ⟨i, by omega, hbit⟩
    · rintro ⟨i, hi, hbit⟩
      refine ⟨i / 32, by omega, (hop.wordOf_ne_zero_iff (i / 32)).mpr ?_⟩
      exact ⟨i, by omega, by omega, hbit⟩

/-! ## The tests -/

/-- The loop over the whole words. -/
theorem Bitwise.anyWord (hop : Bitwise op f) (k n : Nat) (ha : k + n ≤ a.length)
    (hb : k + n ≤ b.length) : ∃ any, anyWord op a b k n = .ok any ∧
      (any = true ↔ ∃ i, 32 * k ≤ i ∧ i < 32 * (k + n) ∧ f (bit a i) (bit b i) = true) := by
  induction n generalizing k with
  | zero =>
      refine ⟨false, rfl, ?_⟩
      simp only [Bool.false_eq_true, false_iff]
      rintro ⟨i, hlo, hhi, -⟩
      omega
  | succ n ih =>
      obtain ⟨any, hrest, hany⟩ := ih (k + 1) (by omega) (by omega)
      have hword := hop.wordOf_ne_zero_iff (a := a) (b := b) k
      rw [Aim.Kern.anyWord, loadWord_eq (show k < a.length by omega),
        loadWord_eq (show k < b.length by omega)]
      by_cases hne : wordOf op a b k ≠ 0
      · refine ⟨true, if_pos hne, ?_⟩
        obtain ⟨i, hlo, hhi, hbit⟩ := hword.mp hne
        simp only [true_iff]
        exact ⟨i, hlo, by omega, hbit⟩
      · refine ⟨any, (if_neg hne).trans hrest, ?_⟩
        rw [hany]
        constructor
        · rintro ⟨i, hlo, hhi, hbit⟩
          exact ⟨i, by omega, by omega, hbit⟩
        · rintro ⟨i, hlo, hhi, hbit⟩
          refine ⟨i, ?_, by omega, hbit⟩
          by_contra hlt
          exact hne (hword.mpr ⟨i, hlo, by omega, hbit⟩)

theorem getLsbD_bitmapLastWordMask {n j : Nat} (hn : n % 32 ≠ 0) (hj : j < 32) :
    (bitmapLastWordMask n).getLsbD j = decide (j < n % 32) := by
  rw [bitmapLastWordMask, if_pos hn, getLsbD_leftMask (by omega) hj]

/-- The part of a word behind them. -/
theorem Bitwise.masked_ne_zero_iff (hop : Bitwise op f) (hn : n % 32 ≠ 0) :
    wordOf op a b (n / 32) &&& bitmapLastWordMask n ≠ 0 ↔
      ∃ i, 32 * (n / 32) ≤ i ∧ i < n ∧ f (bit a i) (bit b i) = true := by
  rw [ne_zero_iff]
  constructor
  · rintro ⟨j, hj, hbit⟩
    rw [BitVec.getLsbD_and, hop.getLsbD_wordOf _ hj, getLsbD_bitmapLastWordMask hn hj,
      Bool.and_eq_true, decide_eq_true_iff] at hbit
    exact ⟨32 * (n / 32) + j, by omega, by omega, hbit.1⟩
  · rintro ⟨i, hlo, hhi, hbit⟩
    have hj : i - 32 * (n / 32) < 32 := by omega
    refine ⟨i - 32 * (n / 32), hj, ?_⟩
    rw [BitVec.getLsbD_and, hop.getLsbD_wordOf _ hj, getLsbD_bitmapLastWordMask hn hj,
      Nat.add_sub_cancel' hlo, hbit, Bool.true_and, decide_eq_true_iff]
    omega

theorem Bitwise.anyBit (hop : Bitwise op f) (ha : n ≤ 32 * a.length) (hb : n ≤ 32 * b.length) :
    ∃ any, anyBit op a b n = .ok any ∧
      (any = true ↔ ∃ i < n, f (bit a i) (bit b i) = true) := by
  obtain ⟨any, hwords, hany⟩ := hop.anyWord (a := a) (b := b) 0 (n / 32) (by omega) (by omega)
  rw [Nat.zero_add] at hany
  rw [Aim.Kern.anyBit]
  simp only [hwords]
  cases any with
  | true =>
      refine ⟨true, rfl, ?_⟩
      obtain ⟨i, -, hi, hbit⟩ := hany.mp rfl
      simp only [true_iff]
      exact ⟨i, by omega, hbit⟩
  | false =>
      simp only [Bool.false_eq_true, false_iff] at hany
      have hlast : (∃ i < n, f (bit a i) (bit b i) = true) ↔
          ∃ i, 32 * (n / 32) ≤ i ∧ i < n ∧ f (bit a i) (bit b i) = true := by
        constructor
        · rintro ⟨i, hi, hbit⟩
          refine ⟨i, ?_, hi, hbit⟩
          by_contra hlt
          exact hany ⟨i, by omega, by omega, hbit⟩
        · rintro ⟨i, -, hi, hbit⟩
          exact ⟨i, hi, hbit⟩
      by_cases hrem : n % 32 ≠ 0
      · refine ⟨decide (wordOf op a b (n / 32) &&& bitmapLastWordMask n ≠ 0), ?_, ?_⟩
        · show (if n % 32 ≠ 0 then _ else _) = _
          rw [if_pos hrem, loadWord_eq (by omega), loadWord_eq (by omega)]
          rfl
        · rw [decide_eq_true_iff, hop.masked_ne_zero_iff hrem, hlast]
      · refine ⟨false, if_neg hrem, ?_⟩
        rw [hlast]
        simp only [Bool.false_eq_true, false_iff]
        rintro ⟨i, hlo, hhi, -⟩
        omega

/-! ## Both -/

/-- The two kinds give the same answer if it is that there is a bit, or if there is
none behind the `n` bits. -/
theorem Bitwise.agree_iff (hop : Bitwise op f) (hf : f false false = false)
    (ha : a.length = bitsToLongs n) (hb : b.length = bitsToLongs n)
    (hdst : dst.length = bitsToLongs n) :
    ∃ dst' r any, Aim.Kern.combineWords op dst a b n = .ok (dst', r) ∧
      Aim.Kern.anyBit op a b n = .ok any ∧
      ((r ≠ 0 ↔ any = true) ↔ (∃ i < n, f (bit a i) (bit b i) = true) ∨
        ∀ i, n ≤ i → f (bit a i) (bit b i) = false) := by
  have hwords := le_bitsToLongs n
  obtain ⟨dst', r, hcombine, -, hr⟩ := hop.combineWords ha hb hdst
  obtain ⟨any, htest, hany⟩ := hop.anyBit (a := a) (b := b) (n := n) (by omega) (by omega)
  refine ⟨dst', r, any, hcombine, htest, ?_⟩
  rw [hr, hany]
  constructor
  · intro h
    by_cases hex : ∃ i < n, f (bit a i) (bit b i) = true
    · exact .inl hex
    · refine .inr fun i hi => ?_
      by_contra hbit
      rw [Bool.not_eq_false] at hbit
      refine hex (h.mp ⟨i, ?_, hbit⟩)
      by_contra hout
      rw [bit_of_length_le (by omega), bit_of_length_le (by omega), hf] at hbit
      cases hbit
  · rintro (⟨i, hi, hbit⟩ | hnone)
    · exact ⟨fun _ => ⟨i, hi, hbit⟩, fun _ => ⟨i, by omega, hbit⟩⟩
    · constructor
      · rintro ⟨i, -, hbit⟩
        refine ⟨i, ?_, hbit⟩
        by_contra hout
        rw [hnone i (by omega)] at hbit
        cases hbit
      · rintro ⟨i, hi, hbit⟩
        exact ⟨i, by omega, hbit⟩

end Combine

/-- `bitmap_and` agrees with `bitmap_intersects`, and `bitmap_andnot` with
`bitmap_subset`, if there is a bit of the result among the `n` bits or none behind
them. -/
theorem bitmap_tests_iff {dst a b : List (BitVec 32)} {n : Nat}
    (hdst : dst.length = bitsToLongs n) (ha : a.length = bitsToLongs n)
    (hb : b.length = bitsToLongs n) :
    ∃ dst₁ and intersects dst₂ andnot subset,
      bitmapAnd dst a b n = .ok (dst₁, and) ∧ bitmapIntersects a b n = .ok intersects ∧
      bitmapAndnot dst a b n = .ok (dst₂, andnot) ∧ bitmapSubset a b n = .ok subset ∧
      ((and ≠ 0 ↔ intersects ≠ 0) ↔ (∃ i < n, bit a i = true ∧ bit b i = true) ∨
        ∀ i, n ≤ i → ¬ (bit a i = true ∧ bit b i = true)) ∧
      ((andnot = 0 ↔ subset ≠ 0) ↔ (∃ i < n, bit a i = true ∧ bit b i = false) ∨
        ∀ i, n ≤ i → ¬ (bit a i = true ∧ bit b i = false)) := by
  obtain ⟨dst₁, r₁, any₁, hand, hintersects, hagree₁⟩ := bitwise_and.agree_iff rfl ha hb hdst
  obtain ⟨dst₂, r₂, any₂, handnot, hsubset, hagree₂⟩ := bitwise_andnot.agree_iff rfl ha hb hdst
  refine ⟨dst₁, r₁, if any₁ then 1 else 0, dst₂, r₂, if any₂ then 0 else 1, hand, ?_, handnot, ?_,
    ?_, ?_⟩
  · rw [bitmapIntersects, hintersects]
    rfl
  · rw [bitmapSubset, hsubset]
    rfl
  · simpa using hagree₁
  · have hflip : (r₂ = 0 ↔ (if any₂ then 0 else 1) ≠ 0) ↔ (r₂ ≠ 0 ↔ any₂ = true) := by
      cases any₂
      · simp
      · simp
    rw [hflip]
    simpa using hagree₂

/-- 5 bits in two words, where all that is set is set in both. -/
theorem bitmap_tests_iff_five :
    [(0 : BitVec 32), 0].length = bitsToLongs 5 ∧ [(3 : BitVec 32), 0].length = bitsToLongs 5 ∧
    ∃ dst₁ and intersects dst₂ andnot subset,
      bitmapAnd [0, 0] [3, 0] [3, 0] 5 = .ok (dst₁, and) ∧
      bitmapIntersects [3, 0] [3, 0] 5 = .ok intersects ∧
      bitmapAndnot [0, 0] [3, 0] [3, 0] 5 = .ok (dst₂, andnot) ∧
      bitmapSubset [3, 0] [3, 0] 5 = .ok subset ∧
      ((and ≠ 0 ↔ intersects ≠ 0) ↔
        (∃ i < 5, bit [(3 : BitVec 32), 0] i = true ∧ bit [(3 : BitVec 32), 0] i = true) ∨
        ∀ i, 5 ≤ i → ¬ (bit [(3 : BitVec 32), 0] i = true ∧ bit [(3 : BitVec 32), 0] i = true)) ∧
      ((andnot = 0 ↔ subset ≠ 0) ↔
        (∃ i < 5, bit [(3 : BitVec 32), 0] i = true ∧ bit [(3 : BitVec 32), 0] i = false) ∨
        ∀ i, 5 ≤ i → ¬ (bit [(3 : BitVec 32), 0] i = true ∧ bit [(3 : BitVec 32), 0] i = false)) :=
  ⟨by decide, by decide, bitmap_tests_iff (by decide) (by decide) (by decide)⟩

/-- A bitmap of 5 bits that is filled, and the same one shifted by 5: they have no bit
of the five in common, and none of the five is set in the second. -/
theorem bitmap_tests_fill :
    bitmapZero [0, 0] 5 = .ok [0, 0] ∧
    bitmapFill [0, 0] 5 = .ok [0xffffffff, 0x1f] ∧
    bitmapShiftLeft [0, 0] [0xffffffff, 0x1f] 5 5 = .ok [0xffffffe0, 0x1f] ∧
    bitmapAnd [0, 0] [0xffffffff, 0x1f] [0xffffffe0, 0x1f] 5 = .ok ([0xffffffe0, 0x1f], 1) ∧
    bitmapIntersects [0xffffffff, 0x1f] [0xffffffe0, 0x1f] 5 = .ok 0 ∧
    bitmapAndnot [0, 0] [0xffffffe0, 0x1f] [0, 0] 5 = .ok ([0xffffffe0, 0x1f], 1) ∧
    bitmapSubset [0xffffffe0, 0x1f] [0, 0] 5 = .ok 1 :=
  ⟨rfl, rfl, rfl, rfl, rfl, rfl, rfl⟩

end Aim.Kern
