import Aim.Kern.Bitmap
import Aim.Lib.WordArray
import Mathlib.Data.Nat.Find

/-!
# The searches of a bitmap

A search looks at the words of the bitmap one after the other. In each it has a
range of bits: those from the offset on in the first, those below the size in the
last, all of them in between. `BitSearch.Finds` says what the masks, the test and
the index of a search are to do with one word, for the bits of one value; the rest
of the argument is the same for both (`BitSearch.Finds.findNext`).

`__generic_ffs` halves the part of the word in which the first set bit is, five
times (`FfsIn`).
-/

namespace Aim.Kern

open Aim.Lib

/-! ## `ffs` -/

/-- Bit `j` of a word is its first one. -/
def FirstBit (word : BitVec 32) (j : Nat) : Prop :=
  word.getLsbD j = true ∧ ∀ i < j, word.getLsbD i = false

/-- The first bit is among the `span` lowest ones of what is left of the word, and
they start at the number beside it. -/
def FfsIn (target : Nat) (s : Nat × BitVec 32) (span : Nat) : Prop :=
  ∃ j < span, s.1 + j = target ∧ FirstBit s.2 j

variable {word : BitVec 32} {j i : Nat} {addr : List (BitVec 32)} {v : Bool}

theorem and_mask_eq_zero {k : Nat} (hk : k ≤ 32) :
    word &&& BitVec.ofNat 32 (2 ^ k - 1) = 0 ↔ ∀ i < k, word.getLsbD i = false := by
  constructor
  · intro h i hi
    have hbit := congrArg (fun x => x.getLsbD i) h
    simpa [getLsbD_mask (show i < 32 by omega), hi] using hbit
  · intro h
    refine BitVec.eq_of_getLsbD_eq fun i hi => ?_
    rw [BitVec.getLsbD_and, getLsbD_mask hi]
    by_cases hik : i < k
    · simp [h i hik]
    · simp [hik]

/-- One of the steps. -/
theorem FfsIn.step {target num k : Nat} (hk : k ≤ 32) (h : FfsIn target (num, word) (2 * k)) :
    FfsIn target
      (if word &&& BitVec.ofNat 32 (2 ^ k - 1) = 0 then (num + k, word >>> k) else (num, word))
      k := by
  obtain ⟨j, hj, hnum, hbit, hlow⟩ := h
  by_cases hzero : word &&& BitVec.ofNat 32 (2 ^ k - 1) = 0
  · have hempty := (and_mask_eq_zero hk).mp hzero
    have hge : k ≤ j := by
      by_contra hlt
      rw [hempty j (by omega)] at hbit
      cases hbit
    rw [if_pos hzero]
    refine ⟨j - k, by omega, by simp only at hnum ⊢; omega, ?_, ?_⟩
    · rw [BitVec.getLsbD_ushiftRight, Nat.add_sub_cancel' hge]
      exact hbit
    · intro i hi
      rw [BitVec.getLsbD_ushiftRight]
      exact hlow (k + i) (by omega)
  · rw [if_neg hzero]
    refine ⟨j, ?_, hnum, hbit, hlow⟩
    by_contra hge
    exact hzero ((and_mask_eq_zero hk).mpr fun i hi => hlow i (by omega))

theorem genericFfs_eq (hj : j < 32) (h : FirstBit word j) : genericFfs word = j + 1 := by
  have hne : word ≠ 0 := by
    rintro rfl
    have hbit := h.1
    simp at hbit
  have h0 : FfsIn (j + 1) (1, word) (2 * 16) := ⟨j, hj, Nat.add_comm 1 j, h⟩
  have h1 : FfsIn (j + 1) (if word &&& 0xffff = 0 then (1 + 16, word >>> 16) else (1, word)) 16 :=
    h0.step (by decide)
  rw [genericFfs, if_neg hne]
  generalize (if word &&& 0xffff = 0 then (1 + 16, word >>> 16) else (1, word)) = s at h1 ⊢
  obtain ⟨num, word⟩ := s
  have h2 : FfsIn (j + 1) (if word &&& 0xff = 0 then (num + 8, word >>> 8) else (num, word)) 8 :=
    FfsIn.step (k := 8) (by decide) h1
  dsimp only
  generalize (if word &&& 0xff = 0 then (num + 8, word >>> 8) else (num, word)) = s at h2 ⊢
  obtain ⟨num, word⟩ := s
  have h3 : FfsIn (j + 1) (if word &&& 0xf = 0 then (num + 4, word >>> 4) else (num, word)) 4 :=
    FfsIn.step (k := 4) (by decide) h2
  dsimp only
  generalize (if word &&& 0xf = 0 then (num + 4, word >>> 4) else (num, word)) = s at h3 ⊢
  obtain ⟨num, word⟩ := s
  have h4 : FfsIn (j + 1) (if word &&& 0x3 = 0 then (num + 2, word >>> 2) else (num, word)) 2 :=
    FfsIn.step (k := 2) (by decide) h3
  dsimp only
  generalize (if word &&& 0x3 = 0 then (num + 2, word >>> 2) else (num, word)) = s at h4 ⊢
  obtain ⟨num, word⟩ := s
  have h5 : FfsIn (j + 1) (if word &&& 0x1 = 0 then (num + 1, word >>> 1) else (num, word)) 1 :=
    FfsIn.step (k := 1) (by decide) h4
  dsimp only
  obtain ⟨i, hi, hnum, -⟩ := h5
  obtain rfl : i = 0 := by omega
  by_cases hlast : word &&& 0x1 = 0
  · rw [if_pos hlast] at hnum ⊢
    exact hnum
  · rw [if_neg hlast] at hnum ⊢
    exact hnum

/-! ## One word -/

/-- A search for the bits with the value `v`, in one word. -/
structure BitSearch.Finds (S : BitSearch) (v : Bool) : Prop where
  hit : ∀ tmp, S.hit tmp = true ↔ ∃ j < 32, tmp.getLsbD j = v
  index : ∀ {tmp : BitVec 32} {j}, j < 32 → tmp.getLsbD j = v →
    (∀ i < j, tmp.getLsbD i ≠ v) → S.index tmp = j + 1
  first : ∀ (tmp : BitVec 32) {offset j}, 0 < offset → offset < 32 → j < 32 →
    ((S.first tmp offset).getLsbD j = v ↔ offset ≤ j ∧ tmp.getLsbD j = v)
  last : ∀ (tmp : BitVec 32) {size j}, 0 < size → size < 32 → j < 32 →
    ((S.last tmp size).getLsbD j = v ↔ j < size ∧ tmp.getLsbD j = v)

theorem ne_zero_iff : word ≠ 0 ↔ ∃ j < 32, word.getLsbD j = true := by
  constructor
  · intro h
    by_contra hnone
    refine h (BitVec.eq_of_getLsbD_eq fun i hi => ?_)
    have hbit : ¬ word.getLsbD i = true := fun hbit => hnone ⟨i, hi, hbit⟩
    simpa using hbit
  · rintro ⟨j, -, hbit⟩ rfl
    simp at hbit

/-- The bits from `offset` on. -/
theorem getLsbD_from (offset : Nat) (hj : j < 32) :
    (BitVec.allOnes 32 <<< offset).getLsbD j = decide (offset ≤ j) := by
  rw [BitVec.getLsbD_shiftLeft, BitVec.getLsbD_allOnes]
  by_cases h : offset ≤ j
  · simp [h, hj, show j - offset < 32 by omega]
  · simp [h, show j < offset by omega]

/-- The bits below `size`. -/
theorem getLsbD_below {size : Nat} (hsize : size ≤ 32) (j : Nat) :
    (BitVec.allOnes 32 >>> (32 - size)).getLsbD j = decide (j < size) := by
  rw [BitVec.getLsbD_ushiftRight, BitVec.getLsbD_allOnes, decide_eq_decide]
  omega

theorem setBits_finds : setBits.Finds true where
  hit tmp := by
    rw [show setBits.hit tmp = decide (tmp ≠ 0) from rfl, decide_eq_true_iff]
    exact ne_zero_iff
  index hj hbit hlow := genericFfs_eq hj ⟨hbit, fun i hi => by simpa using hlow i hi⟩
  first tmp offset j _ _ hj := by
    rw [show setBits.first tmp offset = tmp &&& (BitVec.allOnes 32 <<< offset) from rfl,
      BitVec.getLsbD_and, getLsbD_from offset hj, Bool.and_eq_true, decide_eq_true_iff, and_comm]
  last tmp size j _ hsize _ := by
    rw [show setBits.last tmp size = tmp &&& (BitVec.allOnes 32 >>> (32 - size)) from rfl,
      BitVec.getLsbD_and, getLsbD_below (by omega), Bool.and_eq_true, decide_eq_true_iff, and_comm]

theorem getLsbD_not_eq_true (hj : j < 32) :
    (~~~word).getLsbD j = true ↔ word.getLsbD j = false := by
  rw [BitVec.getLsbD_not, decide_eq_true hj, Bool.true_and, Bool.not_eq_true']

theorem zeroBits_finds : zeroBits.Finds false where
  hit tmp := by
    rw [show zeroBits.hit tmp = decide (~~~tmp ≠ 0) from rfl, decide_eq_true_iff, ne_zero_iff]
    exact exists_congr fun j => and_congr_right fun hj => getLsbD_not_eq_true hj
  index {tmp j} hj hbit hlow := by
    refine genericFfs_eq hj ⟨(getLsbD_not_eq_true hj).mpr hbit, fun i hi => ?_⟩
    have hone : ¬ (~~~tmp).getLsbD i = true := by
      rw [getLsbD_not_eq_true (hi.trans hj)]
      exact hlow i hi
    simpa using hone
  first tmp offset j _ hoffset hj := by
    rw [show zeroBits.first tmp offset = tmp ||| (BitVec.allOnes 32 >>> (32 - offset)) from rfl,
      BitVec.getLsbD_or, getLsbD_below (by omega), Bool.or_eq_false_iff, decide_eq_false_iff_not,
      Nat.not_lt, and_comm]
  last tmp size j _ _ hj := by
    rw [show zeroBits.last tmp size = tmp ||| (BitVec.allOnes 32 <<< size) from rfl,
      BitVec.getLsbD_or, getLsbD_from size hj, Bool.or_eq_false_iff, decide_eq_false_iff_not,
      Nat.not_le, and_comm]

/-! ## The words of a bitmap -/

namespace BitSearch.Finds

variable {S : BitSearch} {v : Bool} {p : Nat → Prop} {tmp : BitVec 32} {addr : List (BitVec 32)}
  (hS : S.Finds v)

include hS

/-- A word that has, of the bits from `lo` to `hi` of the range that starts at
`result`, those with the value `v`. -/
theorem nextFrom_word {result lo hi : Nat}
    (htmp : ∀ j < 32, (tmp.getLsbD j = v ↔ lo ≤ j ∧ j < hi ∧ p (result + j))) (hhi : hi ≤ 32) :
    NextFrom p (result + lo) (result + hi) (if S.hit tmp then result + S.index tmp else 0) := by
  classical
  by_cases hhit : S.hit tmp = true
  · have hex := (hS.hit tmp).mp hhit
    obtain ⟨hj, hbit⟩ := Nat.find_spec hex
    have hfirst : ∀ i < Nat.find hex, tmp.getLsbD i ≠ v := by
      intro i hi hbit'
      exact Nat.find_min hex hi ⟨by omega, hbit'⟩
    obtain ⟨hlo, hlt, hp⟩ := (htmp _ hj).mp hbit
    rw [if_pos hhit, hS.index hj hbit hfirst]
    refine .inr ⟨result + Nat.find hex, rfl, by omega, by omega, hp, ?_⟩
    intro i hi hij hpi
    refine hfirst (i - result) (by omega) ((htmp _ (by omega)).mpr ⟨by omega, by omega, ?_⟩)
    rwa [Nat.add_sub_cancel' (by omega)]
  · rw [if_neg hhit]
    refine .of_none fun i hi hin hpi => hhit ((hS.hit tmp).mpr ?_)
    refine ⟨i - result, by omega, (htmp _ (by omega)).mpr ⟨by omega, by omega, ?_⟩⟩
    rwa [Nat.add_sub_cancel' (by omega)]

/-- A word without a hit is passed over. -/
theorem nextFrom_pass {result lo n r : Nat}
    (htmp : ∀ j < 32, (tmp.getLsbD j = v ↔ lo ≤ j ∧ j < 32 ∧ p (result + j))) (hlo : lo ≤ 32)
    (hhit : ¬ S.hit tmp = true) (h : NextFrom p (result + 32) n r) :
    NextFrom p (result + lo) n r := by
  refine h.skip (by omega) fun i hi hin hpi => hhit ((hS.hit tmp).mpr ?_)
  refine ⟨i - result, by omega, (htmp _ (by omega)).mpr ⟨by omega, by omega, ?_⟩⟩
  rwa [Nat.add_sub_cancel' (by omega)]

/-- A word with a hit ends the search. -/
theorem nextFrom_hit {result lo n : Nat}
    (htmp : ∀ j < 32, (tmp.getLsbD j = v ↔ lo ≤ j ∧ j < 32 ∧ p (result + j)))
    (hhit : S.hit tmp = true) (hn : result + 32 ≤ n) :
    NextFrom p (result + lo) n (result + S.index tmp) := by
  have hnext := hS.nextFrom_word htmp le_rfl
  rw [if_pos hhit] at hnext
  refine hnext.widen ?_ hn
  obtain ⟨j, hj, hbit⟩ := (hS.hit tmp).mp hhit
  rcases hnext with ⟨hzero, hnone⟩ | ⟨j', hr, -⟩
  · obtain ⟨hlo, hlt, hp⟩ := (htmp j hj).mp hbit
    exact absurd hp (hnone _ (by omega) (by omega))
  · omega

/-- The last word, of which `size` bits count. -/
theorem nextFrom_foundFirst {result lo size : Nat}
    (htmp : ∀ j < 32, (tmp.getLsbD j = v ↔ lo ≤ j ∧ j < 32 ∧ p (result + j))) (hpos : 0 < size)
    (hsize : size < 32) :
    NextFrom p (result + lo) (result + size) (S.foundFirst tmp result size) := by
  refine hS.nextFrom_word (fun j hj => ?_) hsize.le
  rw [hS.last tmp hpos hsize hj, htmp j hj]
  exact ⟨fun h => ⟨h.2.1, h.1, h.2.2.2⟩, fun h => ⟨h.2.1, h.1, hj, h.2.2⟩⟩

theorem words {ws : List (BitVec 32)} (result size : Nat)
    (hp : ∀ j < 32 * ws.length, (bit ws j = v ↔ p (result + j))) (hsize : size ≤ 32 * ws.length) :
    ∃ r, S.words ws result size = .ok r ∧ NextFrom p result (result + size) r := by
  induction ws generalizing result size with
  | nil =>
      obtain rfl : size = 0 := by simpa using hsize
      exact ⟨0, rfl, .of_none fun i hi hin => absurd hin (by omega)⟩
  | cons tmp ws ih =>
      rw [List.length_cons] at hp hsize
      have htmp : ∀ j < 32, (tmp.getLsbD j = v ↔ 0 ≤ j ∧ j < 32 ∧ p (result + j)) := by
        intro j hj
        rw [← bit_cons_of_lt tmp ws hj, hp j (by omega)]
        simp [hj]
      rw [BitSearch.words]
      by_cases hwhole : 32 ≤ size
      · rw [if_pos hwhole]
        by_cases hhit : S.hit tmp = true
        · rw [if_pos hhit]
          exact ⟨_, rfl, hS.nextFrom_hit htmp hhit (by omega)⟩
        · rw [if_neg hhit]
          obtain ⟨r, hr, hnext⟩ := ih (result + 32) (size - 32)
            (fun j hj => by
              rw [← bit_cons_add (by decide) tmp ws j, hp _ (by omega), Nat.add_assoc])
            (by omega)
          refine ⟨r, hr, hS.nextFrom_pass htmp (by omega) hhit ?_⟩
          rwa [show result + 32 + (size - 32) = result + size by omega] at hnext
      · rw [if_neg hwhole]
        by_cases h0 : size = 0
        · rw [if_pos h0]
          exact ⟨0, rfl, .of_none fun i hi hin => absurd hin (by omega)⟩
        · rw [if_neg h0]
          exact ⟨_, rfl, hS.nextFrom_foundFirst htmp (by omega) (by omega)⟩

/-- The whole search, with the bits counted from 0. -/
theorem findNext {size offset : Nat} (hsize : size ≤ 32 * addr.length) (hoffset : 1 ≤ offset) :
    ∃ r, S.findNext addr size offset = .ok r ∧
      NextFrom (fun i => bit addr i = v) (offset - 1) size r := by
  rw [BitSearch.findNext, if_neg (by omega)]
  generalize offset - 1 = o
  dsimp only
  by_cases hout : size ≤ o
  · rw [if_pos hout]
    exact ⟨0, rfl, .of_none fun i hi hin => absurd hin (by omega)⟩
  rw [if_neg hout]
  have hplace : o = o / 32 * 32 + o % 32 := by omega
  have hbits : ∀ j, bit (addr.drop (bitWord o)) j = bit addr (o / 32 * 32 + j) := by
    intro j
    rw [bit_drop (by decide), bitWord, Nat.mul_comm]
  have hlength : (addr.drop (bitWord o)).length = addr.length - o / 32 := List.length_drop
  by_cases hrem : o % 32 = 0
  · rw [if_neg (by omega)]
    obtain ⟨r, hr, hnext⟩ := hS.words (p := fun i => bit addr i = v) (o / 32 * 32)
      (size - o / 32 * 32) (fun j _ => by rw [hbits]) (by omega)
    refine ⟨r, hr, ?_⟩
    rwa [show o / 32 * 32 = o by omega, Nat.add_sub_cancel' (by omega)] at hnext
  rw [if_pos hrem]
  cases hp : addr.drop (bitWord o) with
  | nil =>
      rw [hp, List.length_nil] at hlength
      omega
  | cons tmp p =>
      rw [hp] at hbits hlength
      rw [List.length_cons] at hlength
      -- The bits of the first word that are behind the offset.
      have htmp : ∀ j < 32, ((S.first tmp (o % 32)).getLsbD j = v ↔
          o % 32 ≤ j ∧ j < 32 ∧ bit addr (o / 32 * 32 + j) = v) := by
        intro j hj
        rw [hS.first tmp (by omega) (by omega) hj, ← bit_cons_of_lt tmp p hj, hbits]
        exact ⟨fun h => ⟨h.1, hj, h.2⟩, fun h => ⟨h.1, h.2.2⟩⟩
      dsimp only
      by_cases hsame : size - o / 32 * 32 < 32
      · have hnext := hS.nextFrom_foundFirst (p := fun i => bit addr i = v) htmp (by omega) hsame
        rw [← hplace, Nat.add_sub_cancel' (by omega)] at hnext
        rw [if_pos hsame]
        exact ⟨_, rfl, hnext⟩
      rw [if_neg hsame]
      by_cases hhit : S.hit (S.first tmp (o % 32)) = true
      · have hnext := hS.nextFrom_hit (p := fun i => bit addr i = v) htmp hhit
          (show o / 32 * 32 + 32 ≤ size by omega)
        rw [← hplace] at hnext
        rw [if_pos hhit]
        exact ⟨_, rfl, hnext⟩
      · rw [if_neg hhit]
        obtain ⟨r, hr, hnext⟩ := hS.words (p := fun i => bit addr i = v)
          (o / 32 * 32 + 32) (size - o / 32 * 32 - 32)
          (fun j _ => by rw [← bit_cons_add (by decide) tmp p j, hbits, Nat.add_assoc]) (by omega)
        rw [show o / 32 * 32 + 32 + (size - o / 32 * 32 - 32) = size by omega] at hnext
        have hpass := hS.nextFrom_pass htmp (by omega) hhit hnext
        rw [← hplace] at hpass
        exact ⟨r, hr, hpass⟩

/-- The words behind the last bit are not looked at. -/
theorem findNext_take {size offset : Nat} (hsize : size ≤ 32 * addr.length) (hoffset : 1 ≤ offset) :
    S.findNext (addr.take ((size + 31) / 32)) size offset = S.findNext addr size offset := by
  obtain ⟨r, hr, hnext⟩ := hS.findNext hsize hoffset
  have htake : size ≤ 32 * (addr.take ((size + 31) / 32)).length := by
    rw [List.length_take]
    omega
  obtain ⟨r', hr', hnext'⟩ := hS.findNext htake hoffset
  have hsame := hnext'.congr (q := fun i => bit addr i = v) fun i hi => by
    rw [bit_take addr (show i < 32 * ((size + 31) / 32) by omega)]
  rw [hr, hr', hsame.unique hnext]

/-- The search for the first bit. -/
theorem words_eq_findNext {size : Nat} (hsize : size ≤ 32 * addr.length) :
    S.words addr 0 size = S.findNext addr size 1 := by
  obtain ⟨r, hr, hnext⟩ := hS.findNext hsize le_rfl
  obtain ⟨r', hr', hnext'⟩ := hS.words (p := fun i => bit addr i = v) 0 size
    (fun j _ => by rw [Nat.zero_add]) hsize
  rw [Nat.zero_add] at hnext'
  rw [hr, hr', hnext'.unique hnext]

/-- From one bit to the next, all of them are visited. -/
theorem visits_findNext {size fuel : Nat} (hsize : size ≤ 32 * addr.length) (hfuel : size < fuel) :
    visits Stop.fuel (S.findNext addr size) fuel 1 =
      .ok ((List.range' 1 size).filter fun i => bit addr (i - 1) = v) := by
  refine visits_eq (p := fun i => bit addr i = v) (fun b => ?_) fuel 0 (Nat.zero_le _) (by omega)
  obtain ⟨r, hr, hnext⟩ := hS.findNext hsize (Nat.succ_pos b)
  exact ⟨r, hr, hnext.congr fun i _ => decide_eq_true_iff.symm⟩

end BitSearch.Finds

/-! ## What the searches answer -/

/-- The least bit from `b` to `n` with the value `v`, counted from 1, or 0. -/
def NextBit (v : Bool) (addr : List (BitVec 32)) (n b r : Nat) : Prop :=
  (r = 0 ∧ ∀ i, b ≤ i → i ≤ n → bit addr (i - 1) ≠ v) ∨
    (b ≤ r ∧ r ≤ n ∧ bit addr (r - 1) = v ∧ ∀ i, b ≤ i → i < r → bit addr (i - 1) ≠ v)

theorem nextBit_of_nextFrom {n b r : Nat} (hb : 1 ≤ b)
    (h : NextFrom (fun i => bit addr i = v) (b - 1) n r) : NextBit v addr n b r := by
  rcases h with ⟨rfl, hnone⟩ | ⟨j, rfl, hbj, hjn, hbit, hfirst⟩
  · exact .inl ⟨rfl, fun i hi hin => hnone (i - 1) (by omega) (by omega)⟩
  · exact .inr ⟨by omega, hjn, hbit, fun i hi hij => hfirst (i - 1) (by omega) (by omega)⟩

theorem BitSearch.Finds.nextBit {S : BitSearch} (hS : S.Finds v) {n b : Nat}
    (hn : n ≤ 32 * addr.length) (hb : 1 ≤ b) :
    ∃ r, S.findNext addr n b = .ok r ∧ NextBit v addr n b r := by
  obtain ⟨r, hr, hnext⟩ := hS.findNext hn hb
  exact ⟨r, hr, nextBit_of_nextFrom hb hnext⟩

theorem zeroBits_hit (tmp : BitVec 32) : zeroBits.hit tmp = true ↔ ~~~tmp ≠ 0 := decide_eq_true_iff

theorem not_eq_zero_iff {tmp : BitVec 32} : ~~~tmp = 0 ↔ tmp = BitVec.allOnes 32 := by
  rw [BitVec.not_eq_comm, show ~~~(0 : BitVec 32) = BitVec.allOnes 32 from rfl]

theorem findFirstZeroBit_eq (ws : List (BitVec 32)) (result size : Nat) :
    findFirstZeroBit ws result size = zeroBits.words ws result size := by
  induction ws generalizing result size with
  | nil => rfl
  | cons tmp p ih =>
      have hlast : (if tmp ||| (BitVec.allOnes 32 <<< size) = BitVec.allOnes 32 then .ok 0
          else .ok (result + ffz (tmp ||| (BitVec.allOnes 32 <<< size))) : Except Stop Nat) =
          .ok (zeroBits.foundFirst tmp result size) := by
        simp only [← not_eq_zero_iff, BitSearch.foundFirst, zeroBits_hit, ite_not]
        rw [apply_ite Except.ok]
        rfl
      simp only [findFirstZeroBit, BitSearch.words, ih, hlast, zeroBits_hit]
      rfl

/-- The searches, and the iteration over a bitmap. -/
theorem bitmap_searches (addr : List (BitVec 32)) (n : Nat) (hn : n ≤ 32 * addr.length) :
    (∀ b, 1 ≤ b →
      (∃ r, bitmapFindNextBit addr n b = .ok r ∧ NextBit true addr n b r) ∧
      (∃ r, bitmapFindNextZeroBit addr n b = .ok r ∧ NextBit false addr n b r) ∧
      bitmapFindNextBit (addr.take ((n + 31) / 32)) n b = bitmapFindNextBit addr n b ∧
      bitmapFindNextZeroBit (addr.take ((n + 31) / 32)) n b = bitmapFindNextZeroBit addr n b) ∧
    bitmapFindFirstBit addr n = bitmapFindNextBit addr n 1 ∧
    bitmapFindFirstZeroBit addr n = bitmapFindNextZeroBit addr n 1 ∧
    ∀ fuel, n < fuel →
      visits Stop.fuel (bitmapFindNextBit addr n) fuel 1 =
        .ok ((List.range' 1 n).filter fun i => bit addr (i - 1) = true) ∧
      visits Stop.fuel (bitmapFindNextZeroBit addr n) fuel 1 =
        .ok ((List.range' 1 n).filter fun i => bit addr (i - 1) = false) := by
  refine ⟨fun b hb => ⟨?_, ?_, ?_, ?_⟩, ?_, ?_, fun fuel hfuel => ⟨?_, ?_⟩⟩
  · exact setBits_finds.nextBit hn hb
  · exact zeroBits_finds.nextBit hn hb
  · exact setBits_finds.findNext_take hn hb
  · exact zeroBits_finds.findNext_take hn hb
  · exact setBits_finds.words_eq_findNext hn
  · rw [bitmapFindFirstZeroBit, findFirstZeroBit_eq]
    exact zeroBits_finds.words_eq_findNext hn
  · exact setBits_finds.visits_findNext hn hfuel
  · exact zeroBits_finds.visits_findNext hn hfuel

/-- 40 bits, of which bits 4 and 40 are set. -/
theorem bitmap_searches_forty :
    visits Stop.fuel (bitmapFindNextBit [8, 128, 7] 40) 41 1 = .ok [4, 40] := by
  rw [((bitmap_searches [8, 128, 7] 40 (by decide)).2.2.2 41 (by decide)).1]
  decide

/-! ## The test of a bit -/

/-- Bit `i`, counted from 1, tests as `v`. -/
def TestsAs (addr : List (BitVec 32)) (i : Nat) (v : Bool) : Prop :=
  ∃ t, bitmapTestBit (asInt i) addr = .ok t ∧ (t ≠ 0 ↔ v = true)

theorem one_and_shiftRight_ne_zero (word : BitVec 32) (k : Nat) :
    (1 &&& (word >>> k)).toNat ≠ 0 ↔ word.getLsbD k = true := by
  rw [BitVec.toNat_and, BitVec.toNat_ushiftRight, BitVec.getLsbD, Nat.testBit]
  simp

theorem bitmapTestBit_eq (h1 : 1 ≤ i) (hi : i < 2 ^ 31) :
    bitmapTestBit (asInt i) addr =
      (loadWord addr (i / 32)).map fun (word : BitVec 32) =>
        (1 &&& (word >>> ((i - 1) % 32))).toNat := by
  rw [asInt_of_small (by omega) (by omega), bitmapTestBit, if_pos (by omega), bitWord,
    Int.toNat_natCast, show ((i : Int) - 1).toNat = i - 1 by omega]
  cases loadWord addr (i / 32) with
  | ok word => rfl
  | error e => rfl

/-- The word of the next bit, and the place of this one. -/
theorem testsAs_iff (h1 : 1 ≤ i) (hi : i < 2 ^ 32) :
    TestsAs addr i v ↔
      i < 2 ^ 31 ∧ i / 32 < addr.length ∧ bit addr (32 * (i / 32) + (i - 1) % 32) = v := by
  by_cases hpos : i < 2 ^ 31
  · rw [TestsAs, bitmapTestBit_eq h1 hpos, loadWord]
    cases hword : addr[i / 32]? with
    | none =>
        have hge := List.getElem?_eq_none_iff.mp hword
        constructor
        · rintro ⟨t, ht, -⟩
          cases ht
        · rintro ⟨-, hlt, -⟩
          omega
    | some word =>
        obtain ⟨hlt, -⟩ := List.getElem?_eq_some_iff.mp hword
        rw [bit_of_getElem? hword (Nat.mod_lt _ (by decide))]
        constructor
        · rintro ⟨t, ht, hv⟩
          cases ht
          rw [one_and_shiftRight_ne_zero, Bool.coe_iff_coe] at hv
          exact ⟨hpos, hlt, hv⟩
        · rintro ⟨-, -, hv⟩
          refine ⟨_, rfl, ?_⟩
          rw [one_and_shiftRight_ne_zero, hv]
  · -- The number is negative as an `int`.
    refine ⟨?_, fun h => absurd h.1 hpos⟩
    rintro ⟨t, ht, -⟩
    have hneg : ¬ 0 < asInt (i : Int) := by
      rw [asInt_of_large (by omega) (by omega)]
      omega
    rw [bitmapTestBit, if_neg hneg] at ht
    cases ht

/-- Where the word of the next bit is that of this one, or has the same in its place. -/
def TestsOwn (addr : List (BitVec 32)) (i : Nat) : Prop :=
  i < 2 ^ 31 ∧ (i % 32 ≠ 0 ∨ (i / 32 < addr.length ∧ bit addr (i + 31) = bit addr (i - 1)))

theorem testsAs_bit_iff (h1 : 1 ≤ i) (hi : i < 2 ^ 32) (hlen : i ≤ 32 * addr.length) :
    TestsAs addr i (bit addr (i - 1)) ↔ TestsOwn addr i := by
  rw [testsAs_iff h1 hi, TestsOwn]
  refine and_congr_right fun _ => ?_
  by_cases hrem : i % 32 = 0
  · rw [show 32 * (i / 32) + (i - 1) % 32 = i + 31 by omega]
    simp only [hrem, ne_eq, not_true, false_or]
  · rw [show 32 * (i / 32) + (i - 1) % 32 = i - 1 by omega]
    exact iff_of_true ⟨by omega, rfl⟩ (.inl hrem)

section Results

variable {S : BitSearch} {v : Bool} {addr : List (BitVec 32)} {n b i : Nat}
  (hS : S.Finds v) (hn : n ≤ 32 * addr.length) (h1 : 1 ≤ i)

include hS hn h1

theorem BitSearch.Finds.bit_of_findNext (h : S.findNext addr n b = .ok i) :
    bit addr (i - 1) = v := by
  rcases Nat.eq_zero_or_pos b with rfl | hb
  · cases h
    omega
  · obtain ⟨r, hr, hnext⟩ := hS.nextBit hn hb
    obtain rfl : i = r := Except.ok.inj (h.symm.trans hr)
    rcases hnext with ⟨rfl, -⟩ | ⟨-, -, hbit, -⟩
    · omega
    · exact hbit

theorem BitSearch.Finds.findNext_self_iff (hi : i ≤ n) :
    S.findNext addr n i = .ok i ↔ bit addr (i - 1) = v := by
  refine ⟨hS.bit_of_findNext hn h1, fun hbit => ?_⟩
  obtain ⟨r, hr, hnext⟩ := hS.nextBit hn h1
  rcases hnext with ⟨-, hnone⟩ | ⟨hir, -, -, hfirst⟩
  · exact absurd hbit (hnone i le_rfl hi)
  · rcases Nat.eq_or_lt_of_le hir with rfl | hlt
    · exact hr
    · exact absurd hbit (hfirst i le_rfl hlt)

theorem BitSearch.Finds.testsAs_iff_of_findNext (hi : i ≤ n) (hn32 : n < 2 ^ 32)
    (h : S.findNext addr n b = .ok i) :
    TestsAs addr i v ↔ TestsOwn addr i := by
  rw [← hS.bit_of_findNext hn h1 h]
  exact testsAs_bit_iff h1 (by omega) (by omega)

end Results

/-- The test of a bit and the searches. -/
theorem bitmapTestBit_agrees_iff (addr : List (BitVec 32)) (n i : Nat)
    (hn : n ≤ 32 * addr.length) (hn32 : n < 2 ^ 32) (h1 : 1 ≤ i) (hi : i ≤ n) :
    ((∃ t, bitmapTestBit (asInt i) addr = .ok t ∧
      (t ≠ 0 ↔ bitmapFindNextBit addr n i = .ok i)) ↔ TestsOwn addr i) ∧
    (bitmapFindFirstBit addr n = .ok i → (TestsAs addr i true ↔ TestsOwn addr i)) ∧
    (∀ b, bitmapFindNextBit addr n b = .ok i → (TestsAs addr i true ↔ TestsOwn addr i)) ∧
    (bitmapFindFirstZeroBit addr n = .ok i → (TestsAs addr i false ↔ TestsOwn addr i)) ∧
    ∀ b, bitmapFindNextZeroBit addr n b = .ok i → (TestsAs addr i false ↔ TestsOwn addr i) := by
  refine ⟨?_, fun h => ?_, fun b h => ?_, fun h => ?_, fun b h => ?_⟩
  · rw [← testsAs_bit_iff h1 (by omega) (by omega)]
    refine exists_congr fun t => and_congr_right fun _ => ?_
    rw [bitmapFindNextBit, setBits_finds.findNext_self_iff hn h1 hi]
  · rw [bitmapFindFirstBit, setBits_finds.words_eq_findNext hn] at h
    exact setBits_finds.testsAs_iff_of_findNext hn h1 hi hn32 h
  · exact setBits_finds.testsAs_iff_of_findNext hn h1 hi hn32 h
  · rw [bitmapFindFirstZeroBit, findFirstZeroBit_eq, zeroBits_finds.words_eq_findNext hn] at h
    exact zeroBits_finds.testsAs_iff_of_findNext hn h1 hi hn32 h
  · exact zeroBits_finds.testsAs_iff_of_findNext hn h1 hi hn32 h

theorem bitmapTestBit_agrees_five : ∃ t, bitmapTestBit (asInt (5 : Nat)) [16, 0] = .ok t ∧
    (t ≠ 0 ↔ bitmapFindNextBit [16, 0] 64 5 = .ok 5) :=
  (bitmapTestBit_agrees_iff [16, 0] 64 5 (by decide) (by decide) (by decide) (by decide)).1.mpr
    ⟨by decide, .inl (by decide)⟩

/-- Bit 32 of a bitmap of 64: set, it tests as clear when bit 64 is; clear, it tests as set
when bit 64 is. Of a bitmap of one word, it is not in the array. -/
theorem bitmapTestBit_wrong_word :
    bitmapFindNextBit [0x80000000, 0] 64 32 = .ok 32 ∧
    bitmapFindFirstBit [0x80000000, 0] 64 = .ok 32 ∧
    bitmapTestBit 32 [0x80000000, 0] = .ok 0 ∧
    bitmapFindNextZeroBit [0x7fffffff, 0x80000000] 64 32 = .ok 32 ∧
    bitmapFindFirstZeroBit [0x7fffffff, 0x80000000] 64 = .ok 32 ∧
    bitmapTestBit 32 [0x7fffffff, 0x80000000] = .ok 1 ∧
    bitmapFindNextBit [0x80000000] 32 32 = .ok 32 ∧
    bitmapTestBit 32 [0x80000000] = .error (.oob 1) := by
  decide

end Aim.Kern
