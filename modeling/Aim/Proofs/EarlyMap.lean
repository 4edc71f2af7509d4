import Aim.Proofs.PageIndex
import Aim.Proofs.PageReach

/-!
# The page directory of the boot and the page allocator

`early_mm_init` maps physical memory from 0 on twice, with entries of four
megabytes: at its own addresses, up to 256 MB behind the end of the kernel, and
from `KERN_BASE` on. How far the two go depends on the end of the kernel alone.
The third mapping, of the devices at `DEVSPACE`, is written over what the second
one may have put there. The entries for the first four megabytes are there from the
start (`entrypgdir`). How far the page allocator goes depends on the memory
map alone. So a machine with enough memory has pages that are handed out and
that no access of the kernel reaches.

`earlyMmInit_words` says what is in the directory, `seenTwice_iff` which bytes are
mapped at both addresses, and `early_map_covers_iff` for which machines these are
all the bytes of all pages that are handed out.
-/

namespace Aim.Kern

open Aim.Lib Mem

/-! ## One call of `page_index_early_map` -/

section Loop

variable {m : Mem} {d i j v last : Nat}

theorem word_store32 (hd : IsPage d) (hi : i < 1024) (hj : j < 1024) :
    word (m.store32 (d + 4 * i) v) d j = if j = i then v % 2 ^ 32 else word m d j := by
  have hwi := hd.word_le hi
  have hwj := hd.word_le hj
  split
  · next h =>
      rw [h]
      exact load32_store32_self _ _ _
  · next h => exact load32_store32_ne (by omega) (by omega) (by omega)

/-- An entry that maps four megabytes. -/
def bigEntry (f : Nat) : Nat := 2 ^ 22 * f + 0x83

/-- An address has the high bits of its frame cut off. -/
theorem bigEntry_or (f : Nat) :
    (2 ^ 22 * f ||| pteP ||| pteW ||| ptePS) % 2 ^ 32 = bigEntry (f % 1024) := by
  have hal : 2 ^ 22 * f % pgSize = 0 := by
    rw [pgSize]
    omega
  have hbits : pteP ||| (pteW ||| ptePS) = 0x83 := by decide
  have hsum : 2 ^ 22 * f ||| pteP ||| pteW ||| ptePS = bigEntry f := by
    rw [Nat.or_assoc, Nat.or_assoc, hbits]
    exact aligned_or hal (by decide)
  rw [hsum]
  unfold bigEntry
  omega

/-- The words of a directory after the entries from `a` on, up to the one before
`last`, were pointed to the memory from the frame `f` on. -/
def Filled (d a f last : Nat) (m m' : Mem) : Prop :=
  ∀ j < 1024, word m' d j =
    if a ≤ j ∧ 2 ^ 22 * j < last then bigEntry (f + (j - a)) else word m d j

theorem earlyMapLoop_done {fuel a paddr : Nat} (h : last ≤ a) :
    (earlyMapLoop d last (fuel + 1) a paddr).run m = .ok a m := by
  rw [earlyMapLoop, if_neg (by omega)]
  rfl

theorem earlyMapLoop_round {fuel a paddr : Nat} (h : a < last) :
    (earlyMapLoop d last (fuel + 1) a paddr).run m =
      (earlyMapLoop d last fuel ((a + 2 ^ 22) % 2 ^ 32) ((paddr + 2 ^ 22) % 2 ^ 64)).run
        (m.store32 (d + 4 * (a / 2 ^ 22)) (paddr ||| pteP ||| pteW ||| ptePS)) := by
  rw [earlyMapLoop, if_pos h, run_bind_ok (EStateM.run_modify _ _)]

/-- Below the last four megabytes the loop comes to its end. -/
theorem earlyMapLoop_words (hd : IsPage d) (hlast : last ≤ 0xFFC00000) (fuel a f : Nat)
    (hfuel : last ≤ 2 ^ 22 * a + 2 ^ 22 * fuel) :
    ∃ a' m', (earlyMapLoop d last (fuel + 1) (2 ^ 22 * a) (2 ^ 22 * f)).run m = .ok a' m' ∧
      ∀ j < 1024, word m' d j =
        if a ≤ j ∧ 2 ^ 22 * j < last then bigEntry ((f + (j - a)) % 1024) else word m d j := by
  have hdone : ∀ (m : Mem) (fuel a f : Nat), last ≤ 2 ^ 22 * a →
      ∃ a' m', (earlyMapLoop d last (fuel + 1) (2 ^ 22 * a) (2 ^ 22 * f)).run m = .ok a' m' ∧
        ∀ j < 1024, word m' d j =
          if a ≤ j ∧ 2 ^ 22 * j < last then bigEntry ((f + (j - a)) % 1024) else word m d j := by
    intro m fuel a f hge
    refine ⟨_, _, earlyMapLoop_done hge, fun j _ => ?_⟩
    rw [if_neg (by omega)]
  induction fuel generalizing a f m with
  | zero => exact hdone m 0 a f (by omega)
  | succ fuel ih =>
      rcases Nat.lt_or_ge (2 ^ 22 * a) last with hlt | hge
      · rw [earlyMapLoop_round hlt, Nat.mul_div_cancel_left a (by decide),
          show (2 ^ 22 * a + 2 ^ 22) % 2 ^ 32 = 2 ^ 22 * (a + 1) by omega,
          show (2 ^ 22 * f + 2 ^ 22) % 2 ^ 64 = 2 ^ 22 * ((f + 1) % 2 ^ 42) by omega]
        obtain ⟨a', m', hrun, hwords⟩ := ih (a + 1) ((f + 1) % 2 ^ 42) (by omega)
        refine ⟨a', m', hrun, fun j hj => ?_⟩
        rw [hwords j hj, word_store32 hd (by omega) hj, bigEntry_or]
        rcases Nat.lt_trichotomy j a with hja | rfl | hja
        · rw [if_neg (by omega), if_neg (by omega), if_neg (by omega)]
        · rw [if_neg (by omega), if_pos rfl, if_pos ⟨Nat.le_refl j, hlt⟩, Nat.sub_self,
            Nat.add_zero]
        · by_cases hj' : 2 ^ 22 * j < last
          · rw [if_pos ⟨hja, hj'⟩, if_pos ⟨by omega, hj'⟩,
              show ((f + 1) % 2 ^ 42 + (j - (a + 1))) % 1024 = (f + (j - a)) % 1024 by omega]
          · rw [if_neg (by omega), if_neg (by omega), if_neg (by omega)]
      · exact hdone m (fuel + 1) a f hge

/-- The place in its slot of four megabytes stays that of the first address. Behind
what it is in the last slot the loop does not come to its end: the address wraps
around before it gets there. -/
theorem earlyMapLoop_stuck (fuel a paddr : Nat) (ha : a < 2 ^ 32)
    (hlast : 0xFFC00000 + a % 2 ^ 22 < last) :
    ∃ m', (earlyMapLoop d last fuel a paddr).run m = .error .fuel m' := by
  induction fuel generalizing a paddr m with
  | zero => exact ⟨m, rfl⟩
  | succ fuel ih =>
      rw [earlyMapLoop_round (by omega)]
      exact ih _ _ (Nat.mod_lt _ (by decide)) (by omega)

/-- The directory at `d` after a list of entries was stored in it. -/
def storeEntries (d : Nat) (l : List (Nat × Nat)) (m : Mem) : Mem :=
  l.foldl (fun m e => m.store32 (d + 4 * e.1) e.2) m

/-- Up to there it does, with one entry for each slot. -/
theorem earlyMapLoop_returns (slots fuel a paddr : Nat) (ha : a < 2 ^ 32)
    (hlast : last ≤ 0xFFC00000 + a % 2 ^ 22) (hslots : last ≤ a + 2 ^ 22 * slots)
    (hfuel : slots < fuel) :
    ∃ a' l, (earlyMapLoop d last fuel a paddr).run m = .ok a' (storeEntries d l m) ∧
      l.length ≤ slots ∧ ∀ e ∈ l, e.1 < 1024 := by
  obtain ⟨fuel, rfl⟩ := Nat.exists_eq_succ_of_ne_zero (by omega : fuel ≠ 0)
  induction slots generalizing fuel a paddr m with
  | zero => exact ⟨a, [], earlyMapLoop_done (by omega), le_rfl, by simp⟩
  | succ slots ih =>
      rcases Nat.lt_or_ge a last with hlt | hge
      · obtain ⟨fuel, rfl⟩ := Nat.exists_eq_succ_of_ne_zero (by omega : fuel ≠ 0)
        obtain ⟨a', l, hrun, hlength, hslot⟩ := ih ((a + 2 ^ 22) % 2 ^ 32)
          ((paddr + 2 ^ 22) % 2 ^ 64) (Nat.mod_lt _ (by decide)) (by omega) (by omega) fuel (by omega)
        refine ⟨a', (a / 2 ^ 22, paddr ||| pteP ||| pteW ||| ptePS) :: l, ?_, ?_, ?_⟩
        · rw [earlyMapLoop_round hlt]
          exact hrun
        · rw [List.length_cons]
          omega
        · exact List.forall_mem_cons.mpr ⟨by simp only; omega, hslot⟩
      · exact ⟨a, [], earlyMapLoop_done hge, Nat.zero_le _, by simp⟩

theorem pgRoundDown_large (a : Nat) : pgRoundDown (2 ^ 22 * a) = 2 ^ 22 * a := by
  rw [pgRoundDown, pgSize]
  omega

/-- A call from a slot of four megabytes on. -/
theorem pageIndexEarlyMap_words (hd : IsPage d) {a f size : Nat}
    (hlast : pgRoundDown ((2 ^ 22 * a + size + 2 ^ 32 - 1) % 2 ^ 32) = last)
    (hle : last ≤ 0xFFC00000) :
    ∃ result m', (pageIndexEarlyMap d (2 ^ 22 * f) (2 ^ 22 * a) size).run m = .ok result m' ∧
      ∀ j < 1024, word m' d j =
        if a ≤ j ∧ 2 ^ 22 * j < last then bigEntry ((f + (j - a)) % 1024) else word m d j := by
  obtain ⟨a', m', hrun, hwords⟩ :=
    earlyMapLoop_words (m := m) hd hle (2 ^ 10) a f (by omega)
  refine ⟨((last : Int) - a') % 2 ^ 32 / 2 ^ 22, m', ?_, hwords⟩
  rw [pageIndexEarlyMap, hlast, pgRoundDown_large, run_bind_ok hrun]
  rfl

/-- Memory that is not above where it is mapped has no high bits to lose. -/
theorem pageIndexEarlyMap_ok (hd : IsFrame d) {a f size : Nat} (hf : f ≤ a)
    (hlast : pgRoundDown ((2 ^ 22 * a + size + 2 ^ 32 - 1) % 2 ^ 32) = last)
    (hle : last ≤ 0xFFC00000) :
    ∃ result m', (pageIndexEarlyMap d (2 ^ 22 * f) (2 ^ 22 * a) size).run m = .ok result m' ∧
      Filled d a f last m m' := by
  obtain ⟨result, m', hrun, hwords⟩ :=
    pageIndexEarlyMap_words (m := m) (f := f) hd.isPage hlast hle
  refine ⟨result, m', hrun, fun j hj => ?_⟩
  rw [hwords j hj]
  by_cases hin : a ≤ j ∧ 2 ^ 22 * j < last
  · rw [if_pos hin, if_pos hin, Nat.mod_eq_of_lt (by omega)]
  · rw [if_neg hin, if_neg hin]

theorem pageIndexEarlyMap_stuck {a paddr size : Nat} (ha : a < 1024)
    (hlast : pgRoundDown ((2 ^ 22 * a + size + 2 ^ 32 - 1) % 2 ^ 32) = last)
    (hgt : 0xFFC00000 < last) :
    ∃ m', (pageIndexEarlyMap d paddr (2 ^ 22 * a) size).run m = .error .fuel m' := by
  obtain ⟨m', hrun⟩ := earlyMapLoop_stuck (d := d) (m := m) (2 ^ 10 + 1) (2 ^ 22 * a) paddr
    (by omega) (show _ < last by omega)
  exact ⟨m', by rw [pageIndexEarlyMap, hlast, pgRoundDown_large, run_bind_error hrun]⟩

end Loop

/-! ## The directory -/

section Directory

variable {m m' : Mem} {kernStart d kend b : Nat}

/-- Where the first mapping ends. -/
def identityEnd (kend : Nat) : Nat :=
  pgRoundDown ((kend + 2 ^ 32 - kernBase + 0x10000000 - 1) % 2 ^ 32)

/-- Where the second one, from `KERN_BASE` on, ends. -/
def windowEnd (kernStart kend : Nat) : Nat :=
  pgRoundDown ((kend + kernStart + 0x10000000 - 1) % 2 ^ 32)

/-- The entries of the directory. -/
def earlyWord (kernStart kend j : Nat) : Nat :=
  if 0x3F8 ≤ j ∧ j < 0x3FC then bigEntry j
  else if 512 ≤ j ∧ 2 ^ 22 * j < windowEnd kernStart kend then bigEntry (j - 512)
  else if 2 ^ 22 * j < identityEnd kend then bigEntry j
  else entrypgdir j

theorem identityEnd_eq :
    pgRoundDown ((2 ^ 22 * 0 + (kend + 2 ^ 32 - kernBase + 0x10000000) % 2 ^ 32 + 2 ^ 32 - 1) %
      2 ^ 32) = identityEnd kend := by
  have harg : (2 ^ 22 * 0 + (kend + 2 ^ 32 - kernBase + 0x10000000) % 2 ^ 32 + 2 ^ 32 - 1) %
      2 ^ 32 = (kend + 2 ^ 32 - kernBase + 0x10000000 - 1) % 2 ^ 32 := by
    rw [kernBase]
    omega
  rw [harg, identityEnd]

theorem windowEnd_eq :
    pgRoundDown ((2 ^ 22 * 512 + (kend + 2 ^ 32 - kernBase + kernStart + 0x10000000) % 2 ^ 32 +
      2 ^ 32 - 1) % 2 ^ 32) = windowEnd kernStart kend := by
  have harg : (2 ^ 22 * 512 + (kend + 2 ^ 32 - kernBase + kernStart + 0x10000000) % 2 ^ 32 +
      2 ^ 32 - 1) % 2 ^ 32 = (kend + kernStart + 0x10000000 - 1) % 2 ^ 32 := by
    rw [kernBase]
    omega
  rw [harg, windowEnd]

theorem earlyWord_eq {m₁ m₂ m₃ : Mem} (h₁ : Filled d 0 0 (identityEnd kend) m m₁)
    (h₂ : Filled d 512 0 (windowEnd kernStart kend) m₁ m₂)
    (h₃ : Filled d 0x3F8 0x3F8 0xFEFFF000 m₂ m₃) {j : Nat} (hj : j < 1024)
    (hinit : word m d j = entrypgdir j) : word m₃ d j = earlyWord kernStart kend j := by
  rw [h₃ j hj, h₂ j hj, h₁ j hj, hinit, earlyWord]
  by_cases hdev : 0x3F8 ≤ j ∧ j < 0x3FC
  · rw [if_pos (by omega), if_pos hdev, Nat.add_sub_cancel' hdev.1]
  · rw [if_neg (by omega), if_neg hdev, Nat.zero_add, Nat.zero_add, Nat.sub_zero]
    simp only [Nat.zero_le, true_and]

/-- `early_mm_init` returns and leaves these entries, or it does not return. -/
theorem earlyMmInit_cases (kernStart kend : Nat) (hd : IsFrame d)
    (hinit : ∀ j < 1024, word m d j = entrypgdir j) :
    if identityEnd kend ≤ 0xFFC00000 ∧ windowEnd kernStart kend ≤ 0xFFC00000 then
      ∃ m', (earlyMmInit kernStart d kend).run m = .ok () m' ∧
        ∀ j < 1024, word m' d j = earlyWord kernStart kend j
    else ∃ m', (earlyMmInit kernStart d kend).run m = .error .fuel m' := by
  have hdev : pgRoundDown ((2 ^ 22 * 0x3F8 + 0x01000000 + 2 ^ 32 - 1) % 2 ^ 32) =
      0xFEFFF000 := rfl
  unfold earlyMmInit
  by_cases h₁ : identityEnd kend ≤ 0xFFC00000
  · obtain ⟨_, m₁, hrun₁, hw₁⟩ := pageIndexEarlyMap_ok (m := m) (a := 0) (f := 0) hd
      (Nat.le_refl 0) identityEnd_eq h₁
    rw [run_bind_ok (show (pageIndexEarlyMap d 0 0 _).run m = _ from hrun₁)]
    by_cases h₂ : windowEnd kernStart kend ≤ 0xFFC00000
    · rw [if_pos ⟨h₁, h₂⟩]
      obtain ⟨_, m₂, hrun₂, hw₂⟩ := pageIndexEarlyMap_ok (m := m₁) (a := 512) (f := 0) hd
        (by decide) windowEnd_eq h₂
      obtain ⟨_, m₃, hrun₃, hw₃⟩ := pageIndexEarlyMap_ok (m := m₂) (a := 0x3F8) (f := 0x3F8) hd
        (by decide) hdev (by decide)
      rw [run_bind_ok (show (pageIndexEarlyMap d 0 kernBase _).run m₁ = _ from hrun₂),
        run_bind_ok (show (pageIndexEarlyMap d devSpace devSpace _).run m₂ = _ from hrun₃)]
      exact ⟨m₃, rfl, fun j hj => earlyWord_eq hw₁ hw₂ hw₃ hj (hinit j hj)⟩
    · rw [if_neg (fun h => h₂ h.2)]
      obtain ⟨m₂, hrun₂⟩ := pageIndexEarlyMap_stuck (m := m₁) (a := 512) (d := d) (by decide)
        windowEnd_eq (Nat.not_le.mp h₂)
      exact ⟨m₂, run_bind_error hrun₂⟩
  · rw [if_neg (fun h => h₁ h.1)]
    obtain ⟨m₁, hrun₁⟩ := pageIndexEarlyMap_stuck (m := m) (a := 0) (d := d) (by decide)
      identityEnd_eq (Nat.not_le.mp h₁)
    exact ⟨m₁, run_bind_error hrun₁⟩

theorem earlyMmInit_words (hd : IsFrame d) (hinit : ∀ j < 1024, word m d j = entrypgdir j)
    (hrun : (earlyMmInit kernStart d kend).run m = .ok () m') :
    ∀ j < 1024, word m' d j = earlyWord kernStart kend j := by
  have hcases := earlyMmInit_cases kernStart kend hd hinit
  split at hcases
  · obtain ⟨m₁, hrun₁, hwords⟩ := hcases
    rw [hrun] at hrun₁
    injection hrun₁ with _ hm
    rw [hm]
    exact hwords
  · obtain ⟨m₁, hrun₁⟩ := hcases
    rw [hrun] at hrun₁
    cases hrun₁

/-! ## What it translates -/

theorem bigEntry_bit (f : Nat) {b : Nat} (hb : 0x83 &&& b ≠ 0) : bigEntry f &&& b ≠ 0 := by
  have hal : 2 ^ 22 * f % pgSize = 0 := by
    rw [pgSize]
    omega
  rw [bigEntry, ← aligned_or hal (by decide), Nat.and_or_distrib_right]
  exact fun h => hb (Nat.or_eq_zero_iff.mp h).2

theorem translate_big {f va : Nat} (h : word m d (pdx va) = bigEntry f) :
    translate m d va = some (2 ^ 22 * f + va % 2 ^ 22) := by
  have hload : m.load32 (d + 4 * pdx va) = bigEntry f := h
  have hentry : pageEntry m d va = some (bigEntry f) := by
    rw [pageEntry, hload, if_neg (bigEntry_bit f (by decide)), if_pos (bigEntry_bit f (by decide))]
  have hdiv : bigEntry f / 2 ^ 22 = f := by
    rw [bigEntry]
    omega
  rw [translate, hentry, Option.map_some, hload, if_pos (bigEntry_bit f (by decide)), hdiv]

theorem translate_none {va : Nat} (h : word m d (pdx va) = 0) : translate m d va = none := by
  have hload : m.load32 (d + 4 * pdx va) = 0 := h
  rw [translate, pageEntry, hload]
  rfl

/-- The byte `b` of the physical memory is at its own address and behind
`KERN_BASE`. -/
def SeenTwice (m : Mem) (d b : Nat) : Prop :=
  translate m d b = some b ∧ translate m d ((b + kernBase) % 2 ^ 32) = some b

/-- The first mapping reaches so far, or `b` is in the four megabytes that are mapped from
the start. -/
def IdentityReach (kend b : Nat) : Prop := b < 2 ^ 22 ∨ 2 ^ 22 * (b / 2 ^ 22) < identityEnd kend

/-- So does the second one, or the first entry from `KERN_BASE` on was not written
over. -/
def WindowReach (kernStart kend b : Nat) : Prop :=
  kernBase + 2 ^ 22 * (b / 2 ^ 22) < windowEnd kernStart kend ∨
    b < 2 ^ 22 ∧ identityEnd kend ≤ kernBase

/-- Both mappings reach so far, and the devices are not in the way. -/
def BothReach (kernStart kend b : Nat) : Prop :=
  b < kernBase ∧ IdentityReach kend b ∧ WindowReach kernStart kend b ∧
    ¬ (0x7E000000 ≤ b ∧ b < 0x7F000000)

variable (hwords : ∀ j < 1024, word m d j = earlyWord kernStart kend j)

include hwords

/-- Below `KERN_BASE` an address is mapped to itself or not at all. -/
theorem translate_low (hb : b < kernBase) :
    IdentityReach kend b ∧ translate m d b = some b ∨
      ¬ IdentityReach kend b ∧ translate m d b = none := by
  rw [kernBase] at hb
  have hpdx : pdx b = b / 2 ^ 22 := Nat.mod_eq_of_lt (by omega)
  have hword : word m d (pdx b) = earlyWord kernStart kend (b / 2 ^ 22) := by
    rw [← hpdx]
    exact hwords _ (pdx_lt b)
  have hself : word m d (pdx b) = bigEntry (b / 2 ^ 22) → translate m d b = some b := fun h => by
    rw [translate_big h, Nat.div_add_mod]
  rw [earlyWord, if_neg (by omega), if_neg (by omega)] at hword
  by_cases hlt : 2 ^ 22 * (b / 2 ^ 22) < identityEnd kend
  · rw [if_pos hlt] at hword
    exact .inl ⟨.inr hlt, hself hword⟩
  rw [if_neg hlt, entrypgdir] at hword
  by_cases hfirst : b < 2 ^ 22
  · have h0 : b / 2 ^ 22 = 0 := Nat.div_eq_of_lt hfirst
    rw [if_pos (.inl h0)] at hword
    exact .inl ⟨.inl hfirst, hself (by rw [hword, h0]; rfl)⟩
  · rw [if_neg (by rw [kernBase]; omega)] at hword
    exact .inr ⟨fun h => h.elim hfirst hlt, translate_none hword⟩

/-- Behind it, the memory is seen where the second mapping reaches and the
devices are not. -/
theorem translate_high (hb : b < kernBase) :
    translate m d (b + kernBase) = some b ↔
      WindowReach kernStart kend b ∧ ¬ (0x7E000000 ≤ b ∧ b < 0x7F000000) := by
  have hbase : kernBase = 0x80000000 := rfl
  have hpdx : pdx (b + kernBase) = b / 2 ^ 22 + 512 := by
    rw [pdx, hbase]
    omega
  have hword : word m d (pdx (b + kernBase)) = earlyWord kernStart kend (b / 2 ^ 22 + 512) := by
    rw [← hpdx]
    exact hwords _ (pdx_lt _)
  have hframe : 2 ^ 22 * (b / 2 ^ 22 + 512) = kernBase + 2 ^ 22 * (b / 2 ^ 22) := by
    rw [Nat.mul_add, Nat.add_comm]
    rfl
  rw [earlyWord, hframe] at hword
  -- An entry for the frame of the address itself leads elsewhere.
  have helse : word m d (pdx (b + kernBase)) = bigEntry (b / 2 ^ 22 + 512) →
      translate m d (b + kernBase) ≠ some b := by
    intro h heq
    rw [translate_big h, hframe, hbase] at heq
    have hsome := Option.some.inj heq
    omega
  have hcovered : (0x3F8 ≤ b / 2 ^ 22 + 512 ∧ b / 2 ^ 22 + 512 < 0x3FC) ↔
      0x7E000000 ≤ b ∧ b < 0x7F000000 := by omega
  by_cases hdev : 0x7E000000 ≤ b ∧ b < 0x7F000000
  · rw [if_pos (hcovered.mpr hdev)] at hword
    exact iff_of_false (helse hword) fun h => h.2 hdev
  rw [if_neg (fun h => hdev (hcovered.mp h))] at hword
  have hself : word m d (pdx (b + kernBase)) = bigEntry (b / 2 ^ 22) →
      translate m d (b + kernBase) = some b := by
    intro h
    have hmod : (b + kernBase) % 2 ^ 22 = b % 2 ^ 22 := by
      rw [hbase]
      omega
    rw [translate_big h, hmod, Nat.div_add_mod]
  by_cases hwin : kernBase + 2 ^ 22 * (b / 2 ^ 22) < windowEnd kernStart kend
  · rw [if_pos ⟨Nat.le_add_left _ _, hwin⟩, Nat.add_sub_cancel] at hword
    exact iff_of_true (hself hword) ⟨.inl hwin, hdev⟩
  rw [if_neg (fun h => hwin h.2)] at hword
  by_cases hid : kernBase + 2 ^ 22 * (b / 2 ^ 22) < identityEnd kend
  · rw [if_pos hid] at hword
    refine iff_of_false (helse hword) fun h => h.1.elim hwin fun hlow => ?_
    omega
  rw [if_neg hid, entrypgdir, show kernBase / 2 ^ 22 = 512 from rfl] at hword
  by_cases hfirst : b < 2 ^ 22
  · have h0 : b / 2 ^ 22 = 0 := Nat.div_eq_of_lt hfirst
    rw [if_pos (.inr (by omega))] at hword
    refine iff_of_true (hself (by rw [hword, h0]; rfl)) ⟨.inr ⟨hfirst, ?_⟩, hdev⟩
    rw [h0] at hid
    omega
  · rw [if_neg (by omega)] at hword
    refine iff_of_false ?_ fun h => h.1.elim hwin fun hlow => hfirst hlow.1
    rw [translate_none hword]
    intro h
    cases h

theorem seenTwice_iff (hb : b < 2 ^ 32) : SeenTwice m d b ↔ BothReach kernStart kend b := by
  rcases Nat.lt_or_ge b kernBase with hlow | hhigh
  · have hshift : (b + kernBase) % 2 ^ 32 = b + kernBase := by
      rw [kernBase] at hlow ⊢
      omega
    have hid : translate m d b = some b ↔ IdentityReach kend b := by
      rcases translate_low hwords hlow with ⟨h, hself⟩ | ⟨h, hnone⟩
      · exact iff_of_true hself h
      · rw [hnone]
        exact iff_of_false (fun hnone => by cases hnone) h
    rw [SeenTwice, hshift, hid, translate_high hwords hlow, BothReach]
    exact ⟨fun h => ⟨hlow, h⟩, fun h => h.2⟩
  · -- The shifted address is low, and leads to itself if anywhere.
    refine iff_of_false ?_ fun h => absurd h.1 (Nat.not_lt.mpr hhigh)
    intro h
    have hshift : (b + kernBase) % 2 ^ 32 = b - kernBase := by
      rw [kernBase] at hhigh ⊢
      omega
    have hlow : b - kernBase < kernBase := by
      rw [kernBase] at hhigh ⊢
      omega
    have htwice := h.2
    rw [hshift] at htwice
    rcases translate_low hwords hlow with ⟨-, hself⟩ | ⟨-, hnone⟩
    · have hsame := Option.some.inj (hself.symm.trans htwice)
      rw [kernBase] at hhigh hsame
      omega
    · rw [hnone] at htwice
      cases htwice

end Directory

/-! ## The pages that are handed out -/

/-- All bytes of the page at `p` are mapped twice. -/
def PageSeen (m : Mem) (d p : Nat) : Prop := ∀ x < 4096, SeenTwice m d ((p + x) % 2 ^ 32)

/-- The start of the managed run, for the region `i`. -/
def Boot.managedStart (boot : Boot) (i : Nat) : Nat :=
  if boot.start i < boot.kernelEnd.toNat then boot.kernelPageEnd else boot.start i

/-- The end of the last whole buddy. -/
def Boot.managedEnd (boot : Boot) (i : Nat) : Nat :=
  boot.managedStart i + 2 ^ 22 * (boot.length i / 2 ^ 22)

/-- The chosen region is not as large as a buddy, or so large that its table of
buddies cannot be allocated; or else what is managed ends below `KERN_BASE`,
both mappings reach its last byte, and it is clear of the memory that the devices
cover. -/
def WindowFits (kernStart kend : Nat) (boot : Boot) : Prop :=
  ∃ i, boot.Chosen i ∧ (boot.length i < 2 ^ 22 ∨ 513 * 2 ^ 22 ≤ boot.length i ∨
    BothReach kernStart kend (boot.managedEnd i - 1) ∧
      (boot.managedEnd i ≤ 0x7E000000 ∨ 0x7F000000 ≤ boot.managedStart i))

section Pages

variable {kernStart kend base n : Nat}

theorem BothReach.of_le {a b : Nat} (hb : BothReach kernStart kend b) (hab : a ≤ b)
    (ha : ¬ (0x7E000000 ≤ a ∧ a < 0x7F000000)) : BothReach kernStart kend a := by
  obtain ⟨h₁, h₂, h₃, _⟩ := hb
  unfold IdentityReach at h₂
  unfold WindowReach at h₃
  refine ⟨by omega, ?_, ?_, ha⟩
  · unfold IdentityReach
    omega
  · unfold WindowReach
    omega

/-- A run of bytes that is not too long is reached when its last byte is and
the devices are not in between. -/
theorem bothReach_run (hbase : base < 2 ^ 32) (hn : 0 < n) (hshort : n ≤ 2 ^ 31) :
    (∀ y < n, BothReach kernStart kend ((base + y) % 2 ^ 32)) ↔
      BothReach kernStart kend (base + n - 1) ∧
        (base + n ≤ 0x7E000000 ∨ 0x7F000000 ≤ base) := by
  constructor
  · intro h
    have hfirst := (h 0 hn).1
    rw [kernBase] at hfirst
    have hlast := h (n - 1) (by omega)
    rw [show (base + (n - 1)) % 2 ^ 32 = base + n - 1 by omega] at hlast
    refine ⟨hlast, ?_⟩
    by_contra hmid
    -- A byte of the run that the devices cover.
    have hdev := (h (max base 0x7E000000 - base) (by omega)).2.2.2
    omega
  · intro h
    obtain ⟨hlast, hclear⟩ := h
    have hlt := hlast.1
    rw [kernBase] at hlt
    intro y hy
    refine hlast.of_le (by omega) (by omega)

/-- The pages of `n` buddies, byte by byte. -/
theorem pagesSeen_iff {m : Mem} {d : Nat}
    (hwords : ∀ j < 1024, word m d j = earlyWord kernStart kend j) :
    (∀ q < 1024 * n, PageSeen m d (areaAddr base q)) ↔
      ∀ y < 2 ^ 22 * n, BothReach kernStart kend ((base + y) % 2 ^ 32) := by
  have hbyte : ∀ b < 2 ^ 32, SeenTwice m d b ↔ BothReach kernStart kend b :=
    fun b hb => seenTwice_iff hwords hb
  constructor
  · intro h y hy
    have hseen := h (y / 4096) (by omega) (y % 4096) (Nat.mod_lt _ (by decide))
    rw [areaAddr, hbyte _ (Nat.mod_lt _ (by decide))] at hseen
    rw [show (base + y) % 2 ^ 32 = ((base + 4096 * (y / 4096)) % 2 ^ 32 + y % 4096) % 2 ^ 32 by
      omega]
    exact hseen
  · intro h q hq x hx
    have hreach := h (4096 * q + x) (by omega)
    rw [areaAddr, hbyte _ (Nat.mod_lt _ (by decide))]
    rw [show ((base + 4096 * q) % 2 ^ 32 + x) % 2 ^ 32 = (base + (4096 * q + x)) % 2 ^ 32 by
      omega]
    exact hreach

/-- The extent, with the kernel below `KERN_BASE`. -/
theorem areaExtent_managed {boot : Boot} {i : Nat} (hi : boot.Chosen i)
    (hend : boot.kernelEnd.toNat < kernBase) :
    (areaExtent boot).1 = boot.managedStart i ∧
      (areaExtent boot).2 / 1024 = boot.length i / 2 ^ 22 := by
  have hround : pgRoundUp boot.kernelEnd.toNat = boot.kernelPageEnd := by
    rw [kernBase] at hend
    rw [pgRoundUp, pgSize, Boot.kernelPageEnd]
    omega
  rw [areaExtent_eq hi, Boot.managedStart, hround]
  split
  · exact ⟨rfl, by omega⟩
  · exact ⟨rfl, by omega⟩

end Pages

/-- Exactly the machines whose page allocator stays inside of what the directory
maps. -/
theorem early_map_covers_iff {boot : Boot} {kernStart d : Nat} (kend : UInt32) {m m' : Mem}
    (hend : boot.kernelEnd.toNat = premapAddr kend.toNat) (hd : IsFrame d)
    (hinit : ∀ j < 1024, word m d j = entrypgdir j)
    (hrun : (earlyMmInit kernStart d kend.toNat).run m = .ok () m') :
    (∀ p, Returnable boot p → PageSeen m' d p) ↔ WindowFits kernStart kend.toNat boot := by
  have hwords := earlyMmInit_words hd hinit hrun
  have hkend := kend.toNat_lt
  have hlow : boot.kernelEnd.toNat < kernBase := by
    rw [hend, premapAddr, kernBase]
    split
    · omega
    · omega
  have hi := chosen_largestRegion boot
  generalize largestRegion boot = i at hi
  obtain ⟨hstart, hbuddies⟩ := areaExtent_managed hi hlow
  have hbase := areaExtent_base_lt boot
  rw [WindowFits, hi.exists_iff, Boot.managedEnd]
  simp only [returnable_iff]
  rw [hstart] at hbase ⊢
  rw [hbuddies]
  generalize boot.length i = len
  have hpages : (∀ p, (len / 2 ^ 22 ≤ 512 ∧
        ∃ q < 1024 * (len / 2 ^ 22), p = areaAddr (boot.managedStart i) q) → PageSeen m' d p) ↔
      (len / 2 ^ 22 ≤ 512 → ∀ q < 1024 * (len / 2 ^ 22),
        PageSeen m' d (areaAddr (boot.managedStart i) q)) := by
    constructor
    · intro h hshort q hq
      exact h _ ⟨hshort, q, hq, rfl⟩
    · intro h p hp
      obtain ⟨hshort, q, hq, rfl⟩ := hp
      exact h hshort q hq
  rw [hpages, pagesSeen_iff hwords]
  rcases Nat.lt_or_ge len (2 ^ 22) with hsmall | hbuddy
  · refine iff_of_true (fun _ y hy => ?_) (Or.inl hsmall)
    omega
  rcases Nat.lt_or_ge len (513 * 2 ^ 22) with hshort | hlarge
  · rw [bothReach_run hbase (by omega) (by omega)]
    constructor
    · intro h
      exact Or.inr (Or.inr (h (by omega)))
    · intro h _
      rcases h with h | h | h
      · omega
      · omega
      · exact h
  · refine iff_of_true (fun h => ?_) (Or.inr (Or.inl hlarge))
    omega

def zeroMem : Mem := fun _ => 0

/-- Memory before the boot, with the page directory at `d`. -/
def bootMem (d : Nat) : Mem := (zeroMem.store32 (d + 4 * 0) 0x83).store32 (d + 4 * 512) 0x83

theorem bootMem_words {d : Nat} (hd : IsFrame d) :
    ∀ j < 1024, word (bootMem d) d j = entrypgdir j := by
  intro j hj
  rw [bootMem, word_store32 hd.isPage (by decide) hj, word_store32 hd.isPage (by decide) hj,
    entrypgdir, show kernBase / 2 ^ 22 = 512 from rfl]
  by_cases h0 : j = 0
  · subst h0
    rfl
  · by_cases h512 : j = 512
    · subst h512
      rfl
    · rw [if_neg h512, if_neg h0, if_neg (not_or.mpr ⟨h0, h512⟩)]
      rfl

/-- The page allocator of 126 MB stays inside. -/
theorem early_map_covers_iff_small :
    ∃ m', (earlyMmInit 0 0x110000 0x80123456).run (bootMem 0x110000) = .ok () m' ∧
      Returnable (oneRegion 0x100000 0x7ee0000 0x123456) 0x124000 ∧
      ∀ p, Returnable (oneRegion 0x100000 0x7ee0000 0x123456) p → PageSeen m' 0x110000 p := by
  have hd : IsFrame 0x110000 := ⟨by decide, by decide⟩
  have hcases := earlyMmInit_cases 0 0x80123456 hd (bootMem_words hd)
  rw [if_pos (by decide)] at hcases
  obtain ⟨m', hrun, _⟩ := hcases
  refine ⟨m', hrun, returnable_iff.mpr ⟨by decide, 0, by decide, rfl⟩, ?_⟩
  refine (early_map_covers_iff 0x80123456 (by decide) hd (bootMem_words hd) hrun).mpr ⟨0, ?_, ?_⟩
  · exact chosen_largestRegion (oneRegion 0x100000 0x7ee0000 0x123456)
  · refine Or.inr (Or.inr ⟨?_, by decide⟩)
    unfold BothReach IdentityReach WindowReach
    decide

/-- That of 510 MB hands out a page that is mapped at neither address. -/
theorem early_map_outrun :
    ∃ m', (earlyMmInit 0 0x110000 0x80123456).run (bootMem 0x110000) = .ok () m' ∧
      Returnable (oneRegion 0x100000 0x1fee0000 0x123456) 0x18124000 ∧
      translate m' 0x110000 0x18124000 = none ∧
      translate m' 0x110000 (0x18124000 + kernBase) ≠ some 0x18124000 := by
  have hd : IsFrame 0x110000 := ⟨by decide, by decide⟩
  have hcases := earlyMmInit_cases 0 0x80123456 hd (bootMem_words hd)
  rw [if_pos (by decide)] at hcases
  obtain ⟨m', hrun, hwords⟩ := hcases
  refine ⟨m', hrun, returnable_iff.mpr ⟨by decide, 0x18000, by decide, rfl⟩, ?_, ?_⟩
  · rcases translate_low hwords (show 0x18124000 < kernBase by decide) with ⟨h, -⟩ | ⟨-, h⟩
    · unfold IdentityReach at h
      exact absurd h (by decide)
    · exact h
  · intro h
    have hreach := ((translate_high hwords (by decide)).mp h).1
    unfold WindowReach at hreach
    exact absurd hreach (by decide)

end Aim.Kern
