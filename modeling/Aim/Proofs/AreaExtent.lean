import Aim.Proofs.AreaRun

/-!
# The run of memory `page_allocator_init` takes

`get_mem_init` chooses the longest usable region of the memory map, the first
one among several (`Chosen`). If the region starts below the end of the kernel
the managed run starts at the next page behind the kernel; but the number of
pages stays that of the whole region. What is taken off is the distance from
the end of the kernel to the end of its page, which is less than a page, and
not the distance from the start of the region. If the region starts behind the
kernel, its start is taken as it is.
-/

namespace Aim.Kern

open Aim.Lib

namespace Boot

def start (boot : Boot) (i : Nat) : Nat := (boot.pmb i).baseAddrLow.toNat

def length (boot : Boot) (i : Nat) : Nat := (boot.pmb i).lengthLow.toNat

/-- Region `i` of the map is usable. -/
def Usable (boot : Boot) (i : Nat) : Prop := i < boot.num.toNat ∧ (boot.pmb i).type = 1

/-- Region `i` is the first of the longest usable ones. Where no usable region
has a byte, it is the first region of the map, of whichever type. -/
def Chosen (boot : Boot) (i : Nat) : Prop :=
  boot.Usable i ∧ 0 < boot.length i ∧
      (∀ j, boot.Usable j → boot.length j ≤ boot.length i ∧
        (j < i → boot.length j < boot.length i)) ∨
    (∀ j, boot.Usable j → boot.length j = 0) ∧ i = 0

/-- The end of the kernel, rounded up to a page. -/
def kernelPageEnd (boot : Boot) : Nat := (boot.kernelEnd.toNat + 4095) / 4096 * 4096

end Boot

/-! ## The choice -/

/-- `best` is what the loop has after the regions below `k`. -/
def BestBelow (boot : Boot) (k : Nat) (best : UInt32 × Nat) : Prop :=
  (best.2 < k ∧ (boot.pmb best.2).type = 1 ∧ best.1.toNat = boot.length best.2 ∧
      0 < best.1.toNat ∧
      ∀ j < k, (boot.pmb j).type = 1 → boot.length j ≤ best.1.toNat ∧
        (j < best.2 → boot.length j < best.1.toNat)) ∨
    best.1.toNat = 0 ∧ best.2 = 0 ∧ ∀ j < k, (boot.pmb j).type = 1 → boot.length j = 0

theorem bestBelow_fold (boot : Boot) (k : Nat) :
    BestBelow boot k ((List.range k).foldl (fun (best : UInt32 × Nat) i =>
      if (boot.pmb i).type = 1 ∧ (boot.pmb i).lengthLow > best.1 then
        ((boot.pmb i).lengthLow, i)
      else best) (0, 0)) := by
  induction k with
  | zero =>
      refine Or.inr ⟨rfl, rfl, ?_⟩
      intro j hj
      exact absurd hj (Nat.not_lt_zero j)
  | succ k ih =>
      rw [List.range_succ, List.foldl_append, List.foldl_cons, List.foldl_nil]
      generalize (List.range k).foldl _ _ = best at ih
      have hgt : (boot.pmb k).lengthLow > best.1 ↔ best.1.toNat < boot.length k :=
        UInt32.lt_iff_toNat_lt
      by_cases hk : (boot.pmb k).type = 1 ∧ (boot.pmb k).lengthLow > best.1
      · -- A longer region: everything so far is shorter.
        rw [if_pos hk]
        have hlonger := hgt.mp hk.2
        have hshort : ∀ j < k, (boot.pmb j).type = 1 → boot.length j < boot.length k := by
          intro j hj ht
          rcases ih with ⟨_, _, _, _, hall⟩ | ⟨_, _, hall⟩
          · have hle := (hall j hj ht).1
            omega
          · rw [hall j hj ht]
            omega
        refine Or.inl ⟨Nat.lt_succ_self k, hk.1, rfl, ?_, ?_⟩
        · show 0 < boot.length k
          omega
        · intro j hj ht
          show boot.length j ≤ boot.length k ∧ (j < k → boot.length j < boot.length k)
          rcases Nat.lt_succ_iff_lt_or_eq.mp hj with hj | rfl
          · have hlt := hshort j hj ht
            exact ⟨by omega, fun _ => hlt⟩
          · exact ⟨Nat.le_refl _, fun hlt => absurd hlt (Nat.lt_irrefl j)⟩
      · rw [if_neg hk]
        have hk' : (boot.pmb k).type = 1 → boot.length k ≤ best.1.toNat :=
          fun ht => Nat.not_lt.mp fun hlt => hk ⟨ht, hgt.mpr hlt⟩
        rcases ih with ⟨hlt, htype, hlen, hpos, hall⟩ | ⟨hbest, hzero, hall⟩
        · refine Or.inl ⟨by omega, htype, hlen, hpos, ?_⟩
          intro j hj ht
          rcases Nat.lt_succ_iff_lt_or_eq.mp hj with hj | rfl
          · exact hall j hj ht
          · exact ⟨hk' ht, fun hlt' => by omega⟩
        · refine Or.inr ⟨hbest, hzero, ?_⟩
          intro j hj ht
          rcases Nat.lt_succ_iff_lt_or_eq.mp hj with hj | rfl
          · exact hall j hj ht
          · have hle := hk' ht
            omega

theorem chosen_largestRegion (boot : Boot) : boot.Chosen (largestRegion boot) := by
  have hfold := bestBelow_fold boot boot.num.toNat
  rw [largestRegion]
  generalize (List.range boot.num.toNat).foldl _ _ = best at hfold
  rcases hfold with ⟨hlt, htype, hlen, hpos, hall⟩ | ⟨_, hzero, hall⟩
  · refine Or.inl ⟨⟨hlt, htype⟩, by omega, ?_⟩
    intro j hj
    rw [← hlen]
    exact hall j hj.1 hj.2
  · exact Or.inr ⟨fun j hj => hall j hj.1 hj.2, hzero⟩

variable {boot : Boot} {i : Nat}

theorem Boot.Chosen.unique {i j : Nat} (hi : boot.Chosen i) (hj : boot.Chosen j) : i = j := by
  rcases hi with ⟨hui, hpi, hi⟩ | ⟨hall, rfl⟩
  · rcases hj with ⟨huj, hpj, hj⟩ | ⟨hall, _⟩
    · have hij := hi j huj
      have hji := hj i hui
      rcases Nat.lt_trichotomy i j with hlt | heq | hgt
      · have hlen := hji.2 hlt
        omega
      · exact heq
      · have hlen := hij.2 hgt
        omega
    · have hzero := hall i hui
      omega
  · rcases hj with ⟨huj, hpj, _⟩ | ⟨_, rfl⟩
    · have hzero := hall j huj
      omega
    · rfl

/-- There is one chosen region. -/
theorem Boot.Chosen.exists_iff (hi : boot.Chosen i) {p : Nat → Prop} :
    (∃ j, boot.Chosen j ∧ p j) ↔ p i := by
  constructor
  · intro h
    obtain ⟨j, hj, hp⟩ := h
    rw [hi.unique hj]
    exact hp
  · exact fun hp => ⟨i, hi, hp⟩

/-! ## The extent -/

/-- What is taken off the number of pages is always less than a page. -/
theorem areaExtent_eq (hi : boot.Chosen i) :
    areaExtent boot = if boot.start i < boot.kernelEnd.toNat then
      (pgRoundUp boot.kernelEnd.toNat, boot.length i / 4096)
    else (boot.start i, boot.length i / 4096) := by
  have hmem : getMemInit boot = (boot.start i, boot.length i) := by
    rw [hi.unique (chosen_largestRegion boot)]
    rfl
  have hend := boot.kernelEnd.toNat_lt
  have hlen : boot.length i < 2 ^ 32 := (boot.pmb i).lengthLow.toNat_lt
  rw [areaExtent, hmem]
  simp only
  by_cases hlow : boot.start i < boot.kernelEnd.toNat
  · rw [if_pos hlow, if_pos hlow]
    have hlost : (((pgRoundUp boot.kernelEnd.toNat : Nat) : Int) - boot.kernelEnd.toNat) %
        2 ^ 32 / 4096 = 0 := by
      unfold pgRoundUp pgSize
      omega
    have hlost' : ((((pgRoundUp boot.kernelEnd.toNat : Nat) : Int) - boot.kernelEnd.toNat) %
        2 ^ 32).toNat / 4096 = 0 := by omega
    rw [hlost']
    refine Prod.ext rfl ?_
    show ((((boot.length i / 4096 : Nat) : Int) - (0 : Nat)) % 2 ^ 32).toNat = _
    omega
  · rw [if_neg hlow, if_neg hlow]

theorem pageAllocatorInit_extent {area area' : Area} {result : Int}
    (h : (pageAllocatorInit boot).run area = .ok result area') :
    (area'.baseAddr, area'.pageNum) = areaExtent boot := by
  obtain ⟨_, rfl⟩ := pageAllocatorInit_eq h
  rfl

/-! ## Where it is right -/

/-- The managed run is what it should be. -/
structure ExtentOk (boot : Boot) (area : Area) : Prop where
  aligned : area.baseAddr % 4096 = 0
  above : ∀ i, boot.Chosen i → boot.start i < boot.kernelEnd.toNat →
    boot.kernelEnd.toNat ≤ area.baseAddr
  inside : ∃ i, boot.Usable i ∧ ∀ a, area.baseAddr ≤ a →
    a < area.baseAddr + 4096 * area.pageNum → boot.start i ≤ a ∧ a < boot.start i + boot.length i

/-- A region behind the kernel has to start with a page. From a region that
starts below the end of the kernel the whole number of its pages is taken, from
the end of the kernel on, and a usable region has to have them. -/
def ExtentFits (boot : Boot) : Prop :=
  ∃ i, boot.Chosen i ∧
    if boot.start i < boot.kernelEnd.toNat then
      boot.kernelEnd.toNat ≤ 2 ^ 32 - 4096 ∧ (boot.length i < 4096 ∨
        ∃ j, boot.Usable j ∧ boot.start j ≤ boot.kernelPageEnd ∧
          boot.kernelPageEnd + boot.length i / 4096 * 4096 ≤ boot.start j + boot.length j)
    else boot.start i % 4096 = 0 ∧ (boot.length i < 4096 ∨ boot.Usable i)

/-- A run of pages is inside of an interval when it is empty or its ends are. -/
theorem run_inside {base pages lo len : Nat} :
    (∀ a, base ≤ a → a < base + 4096 * pages → lo ≤ a ∧ a < lo + len) ↔
      pages = 0 ∨ lo ≤ base ∧ base + 4096 * pages ≤ lo + len := by
  constructor
  · intro h
    by_cases h0 : pages = 0
    · exact Or.inl h0
    · have hfirst := h base (Nat.le_refl _) (by omega)
      have hlast := h (base + 4096 * pages - 1) (by omega) (by omega)
      exact Or.inr ⟨hfirst.1, by omega⟩
  · intro h a hlo hhi
    rcases h with h0 | ⟨h1, h2⟩
    · subst h0
      omega
    · omega

section Cases

variable {boot : Boot} {area : Area} {i : Nat}

/-- The region starts below the end of the kernel. -/
theorem extentOk_low_iff (hmap : ∃ i, boot.Usable i) (hi : boot.Chosen i)
    (hlow : boot.start i < boot.kernelEnd.toNat)
    (hbase : area.baseAddr = pgRoundUp boot.kernelEnd.toNat)
    (hpages : area.pageNum = boot.length i / 4096) :
    ExtentOk boot area ↔ boot.kernelEnd.toNat ≤ 2 ^ 32 - 4096 ∧ (boot.length i < 4096 ∨
      ∃ j, boot.Usable j ∧ boot.start j ≤ boot.kernelPageEnd ∧
        boot.kernelPageEnd + boot.length i / 4096 * 4096 ≤ boot.start j + boot.length j) := by
  have hend := boot.kernelEnd.toNat_lt
  constructor
  · intro h
    have habove := h.above i hi hlow
    rw [hbase, pgRoundUp, pgSize] at habove
    have hsmall : boot.kernelEnd.toNat ≤ 2 ^ 32 - 4096 := by omega
    have hround : area.baseAddr = boot.kernelPageEnd := by
      rw [hbase, pgRoundUp, pgSize, Boot.kernelPageEnd]
      omega
    refine ⟨hsmall, ?_⟩
    obtain ⟨j, hj, hin⟩ := h.inside
    rcases run_inside.mp hin with h0 | ⟨h1, h2⟩
    · exact Or.inl (by omega)
    · exact Or.inr ⟨j, hj, by omega, by omega⟩
  · intro h
    obtain ⟨hsmall, hfits⟩ := h
    have hround : area.baseAddr = boot.kernelPageEnd := by
      rw [hbase, pgRoundUp, pgSize, Boot.kernelPageEnd]
      omega
    have hpage : boot.kernelPageEnd % 4096 = 0 ∧
        boot.kernelEnd.toNat ≤ boot.kernelPageEnd := by
      unfold Boot.kernelPageEnd
      omega
    refine ⟨by omega, fun _ _ _ => by omega, ?_⟩
    rcases hfits with hshort | ⟨j, hj, h1, h2⟩
    · obtain ⟨j, hj⟩ := hmap
      exact ⟨j, hj, run_inside.mpr (Or.inl (by omega))⟩
    · exact ⟨j, hj, run_inside.mpr (Or.inr ⟨by omega, by omega⟩)⟩

/-- The region starts behind the kernel. -/
theorem extentOk_high_iff (hmap : ∃ i, boot.Usable i) (hi : boot.Chosen i)
    (hhigh : ¬ boot.start i < boot.kernelEnd.toNat) (hbase : area.baseAddr = boot.start i)
    (hpages : area.pageNum = boot.length i / 4096) :
    ExtentOk boot area ↔ boot.start i % 4096 = 0 ∧ (boot.length i < 4096 ∨ boot.Usable i) := by
  constructor
  · intro h
    refine ⟨by rw [← hbase]; exact h.aligned, ?_⟩
    obtain ⟨j, hj, hin⟩ := h.inside
    rcases run_inside.mp hin with h0 | ⟨h1, h2⟩
    · exact Or.inl (by omega)
    · rcases hi with ⟨husable, _, _⟩ | ⟨hall, _⟩
      · exact Or.inr husable
      · -- No usable region has a byte.
        have hj0 := hall j hj
        exact Or.inl (by omega)
  · intro h
    obtain ⟨hal, hfits⟩ := h
    refine ⟨by rw [hbase]; exact hal, ?_, ?_⟩
    · intro i' hi' hlow
      rw [← hi.unique hi'] at hlow
      exact absurd hlow hhigh
    · rcases hfits with hshort | husable
      · obtain ⟨j, hj⟩ := hmap
        exact ⟨j, hj, run_inside.mpr (Or.inl (by omega))⟩
      · exact ⟨i, husable, run_inside.mpr (Or.inr ⟨by omega, by omega⟩)⟩

end Cases

/-- Exactly which memory maps and ends of the kernel are dealt with. -/
theorem area_extent_iff {boot : Boot} {area area' : Area} (hmap : ∃ i, boot.Usable i)
    (hrun : (pageAllocatorInit boot).run area = .ok 0 area') :
    ExtentOk boot area' ↔ ExtentFits boot := by
  have hi := chosen_largestRegion boot
  generalize largestRegion boot = i at hi
  have hext := pageAllocatorInit_extent hrun
  rw [areaExtent_eq hi] at hext
  rw [ExtentFits, hi.exists_iff]
  by_cases hlow : boot.start i < boot.kernelEnd.toNat
  · rw [if_pos hlow] at hext ⊢
    obtain ⟨hbase, hpages⟩ := Prod.mk.inj hext
    exact extentOk_low_iff hmap hi hlow hbase hpages
  · rw [if_neg hlow] at hext ⊢
    obtain ⟨hbase, hpages⟩ := Prod.mk.inj hext
    exact extentOk_high_iff hmap hi hlow hbase hpages

/-- A map with one region, which is usable. -/
def oneRegion (start length kernelEnd : UInt32) : Boot where
  num := 1
  pmb _ := ⟨start, length, 1⟩
  kernelEnd := kernelEnd
  words _ := 0

theorem oneRegion_usable {start length kernelEnd : UInt32} :
    (oneRegion start length kernelEnd).Usable i ↔ i = 0 := by
  constructor
  · intro h
    have hlt : i < 1 := h.1
    omega
  · intro h
    subst h
    exact ⟨Nat.one_pos, rfl⟩

/-- An area before it is initialised. -/
def noArea : Area := ⟨0, 0, 0, [], fun _ => ⟨0, 0, fun _ => .unused⟩, []⟩

/-- A region of 4 MB behind the kernel is taken as it is. -/
theorem area_extent_iff_behind :
    ∃ area, (pageAllocatorInit (oneRegion 0x100000 0x400000 0x90000)).run noArea = .ok 0 area ∧
      area.baseAddr = 0x100000 ∧ area.pageNum = 1024 ∧
      ExtentOk (oneRegion 0x100000 0x400000 0x90000) area := by
  refine ⟨_, rfl, rfl, rfl, ?_⟩
  refine (area_extent_iff ⟨0, oneRegion_usable.mpr rfl⟩ rfl).mpr ⟨0, ?_, ?_⟩
  · exact chosen_largestRegion (oneRegion 0x100000 0x400000 0x90000)
  · exact ⟨by decide, Or.inr (oneRegion_usable.mpr rfl)⟩

/-- From the usual 126 MB at one megabyte, with the kernel in its first pages,
as many pages are taken as the region has, and so it is overrun. A region behind
the kernel that starts in the middle of a page is not rounded. -/
theorem area_extent_overrun :
    (∃ area, (pageAllocatorInit (oneRegion 0x100000 0x7ee0000 0x123456)).run noArea =
        .ok 0 area ∧ area.baseAddr = 0x124000 ∧ area.pageNum = 0x7ee0 ∧
      ¬ ExtentOk (oneRegion 0x100000 0x7ee0000 0x123456) area) ∧
    ∃ area, (pageAllocatorInit (oneRegion 0x100400 0x400000 0x90000)).run noArea =
        .ok 0 area ∧ area.baseAddr = 0x100400 ∧
      ¬ ExtentOk (oneRegion 0x100400 0x400000 0x90000) area := by
  constructor
  · refine ⟨_, rfl, rfl, rfl, ?_⟩
    intro h
    obtain ⟨i, hi, hin⟩ := h.inside
    obtain rfl := oneRegion_usable.mp hi
    have hlast := hin (0x124000 + 4096 * 0x7ee0 - 1) (by decide) (by decide)
    exact absurd hlast.2 (by decide)
  · refine ⟨_, rfl, rfl, ?_⟩
    intro h
    exact absurd h.aligned (by decide)

end Aim.Kern
