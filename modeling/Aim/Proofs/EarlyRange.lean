import Aim.Proofs.EarlyMap

/-!
# The range of one early mapping

`page_index_early_map` goes through its range in steps of four megabytes, but it
stops at the last page of the range, rounded down to a page, and it stops in
front of it. So the last slot of the range is only entered if there is a whole
page of the range behind the slot's first one. And an entry has 32 bits, where
the physical address has 64.

`EarlyMapped` says what the call is for, and `pageIndexEarlyMap_covers_iff` for
which arguments and directories it does that.

The loop does not look at the end of the address space. It comes to its end if an
address it can have is at or behind the last page (`pageIndexEarlyMap_returns_iff`),
and then it has written one entry for each slot of the range.
-/

namespace Aim.Kern

open Aim.Lib Mem

/-- An entry through which four megabytes from `base` on can be written. -/
def IsBigEntry (w base : Nat) : Prop :=
  w &&& pteP ≠ 0 ∧ w &&& pteW ≠ 0 ∧ w &&& ptePS ≠ 0 ∧ 2 ^ 22 * (w / 2 ^ 22) = base

/-- The address `va` leads to `pa`, through a present writable entry of four
megabytes. -/
structure BigMapped (m : Mem) (d va pa : Nat) : Prop where
  present : word m d (pdx va) &&& pteP ≠ 0
  writable : word m d (pdx va) &&& pteW ≠ 0
  big : word m d (pdx va) &&& ptePS ≠ 0
  leads : translate m d va = some pa

/-- What the call is for: between `m` and `m'` the range was mapped, and no slot
that does not meet it was touched. -/
structure EarlyMapped (d paddr vaddr size : Nat) (m m' : Mem) : Prop where
  inside : ∀ va, vaddr ≤ va → va < vaddr + size → BigMapped m' d va (paddr + (va - vaddr))
  outside : ∀ j < 1024, 2 ^ 22 * (j + 1) ≤ vaddr ∨ vaddr + size ≤ 2 ^ 22 * j →
    word m' d j = word m d j

section Entries

variable {m : Mem} {d va pa f w : Nat}

theorem isBigEntry_bigEntry (f : Nat) : IsBigEntry (bigEntry f) (2 ^ 22 * f) := by
  refine ⟨bigEntry_bit f (by decide), bigEntry_bit f (by decide), bigEntry_bit f (by decide), ?_⟩
  rw [bigEntry]
  omega

/-- What the MMU makes of the entry. -/
theorem bigMapped_iff : BigMapped m d va pa ↔
    IsBigEntry (word m d (pdx va)) (pa - va % 2 ^ 22) ∧ va % 2 ^ 22 ≤ pa := by
  have htrans : word m d (pdx va) &&& pteP ≠ 0 → word m d (pdx va) &&& ptePS ≠ 0 →
      translate m d va = some (2 ^ 22 * (word m d (pdx va) / 2 ^ 22) + va % 2 ^ 22) := by
    intro hp hps
    have hload : m.load32 (d + 4 * pdx va) = word m d (pdx va) := rfl
    have hentry : pageEntry m d va = some (word m d (pdx va)) := by
      rw [pageEntry, hload, if_neg hp, if_pos hps]
    rw [translate, hentry, Option.map_some, hload, if_pos hps]
  constructor
  · intro h
    have hleads := h.leads
    rw [htrans h.present h.big] at hleads
    have hsum := Option.some.inj hleads
    exact ⟨⟨h.present, h.writable, h.big, by omega⟩, by omega⟩
  · intro h
    obtain ⟨⟨hp, hw, hps, hbase⟩, hle⟩ := h
    refine ⟨hp, hw, hps, ?_⟩
    rw [htrans hp hps]
    exact congrArg some (by omega)

end Entries

section Range

variable {m m' : Mem} {d a f size : Nat}

/-- The slot of an address of the range. -/
theorem earlySlot {va : Nat} (hlo : 2 ^ 22 * a ≤ va) (hhi : va < 2 ^ 22 * a + size)
    (hend : 2 ^ 22 * a + size ≤ 2 ^ 32) :
    pdx va = a + (va - 2 ^ 22 * a) / 2 ^ 22 ∧ (va - 2 ^ 22 * a) / 2 ^ 22 ≤ (size - 1) / 2 ^ 22 := by
  rw [pdx]
  omega

/-- The range is mapped if each of its slots has the entry of its memory. -/
theorem earlyMapped_iff (hsize : 0 < size) (hend : 2 ^ 22 * a + size ≤ 2 ^ 32) :
    EarlyMapped d (2 ^ 22 * f) (2 ^ 22 * a) size m m' ↔
      (∀ k ≤ (size - 1) / 2 ^ 22, IsBigEntry (word m' d (a + k)) (2 ^ 22 * (f + k))) ∧
        ∀ j < 1024, j < a ∨ a + (size - 1) / 2 ^ 22 < j → word m' d j = word m d j := by
  constructor
  · intro h
    refine ⟨fun k hk => ?_, fun j hj hout => h.outside j hj (by omega)⟩
    have hslot : pdx (2 ^ 22 * a + 2 ^ 22 * k) = a + k := by
      rw [pdx]
      omega
    have hbig := (bigMapped_iff.mp (h.inside (2 ^ 22 * a + 2 ^ 22 * k) (by omega) (by omega))).1
    rw [hslot, show 2 ^ 22 * f + (2 ^ 22 * a + 2 ^ 22 * k - 2 ^ 22 * a) -
      (2 ^ 22 * a + 2 ^ 22 * k) % 2 ^ 22 = 2 ^ 22 * (f + k) by omega] at hbig
    exact hbig
  · intro h
    obtain ⟨hin, hout⟩ := h
    refine ⟨fun va hlo hhi => bigMapped_iff.mpr ⟨?_, by omega⟩, fun j hj hj' =>
      hout j hj (by omega)⟩
    obtain ⟨hslot, hle⟩ := earlySlot hlo hhi hend
    have hbig := hin _ hle
    rw [← hslot, show 2 ^ 22 * (f + (va - 2 ^ 22 * a) / 2 ^ 22) =
      2 ^ 22 * f + (va - 2 ^ 22 * a) - va % 2 ^ 22 by omega] at hbig
    exact hbig

/-- Which slots the call enters: those of the range but the last, and the last
one if the range goes on behind its first page. -/
theorem entered_iff (hsize : 0 < size) (hend : 2 ^ 22 * a + size ≤ 2 ^ 32) {j : Nat} :
    (a ≤ j ∧ 2 ^ 22 * j < pgRoundDown ((2 ^ 22 * a + size + 2 ^ 32 - 1) % 2 ^ 32)) ↔
      a ≤ j ∧ (j < a + (size - 1) / 2 ^ 22 ∨
        j = a + (size - 1) / 2 ^ 22 ∧ pgSize ≤ (size - 1) % 2 ^ 22) := by
  rw [pgRoundDown, pgSize]
  omega

end Range

/-- Exactly the calls that do what they are for: the memory is below `2 ^ 32`, and
the last slot is entered, or had the right entry before. -/
theorem pageIndexEarlyMap_covers_iff {m : Mem} {d paddr vaddr size : Nat} (hd : IsPage d)
    (hva : vaddr % 2 ^ 22 = 0) (hpa : paddr % 2 ^ 22 = 0) (hsize : 0 < size)
    (hend : vaddr + size ≤ 2 ^ 32 - 2 ^ 22) :
    (∃ result m', (pageIndexEarlyMap d paddr vaddr size).run m = .ok result m' ∧
        EarlyMapped d paddr vaddr size m m') ↔
      paddr + size ≤ 2 ^ 32 ∧ (pgSize ≤ (size - 1) % 2 ^ 22 ∨
        IsBigEntry (word m d ((vaddr + size - 1) / 2 ^ 22))
          (paddr + 2 ^ 22 * ((size - 1) / 2 ^ 22))) := by
  obtain ⟨a, rfl⟩ := Nat.dvd_of_mod_eq_zero hva
  obtain ⟨f, rfl⟩ := Nat.dvd_of_mod_eq_zero hpa
  have hle : pgRoundDown ((2 ^ 22 * a + size + 2 ^ 32 - 1) % 2 ^ 32) ≤ 0xFFC00000 := by
    rw [pgRoundDown, pgSize]
    omega
  obtain ⟨result, m', hrun, hwords⟩ := pageIndexEarlyMap_words (m := m) (f := f) hd rfl hle
  simp only [entered_iff hsize (by omega : 2 ^ 22 * a + size ≤ 2 ^ 32)] at hwords
  have hcall : (∃ result m', (pageIndexEarlyMap d (2 ^ 22 * f) (2 ^ 22 * a) size).run m =
        .ok result m' ∧ EarlyMapped d (2 ^ 22 * f) (2 ^ 22 * a) size m m') ↔
      EarlyMapped d (2 ^ 22 * f) (2 ^ 22 * a) size m m' := by
    constructor
    · rintro ⟨result₁, m₁, hrun₁, hmapped⟩
      rw [hrun] at hrun₁
      injection hrun₁ with _ hm
      rw [hm]
      exact hmapped
    · exact fun h => ⟨result, m', hrun, h⟩
  rw [hcall, earlyMapped_iff hsize (by omega)]
  rw [show (2 ^ 22 * a + size - 1) / 2 ^ 22 = a + (size - 1) / 2 ^ 22 by omega,
    show 2 ^ 22 * f + 2 ^ 22 * ((size - 1) / 2 ^ 22) = 2 ^ 22 * (f + (size - 1) / 2 ^ 22) by omega]
  generalize hk : (size - 1) / 2 ^ 22 = n at hwords ⊢
  have hout : ∀ j < 1024, j < a ∨ a + n < j → word m' d j = word m d j := by
    intro j hj hj'
    rw [hwords j hj, if_neg (by omega)]
  have hentered : ∀ k ≤ n, k < n ∨ pgSize ≤ (size - 1) % 2 ^ 22 →
      word m' d (a + k) = bigEntry ((f + k) % 1024) := by
    intro k hk hlast
    rw [hwords (a + k) (by omega), if_pos (by omega), Nat.add_sub_cancel_left]
  constructor
  · intro h
    have hlast := h.1 n (Nat.le_refl n)
    refine ⟨?_, ?_⟩
    · obtain ⟨-, -, -, hbase⟩ := hlast
      have hlt : word m' d (a + n) < 2 ^ 32 := load32_lt _ _
      omega
    · by_cases hbig : pgSize ≤ (size - 1) % 2 ^ 22
      · exact .inl hbig
      · right
        rw [hwords (a + n) (by omega), if_neg (by omega)] at hlast
        exact hlast
  · intro h
    obtain ⟨hfits, hlast⟩ := h
    refine ⟨fun k hk' => ?_, hout⟩
    by_cases henter : k < n ∨ pgSize ≤ (size - 1) % 2 ^ 22
    · rw [hentered k hk' henter, Nat.mod_eq_of_lt (by omega)]
      exact isBigEntry_bigEntry _
    · rw [not_or] at henter
      obtain rfl : k = n := by omega
      rw [hwords (a + k) (by omega), if_neg (by omega)]
      exact hlast.resolve_left henter.2

/-- A mapping of one page in an empty directory is not made. -/
theorem pageIndexEarlyMap_one_page : ∃ result m',
    (pageIndexEarlyMap 0x110000 0x400000 0x400000 0x1000).run zeroMem = .ok result m' ∧
      translate m' 0x110000 0x400000 = none ∧
      ¬ EarlyMapped 0x110000 0x400000 0x400000 0x1000 zeroMem m' := by
  have hrun : (pageIndexEarlyMap 0x110000 0x400000 0x400000 0x1000).run zeroMem =
      .ok 0 zeroMem := rfl
  refine ⟨0, zeroMem, hrun, translate_none rfl, fun h => ?_⟩
  exact (h.inside 0x400000 (by decide) (by decide)).present rfl

/-- Two megabytes are mapped. -/
theorem pageIndexEarlyMap_covers_iff_sample : ∃ result m',
    (pageIndexEarlyMap 0x110000 0x400000 0x80400000 0x200000).run zeroMem = .ok result m' ∧
      EarlyMapped 0x110000 0x400000 0x80400000 0x200000 zeroMem m' :=
  (pageIndexEarlyMap_covers_iff (by unfold IsPage; decide) (by decide) (by decide) (by decide)
    (by decide)).mpr ⟨by decide, .inl (by decide)⟩

/-! ## The end of the loop -/

/-- The rounds of a call. -/
def earlyMapRounds (fuel d paddr vaddr size : Nat) : EStateM Stop Mem Nat :=
  earlyMapLoop d (pgRoundDown ((vaddr + size + 2 ^ 32 - 1) % 2 ^ 32)) fuel (pgRoundDown vaddr) paddr

/-- The last page is not behind the place that the first one has in its slot, taken in
the last slot of all. -/
def LastReached (vaddr size : Nat) : Prop :=
  pgRoundDown (vaddr + size - 1) ≤ 0xFFC00000 + pgRoundDown vaddr % 2 ^ 22

/-- The calls that return, and how many entries they write. -/
theorem pageIndexEarlyMap_returns_iff (d paddr vaddr size : Nat) (m : Mem) (hsize : 0 < size)
    (hend : vaddr + size ≤ 2 ^ 32) :
    ((∃ fuel a m', (earlyMapRounds fuel d paddr vaddr size).run m = .ok a m') ↔
      LastReached vaddr size) ∧
    (LastReached vaddr size → ∃ result l,
      (pageIndexEarlyMap d paddr vaddr size).run m = .ok result (storeEntries d l m) ∧
      l.length ≤ (size + 2 ^ 22 - 1) / 2 ^ 22 + 1 ∧ ∀ e ∈ l, e.1 < 1024) := by
  have hlast : (vaddr + size + 2 ^ 32 - 1) % 2 ^ 32 = vaddr + size - 1 := by omega
  have hfirst : pgRoundDown vaddr < 2 ^ 32 := (pgRoundDown_le vaddr).trans_lt (by omega)
  have hslots : ∃ slots ≤ 2 ^ 10, slots ≤ (size + 2 ^ 22 - 1) / 2 ^ 22 + 1 ∧
      pgRoundDown (vaddr + size - 1) ≤ pgRoundDown vaddr + 2 ^ 22 * slots := by
    refine ⟨(pgRoundDown (vaddr + size - 1) - pgRoundDown vaddr + 2 ^ 22 - 1) / 2 ^ 22, ?_⟩
    rw [pgRoundDown, pgRoundDown, pgSize]
    omega
  obtain ⟨slots, hfuel, hbound, hreach⟩ := hslots
  have hreturns : LastReached vaddr size → ∃ a l,
      (earlyMapRounds (2 ^ 10 + 1) d paddr vaddr size).run m = .ok a (storeEntries d l m) ∧
        l.length ≤ slots ∧ ∀ e ∈ l, e.1 < 1024 := by
    intro h
    rw [earlyMapRounds, hlast]
    exact earlyMapLoop_returns slots _ _ _ hfirst h hreach (by omega)
  refine ⟨⟨?_, fun h => ?_⟩, fun h => ?_⟩
  · rintro ⟨fuel, a, m', hrun⟩
    by_contra hbehind
    rw [earlyMapRounds, hlast] at hrun
    obtain ⟨m₁, hstuck⟩ := earlyMapLoop_stuck (m := m) (d := d) fuel (pgRoundDown vaddr) paddr
      hfirst (Nat.not_le.mp hbehind)
    rw [hstuck] at hrun
    cases hrun
  · obtain ⟨a, l, hrun, -⟩ := hreturns h
    exact ⟨_, a, _, hrun⟩
  · obtain ⟨a, l, hrun, hlength, hentries⟩ := hreturns h
    refine ⟨((pgRoundDown (vaddr + size - 1) : Int) - a) % 2 ^ 32 / 2 ^ 22, l, ?_,
      hlength.trans hbound, hentries⟩
    rw [earlyMapRounds, hlast] at hrun
    rw [pageIndexEarlyMap, hlast, run_bind_ok hrun]
    rfl

/-- The devices. -/
theorem pageIndexEarlyMap_returns_devices : ∃ result l,
    (pageIndexEarlyMap 0x110000 devSpace devSpace 0x01000000).run zeroMem =
      .ok result (storeEntries 0x110000 l zeroMem) ∧
    l.length ≤ (0x01000000 + 2 ^ 22 - 1) / 2 ^ 22 + 1 ∧ ∀ e ∈ l, e.1 < 1024 :=
  (pageIndexEarlyMap_returns_iff 0x110000 devSpace devSpace 0x01000000 zeroMem (by decide)
    (by decide)).2 (by unfold LastReached; decide)

/-- The last four megabytes: `vaddr + size` is `2 ^ 32`, and the loop does not end. -/
theorem pageIndexEarlyMap_top_spins : 0xFFC00000 + 0x00400000 ≤ 2 ^ 32 ∧
    ¬ ∃ fuel a m',
      (earlyMapRounds fuel 0x110000 0xFFC00000 0xFFC00000 0x00400000).run zeroMem = .ok a m' := by
  refine ⟨by decide, ?_⟩
  rintro ⟨fuel, a, m', hrun⟩
  have hspins : ∃ m₁, (earlyMapRounds fuel 0x110000 0xFFC00000 0xFFC00000 0x00400000).run zeroMem =
      .error .fuel m₁ := earlyMapLoop_stuck fuel _ _ (by decide) (by decide)
  obtain ⟨m₁, hspins⟩ := hspins
  rw [hspins] at hrun
  cases hrun

end Aim.Kern
