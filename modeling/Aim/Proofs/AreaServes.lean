import Aim.Proofs.AreaRun
import Aim.Proofs.SimpleRun

/-!
# The page allocator does what the object allocator asks of it
-/

namespace Aim.Kern

open Aim.Lib

/-- An area of `N` pages that starts at a page other than the one at `0` and is below
two gigabytes, where a page is seen at its own address and the `int` that `pgfree` is
called with is that address. -/
def LowArea (N : Nat) (area : Area) : Prop :=
  area.baseAddr % 4096 = 0 ∧ 0 < area.baseAddr ∧ area.baseAddr + 4096 * N ≤ 2 ^ 31

/-- A page is in an opened buddy, or in one that can be opened. -/
def PageLeft (N : Nat) (r : AreaRun) : Prop :=
  HasRoom r pgSize ∨ r.area.buddyNum < r.area.pageNum / 1024 ∧ r.area.buddyNum < N / 1024

section Serves

variable {N : Nat} {r : AreaRun} {bs : List Blk} {held : List Nat}

theorem Ledger.low (hL : Ledger N r bs) (hlow : LowArea N r.area) {g : Grant} (hg : g ∈ r.given) :
    r.area.baseAddr ≤ g.paddr ∧ g.paddr % 4096 = 0 ∧ 0 < g.paddr ∧ g.paddr < 2 ^ 31 := by
  have haddr := hL.addr g hg
  have hplace := hL.place_bounds hg
  have hnum := hL.buddyNum_le
  rw [LowArea] at hlow
  rw [areaAddr] at haddr
  omega

theorem Ledger.grants_iff (hL : Ledger N r bs) (hlow : LowArea N r.area)
    (hheld : held ⊆ r.live.map Grant.paddr) :
    Grants pageAllocator ⟨r.area, held⟩ ↔ PageLeft N r := by
  have hs : pgSize ≤ maxSize := by decide
  have hk : blockHeight pgSize ≤ 10 := by decide
  obtain ⟨_, h0, h30⟩ := pageCount_bounds hs
  have hsz : pageCount (⟨0, pgSize, 0⟩ : Pages).size = pageCount pgSize := rfl
  have hout := pageAlloc_outcome hL.table hL.holds (hL.length ▸ hL.short) hsz h0 h30 rfl
  rw [PageLeft, ← hL.roomy_iff hs hk, ← hL.length, Grants,
    show pageAllocator.alloc = pageAlloc from rfl]
  generalize (pageAlloc ⟨0, pgSize, 0⟩).run r.area = X at hout
  cases hout with
  | granted _ fits kept table holds blocks =>
      have hL' := hL.granted hs kept table holds blocks
      obtain ⟨_, hal, hpos, hlt⟩ :=
        hL'.low (by rw [LowArea] at *; rwa [kept.baseAddr]) List.mem_cons_self
      have hmod := Nat.mod_eq_of_lt (Nat.lt_trans hlt (show 2 ^ 31 < 2 ^ 32 by decide))
      refine iff_of_true
        ⟨rfl, rfl, hal, fun h0 => hpos.ne' (hmod.symm.trans h0), hmod.symm ▸ hlt, ?_⟩ fits
      intro hmem
      obtain ⟨g, hg, heq⟩ := List.mem_map.mp (hheld hmem)
      have hne := (List.pairwise_cons.mp hL'.paddr_ne).1
      exact hne g (List.mem_append_left _ hg) (heq.trans hmod).symm
  | refused full =>
      obtain ⟨hfull, hcount⟩ := full hk
      exact iff_of_false (fun hg => nomatch hg.1) fun hleft => hleft.elim hfull (by omega)
  | overrun full _ _ last =>
      exact iff_of_false id fun hleft => hleft.elim (full hk) (by omega)

theorem Ledger.takesBack (hL : Ledger N r bs) (hlow : LowArea N r.area) {g : Grant}
    (hg : g ∈ r.live) : TakesBack pageAllocator ⟨r.area, held⟩ (givenBack g.paddr) := by
  have hbd := hL.low hlow (List.mem_append_left _ hg)
  have hgiven : givenBack g.paddr = g.paddr := by
    rw [givenBack, toInt32_of_lt (by omega)]
    omega
  rw [TakesBack, hgiven, show pageAllocator.free = pageFree from rfl]
  have hfree : FreeStep N r ⟨g.paddr, pgSize, 0⟩ := ledger_free hL (List.mem_map_of_mem hg)
  cases hfree with
  | stopped _ below => exact absurd below (by simpa using hbd.1)
  | freed run =>
      cases hrun : (pageFree ⟨g.paddr, pgSize, 0⟩).run r.area with
      | ok => trivial
      | error => rw [AreaRun.step, run_bind_error (run_call_error hrun)] at run; cases run

/-- Whoever holds some of the blocks that are out is granted another page exactly if
there is one, and each of them is taken back. -/
theorem area_serves (h : (areaCalls N).Reachable r) (hlow : LowArea N r.area)
    (hheld : held ⊆ r.live.map Grant.paddr) :
    (Grants pageAllocator ⟨r.area, held⟩ ↔ PageLeft N r) ∧
      ∀ page ∈ held, TakesBack pageAllocator ⟨r.area, held⟩ (givenBack page) := by
  obtain ⟨bs, hL⟩ := ledger_of_reachable h
  refine ⟨hL.grants_iff hlow hheld, fun page hp => ?_⟩
  obtain ⟨g, hg, rfl⟩ := List.mem_map.mp (hheld hp)
  exact hL.takesBack hlow hg

end Serves

/-- Two of three pages, the last of them given back. -/
theorem area_serves_two : ∃ r, (areaCalls 1024).Reachable r ∧
    (Grants pageAllocator ⟨r.area, [0x101000, 0x100000]⟩ ↔ PageLeft 1024 r) ∧
      ∀ page ∈ [0x101000, 0x100000],
        TakesBack pageAllocator ⟨r.area, [0x101000, 0x100000]⟩ (givenBack page) := by
  have hinit : (areaCalls 1024).Reachable (sampleRun 0x400000) :=
    .init (@sampleRun_init 0x400000 (by decide))
  obtain ⟨r, hreach, hseen⟩ := hinit.sees [ask 4096, ask 4096, ask 4096, giveBack 0x102000]
    (fun r => (r.area.baseAddr, r.live.map Grant.paddr)) (0x100000, [0x101000, 0x100000])
    (by decide +kernel) (by decide +kernel)
  obtain ⟨hbase, hlive⟩ := Prod.mk.inj hseen
  exact ⟨r, hreach, area_serves hreach (by rw [LowArea, hbase]; decide) (by simp [hlive])⟩

end Aim.Kern
