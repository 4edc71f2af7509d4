import Aim.Kern.Vmm
import Aim.Proofs.AreaRun
import Aim.Proofs.PageFill

/-!
# Requests that fill memory

`page_alloc` rounds a size up to pages, and leaves `pages->size` as it was. So
what `alloc_pages` and `free_pages` hand to `pmemset` is the size the caller
gave, and they come back from it exactly when that is a whole number of pages.

Neither `alloc_pages` nor `kmalloc` looks at the answer of its allocator before
it fills the memory. With `GFP_ZERO` a request that failed is filled too: at
the address the caller happened to have in `pages->paddr`, or at `NULL`.
-/

namespace Aim.Kern

open Aim.Lib

variable {σ : Type}

theorem pageGrant_keeps (pages : Pages) (n : Int) (i : Nat) (offset : Int) (area : Area) :
    Ends False (pageGrant pages n i offset) area fun r _ =>
      r.2.size = pages.size ∧ r.2.flags = pages.flags := by
  rw [pageGrant]
  split
  · exact ends_pure ⟨rfl, rfl⟩
  · exact ends_get_bind (ends_modify_bind (ends_pure ⟨rfl, rfl⟩))

/-- `page_alloc` writes the address and nothing else of what it is given. -/
theorem pageAlloc_keeps (pages : Pages) (area : Area) :
    Ends False (pageAlloc pages) area fun r _ =>
      r.2.size = pages.size ∧ r.2.flags = pages.flags := by
  rw [pageAlloc]
  refine ends_get_bind (Ends.bind (ends_any _ _) ?_)
  intro r area' _
  obtain ⟨i, offset⟩ := r
  simp only []
  split
  · refine Ends.bind (ends_any _ _) ?_
    intro grown area'' _
    cases grown with
    | none => exact ends_pure ⟨rfl, rfl⟩
    | some offset => exact pageGrant_keeps _ _ _ _ _
  · exact pageGrant_keeps _ _ _ _ _

/-- Below `KERN_BASE` filling is exact, and comes to an end, for whole numbers of
pages and for no other size; so does every `alloc_pages` with `GFP_ZERO` that
`page_alloc` accepts, and every `free_pages` without `GFP_UNSAFE`. -/
theorem page_filling_iff (pages : Pages) :
    (∀ (b : UInt8) (s : Phys σ), pages.paddr + pages.size ≤ kernBase →
      (FillsPages pages.paddr b pages.size s ↔ pgSize ∣ pages.size)) ∧
    (∀ (s : Phys Area) (p : Pages) (area : Area),
      (pageAlloc pages).run s.pmm = .ok (0, p) area → pages.flags &&& gfpZero ≠ 0 →
      p.paddr + pages.size ≤ kernBase →
      ((allocPages pageAllocator pages).run s =
          .ok (0, p) ⟨s.mem.put p.paddr (pageBytes pages.size) fun _ => 0, area⟩ ↔
        pgSize ∣ pages.size)) ∧
    ∀ (P : PageAllocator σ) (s : Phys σ) (p : Pages) (pmm : σ),
      (P.free pages).run s.pmm = .ok p pmm → pages.flags &&& gfpUnsafe = 0 →
      pages.paddr + pages.size ≤ kernBase →
      ((freePages P pages).run s =
          .ok p ⟨s.mem.put pages.paddr (pageBytes pages.size) fun _ => junkByte, pmm⟩ ↔
        pgSize ∣ pages.size) := by
  refine ⟨fun b s hlow => fillsPages_iff hlow, ?_, ?_⟩
  · intro s p area hrun hz hlow
    obtain ⟨hpsize, hpflags⟩ := (pageAlloc_keeps pages s.pmm).of_run hrun
    have hcall := allocPages_zero (P := pageAllocator) (s := s) hrun (by rw [hpflags]; exact hz)
    rw [hpsize] at hcall
    rw [hcall]
    constructor
    · intro hok
      by_contra hdvd
      obtain ⟨s', hfuel⟩ := pmemset_endless { s with pmm := area } hdvd
      rw [run_bind_error hfuel] at hok
      cases hok
    · intro hdvd
      rw [run_bind_ok (pmemset_low _ hdvd hlow), pageBytes_of_dvd hdvd]
      rfl
  · intro P s p pmm hrun hu hlow
    constructor
    · intro hok
      by_contra hdvd
      obtain ⟨s', hfuel⟩ := pmemset_endless s hdvd
      rw [freePages, if_pos hu, run_bind_error hfuel] at hok
      cases hok
    · intro hdvd
      rw [kernBase] at hlow
      rw [pageBytes_of_dvd hdvd, freePages_junk hrun hu hdvd (by omega), kfill_eq_put hlow]

/-- Memory of zeros over the area of `sampleRun`. -/
def zeroed (area : Area) : Phys Area := ⟨fun _ => 0, area⟩

/-- Two pages are filled. -/
theorem page_filling_iff_twoPages : FillsPages 0x1000 7 0x2000 (zeroed (sampleRun 0x400000).area) :=
  ((page_filling_iff ⟨0x1000, 0x2000, 0⟩).1 7 _ (by decide)).mpr (by decide)

/-- `page_alloc` accepts a request for one byte, and `alloc_pages` does not
come back from filling it with zeros, however long it goes on. And a page above
`KERN_BASE` is not filled, but another one. -/
theorem page_filling_endless :
    returned (pageAlloc ⟨0, 1, gfpZero⟩) (sampleRun 0x400000).area (fun r _ => r) =
      some (0, ⟨0x100000, 1, gfpZero⟩) ∧
    stopped (allocPages pageAllocator ⟨0, 1, gfpZero⟩) (zeroed (sampleRun 0x400000).area) =
      some .fuel ∧
    ¬ FillsPages 0x100000 0 1 (zeroed (sampleRun 0x400000).area) ∧
    returned (pmemset 0x90000000 7 0x1000) (zeroed (sampleRun 0x400000).area)
      (fun _ s => (s.mem 0x90000000, s.mem 0x10000000)) = some (0, 7) := by
  refine ⟨by decide +kernel, by decide +kernel, ?_, by decide +kernel⟩
  rw [fillsPages_iff (by decide)]
  decide

/-! ## Requests that failed -/

section Failed

variable {P : PageAllocator σ} {A : SimpleAllocator σ}

theorem allocPages_failed_iff {s : Phys σ} {pages p : Pages} {result : Int} {pmm : σ}
    (hrun : (P.alloc pages).run s.pmm = .ok (result, p) pmm) (hsize : p.size < 2 ^ 64) :
    (allocPages P pages).run s = .ok (result, p) { s with pmm := pmm } ↔
      p.flags &&& gfpZero = 0 ∨
      pgSize ∣ p.size ∧ ∀ x < kernBase, windowDist (pa2kva p.paddr) x < p.size → s.mem x = 0 := by
  by_cases hz : p.flags &&& gfpZero = 0
  · exact ⟨fun _ => Or.inl hz, fun _ => allocPages_plain hrun hz⟩
  · rw [allocPages_zero hrun hz, ← kfill_eq_self_iff]
    by_cases hdvd : pgSize ∣ p.size
    · rw [run_bind_ok (pmemset_ok _ hdvd hsize)]
      constructor
      · intro hok
        injection hok with _ hs
        exact Or.inr ⟨hdvd, congrArg Phys.mem hs⟩
      · rintro (h | ⟨_, hsame⟩)
        · exact absurd h hz
        · simp only [hsame]
          rfl
    · obtain ⟨s', hfuel⟩ := pmemset_endless { s with pmm := pmm } hdvd
      rw [run_bind_error hfuel]
      constructor
      · intro hok
        cases hok
      · rintro (h | ⟨h, _⟩)
        · exact absurd h hz
        · exact absurd h hdvd

theorem kmalloc_of_alloc {s s₁ : Simple σ} {size flags result : Nat} (hsize : size ≤ pgSize / 2)
    (hrun : (A.alloc size flags).run s = .ok result s₁) :
    (Vmm.kmalloc A size flags).run s = .ok result (if flags &&& gfpZero = 0 then s₁ else
      { s₁ with phys := { s₁.phys with mem := s₁.phys.mem.fill result 0 size } }) := by
  rw [Vmm.kmalloc, if_neg (by omega), run_bind_ok hrun]
  by_cases hz : flags &&& gfpZero = 0
  · rw [if_pos hz, if_neg (not_not.mpr hz)]
    rfl
  · rw [if_neg hz, if_pos hz]
    rfl

theorem kmalloc_failed_iff {s s₁ : Simple σ} {size flags : Nat} (hsize : size ≤ pgSize / 2)
    (hrun : (A.alloc size flags).run s = .ok 0 s₁) :
    (Vmm.kmalloc A size flags).run s = .ok 0 s₁ ↔
      flags &&& gfpZero = 0 ∨ ∀ x, Mem.dist 0 x < size → s₁.phys.mem x = 0 := by
  rw [kmalloc_of_alloc hsize hrun, ← Mem.fill_eq_self_iff]
  by_cases hz : flags &&& gfpZero = 0
  · rw [if_pos hz]
    exact ⟨fun _ => Or.inl hz, fun _ => rfl⟩
  · rw [if_neg hz]
    constructor
    · intro hok
      injection hok with _ hs
      exact Or.inr (congrArg (fun s => s.phys.mem) hs)
    · rintro (h | hsame)
      · exact absurd h hz
      · rw [hsame]

end Failed

/-- A request that the registered allocator refuses leaves memory as the
allocator left it exactly when `GFP_ZERO` was not given, or when there were
zeros before where zeros are written. -/
theorem failed_request_iff (P : PageAllocator σ) (A : SimpleAllocator σ) :
    (∀ (s : Phys σ) (pages p : Pages) (result : Int) (pmm : σ), p.size < 2 ^ 64 →
      (P.alloc pages).run s.pmm = .ok (result, p) pmm → result < 0 →
      ((allocPages P pages).run s = .ok (result, p) ⟨s.mem, pmm⟩ ↔
        p.flags &&& gfpZero = 0 ∨
        pgSize ∣ p.size ∧ ∀ x < kernBase, windowDist (pa2kva p.paddr) x < p.size → s.mem x = 0)) ∧
    ∀ (s s₁ : Simple σ) (size flags : Nat), size ≤ pgSize / 2 →
      (A.alloc size flags).run s = .ok 0 s₁ →
      ((Vmm.kmalloc A size flags).run s = .ok 0 s₁ ↔
        flags &&& gfpZero = 0 ∨ ∀ x, Mem.dist 0 x < size → s₁.phys.mem x = 0) :=
  ⟨fun _ _ _ _ _ hsize hrun _ => allocPages_failed_iff hrun hsize,
    fun _ _ _ _ hsize hrun => kmalloc_failed_iff hsize hrun⟩

/-- Memory of ones. -/
def onesPhys : Phys Unit := ⟨fun _ => 1, ()⟩

/-- Before an allocator is registered every request fails. A page at the
address left in `pages->paddr` is cleared all the same, and so are the bytes
from address 0 on. -/
theorem failed_request_fills :
    returned (allocPages dummyAllocator ⟨0x1000, pgSize, gfpZero⟩) onesPhys
      (fun r s => (r.1, s.mem 0x1000)) = some (-1, 0) ∧
    returned (Vmm.kmalloc dummySimple 16 gfpZero) ⟨onesPhys, initialSizes, true, 0, []⟩
      (fun p s => (p, s.phys.mem 0)) = some (0, 0) :=
  ⟨by decide +kernel, by decide +kernel⟩

end Aim.Kern
