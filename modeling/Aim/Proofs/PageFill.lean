import Aim.Lib.Ends
import Aim.Proofs.Window

/-!
# `pmemset` fills whole pages

The loop of `pmemset` fills a page and takes its size off what is left. From a
whole number of pages it gets to `0` after the last one, and the fills of its
rounds add up to one fill (`pmemsetLoop_pages`). From any other size it passes
`0` by: the size goes round modulo `2 ^ 64` and keeps its remainder, so that no
number of rounds is enough (`pmemsetLoop_fuel`).

The fill is at the kernel address that `pa2kva` makes. Below `KERN_BASE` that is
where the pages are seen.
-/

namespace Aim.Kern

open Aim.Lib

variable {σ : Type} {paddr size : Nat} {b : UInt8}

/-- The bytes of the pages that hold `size` bytes. -/
def pageBytes (size : Nat) : Nat := (size + pgSize - 1) / pgSize * pgSize

theorem pageBytes_of_dvd {size : Nat} (h : pgSize ∣ size) : pageBytes size = size := by
  unfold pageBytes
  unfold pgSize at h ⊢
  omega

theorem run_kmemset (a : Nat) (b : UInt8) (n : Nat) (s : Phys σ) :
    (kmemset a b n).run s = .ok () { s with mem := kfill s.mem a b n } := rfl

/-- One round for every page. -/
theorem pmemsetLoop_pages (b : UInt8) : ∀ {j n paddr : Nat} {s : Phys σ}, j * pgSize < 2 ^ 64 →
    j < n → (pmemsetLoop b n paddr (j * pgSize)).run s =
      .ok () { s with mem := kfill s.mem (pa2kva paddr) b (j * pgSize) } := by
  intro j
  induction j with
  | zero =>
      intro n paddr s _ hn
      obtain ⟨m, rfl⟩ : ∃ m, n = m + 1 := ⟨n - 1, by omega⟩
      rw [Nat.zero_mul, pmemsetLoop, if_neg (Nat.lt_irrefl 0), kfill_zero]
      rfl
  | succ j ih =>
      intro n paddr s hj hn
      obtain ⟨m, rfl⟩ : ∃ m, n = m + 1 := ⟨n - 1, by omega⟩
      have hpg : pgSize = 4096 := rfl
      rw [Nat.add_mul, Nat.one_mul] at hj ⊢
      have hpos : j * pgSize + pgSize > 0 := by omega
      have hsub : (j * pgSize + pgSize + 2 ^ 64 - pgSize) % 2 ^ 64 = j * pgSize := by omega
      have hnext :
          pa2kva ((paddr + pgSize) % 2 ^ 64) % 2 ^ 32 = (pa2kva paddr + pgSize) % 2 ^ 32 := by
        rw [pa2kva, pa2kva]
        omega
      rw [pmemsetLoop, if_pos hpos, run_bind_ok (run_kmemset _ _ _ _), hsub,
        ih (by omega) (by omega)]
      simp only [kfill_congr _ b (j * pgSize) hnext, kfill_kfill, Nat.add_comm pgSize]

theorem pmemset_ok (s : Phys σ) (hdvd : pgSize ∣ size) (hsize : size < 2 ^ 64) :
    (pmemset paddr b size).run s =
      .ok () { s with mem := kfill s.mem (pa2kva paddr) b size } := by
  obtain ⟨j, rfl⟩ := hdvd
  rw [Nat.mul_comm] at hsize ⊢
  rw [pmemset, Nat.mul_div_cancel j (show 0 < pgSize by decide)]
  exact pmemsetLoop_pages b hsize (Nat.lt_succ_self j)

theorem pmemset_page (paddr : Nat) (b : UInt8) (s : Phys σ) :
    (pmemset paddr b pgSize).run s =
      .ok () { s with mem := kfill s.mem (pa2kva paddr) b pgSize } :=
  pmemset_ok s (Nat.dvd_refl pgSize) (by decide)

/-- What is left of a page stays left of it. -/
theorem pmemsetLoop_fuel (b : UInt8) : ∀ (n paddr : Nat) {size : Nat} (s : Phys σ),
    ¬ pgSize ∣ size → ∃ s', (pmemsetLoop b n paddr size).run s = .error .fuel s' := by
  intro n
  induction n with
  | zero =>
      intro paddr size s _
      exact ⟨s, rfl⟩
  | succ n ih =>
      intro paddr size s hdvd
      have hpos : size > 0 := by
        rw [gt_iff_lt, Nat.pos_iff_ne_zero]
        intro h0
        exact hdvd (h0 ▸ Nat.dvd_zero pgSize)
      have hnext : ¬ pgSize ∣ (size + 2 ^ 64 - pgSize) % 2 ^ 64 := by
        unfold pgSize at hdvd ⊢
        omega
      rw [pmemsetLoop, if_pos hpos, run_bind_ok (run_kmemset _ _ _ _)]
      exact ih _ _ hnext

theorem pmemset_endless (s : Phys σ) (hdvd : ¬ pgSize ∣ size) :
    ∃ s', (pmemset paddr b size).run s = .error .fuel s' :=
  pmemsetLoop_fuel b _ paddr s hdvd

/-- Below `KERN_BASE` it is the pages themselves that are filled. -/
theorem pmemset_low (s : Phys σ) (hdvd : pgSize ∣ size) (hlow : paddr + size ≤ kernBase) :
    (pmemset paddr b size).run s = .ok () { s with mem := s.mem.put paddr size fun _ => b } := by
  rw [kernBase] at hlow
  rw [pmemset_ok s hdvd (by omega), kfill_eq_put hlow]

/-- After some number of rounds the loop is over, and the pages that hold
`size` bytes from `paddr` on are filled, and nothing else is changed. -/
def FillsPages (paddr : Nat) (b : UInt8) (size : Nat) (s : Phys σ) : Prop :=
  ∃ fuel, (pmemsetLoop b fuel paddr size).run s =
    .ok () { s with mem := s.mem.put paddr (pageBytes size) fun _ => b }

theorem fillsPages_iff {s : Phys σ} (hlow : paddr + size ≤ kernBase) :
    FillsPages paddr b size s ↔ pgSize ∣ size := by
  constructor
  · rintro ⟨fuel, hrun⟩
    by_contra hdvd
    obtain ⟨s', hfuel⟩ := pmemsetLoop_fuel b fuel paddr s hdvd
    rw [hfuel] at hrun
    cases hrun
  · intro hdvd
    rw [FillsPages, pageBytes_of_dvd hdvd]
    exact ⟨_, pmemset_low s hdvd hlow⟩

/-! ## `alloc_pages` and `free_pages` -/

theorem run_onPmm {α : Type} {s : Phys σ} {x : EStateM Stop σ α} {a : α} {pmm : σ}
    (h : x.run s.pmm = .ok a pmm) :
    (onPmm x).run s = .ok a { s with pmm := pmm } := run_zoom_ok h

section Calls

variable {P : PageAllocator σ} {pages p : Pages} {s : Phys σ} {pmm : σ} {result : Int}

/-- Without `GFP_ZERO` the answer of the allocator is passed on. -/
theorem allocPages_plain (hrun : (P.alloc pages).run s.pmm = .ok (result, p) pmm)
    (hz : p.flags &&& gfpZero = 0) :
    (allocPages P pages).run s = .ok (result, p) { s with pmm := pmm } := by
  rw [allocPages, run_bind_ok (run_onPmm hrun)]
  simp only [hz]
  rfl

/-- With it the pages are filled first, whatever the answer was. -/
theorem allocPages_zero (hrun : (P.alloc pages).run s.pmm = .ok (result, p) pmm)
    (hz : p.flags &&& gfpZero ≠ 0) :
    (allocPages P pages).run s =
      (pmemset p.paddr 0 p.size >>= fun _ => pure (result, p)).run { s with pmm := pmm } := by
  rw [allocPages, run_bind_ok (run_onPmm hrun)]
  simp only [if_pos hz]

/-- A whole number of pages comes back filled with junk. -/
theorem freePages_junk (hrun : (P.free pages).run s.pmm = .ok p pmm)
    (hu : pages.flags &&& gfpUnsafe = 0) (hdvd : pgSize ∣ pages.size)
    (hsize : pages.size < 2 ^ 64) :
    (freePages P pages).run s =
      .ok p ⟨kfill s.mem (pa2kva pages.paddr) junkByte pages.size, pmm⟩ := by
  rw [freePages, if_pos hu, run_bind_ok (pmemset_ok s hdvd hsize)]
  exact run_onPmm hrun

end Calls

end Aim.Kern
