import Aim.Proofs.PageFill

/-!
# `alloc_aligned_pages`

To get pages at a multiple of `align`, so many more are asked for that there is
such a multiple among the first of them, and what is too much is given back: a
piece in front, a piece behind, both or none. The allocator underneath is asked
to write down the pieces it is given (`traced`), and then the result is a
statement about ranges: the pages and the pieces are what was asked for, cut up.

`free_pages` fills the pieces with junk. A piece lies next to the pages, and what
the kernel sees goes round at `KERN_BASE`; what keeps the junk out of the pages is
that all of it together is far less than that. The zeros of `GFP_ZERO` get to the
pages as far as they are below `KERN_BASE`.
-/

namespace Aim.Kern

open Aim.Lib

variable {σ : Type} {p buf : Pages} {x : Nat}

/-! ## `ALIGN_ABOVE` -/

/-- An `or` with a mask of low bits sets all of them. -/
theorem or_mask (y k : Nat) : y ||| (2 ^ k - 1) = 2 ^ k * (y / 2 ^ k) + (2 ^ k - 1) := by
  have hlt : 2 ^ k - 1 < 2 ^ k := Nat.sub_one_lt (Nat.two_pow_pos k).ne'
  apply Nat.eq_of_testBit_eq
  intro i
  rw [Nat.testBit_or, Nat.testBit_two_pow_mul_add _ hlt, Nat.testBit_two_pow_sub_one]
  by_cases hi : i < k
  · simp [hi]
  · simp [hi, Nat.testBit_div_two_pow, Nat.sub_add_cancel (Nat.le_of_not_lt hi)]

/-- The first multiple of `2 ^ k` that is not below `x`. -/
theorem alignAbove_spec {x k : Nat} (h : x + 2 ^ k ≤ 2 ^ 64) :
    2 ^ k ∣ alignAbove x (2 ^ k) ∧ x ≤ alignAbove x (2 ^ k) ∧
      alignAbove x (2 ^ k) < x + 2 ^ k := by
  have hpos := Nat.two_pow_pos k
  have hmask : (2 ^ k + 2 ^ 64 - 1) % 2 ^ 64 = 2 ^ k - 1 := by omega
  rcases Nat.eq_zero_or_pos x with rfl | hx
  · -- `0 - 1` is all ones, and adding one gets back to `0`
    have hzero : alignAbove 0 (2 ^ k) = 0 := by
      have hones : (0 + 2 ^ 64 - 1) % 2 ^ 64 = 2 ^ 64 - 1 := by decide
      rw [alignAbove, hmask, hones, Nat.or_comm, or_mask, Nat.div_eq_of_lt (by omega)]
      rfl
    rw [hzero]
    exact ⟨Nat.dvd_zero _, Nat.le_refl 0, by omega⟩
  · have hprev : (x + 2 ^ 64 - 1) % 2 ^ 64 = x - 1 := by omega
    have hdiv := Nat.div_add_mod (x - 1) (2 ^ k)
    have hmod := Nat.mod_lt (x - 1) hpos
    rw [alignAbove, hmask, or_mask, hprev, Nat.mod_eq_of_lt (by omega), Nat.add_assoc,
      Nat.sub_add_cancel hpos]
    exact ⟨Nat.dvd_add (Nat.dvd_mul_right _ _) (Nat.dvd_refl _), by omega, by omega⟩

theorem pgSize_dvd_two_pow {k : Nat} (hk : pgSize ≤ 2 ^ k) : pgSize ∣ 2 ^ k := by
  have hpg : pgSize = 2 ^ 12 := rfl
  rw [hpg] at hk ⊢
  exact pow_dvd_pow 2 ((Nat.pow_le_pow_iff_right (by decide)).mp hk)

/-- In `2 ^ k - pgSize` bytes more than `size`, which start at a page, there is
a multiple of `2 ^ k` with `size` bytes behind it. -/
theorem alignAbove_room {base size k : Nat} (hk : pgSize ≤ 2 ^ k) (hbase : pgSize ∣ base)
    (hpos : pgSize ≤ size) (hend : base + (size + 2 ^ k - pgSize) < 2 ^ 64) :
    2 ^ k ∣ alignAbove base (2 ^ k) ∧ base ≤ alignAbove base (2 ^ k) ∧
      alignAbove base (2 ^ k) + size ≤ base + (size + 2 ^ k - pgSize) := by
  obtain ⟨haligned, hle, hlt⟩ := alignAbove_spec (x := base) (k := k) (by omega)
  refine ⟨haligned, hle, ?_⟩
  -- it is less than `2 ^ k` off, and a whole number of pages
  have hpage := pgSize_dvd_two_pow hk
  have hoff : pgSize ∣ alignAbove base (2 ^ k) := hpage.trans haligned
  unfold pgSize at *
  omega

/-! ## The pieces that are given back -/

structure Traced (σ : Type) where
  inner : σ
  /-- What was given back, the last piece first. -/
  freed : List Pages

def Traced.call {α : Type} (x : EStateM Stop σ α) : EStateM Stop (Traced σ) α :=
  zoom inner (fun a t => { t with inner := a }) x

/-- The page allocator `P`, with a trace of what `free` is given. -/
def traced (P : PageAllocator σ) : PageAllocator (Traced σ) where
  alloc pages := Traced.call (P.alloc pages)
  free pages := do
    modify fun t => { t with freed := pages :: t.freed }
    Traced.call (P.free pages)
  getFree := Traced.call P.getFree

/-- The stops of the allocator's own `free`. -/
def FreeStops (P : PageAllocator σ) (e : Stop) : Prop :=
  ∃ q t t', (P.free q).run t = .error e t'

/-- The addresses of the pages. -/
def Pages.Has (p : Pages) (x : Nat) : Prop := p.paddr ≤ x ∧ x < p.paddr + p.size

/-- The address `x` is not among the pages, not even after going round. -/
def Pages.Off (p : Pages) (x : Nat) : Prop :=
  x < p.paddr ∧ p.paddr + p.size ≤ x + kernBase ∨
    p.paddr + p.size ≤ x ∧ x < p.paddr + kernBase

theorem kfill_of_off (m : Mem) (b : UInt8) (h : p.Off x) :
    kfill m (pa2kva p.paddr) b p.size x = m x := by
  rw [kfill, if_neg]
  unfold Pages.Off at h
  rw [windowDist_pa2kva]
  rw [kernBase] at *
  omega

theorem kfill_of_has (m : Mem) (b : UInt8) (h : p.Has x) (hsize : p.size ≤ kernBase) :
    kfill m (pa2kva p.paddr) b p.size x = if x < kernBase then b else m x := by
  have hin : windowDist (pa2kva p.paddr) x < p.size := by
    unfold Pages.Has at h
    rw [windowDist_pa2kva]
    rw [kernBase] at *
    omega
  rw [kfill]
  simp only [hin, and_true]

theorem Pages.Has.of_le {a n flags x : Nat} {buf : Pages} (hx : Pages.Has ⟨a, n, flags⟩ x)
    (hlo : buf.paddr ≤ a) (hhi : a + n ≤ buf.paddr + buf.size) : buf.Has x := by
  unfold Pages.Has at hx ⊢
  simp only [] at hx
  omega

theorem Pages.Has.off_front {lo a n flags flags' x : Nat} (hx : Pages.Has ⟨a, n, flags⟩ x)
    (hlo : lo ≤ a) (hhi : a + n ≤ lo + kernBase) : Pages.Off ⟨lo, a - lo, flags'⟩ x := by
  unfold Pages.Has at hx
  unfold Pages.Off
  simp only [] at hx ⊢
  omega

theorem Pages.Has.off_back {a n k flags flags' x : Nat} (hx : Pages.Has ⟨a, n, flags⟩ x)
    (hk : n + k ≤ kernBase) : Pages.Off ⟨a + n, k, flags'⟩ x := by
  unfold Pages.Has at hx
  unfold Pages.Off
  simp only [] at hx ⊢
  omega

section Trim

variable {P : PageAllocator σ} {q : Pages}

/-- `P`'s own `free` returns, or stops as it does. -/
theorem free_endsOr (q : Pages) (t : σ) : EndsOr (FreeStops P) (P.free q) t fun _ _ => True := by
  cases hrun : (P.free q).run t with
  | ok p t' => exact endsOr_of_ok hrun trivial
  | error e t' => exact endsOr_of_error hrun ⟨q, t, t', hrun⟩

theorem traced_free (q : Pages) (t : Traced σ) :
    EndsOr (FreeStops P) ((traced P).free q) t fun _ t' => t'.freed = q :: t.freed :=
  endsOr_modify_bind (endsOr_zoom (free_endsOr q t.inner) fun _ _ _ => rfl)

/-- `free_pages` gets the pages into the trace, and leaves the memory off them
alone. -/
theorem freePages_traced (hdvd : pgSize ∣ q.size) (hsize : q.size < 2 ^ 64) (s : Phys (Traced σ)) :
    EndsOr (FreeStops P) (freePages (traced P) q) s fun _ s' =>
      s'.pmm.freed = q :: s.pmm.freed ∧ ∀ x, q.Off x → s'.mem x = s.mem x := by
  rw [freePages]
  split
  · refine endsOr_bind_ok (pmemset_ok s hdvd hsize) (endsOr_zoom (traced_free q s.pmm) ?_)
    intro _ t ht
    exact ⟨ht, fun x hx => kfill_of_off s.mem junkByte hx⟩
  · refine endsOr_zoom (traced_free q s.pmm) ?_
    intro _ t ht
    exact ⟨ht, fun x _ => rfl⟩

/-- One of the two trims, and what follows. -/
theorem trim_ends {β : Type} {c : Prop} [Decidable c]
    {f : EStateM Stop (Phys (Traced σ)) β} {Q : β → Phys (Traced σ) → Prop}
    {s : Phys (Traced σ)} (hq : c → pgSize ∣ q.size ∧ q.size < 2 ^ 64)
    (hf : ∀ s', s'.pmm.freed = (if c then [q] else []) ++ s.pmm.freed →
      (∀ x, (c → q.Off x) → s'.mem x = s.mem x) →
      EndsOr (FreeStops P) f s' Q) :
    EndsOr (FreeStops P)
      (if c then discard (freePages (traced P) q) >>= fun _ => f else f) s Q := by
  by_cases hc : c
  · obtain ⟨hdvd, hsize⟩ := hq hc
    simp only [if_pos hc] at hf ⊢
    refine EndsOr.bind (endsOr_discard (freePages_traced hdvd hsize s)) ?_
    rintro _ s' ⟨hfreed, hmem⟩
    exact hf s' hfreed fun x hx => hmem x (hx hc)
  · simp only [if_neg hc] at hf ⊢
    exact hf s rfl fun x _ => rfl

end Trim

/-! ## The whole call -/

/-- The pages `p` that are answered when `pages` are asked for at a multiple of
`align` and the allocator gave `buf`, with the pieces that went back and the
memory before and after. -/
structure AlignedGrant (pages buf : Pages) (align : Nat) (m : Mem) (p : Pages)
    (pads : List Pages) (m' : Mem) : Prop where
  size : p.size = pages.size
  flags : p.flags = pages.flags
  aligned : align ∣ p.paddr
  inside : buf.paddr ≤ p.paddr ∧ p.paddr + p.size ≤ buf.paddr + buf.size
  few : pads.length ≤ 2
  apart : (p :: pads).Pairwise fun q q' => ∀ x, ¬ (q.Has x ∧ q'.Has x)
  cover : ∀ x, (∃ q ∈ p :: pads, q.Has x) ↔ buf.Has x
  mem : ∀ x, p.Has x → m' x = if pages.flags &&& gfpZero ≠ 0 ∧ x < kernBase then 0 else m x

/-- `alloc_pages` clears what it was given, if that was asked for. -/
theorem allocPages_block {P : PageAllocator σ} {pages p : Pages} {s : Phys σ} {pmm : σ}
    {result : Int} (hrun : (P.alloc pages).run s.pmm = .ok (result, p) pmm)
    (hdvd : pgSize ∣ p.size) (hsize : p.size < 2 ^ 64) :
    (allocPages P pages).run s = .ok (result, p)
      ⟨if p.flags &&& gfpZero = 0 then s.mem
        else kfill s.mem (pa2kva p.paddr) 0 p.size, pmm⟩ := by
  split
  · next hz => exact allocPages_plain hrun hz
  · next hz =>
      rw [allocPages_zero hrun hz, run_bind_ok (pmemset_ok _ hdvd hsize)]
      rfl

/-- What is left of `buf` behind and in front of `p`. -/
def padding (buf p : Pages) : List Pages :=
  (if buf.paddr + buf.size > p.paddr + p.size then
    [⟨p.paddr + p.size, buf.paddr + buf.size - (p.paddr + p.size), buf.flags⟩] else []) ++
  if buf.paddr < p.paddr then [⟨buf.paddr, p.paddr - buf.paddr, buf.flags⟩] else []

theorem padding_length (buf p : Pages) : (padding buf p).length ≤ 2 := by
  unfold padding
  split <;> split <;> simp

theorem padding_apart (hsize : 0 < p.size) :
    (p :: padding buf p).Pairwise fun q q' => ∀ x, ¬ (q.Has x ∧ q'.Has x) := by
  unfold padding
  split <;> split <;> grind [Pages.Has]

theorem padding_cover (hlo : buf.paddr ≤ p.paddr) (hhi : p.paddr + p.size ≤ buf.paddr + buf.size)
    (x : Nat) :
    (∃ q ∈ p :: padding buf p, q.Has x) ↔ buf.Has x := by
  unfold padding
  split <;> split <;> simp [Pages.Has] <;> omega

/-- The grant, once the pages are cut out of a block that was cleared if that was
asked for and the memory off the pieces is as it was then. -/
theorem alignedGrant_of_cut {pages buf : Pages} {align paddr : Nat} {m m' : Mem}
    (hpos : 0 < pages.size) (haligned : align ∣ paddr) (hle : buf.paddr ≤ paddr)
    (hinside : paddr + pages.size ≤ buf.paddr + buf.size) (hsize : buf.size ≤ kernBase)
    (hmem : ∀ x, Pages.Has ⟨paddr, pages.size, pages.flags⟩ x → m' x =
      (if pages.flags &&& gfpZero = 0 then m else kfill m (pa2kva buf.paddr) 0 buf.size) x) :
    AlignedGrant pages buf align m { pages with paddr := paddr }
      (padding buf { pages with paddr := paddr }) m' where
  size := rfl
  flags := rfl
  aligned := haligned
  inside := ⟨hle, hinside⟩
  few := padding_length _ _
  apart := padding_apart hpos
  cover := padding_cover hle hinside
  mem x hx := by
    rw [hmem x hx]
    by_cases hz : pages.flags &&& gfpZero = 0
    · simp only [hz, if_pos, ne_eq, not_true_eq_false, false_and, if_false]
    · simp only [hz, if_false, ne_eq, not_false_eq_true, true_and]
      exact kfill_of_has m 0 (hx.of_le hle hinside) hsize

/-- An allocator that has the block at `base`. -/
def blockAt (base : Nat) : PageAllocator Unit where
  alloc pages := return (0, { pages with paddr := base })
  free pages := return pages
  getFree := return 0

end Aim.Kern
