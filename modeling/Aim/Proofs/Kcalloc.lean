import Aim.Proofs.PageRequests
import Aim.Proofs.SimplePages

/-!
# `kcalloc`

`kcalloc` multiplies its two arguments in 32 bits and passes the product on to
`kmalloc`, which sees no difference between a small request and a large one whose
product went round. What it hands out then is shorter than what was asked for. It
also clears whatever address comes back, `NULL` included.
-/

namespace Aim.Kern

open Aim.Lib Mem

variable {σ : Type}

/-- The bytes behind the header of the block at `p`, by the order its page is
marked with. -/
def usableLength (m : Mem) (p : Nat) : Nat :=
  classSize (pageOrder m (pageDesc (p - 8))).toNat - 8

/-- A failure without a write, or a block with room for `n` bytes, which are
zero. -/
def CallocRight (x : EStateM Stop (Simple σ) Nat) (s : Simple σ) (n : Nat) : Prop :=
  match x.run s with
  | .error _ s' => s'.phys.mem = s.phys.mem
  | .ok p s' => p = 0 ∧ s'.phys.mem = s.phys.mem ∨
      p ≠ 0 ∧ n ≤ usableLength s'.phys.mem p ∧ ∀ i < n, s'.phys.mem ((p + i) % 2 ^ 32) = 0

theorem kcalloc_run {A : SimpleAllocator σ} {s s' : Simple σ} {nmemb size flags p : Nat}
    (h : (Vmm.kmalloc A (nmemb * size % 2 ^ 32) flags).run s = .ok p s') :
    (Vmm.kcalloc A nmemb size flags).run s = .ok p { s' with phys := { s'.phys with
      mem := s'.phys.mem.fill p 0 (nmemb * size % 2 ^ 32) } } := by
  rw [Vmm.kcalloc, run_bind_ok h]
  rfl

/-- A product that is too large stops the call. -/
theorem kcalloc_large (A : SimpleAllocator σ) (s : Simple σ) {nmemb size : Nat} (flags : Nat)
    (h : 2048 < nmemb * size % 2 ^ 32) :
    (Vmm.kcalloc A nmemb size flags).run s =
      .error (.panic "kmalloc: size %lu too large\n" [(nmemb * size % 2 ^ 32 : Nat)]) s := by
  refine run_bind_error ?_
  rw [Vmm.kmalloc, if_pos (show nmemb * size % 2 ^ 32 > pgSize / 2 from h)]
  rfl

section Served

variable {s : Simple (Tracked σ)} {live : List (Nat × Nat)} {ord : Nat → Nat} {p n : Nat}

/-- A live block has room for its bytes, and for fewer than there are in a
page. -/
theorem SimpleAt.usableLength (h : SimpleAt s live ord) (hlive : (p, n) ∈ live) :
    n ≤ usableLength s.phys.mem p ∧ usableLength s.phys.mem p < 4096 := by
  obtain ⟨_, _, free, lists, hheap⟩ := h
  obtain ⟨page, hp, b, hb, heq, hsize⟩ := hheap.pages.block_of_live hlive
  simp only [] at heq hsize
  have hle := classSize_le (hheap.pages.ord_lt page hp)
  rw [Kern.usableLength, heq, Nat.add_sub_cancel, hheap.pages.pageDesc_eq hp hb.1,
    hheap.pages.pageOrder_eq hp, Int.toNat_natCast]
  omega

end Served

/-- A request whose product, as far as it was kept, is not too large: it is
served with a block of that many bytes. -/
theorem kcalloc_served {P : PageAllocator σ} {s : Simple (Tracked σ)} {live : List (Nat × Nat)}
    (nmemb size flags : Nat) (h : SimpleInv s live)
    (hgrant : Grants P s.phys.pmm) (hsize : nmemb * size % 2 ^ 32 ≤ 2048) :
    ∃ p s', (Vmm.kcalloc (simpleAllocator (tracked P)) nmemb size flags).run s = .ok p s' ∧
      p ≠ 0 ∧ SimpleInv s' ((p, nmemb * size % 2 ^ 32) :: live) ∧
      ∀ i < nmemb * size % 2 ^ 32, s'.phys.mem ((p + i) % 2 ^ 32) = 0 := by
  obtain ⟨ord, hat⟩ := h.classes
  obtain ⟨p, s', hrun, hserved, _⟩ := kmalloc_spec flags hat hsize hgrant
  obtain ⟨ord', hat', _⟩ := hserved.heap
  refine ⟨p, _, kcalloc_run hrun, hserved.ne_null, (hat'.fill List.mem_cons_self 0).inv, ?_⟩
  intro i hi
  simp only [fill]
  rw [dist_add (by omega), if_pos hi]

end Aim.Kern
