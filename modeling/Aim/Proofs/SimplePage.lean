import Aim.Kern.SimpleAlloc
import Aim.Lib.Chain
import Mathlib.Data.List.Nodup
import Mathlib.Data.List.Perm.Subperm

/-!
# One page of blocks

`PageAt m page sz n order free` says that the memory `m` stores at `page` a
page of `n` blocks of `sz` bytes whose free list is `free`. It speaks of the
words of the descriptor and of the block headers and of nothing else: what is
in the payloads does not matter, and neither does the word `next` at the start
of the page, which belongs to the list of the class.

Three things happen to a page: the first free block is taken off, a block in
use is put in front, and a page is cut into blocks. Each rule is stated for
whatever memory has the right words at the places the operation writes and is
unchanged elsewhere (`Mem.SameBut`).
-/

namespace Aim.Kern

open Aim.Lib Mem

/-- What the size and the number of the blocks of a page must satisfy. -/
structure Layout (sz n : Nat) : Prop where
  pos : 0 < n
  header : 8 < sz
  aligned : sz % 4 = 0
  fits : 16 + n * sz ≤ 4096

/-- The address of a block of the page. -/
def IsBlock (page sz n b : Nat) : Prop := ∃ k < n, b = page + 16 + k * sz

def pageBlocks (page sz n : Nat) : List Nat :=
  (List.range n).map fun k => page + 16 + k * sz

variable {m m' : Mem} {page sz n order b c : Nat} {free : List Nat}

theorem mem_pageBlocks : b ∈ pageBlocks page sz n ↔ IsBlock page sz n b := by
  simp only [pageBlocks, List.mem_map, List.mem_range, IsBlock, eq_comm]

theorem IsBlock.bounds (hL : Layout sz n) (h : IsBlock page sz n b) :
    page + 16 ≤ b ∧ b + sz ≤ page + 4096 := by
  obtain ⟨k, hk, rfl⟩ := h
  have hfits := hL.fits
  have hle : (k + 1) * sz ≤ n * sz := Nat.mul_le_mul_right _ hk
  rw [Nat.add_mul, Nat.one_mul] at hle
  omega

theorem IsBlock.aligned (hL : Layout sz n) (h : IsBlock page sz n b)
    (hp : page % 4096 = 0) : b % 4 = 0 := by
  obtain ⟨k, _, rfl⟩ := h
  have hmul : k * sz % 4 = 0 := by rw [Nat.mul_mod, hL.aligned]; simp
  omega

/-- Two blocks of a page do not overlap. -/
theorem IsBlock.apart (hb : IsBlock page sz n b) (hc : IsBlock page sz n c)
    (hne : b ≠ c) : b + sz ≤ c ∨ c + sz ≤ b := by
  obtain ⟨k, _, rfl⟩ := hb
  obtain ⟨j, _, rfl⟩ := hc
  rcases Nat.lt_trichotomy k j with hlt | heq | hgt
  · have hle : (k + 1) * sz ≤ j * sz := Nat.mul_le_mul_right _ hlt
    rw [Nat.add_mul, Nat.one_mul] at hle
    omega
  · exact absurd (by rw [heq]) hne
  · have hle : (j + 1) * sz ≤ k * sz := Nat.mul_le_mul_right _ hgt
    rw [Nat.add_mul, Nat.one_mul] at hle
    omega

theorem nodup_pageBlocks (hL : Layout sz n) : (pageBlocks page sz n).Nodup := by
  refine List.Nodup.map_on ?_ List.nodup_range
  intro k _ j _ heq
  have hsz := hL.header
  exact Nat.eq_of_mul_eq_mul_right (by omega) (Nat.add_left_cancel heq)

/-- The page at `page` is in order, with the free list `free`. -/
structure PageAt (m : Mem) (page sz n order : Nat) (free : List Nat) : Prop where
  order : load32 m (page + 8) = order
  nfree : load32 m (page + 12) = free.length
  chain : Chain 0 (fun b => load32 m (b + 4)) (load32 m (page + 4)) free
  nodup : free.Nodup
  block : ∀ b ∈ free, IsBlock page sz n b
  unused : ∀ b ∈ free, load32 m b = mfFree
  used : ∀ b, IsBlock page sz n b → b ∉ free → load32 m b = mfUsed

/-- The words a page in order is read off from. -/
def IsMeta (page sz n a : Nat) : Prop :=
  page + 4 ≤ a ∧ a + 4 ≤ page + 16 ∨ ∃ b, IsBlock page sz n b ∧ (a = b ∨ a = b + 4)

theorem IsMeta.bounds (hL : Layout sz n) {a : Nat} (h : IsMeta page sz n a) :
    page + 4 ≤ a ∧ a + 4 ≤ page + 4096 := by
  have hsz := hL.header
  rcases h with h | ⟨b, hb, h⟩
  · omega
  · have hbd := hb.bounds hL
    omega

/-- Neither these words nor the link of the page are in the payload of a
block. -/
theorem IsMeta.off_payload (hL : Layout sz n) (hb : IsBlock page sz n b) {a size : Nat}
    (hsize : size + 8 ≤ sz) (ha : a = page ∨ IsMeta page sz n a) :
    a + 4 ≤ b + 8 ∨ b + 8 + size ≤ a := by
  have hbd := hb.bounds hL
  rcases ha with rfl | ha | ⟨c, hc, ha⟩
  · omega
  · omega
  · by_cases hcb : c = b
    · omega
    · have hap := hc.apart hb hcb
      omega

theorem PageAt.congr (h : PageAt m page sz n order free)
    (heq : ∀ a, IsMeta page sz n a → load32 m' a = load32 m a) :
    PageAt m' page sz n order free := by
  have hdesc : ∀ a, page + 4 ≤ a ∧ a + 4 ≤ page + 16 → load32 m' a = load32 m a :=
    fun a ha => heq a (Or.inl ha)
  have hflag : ∀ b, IsBlock page sz n b → load32 m' b = load32 m b :=
    fun b hb => heq b (Or.inr ⟨b, hb, Or.inl rfl⟩)
  constructor
  · rw [hdesc (page + 8) (by omega)]; exact h.order
  · rw [hdesc (page + 12) (by omega)]; exact h.nfree
  · rw [hdesc (page + 4) (by omega)]
    exact h.chain.congr fun b hb => heq (b + 4) (Or.inr ⟨b, h.block b hb, Or.inr rfl⟩)
  · exact h.nodup
  · exact h.block
  · intro b hb
    rw [hflag b (h.block b hb)]; exact h.unused b hb
  · intro b hb hnot
    rw [hflag b hb]; exact h.used b hb hnot

theorem PageAt.length_le (h : PageAt m page sz n order free) : free.length ≤ n := by
  have hsub : free.Subperm (pageBlocks page sz n) :=
    List.subperm_of_subset h.nodup fun b hb => mem_pageBlocks.mpr (h.block b hb)
  have hle := hsub.length_le
  rw [pageBlocks, List.length_map, List.length_range] at hle
  exact hle

/-- A page with `n` free blocks has no other. -/
theorem PageAt.mem_of_full (h : PageAt m page sz n order free)
    (hlen : free.length = n) (hb : IsBlock page sz n b) : b ∈ free := by
  have hsub : free.Subperm (pageBlocks page sz n) :=
    List.subperm_of_subset h.nodup fun b hb => mem_pageBlocks.mpr (h.block b hb)
  have hperm := hsub.perm_of_length_le (by
    rw [pageBlocks, List.length_map, List.length_range, hlen])
  exact hperm.mem_iff.mpr (mem_pageBlocks.mpr hb)

/-- A page with fewer free blocks has one in use. -/
theorem PageAt.exists_used (hL : Layout sz n) (h : PageAt m page sz n order free)
    (hlen : free.length ≠ n) : ∃ b, IsBlock page sz n b ∧ b ∉ free := by
  by_contra hnone
  have hsub : (pageBlocks page sz n).Subperm free := by
    refine List.subperm_of_subset (nodup_pageBlocks hL) ?_
    intro b hb
    by_contra hnot
    exact hnone ⟨b, mem_pageBlocks.mp hb, hnot⟩
  have hle := hsub.length_le
  rw [pageBlocks, List.length_map, List.length_range] at hle
  exact hlen (Nat.le_antisymm h.length_le hle)

/-! ## The three operations -/

section Operations

variable (hL : Layout sz n) (hend : page + 4096 ≤ 2 ^ 32)

/-- The words that are written when a block changes hands. -/
def written (page b : Nat) : List Nat := [page, page + 4, page + 12, b, b + 4]

include hL hend

/-- What else there is in the page stays. -/
theorem load_order_of_written (hb : IsBlock page sz n b)
    (hsame : SameBut m m' (written page b)) :
    load32 m' (page + 8) = load32 m (page + 8) := by
  have hsz := hL.header
  have hbd := hb.bounds hL
  refine hsame _ (by omega) ?_
  intro w hw
  simp only [written, List.mem_cons, List.not_mem_nil, or_false] at hw
  omega

theorem load_header_of_written (hb : IsBlock page sz n b) (hc : IsBlock page sz n c)
    (hne : c ≠ b) (hsame : SameBut m m' (written page b)) :
    load32 m' c = load32 m c ∧ load32 m' (c + 4) = load32 m (c + 4) := by
  have hsz := hL.header
  have hbd := hb.bounds hL
  have hcd := hc.bounds hL
  have hap := hc.apart hb hne
  constructor
  · refine hsame _ (by omega) ?_
    intro w hw
    simp only [written, List.mem_cons, List.not_mem_nil, or_false] at hw
    omega
  · refine hsame _ (by omega) ?_
    intro w hw
    simp only [written, List.mem_cons, List.not_mem_nil, or_false] at hw
    omega

/-- The first free block is taken. -/
theorem PageAt.take (h : PageAt m page sz n order (b :: free))
    (hsame : SameBut m m' (written page b))
    (hfirst : load32 m' (page + 4) = load32 m (b + 4))
    (hnfree : load32 m' (page + 12) = free.length) (hused : load32 m' b = mfUsed) :
    PageAt m' page sz n order free := by
  have hb := h.block b List.mem_cons_self
  obtain ⟨hnot, hnodup⟩ := List.nodup_cons.mp h.nodup
  have hne : ∀ c ∈ free, c ≠ b := by
    intro c hc heq
    exact hnot (heq ▸ hc)
  have hblock : ∀ c ∈ free, IsBlock page sz n c :=
    fun c hc => h.block c (List.mem_cons_of_mem _ hc)
  constructor
  · rw [load_order_of_written hL hend hb hsame]; exact h.order
  · exact hnfree
  · rw [hfirst]
    refine h.chain.2.2.congr fun c hc => ?_
    exact (load_header_of_written hL hend hb (hblock c hc) (hne c hc) hsame).2
  · exact hnodup
  · exact hblock
  · intro c hc
    rw [(load_header_of_written hL hend hb (hblock c hc) (hne c hc) hsame).1]
    exact h.unused c (List.mem_cons_of_mem _ hc)
  · intro c hc hcf
    by_cases hcb : c = b
    · rw [hcb]; exact hused
    · rw [(load_header_of_written hL hend hb hc hcb hsame).1]
      refine h.used c hc ?_
      intro hmem
      rcases List.mem_cons.mp hmem with heq | hmem
      · exact hcb heq
      · exact hcf hmem

/-- A block in use is put in front of the free list. -/
theorem PageAt.put (h : PageAt m page sz n order free) (hb : IsBlock page sz n b)
    (hnot : b ∉ free) (hsame : SameBut m m' (written page b))
    (hfirst : load32 m' (page + 4) = b) (hnext : load32 m' (b + 4) = load32 m (page + 4))
    (hnfree : load32 m' (page + 12) = free.length + 1)
    (hfree : load32 m' b = mfFree) :
    PageAt m' page sz n order (b :: free) := by
  have hbd := hb.bounds hL
  have hne : ∀ c ∈ free, c ≠ b := by
    intro c hc heq
    exact hnot (heq ▸ hc)
  constructor
  · rw [load_order_of_written hL hend hb hsame]; exact h.order
  · exact hnfree
  · rw [hfirst]
    refine h.chain.push (by omega) hnext fun c hc => ?_
    exact (load_header_of_written hL hend hb (h.block c hc) (hne c hc) hsame).2
  · exact List.nodup_cons.mpr ⟨hnot, h.nodup⟩
  · intro c hc
    rcases List.mem_cons.mp hc with rfl | hc
    · exact hb
    · exact h.block c hc
  · intro c hc
    rcases List.mem_cons.mp hc with rfl | hc
    · exact hfree
    · rw [(load_header_of_written hL hend hb (h.block c hc) (hne c hc) hsame).1]
      exact h.unused c hc
  · intro c hc hcf
    rw [List.mem_cons, not_or] at hcf
    rw [(load_header_of_written hL hend hb hc hcf.1 hsame).1]
    exact h.used c hc hcf.2

end Operations

/-- A page that was just cut into blocks. -/
theorem PageAt.fresh (hL : Layout sz n) (hpos : 0 < page)
    (horder : load32 m (page + 8) = order) (hnfree : load32 m (page + 12) = n)
    (hfirst : load32 m (page + 4) = page + 16)
    (hflag : ∀ k < n, load32 m (page + 16 + k * sz) = mfFree)
    (hnext : ∀ k, k + 1 < n →
      load32 m (page + 16 + k * sz + 4) = page + 16 + (k + 1) * sz)
    (hlast : load32 m (page + 16 + (n - 1) * sz + 4) = 0) :
    PageAt m page sz n order (pageBlocks page sz n) := by
  have hn := hL.pos
  constructor
  · exact horder
  · rw [hnfree, pageBlocks, List.length_map, List.length_range]
  · have hchain : Chain 0 (fun b => load32 m (b + 4)) (page + 16 + 0 * sz)
        ((List.range' 0 (n - 1 + 1)).map fun k => page + 16 + k * sz) := by
      refine Chain.of_range' (f := fun k => page + 16 + k * sz)
        (fun i => by omega) (fun i _ hi => hnext i (by omega)) ?_
      rw [Nat.zero_add]
      exact hlast
    rw [Nat.sub_add_cancel hn, ← List.range_eq_range', Nat.zero_mul, Nat.add_zero]
      at hchain
    rw [hfirst]
    exact hchain
  · exact nodup_pageBlocks hL
  · exact fun b hb => mem_pageBlocks.mp hb
  · intro b hb
    obtain ⟨k, hk, rfl⟩ := mem_pageBlocks.mp hb
    exact hflag k hk
  · intro b hb hnot
    exact absurd (mem_pageBlocks.mpr hb) hnot

end Aim.Kern
