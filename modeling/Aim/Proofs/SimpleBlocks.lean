import Aim.Proofs.SimpleRun

/-!
# Blocks, pages and lists as they can be seen

`SimpleOk` says of a state of the object allocator what can be read off from
its memory, its table and the two lists of live blocks and held pages, without
the functions the invariant is stated with. Its three groups of clauses are
about the live blocks, about the lists of the size classes, and about the
held pages. `simple_run_ok` is the result: it holds in every reachable state,
and every permitted call returns.
-/

namespace Aim.Kern

open Aim.Lib Mem

variable {σ : Type}

/-- `page->order`. -/
def pageOrder (m : Mem) (page : Nat) : Int := toInt32 (load32 m (page + 8))

/-- `page->nfree`. -/
def pageNfree (m : Mem) (page : Nat) : Int := toInt32 (load32 m (page + 12))

/-- The addresses of the blocks of a page, by the order it is marked with. -/
def blocksOf (m : Mem) (page : Nat) : List Nat :=
  pageBlocks page (classSize (pageOrder m page).toNat) (classBlocks (pageOrder m page).toNat)

structure SimpleOk (r : SimpleRun σ) : Prop where
  /-- The payloads of live blocks share no byte. -/
  disjoint : r.live.Pairwise fun e f => e.1 + e.2 ≤ f.1 ∨ f.1 + f.2 ≤ e.1
  distinct : (r.live.map Prod.fst).Nodup
  /-- They do not touch a page descriptor. -/
  off_descriptors : ∀ e ∈ r.live, ∀ page ∈ r.held, e.1 + e.2 ≤ page ∨ page + 16 ≤ e.1
  /-- They do not touch the header of a block, in whichever page. -/
  off_headers : ∀ e ∈ r.live, ∀ page ∈ r.held, ∀ b ∈ blocksOf r.mem page,
    e.1 + e.2 ≤ b ∨ b + 8 ≤ e.1
  in_page : ∀ e ∈ r.live, ∃ page ∈ r.held, page ≤ e.1 ∧ e.1 + e.2 ≤ page + 4096
  aligned : ∀ e ∈ r.live, e.1 % 4 = 0
  /-- The list of a class ends, has no page twice, and has the held pages of
  the class that have a free block. -/
  listed : ∀ o : Nat, o < 8 → ∃ (d : SizeDescriptor) (l : List Nat), r.s.sizes[o]? = some d ∧
    Chain 0 (load32 r.mem) d.firstfree l ∧ l.Nodup ∧
    ∀ page, page ∈ l ↔ page ∈ r.held ∧ pageOrder r.mem page = o ∧ 0 < pageNfree r.mem page
  /-- The other pages are linked to nothing. -/
  unlisted : ∀ page ∈ r.held, pageNfree r.mem page = 0 → load32 r.mem page = 0
  /-- Every held page is of one of the classes. -/
  classed : ∀ page ∈ r.held, 0 ≤ pageOrder r.mem page ∧ pageOrder r.mem page < 8
  /-- Its free list has as many blocks as it says, all marked free, and its
  other blocks are live and marked used. -/
  split : ∀ page ∈ r.held, ∃ l,
    Chain 0 (fun b => load32 r.mem (b + 4)) (load32 r.mem (page + 4)) l ∧ l.Nodup ∧
    (l.length : Int) = pageNfree r.mem page ∧
    (∀ b ∈ l, b ∈ blocksOf r.mem page ∧ load32 r.mem b = mfFree) ∧
    ∀ b ∈ blocksOf r.mem page, b ∉ l →
      load32 r.mem b = mfUsed ∧ b + 8 ∈ r.live.map Prod.fst

section Observed

variable {m : Mem} {first ord : Nat → Nat} {held : List Nat} {live : List (Nat × Nat)}
  {free lists : Nat → List Nat} {page : Nat} (h : HeldPages m held live ord free)

include h

theorem HeldPages.pageOrder_eq (hp : page ∈ held) : pageOrder m page = ord page := by
  have ho := h.ord_lt page hp
  rw [pageOrder, (h.at_page page hp).order]
  exact toInt32_of_lt (by omega)

theorem HeldPages.pageNfree_eq (hp : page ∈ held) : pageNfree m page = (free page).length := by
  have hat := h.at_page page hp
  have hle := hat.length_le
  have hlt := classBlocks_lt (h.ord_lt page hp)
  rw [pageNfree, hat.nfree]
  exact toInt32_of_lt (by omega)

theorem HeldPages.mem_blocksOf (hp : page ∈ held) {b : Nat} : b ∈ blocksOf m page ↔
      IsBlock page (classSize (ord page)) (classBlocks (ord page)) b := by
  rw [blocksOf, h.pageOrder_eq hp, Int.toNat_natCast, mem_pageBlocks]

/-- The block a live payload belongs to. -/
theorem HeldPages.block_of_live {e : Nat × Nat} (he : e ∈ live) :
    ∃ page ∈ held, ∃ b, InUse ord free page b ∧ e.1 = b + 8 ∧
      e.2 + 8 ≤ classSize (ord page) := by
  obtain ⟨page, hp, b, hb, heq⟩ := (h.live_iff e.1).mp (List.mem_map_of_mem he)
  have hbd := h.block_bounds hp hb.1
  exact ⟨page, hp, b, hb, heq, h.live_size e he page hp (by omega) (by omega)⟩

/-- Two blocks, of one page or of two, do not overlap. -/
theorem HeldPages.blocks_apart {q b c : Nat} (hp : page ∈ held) (hq : q ∈ held)
    (hb : IsBlock page (classSize (ord page)) (classBlocks (ord page)) b)
    (hc : IsBlock q (classSize (ord q)) (classBlocks (ord q)) c) (hne : b ≠ c) :
    b + classSize (ord page) ≤ c ∨ c + classSize (ord q) ≤ b := by
  by_cases hpq : page = q
  · subst hpq
    exact hb.apart hc hne
  · have h1 := h.block_bounds hp hb
    have h2 := h.block_bounds hq hc
    have h3 := h.page page hp
    have h4 := h.page q hq
    omega

/-- No live block overlaps another one, headers included. -/
theorem HeldPages.live_apart :
    live.Pairwise fun e f => e.1 + e.2 ≤ f.1 - 8 ∨ f.1 + f.2 ≤ e.1 - 8 := by
  have hne : live.Pairwise fun e f => e.1 ≠ f.1 := List.pairwise_map.mp h.live_nodup
  refine hne.imp_of_mem ?_
  intro e f he hf hef
  obtain ⟨page, hp, b, hb, heb, hesize⟩ := h.block_of_live he
  obtain ⟨q, hq, c, hc, hfc, hfsize⟩ := h.block_of_live hf
  have hap := h.blocks_apart hp hq hb.1 hc.1 (by omega)
  omega

end Observed

theorem SimpleInv.ok {r : SimpleRun σ} (h : SimpleInv r.s r.live) : SimpleOk r := by
  obtain ⟨_, hshape, ord, free, lists, hpages, hlists⟩ := h
  have hnfree : ∀ page ∈ r.held, (free page = [] ↔ pageNfree r.mem page = 0) := by
    intro page hp
    rw [show pageNfree r.mem page = _ from hpages.pageNfree_eq hp,
      ← List.length_eq_zero_iff]
    omega
  constructor
  · refine hpages.live_apart.imp ?_
    intro e f hef
    omega
  · exact hpages.live_nodup
  · intro e he q hq
    obtain ⟨page, hp, b, hb, heb, hesize⟩ := hpages.block_of_live he
    have hbd := hpages.block_bounds hp hb.1
    have hppage := hpages.page page hp
    have hqpage := hpages.page q hq
    omega
  · intro e he q hq c hc
    obtain ⟨page, hp, b, hb, heb, hesize⟩ := hpages.block_of_live he
    have hc' := (hpages.mem_blocksOf hq).mp hc
    have hcd := hpages.block_bounds hq hc'
    by_cases hbc : b = c
    · omega
    · have hap := hpages.blocks_apart hp hq hb.1 hc' hbc
      omega
  · intro e he
    obtain ⟨page, hp, b, hb, heb, hesize⟩ := hpages.block_of_live he
    have hbd := hpages.block_bounds hp hb.1
    exact ⟨page, hp, by omega, by omega⟩
  · intro e he
    obtain ⟨page, hp, b, hb, heb, _⟩ := hpages.block_of_live he
    have hal := hb.1.aligned (hpages.layout hp) (hpages.page page hp).2.1
    omega
  · intro o ho
    obtain ⟨d, hd, _, _⟩ := hshape.get (show o < 9 by omega)
    have hchain := hlists.chain o ho
    rw [firstOf_eq hd] at hchain
    refine ⟨d, lists o, hd, hchain, hlists.nodup o ho, ?_⟩
    intro page
    rw [hlists.mem_iff o ho]
    constructor
    · intro hin
      have hz := hnfree page hin.1
      have hle : 0 ≤ pageNfree r.mem page := by
        rw [show pageNfree r.mem page = _ from hpages.pageNfree_eq hin.1]
        omega
      refine ⟨hin.1, ?_, ?_⟩
      · rw [show pageOrder r.mem page = _ from hpages.pageOrder_eq hin.1, hin.2.1]
      · have hnz := mt hz.mpr hin.2.2
        omega
    · intro hin
      refine ⟨hin.1, ?_, fun hnil => ?_⟩
      · have hord := hin.2.1
        rw [show pageOrder r.mem page = _ from hpages.pageOrder_eq hin.1] at hord
        omega
      · have hz := (hnfree page hin.1).mp hnil
        omega
  · intro page hp hz
    exact hlists.full page ⟨hp, (hnfree page hp).mpr hz⟩
  · intro page hp
    have ho := hpages.ord_lt page hp
    rw [show pageOrder r.mem page = _ from hpages.pageOrder_eq hp]
    omega
  · intro page hp
    have hat := hpages.at_page page hp
    refine ⟨free page, hat.chain, hat.nodup, (hpages.pageNfree_eq hp).symm, ?_, ?_⟩
    · intro b hb
      exact ⟨(hpages.mem_blocksOf hp).mpr (hat.block b hb), hat.unused b hb⟩
    · intro b hb hnot
      have hb' := (hpages.mem_blocksOf hp).mp hb
      exact ⟨hat.used b hb' hnot, (hpages.live_iff _).mpr ⟨page, hp, b, ⟨hb', hnot⟩, rfl⟩⟩

/-- Whatever the clients do, blocks, pages and lists stay in order, and no call
is stopped. -/
theorem simple_run_ok {P : PageAllocator σ} {r : SimpleRun σ}
    (h : (simpleCalls P).Reachable r) : SimpleOk r ∧ (simpleCalls P).Returns r := by
  have hinv := Machine.reachable_of_inv (simpleInv_invariant P) h
  exact ⟨SimpleInv.ok hinv, (simpleInv_invariant P).returns hinv⟩

/-- A page allocator that hands out one page after the other. -/
def bumpPages : PageAllocator Nat where
  alloc pages := do
    let next ← get
    set (next + 4096)
    return (0, { pages with paddr := next })
  free pages := return pages
  getFree := return 0

/-- The object allocator over it, with memory full of junk. -/
def bumpRun : SimpleRun Nat where
  s := ⟨⟨fun _ => 0x20, ⟨0x100000, []⟩⟩, initialSizes, true, 0, []⟩
  live := []

/-- Two blocks of one page, and the first one back. -/
theorem simple_run_ok_twoBlocks : ∃ r, (simpleCalls bumpPages).Reachable r ∧
    r.live = [(0x100810, 2000)] ∧ SimpleOk r ∧ (simpleCalls bumpPages).Returns r := by
  have h₀ : (simpleCalls bumpPages).Reachable bumpRun :=
    .init ⟨⟨bumpRun.s, rfl⟩, rfl, by decide, rfl, rfl⟩
  obtain ⟨r, hreach, hrl⟩ := h₀.sees [.alloc 2000, .alloc 2000, .free 0x100018] SimpleRun.live
    [(0x100810, 2000)] (by decide +kernel) (by decide +kernel)
  exact ⟨r, hreach, hrl, simple_run_ok hreach⟩

/-- A page allocator that hands out the pages of a list. -/
def listPages : PageAllocator (List Nat) where
  alloc pages := do
    let next ← get
    set next.tail
    return (0, { pages with paddr := next.headD 0 })
  free pages := return pages
  getFree := return 0

/-- The second of its pages is above `KERN_BASE`, and `pa2kva` leads from there to the
first one. -/
def highRun : SimpleRun (List Nat) where
  s := ⟨⟨fun _ => 0, ⟨[0x10000000, 0x90000000], []⟩⟩, initialSizes, true, 0, []⟩
  live := []

/-- When the second page is given back, the first one is filled with junk, under its
live block. -/
theorem simple_run_high : (simpleCalls listPages).init highRun ∧ ∃ r,
    (simpleCalls listPages).after [.alloc 20, .alloc 100, .free 0x90000018] highRun = some r ∧
    r.live = [(0x10000018, 20)] ∧ r.held = [0x10000000] ∧ ¬ SimpleOk r := by
  have hrun : ((simpleCalls listPages).after [.alloc 20, .alloc 100, .free 0x90000018]
      highRun).map (fun r => (r.live, r.held, pageOrder r.mem 0x10000000)) =
      some ([(0x10000018, 20)], [0x10000000], 0x20202020) := by decide +kernel
  obtain ⟨r, hr, hsee⟩ := Option.map_eq_some_iff.mp hrun
  obtain ⟨hlive, hsee⟩ := Prod.mk.inj hsee
  obtain ⟨hheld, horder⟩ := Prod.mk.inj hsee
  refine ⟨⟨⟨highRun.s, rfl⟩, rfl, by decide, rfl, rfl⟩, r, hr, hlive, hheld, fun hok => ?_⟩
  have hclass := hok.classed 0x10000000 (by rw [hheld]; exact List.mem_singleton_self _)
  rw [horder] at hclass
  exact absurd hclass (by decide)

end Aim.Kern
