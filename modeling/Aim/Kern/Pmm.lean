import Aim.Kern.Area
import Aim.Lib.Mem

/-!
# `kern/mm/pmm/pmm.c`: physical pages

The physical memory manager passes requests on to the page allocator that was
registered with it, and fills pages: with zeros when they are handed out under
`GFP_ZERO`, with junk when they come back without `GFP_UNSAFE`.

Memory is physical memory. The kernel sees what is below `KERN_BASE` twice, at
the physical address itself and through the window at `KERN_BASE`. Its accesses
are by kernel address, and `premap_addr` says where they go. `pa2kva` adds
`KERN_BASE` to the low word of an address: for a page at or above `KERN_BASE` the
sum wraps around, and what is seen there is the page two gigabytes below.

The registered allocator is any one; what it keeps is its own state, apart from
the memory that is managed.
-/

namespace Aim.Kern

open Aim.Lib

/-- `struct page_allocator`. Its functions get a `struct pages` by address, and
answer it with what they wrote to it. -/
structure PageAllocator (σ : Type) where
  alloc : Pages → EStateM Stop σ (Int × Pages)
  free : Pages → EStateM Stop σ Pages
  getFree : EStateM Stop σ Nat

/-- The page allocator of `page_alloc.c`. -/
def pageAllocator : PageAllocator Area := ⟨pageAlloc, pageFree, pageGetFree⟩

/-- The dummy implementations that are there before one is registered. -/
def dummyAllocator : PageAllocator Unit :=
  ⟨fun pages => return (-1, pages), fun pages => return pages, return 0⟩

/-- Physical memory and the state of the page allocator. -/
structure Phys (σ : Type) where
  mem : Mem
  pmm : σ

variable {σ : Type}

/-! ## Accesses by kernel address -/

def kernBase : Nat := 0x80000000

def pa2kva (pa : Nat) : Nat := (pa % 2 ^ 32 + kernBase) % 2 ^ 32

/-- `premap_addr`, the physical address behind a kernel address. -/
def premapAddr (a : Nat) : Nat := if kernBase ≤ a then a - kernBase else a

/-- How far behind the kernel address `a` the physical byte `x` is seen. -/
def windowDist (a x : Nat) : Nat := min (Mem.dist a x) (Mem.dist a (x + kernBase))

def kload32 (m : Mem) (a : Nat) : Nat := Mem.load32 (fun x => m (premapAddr x)) a

def kstore32 (m : Mem) (a v : Nat) : Mem := fun x =>
  if x < kernBase ∧ windowDist a x < 4 then UInt8.ofNat (v / 2 ^ (8 * windowDist a x)) else m x

/-- `memset`. -/
def kfill (m : Mem) (a : Nat) (b : UInt8) (n : Nat) : Mem := fun x =>
  if x < kernBase ∧ windowDist a x < n then b else m x

/-- `memmove`. -/
def kcopy (m : Mem) (dst src n : Nat) : Mem := fun x =>
  if x < kernBase ∧ windowDist dst x < n then m (premapAddr ((src + windowDist dst x) % 2 ^ 32))
  else m x

def kload (a : Nat) : EStateM Stop (Phys σ) Nat := do
  let s ← get
  return kload32 s.mem a

def kstore (a v : Nat) : EStateM Stop (Phys σ) Unit :=
  modify fun s => { s with mem := kstore32 s.mem a v }

def kmemset (a : Nat) (b : UInt8) (n : Nat) : EStateM Stop (Phys σ) Unit :=
  modify fun s => { s with mem := kfill s.mem a b n }

def kmemmove (dst src n : Nat) : EStateM Stop (Phys σ) Unit :=
  modify fun s => { s with mem := kcopy s.mem dst src n }

/-! ## Pages -/

def gfpUnsafe : Nat := 1

def gfpZero : Nat := 2

def junkByte : UInt8 := 0x20

def onPmm {α : Type} (x : EStateM Stop σ α) : EStateM Stop (Phys σ) α :=
  zoom Phys.pmm (fun a s => { s with pmm := a }) x

/-- The loop of `pmemset`. `size` is unsigned: from a size that is not a
number of pages the loop does not get to `0`, and the fuel runs out. -/
def pmemsetLoop (b : UInt8) : Nat → Nat → Nat → EStateM Stop (Phys σ) Unit
  | 0, _, _ => throw .fuel
  | fuel + 1, paddr, size => do
      if size > 0 then
        kmemset (pa2kva paddr) b pgSize
        pmemsetLoop b fuel ((paddr + pgSize) % 2 ^ 64) ((size + 2 ^ 64 - pgSize) % 2 ^ 64)

def pmemset (paddr : Nat) (b : UInt8) (size : Nat) : EStateM Stop (Phys σ) Unit :=
  pmemsetLoop b (size / pgSize + 1) paddr size

/-- `alloc_pages`, of a `pages` that is not `NULL`. -/
def allocPages (P : PageAllocator σ) (pages : Pages) :
    EStateM Stop (Phys σ) (Int × Pages) := do
  let (result, pages) ← onPmm (P.alloc pages)
  if pages.flags &&& gfpZero ≠ 0 then pmemset pages.paddr 0 pages.size
  return (result, pages)

def freePages (P : PageAllocator σ) (pages : Pages) :
    EStateM Stop (Phys σ) Pages := do
  if pages.flags &&& gfpUnsafe = 0 then pmemset pages.paddr junkByte pages.size
  onPmm (P.free pages)

/-- `ALIGN_ABOVE`, of a 64-bit `x`. -/
def alignAbove (x a : Nat) : Nat :=
  (((x + 2 ^ 64 - 1) % 2 ^ 64 ||| (a + 2 ^ 64 - 1) % 2 ^ 64) + 1) % 2 ^ 64

def allocAlignedPages (P : PageAllocator σ) (pages : Pages) (align : Nat) :
    EStateM Stop (Phys σ) (Int × Pages) := do
  -- extra pages, of which the padding on both sides is given back
  let (ret, buf) ← allocPages P
    { pages with size := (pages.size + align + 2 ^ 64 - pgSize) % 2 ^ 64 }
  if ret < 0 then return (ret, pages)
  let paddr := alignAbove buf.paddr align
  if buf.paddr < paddr then
    discard (freePages P ⟨buf.paddr, paddr - buf.paddr, buf.flags⟩)
  let bufEnd := (buf.paddr + buf.size) % 2 ^ 64
  let pagesEnd := (paddr + pages.size) % 2 ^ 64
  if bufEnd > pagesEnd then
    discard (freePages P ⟨pagesEnd, bufEnd - pagesEnd, buf.flags⟩)
  return (0, { pages with paddr := paddr })

/-- `pgalloc`. Its `paddr` is not initialised, and is not read either unless
the allocator wrote it. -/
def pgalloc (P : PageAllocator σ) : EStateM Stop (Phys σ) Nat := do
  let (result, p) ← allocPages P ⟨0, pgSize, 0⟩
  if result ≠ 0 then return 2 ^ 64 - 1
  else return p.paddr

def pgfree (P : PageAllocator σ) (paddr : Nat) : EStateM Stop (Phys σ) Unit := do
  let _ ← freePages P ⟨paddr, pgSize, 0⟩

end Aim.Kern
