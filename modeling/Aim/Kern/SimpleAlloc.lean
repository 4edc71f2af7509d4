import Aim.Kern.Pmm

/-!
# `kern/mm/vmm/simple_alloc.c`: blocks of a few sizes

Small blocks are cut out of pages. A page serves blocks of one size class; it
starts with a page descriptor of sixteen bytes, behind which the blocks follow
each other, each with a header of eight bytes in front of its payload. The
free blocks of a page are linked through their headers from `firstfree` of the
descriptor, the pages of a class that have a free block are linked through
their descriptors from `firstfree` of the class.

All of this is in memory and is read and written there, word by word:

* a `struct page_descriptor` at `a` has `next` at `a`, `firstfree` at `a + 4`,
  `order` at `a + 8` and `nfree` at `a + 12`;
* a `struct block_header` at `a` has `bh_flags` at `a` and the union of
  `bh_length` and `bh_next` at `a + 4`.

Pointers are 32-bit numbers, and a page is used at the physical address
`pgalloc` answers. That is where it is seen if it is below `KERN_BASE`, and
memory is modelled for pages from there. The table `sizes` is a list, and an index that is not one of
its entries stops the call.
-/

namespace Aim.Kern

open Aim.Lib

def mfUsed : Nat := 0xffaa0055

def mfFree : Nat := 0x0055ffaa

def maxKmallocK : Nat := 4

def maxGetFreePageTries : Nat := 4

structure SizeDescriptor where
  firstfree : Nat
  size : Nat
  nblocks : Nat
  nmallocs : Int
  nfrees : Int
  nbytesmalloced : Int
  npages : Int
  deriving DecidableEq, Repr

/-- The initial contents of `sizes`. -/
def initialSizes : List SizeDescriptor :=
  [⟨0, 32, 127, 0, 0, 0, 0⟩,
   ⟨0, 64, 63, 0, 0, 0, 0⟩,
   ⟨0, 128, 31, 0, 0, 0, 0⟩,
   ⟨0, 252, 16, 0, 0, 0, 0⟩,
   ⟨0, 508, 8, 0, 0, 0, 0⟩,
   ⟨0, 1020, 4, 0, 0, 0, 0⟩,
   ⟨0, 2040, 2, 0, 0, 0, 0⟩,
   ⟨0, 4080, 1, 0, 0, 0, 0⟩,
   ⟨0, 0, 0, 0, 0, 0, 0⟩]

/-- The globals of `simple_alloc.c`, with what they stand on. `console` is what
`kprintf` was asked to print, the last text first. -/
structure Simple (σ : Type) where
  phys : Phys σ
  sizes : List SizeDescriptor
  isPageAllocOn : Bool
  tmpMemPt : Nat
  console : List (String × List Int)

variable {σ : Type}

/-! ## Accesses -/

def load (a : Nat) : EStateM Stop (Simple σ) Nat := do
  let s ← get
  return s.phys.mem.load32 a

def store (a v : Nat) : EStateM Stop (Simple σ) Unit :=
  modify fun s => { s with phys := { s.phys with mem := s.phys.mem.store32 a v } }

def kprintf (fmt : String) (args : List Int) : EStateM Stop (Simple σ) Unit :=
  modify fun s => { s with console := (fmt, args) :: s.console }

def onPhys {α : Type} (x : EStateM Stop (Phys σ) α) : EStateM Stop (Simple σ) α :=
  zoom Simple.phys (fun a s => { s with phys := a }) x

/-- `sizes[order]`. -/
def sizeAt (order : Int) : EStateM Stop (Simple σ) SizeDescriptor := do
  let s ← get
  if 0 ≤ order then
    match s.sizes[order.toNat]? with
    | some d => return d
    | none => throw (.oob order)
  else throw (.oob order)

/-- A write to `sizes[order]`. -/
def modifySize (order : Int) (f : SizeDescriptor → SizeDescriptor) :
    EStateM Stop (Simple σ) Unit := do
  let d ← sizeAt order
  modify fun s => { s with sizes := s.sizes.set order.toNat (f d) }

/-! ## Initialisation -/

/-- The check of the table in `simple_allocator_bootstrap`. -/
def checkSizes : List SizeDescriptor → EStateM Stop (Simple σ) Unit
  | [] => throw (.oob 9)
  | d :: ds => do
      if d.size ≠ 0 then
        if d.nblocks * d.size + 16 > pgSize then
          kprintf "Cannot use %d bytes out of %d in order = %d block mallocs\n"
            [d.nblocks * d.size + 16, pgSize, d.size]
          throw (.panic "This only happens if someone messes with kmalloc" [])
        checkSizes ds

def simpleAllocatorBootstrap (pt : Nat) : EStateM Stop (Simple σ) Int := do
  modify fun s => { s with isPageAllocOn := false, tmpMemPt := pt }
  let s ← get
  checkSizes s.sizes
  return 0

def simpleAllocatorInit : EStateM Stop (Simple σ) Int := do
  modify fun s => { s with isPageAllocOn := true }
  return 0

/-! ## `simple_alloc` -/

/-- The loop of `get_order`, over the table from `order` on. -/
def getOrderFrom (size : Nat) : List SizeDescriptor → Int → EStateM Stop (Simple σ) Int
  | [], order => throw (.oob order)
  | d :: ds, order =>
      if d.size = 0 then return -1
      else if size ≤ d.size then return order
      else getOrderFrom size ds (order + 1)

def getOrder (size : Nat) : EStateM Stop (Simple σ) Int := do
  let s ← get
  getOrderFrom (size + 8) s.sizes 0

/-- What `simple_alloc` does with a page of its class and a block on the
page's free list. -/
def takeBlock (order : Int) (size page p : Nat) : EStateM Stop (Simple σ) Nat := do
  let flags ← load p
  if flags = mfFree then
    let next ← load (p + 4)
    store (page + 4) next
    let nfree ← load (page + 12)
    store (page + 12) (nfree + 2 ^ 32 - 1)
    let nfree ← load (page + 12)
    if nfree = 0 then
      let next ← load page
      modifySize order fun d => { d with firstfree := next }
      store page 0
    modifySize order fun d => { d with
      nmallocs := d.nmallocs + 1
      nbytesmalloced := d.nbytesmalloced + size }
    store p mfUsed
    store (p + 4) size
    return (p + 8) % 2 ^ 32
  else
    kprintf "Problem: block on freelist at %08lx isn't free.\n" [p]
    return 0

/-- The page `simple_alloc` cuts into blocks: the answer of `pgalloc`, as a
pointer, or the bootstrap memory. -/
def getPage (P : PageAllocator σ) : EStateM Stop (Simple σ) Nat := do
  let s ← get
  if s.isPageAllocOn then
    let paddr ← onPhys (pgalloc P)
    return paddr % 2 ^ 32
  else return s.tmpMemPt

/-- The loop over all but the last block, with `i` as in the source. The
answer is the pointer it ends with. -/
def carveBlocks (sz : Nat) : Nat → Nat → EStateM Stop (Simple σ) Nat
  | i + 2, p => do
      store p mfFree
      store (p + 4) (p + sz)
      let p ← load (p + 4)
      carveBlocks sz (i + 1) p
  | _, p => return p

/-- A new page is cut into blocks and put in front of the list of its class. -/
def addPage (order : Int) (page : Nat) : EStateM Stop (Simple σ) Unit := do
  let d ← sizeAt order
  let sz := d.size
  modifySize order fun d => { d with npages := d.npages + 1 }
  let p ← carveBlocks sz d.nblocks ((page + 16) % 2 ^ 32)
  -- Last block.
  store p mfFree
  store (p + 4) 0
  store (page + 8) (order % 2 ^ 32).toNat
  store (page + 12) d.nblocks
  store (page + 4) (page + 16)
  let d ← sizeAt order
  store page d.firstfree
  modifySize order fun d => { d with firstfree := page }

/-- The `while (tries --)` of `simple_alloc`. -/
def simpleAllocLoop (P : PageAllocator σ) (order : Int) (size : Nat) :
    Nat → EStateM Stop (Simple σ) Nat
  | 0 => throw (.panic "Try too many times!\n" [])
  | tries + 1 => do
      let d ← sizeAt order
      let page := d.firstfree
      let p ← if page ≠ 0 then load (page + 4) else pure 0
      if page ≠ 0 ∧ p ≠ 0 then takeBlock order size page p
      else
        let page ← getPage P
        if page = 0 then
          kprintf "Couldn't get a free page.....\n" []
          return 0
        else
          addPage order page
          simpleAllocLoop P order size tries

def simpleAlloc (P : PageAllocator σ) (size : Nat) : EStateM Stop (Simple σ) Nat := do
  if size > maxKmallocK * 1024 then
    kprintf "kmalloc: I refuse to allocate %d bytes (for now max = %d).\n"
      [size, maxKmallocK * 1024]
    return 0
  else
    let order ← getOrder size
    if order < 0 then
      kprintf "kmalloc of too large a block (%d bytes).\n" [size]
      return 0
    else simpleAllocLoop P order size maxGetFreePageTries

/-! ## `simple_free` -/

/-- `PAGE_DESC`: the mask clears the low twelve bits. -/
def pageDesc (p : Nat) : Nat := p / 4096 * 4096

/-- The walk to the page in front of `page`, or to `NULL`. A list without a
cycle has fewer pages than there are addresses. -/
def findPrev (page : Nat) : Nat → Nat → EStateM Stop (Simple σ) Nat
  | 0, _ => throw .fuel
  | fuel + 1, pg2 => do
      if pg2 = 0 then return 0
      else
        let next ← load pg2
        if next ≠ page then findPrev page fuel next
        else return pg2

/-- A page without a block in use is taken off its list and given back. The
pointer is widened as a `long`. -/
def releasePage (P : PageAllocator σ) (order : Int) (page : Nat) :
    EStateM Stop (Simple σ) Unit := do
  let d ← sizeAt order
  if d.firstfree = page then
    let next ← load page
    modifySize order fun d => { d with firstfree := next }
  else
    let pg2 ← findPrev page (2 ^ 32) d.firstfree
    if pg2 ≠ 0 then
      let next ← load page
      store pg2 next
    else kprintf "Ooops. page %p doesn't show on freelist.\n" [page]
  onPhys (pgfree P (toInt32 page % 2 ^ 64).toNat)

/-- The block `p` goes on the free list of its page, and a page that was full
on the list of its class. -/
def putBlock (order : Int) (page p : Nat) : EStateM Stop (Simple σ) Unit := do
  store p mfFree
  let first ← load (page + 4)
  store (p + 4) first
  store (page + 4) p
  let nfree ← load (page + 12)
  store (page + 12) (nfree + 1)
  let nfree ← load (page + 12)
  if nfree = 1 then
    let next ← load page
    if next ≠ 0 then
      kprintf "Page %p already on freelist dazed and confused....\n" [page]
    else
      let d ← sizeAt order
      store page d.firstfree
      modifySize order fun d => { d with firstfree := page }

def simpleFree (P : PageAllocator σ) (ptr : Nat) : EStateM Stop (Simple σ) Unit := do
  let s ← get
  if s.isPageAllocOn then
    let p := (ptr + 2 ^ 32 - 8) % 2 ^ 32
    let page := pageDesc p
    let word ← load (page + 8)
    let order := toInt32 word
    let next ← load page
    let flags ← load p
    if order < 0 ∨ order > 9 ∨ next % 4096 ≠ 0 ∨ flags ≠ mfUsed then
      kprintf "kfree of non-kmalloced memory: %p, next= %p, order=%d\n" [p, next, order]
    else
      let size ← load (p + 4)
      putBlock order page p
      let nfree ← load (page + 12)
      let word ← load (page + 8)
      let d ← sizeAt (toInt32 word)
      if nfree = d.nblocks then releasePage P order page
      modifySize order fun d => { d with
        nfrees := d.nfrees + 1
        nbytesmalloced := d.nbytesmalloced - toInt32 size }

def simpleSize (obj : Nat) : EStateM Stop (Simple σ) Nat :=
  load (obj + 4)

end Aim.Kern
