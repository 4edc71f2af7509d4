import Aim.Kern.Buddy

/-!
# `kern/mm/pmm/page_alloc.c`: the managed area

The page allocator manages one run of physical memory, `area`, in buddies of
four megabytes. `area.buddylist` is a table of pointers to them, in memory
that `kmalloc` handed out, and `area.buddy_num` of them have been opened so
far. Requests go to the opened buddies in turn; when none has room the next
buddy is opened.

A buddy is reached through a pointer. `heap` is what is stored at an address
when it is read as a `struct buddy`; two pointers that differ by less than the
size of a `struct buddy` would share bytes, which this heap does not show, and
the results about pointers ask for more distance than that. An index that is
not one of the table's words stops the call and leaves the state as it was at
that moment.

The fields of `area` are `uint32_t` and their arithmetic is modulo `2 ^ 32`;
`paddr` and `size` of a `struct pages` are 64 bits wide.
-/

namespace Aim.Kern

open Aim.Lib

def pgSize : Nat := 4096

/-- `struct pages`. -/
structure Pages where
  paddr : Nat
  size : Nat
  flags : Nat
  deriving DecidableEq, Repr

/-- `struct Area`, with the memory it points to: the words of `buddylist`, the
buddies, and the addresses further calls of `kmalloc` answer. -/
structure Area where
  baseAddr : Nat
  pageNum : Nat
  buddyNum : Nat
  buddylist : List Nat
  heap : Nat → Buddy
  kmallocs : List Nat

/-- The low 32 bits as an `int`. -/
def toInt32 (n : Nat) : Int := (BitVec.ofNat 32 n).toInt

theorem toInt32_of_lt {n : Nat} (h : n < 2 ^ 31) : toInt32 n = n := by
  have hn : (BitVec.ofNat 32 n).toNat = n := by
    rw [BitVec.toNat_ofNat]; omega
  rw [toInt32, BitVec.toInt_eq_toNat_of_lt (by omega), hn]

/-- Widening an `int` with its sign keeps the low word. -/
theorem toInt32_low (n : Nat) : (toInt32 n % 2 ^ 64).toNat % 2 ^ 32 = n % 2 ^ 32 := by
  unfold toInt32
  rw [BitVec.toInt_eq_toNat_cond, BitVec.toNat_ofNat]
  split <;> omega

/-! ## Calls through a pointer -/

/-- `area.buddylist[index]`. -/
def buddyAt (index : Int) : EStateM Stop Area Nat := do
  let area ← get
  if 0 ≤ index then
    match area.buddylist[index.toNat]? with
    | some self => return self
    | none => throw (.oob index)
  else throw (.oob index)

def onBuddy {α : Type} (self : Nat) (x : EStateM Stop Buddy α) :
    EStateM Stop Area α :=
  zoom (fun area => area.heap self)
    (fun b area => { area with heap := Function.update area.heap self b }) x

/-- `kmalloc(sizeof(struct buddy), 0)`. An answer of `0` is `NULL`. -/
def kmallocBuddy : EStateM Stop Area Nat := do
  let area ← get
  match area.kmallocs with
  | [] => return 0
  | p :: ps =>
      set { area with kmallocs := ps }
      return p

/-- `buddy_init`. The pointer is a parameter passed by value: the object that
a null `self` is replaced by is cleared and then forgotten. -/
def buddyInitAt (self : Nat) (level : Nat) : EStateM Stop Area Unit := do
  let size : Int := 2 ^ level
  onBuddy self (modify fun b => { b with level := level })
  let self ← if self = 0 then kmallocBuddy else pure self
  onBuddy self (treeClear (size * 2 - 1))

/-- `buddy_alloc(area.buddylist[index], s)`. -/
def buddyAllocAt (index : Int) (s : Int) : EStateM Stop Area Int := do
  let self ← buddyAt index
  onBuddy self (buddyAlloc s)

/-- `buddy_size(area.buddylist[index], offset)`. -/
def buddySizeAt (index : Int) (offset : Int) : EStateM Stop Area Int := do
  let self ← buddyAt index
  onBuddy self (buddySize offset)

/-! ## `page_alloc`, `page_free` and `page_get_free` -/

/-- The number of pages asked for. -/
def pageCount (size : Nat) : Int := toInt32 ((size + pgSize - 1) % 2 ^ 64 / 2 ^ 12)

/-- The `for` of `page_alloc`, with `n` buddies to go. The answer is the value
of `i` and of `offset` after the loop. -/
def scanBuddies (s : Int) : Nat → Nat → Int → EStateM Stop Area (Nat × Int)
  | 0, i, offset => return (i, offset)
  | n + 1, i, _ => do
      let offset ← buddyAllocAt i s
      if offset ≥ 0 then return (i, offset)
      else scanBuddies s n (i + 1) offset

/-- The growth branch of `page_alloc`: `none` is its `return EOF`. -/
def growArea (s : Int) (i : Nat) : EStateM Stop Area (Option Int) := do
  let area ← get
  if area.buddyNum ≥ area.pageNum / 1024 then return none
  else
    set { area with buddyNum := (area.buddyNum + 1) % 2 ^ 32 }
    let self ← buddyAt area.buddyNum
    buddyInitAt self 10
    let offset ← buddyAllocAt i s
    return some offset

/-- The end of `page_alloc`, from the second test of `offset` on. -/
def pageGrant (pages : Pages) (s : Int) (i : Nat) (offset : Int) :
    EStateM Stop Area (Int × Pages) := do
  if offset = -2 ∨ offset = -1 then return (eof, pages)
  else
    let area ← get
    let paddr : Int := area.baseAddr + i * 2 ^ 22 + offset * 2 ^ 12
    set { area with pageNum := ((area.pageNum - s) % 2 ^ 32).toNat }
    return (0, { pages with paddr := (paddr % 2 ^ 32).toNat })

def pageAlloc (pages : Pages) : EStateM Stop Area (Int × Pages) := do
  let s := pageCount pages.size
  let area ← get
  let (i, offset) ← scanBuddies s area.buddyNum 0 (-1)
  if offset = -1 then
    match ← growArea s i with
    | none => return (eof, pages)
    | some offset => pageGrant pages s i offset
  else pageGrant pages s i offset

def pageFree (pages : Pages) : EStateM Stop Area Pages := do
  let area ← get
  let diff : Nat := (((pages.paddr : Int) - area.baseAddr) % 2 ^ 64).toNat
  let buddyN := toInt32 (diff / 2 ^ 22)
  let offset := toInt32 (diff / 2 ^ 12 % 1024)
  let length ← buddySizeAt buddyN offset
  -- The `int` is shifted, then widened with its sign.
  let size : Nat := ((BitVec.ofInt 32 (length * 2 ^ 12)).toInt % 2 ^ 64).toNat
  if size > 0 then
    modify fun area => { area with pageNum := (area.pageNum + size) % 2 ^ 32 }
  return { pages with size := size }

def pageGetFree : EStateM Stop Area Nat := do
  let area ← get
  return area.pageNum * 2 ^ 12 % 2 ^ 32

/-! ## `page_allocator_init` -/

/-- `PMB`, without the high words, which nothing reads. -/
structure PMB where
  baseAddrLow : UInt32
  lengthLow : UInt32
  type : UInt32

/-- What `page_allocator_init` finds: the memory map left by the boot loader,
the end of the kernel image (`premap_addr(&_end)`), and the words that happen
to be in the memory `kmalloc` answers for the table. -/
structure Boot where
  num : Int
  pmb : Nat → PMB
  kernelEnd : UInt32
  words : Nat → Nat

/-- The loop of `get_mem_init`: the first of the longest usable regions. -/
def largestRegion (boot : Boot) : Nat :=
  ((List.range boot.num.toNat).foldl (fun (best : UInt32 × Nat) i =>
    if (boot.pmb i).type = 1 ∧ (boot.pmb i).lengthLow > best.1 then
      ((boot.pmb i).lengthLow, i)
    else best) (0, 0)).2

/-- `mem_phybase` and `mem_size` after `get_mem_init`. The getters run it
again when they read a zero, to the same effect. -/
def getMemInit (boot : Boot) : Nat × Nat :=
  let region := boot.pmb (largestRegion boot)
  (region.baseAddrLow.toNat, region.lengthLow.toNat)

/-- `PGROUNDUP` on 32 bits. -/
def pgRoundUp (a : Nat) : Nat := (a + (pgSize - 1)) % 2 ^ 32 / pgSize * pgSize

/-- The size test of `kmalloc`. -/
def kmallocCheck (size : Nat) : EStateM Stop Area Unit := do
  if size > pgSize / 2 then throw (.panic "kmalloc: size %lu too large\n" [size])

/-- `base_addr` and `page_num` as `page_allocator_init` computes them. -/
def areaExtent (boot : Boot) : Nat × Nat :=
  let (memPhybase, memSize) := getMemInit boot
  let kernelEnd := boot.kernelEnd.toNat
  if memPhybase < kernelEnd then
    let base := pgRoundUp kernelEnd
    let lost : Nat := (((base : Int) - kernelEnd) % 2 ^ 32).toNat / 4096
    (base, ((((memSize / 4096 : Nat) : Int) - lost) % 2 ^ 32).toNat)
  else (memPhybase, memSize / 4096)

def pageAllocatorInit (boot : Boot) : EStateM Stop Area Int := do
  let (base, pages) := areaExtent boot
  modify fun area => { area with baseAddr := base, pageNum := pages }
  kmallocCheck (4 * (pages / 1024))
  modify fun area => { area with
    buddylist := (List.range (pages / 1024)).map boot.words
    buddyNum := 0 }
  return 0

end Aim.Kern
