import Aim.Kern.Pmm
import Aim.Lib.Ring

/-!
# `kern/mm/uvm.c`: user address spaces

A `struct mm` is an address space: a page index, and a list of virtual memory
areas in ascending order, every one of which has its own `struct upages`, a
block of physical pages.

Objects are named by their addresses. A list node is embedded in its object, so
a pointer to a `struct vma` that came out of the list is a `VmaNode`: the area
whose node it is, or what `list_entry` makes of the sentry of an `mm`, which is
no area. `start` and `size` of the latter are two words in front of the
`struct mm`; they are read by the source, so they are here (`before`).

What the file is built on is a parameter, `Env`: the object allocator, the
physical pages, the page index, and the copying of memory. The functions of
`Env` get their arguments by value and answer what they write through
pointers. On i386 `atomic_inc` and `atomic_dec` are empty.

The state records which objects are out, and `touch` stands where the source
accesses an object that it was handed or has read a pointer to: a call that
gets at an object that is not out is stopped there. Nothing else looks at the
record.
-/

namespace Aim.Kern

open Aim.Lib Function

/-- What `uvm.c` calls. `mapPages` and `unmapPages` get the page index first;
`unmapPages` answers the size and the physical address. -/
structure Env (σ : Type) where
  kmalloc : Nat → EStateM Stop σ Nat
  kfree : Nat → EStateM Stop σ Unit
  allocPages : Pages → EStateM Stop σ (Int × Pages)
  freePages : Pages → EStateM Stop σ Pages
  initPgindex : EStateM Stop σ Nat
  mapPages : Nat → Nat → Nat → Nat → Nat → EStateM Stop σ Int
  unmapPages : Nat → Nat → Nat → EStateM Stop σ (Int × Nat)
  destroyPgindex : Nat → EStateM Stop σ Unit
  memmove : Nat → Nat → Nat → EStateM Stop σ Unit

/-- `VMA_EXEC`, `VMA_WRITE` and `VMA_READ`: these match the flags of ELF segments. -/
def vmaExec : Nat := 0x01

def vmaWrite : Nat := 0x02

def vmaRead : Nat := 0x04

structure Vma where
  start : Nat
  size : Nat
  flags : Nat
  mm : Nat
  pages : Nat
  deriving DecidableEq, Repr

structure Upages where
  pages : Pages
  refs : Nat
  deriving DecidableEq, Repr

/-- A node of a VMA list. -/
inductive VmaNode where
  | sentry (mm : Nat)
  | vma (v : Nat)
  deriving DecidableEq, Repr

/-- A node of a list of the VMAs that share their pages. -/
inductive ShareNode where
  | sentry (p : Nat)
  | vma (v : Nat)
  deriving DecidableEq, Repr

/-- The objects of all address spaces, and the state of what they stand on. -/
structure Uvm (σ : Type) where
  env : σ
  live : Nat → Bool
  links : Links VmaNode
  share : Links ShareNode
  pgindex : Nat → Nat
  vma : Nat → Vma
  upages : Nat → Upages
  before : Nat → Nat × Nat
  kernelMm : Nat

def einval : Int := 22

def efault : Int := 14

def enomem : Int := 12

/-- `sizeof(struct mm)`, `sizeof(struct vma)` and `sizeof(struct upages)`. -/
def mmBytes : Nat := 24

def vmaBytes : Nat := 44

def upagesBytes : Nat := 36

/-- Fuel for the loops over a list: its nodes have distinct addresses. -/
def listFuel : Nat := 2 ^ 32

variable {σ : Type}

def onEnv {α : Type} (x : EStateM Stop σ α) : EStateM Stop (Uvm σ) α :=
  zoom Uvm.env (fun e u => { u with env := e }) x

/-- `assert`. -/
def kassert (func condition : String) (line : Int) (holds : Bool) :
    EStateM Stop (Uvm σ) Unit := do
  if !holds then
    throw (.panic ("Assertion failed in " ++ func ++ " (%s:%d): " ++ condition ++ "\n") [line])

/-- The objects `xs` are accessed. -/
def touch (xs : List Nat) : EStateM Stop (Uvm σ) Unit := do
  let u ← get
  match xs.find? fun x => !u.live x with
  | none => return ()
  | some x => throw (.oob x)

def kmalloc (E : Env σ) (n : Nat) : EStateM Stop (Uvm σ) Nat := do
  let p ← onEnv (E.kmalloc n)
  if p ≠ 0 then
    modify fun u => { u with live := update u.live p true }
  return p

/-- `kfree` of an object. -/
def kfree (E : Env σ) (p : Nat) : EStateM Stop (Uvm σ) Unit := do
  touch [p]
  onEnv (E.kfree p)
  modify fun u => { u with live := update u.live p false }

/-! ## Nodes -/

/-- The object a node is part of. -/
def VmaNode.object : VmaNode → Nat
  | .sentry mm => mm
  | .vma v => v

def ShareNode.object : ShareNode → Nat
  | .sentry p => p
  | .vma v => v

/-- The objects that are read when `start` and `size` are read from what was
taken for a `struct vma`. -/
def VmaNode.area : VmaNode → List Nat
  | .sentry _ => []
  | .vma v => [v]

/-- `vma->start` of what was taken for a `struct vma`. -/
def Uvm.startOf (u : Uvm σ) : VmaNode → Nat
  | .sentry mm => (u.before mm).1
  | .vma v => (u.vma v).start

def Uvm.sizeOf (u : Uvm σ) : VmaNode → Nat
  | .sentry mm => (u.before mm).2
  | .vma v => (u.vma v).size

/-- `next_entry`. -/
def nextEntry (n : VmaNode) : EStateM Stop (Uvm σ) VmaNode := do
  touch [n.object]
  let u ← get
  return u.links.next n

def prevEntry (n : VmaNode) : EStateM Stop (Uvm σ) VmaNode := do
  touch [n.object]
  let u ← get
  return u.links.prev n

/-- `list_add_after(&new->node, &head->node)`. -/
def addNode (new head : VmaNode) : EStateM Stop (Uvm σ) Unit := do
  let u ← get
  touch [head.object, (u.links.next head).object, new.object]
  modify fun u => { u with links := u.links.add new head }

def delNode (n : VmaNode) : EStateM Stop (Uvm σ) Unit := do
  let u ← get
  touch [n.object, (u.links.next n).object, (u.links.prev n).object]
  modify fun u => { u with links := u.links.del n }

def addShare (new head : ShareNode) : EStateM Stop (Uvm σ) Unit := do
  let u ← get
  touch [head.object, (u.share.next head).object, new.object]
  modify fun u => { u with share := u.share.add new head }

def delShare (n : ShareNode) : EStateM Stop (Uvm σ) Unit := do
  let u ← get
  touch [n.object, (u.share.next n).object, (u.share.prev n).object]
  modify fun u => { u with share := u.share.del n }

/-! ## Objects -/

def mmNew (E : Env σ) : EStateM Stop (Uvm σ) Nat := do
  let mm ← kmalloc E mmBytes
  if mm ≠ 0 then
    modify fun u => { u with links := u.links.init (.sentry mm) }
    let pgindex ← onEnv E.initPgindex
    modify fun u => { u with pgindex := update u.pgindex mm pgindex }
    if pgindex = 0 then
      kfree E mm
      return 0
  return mm

def vmaNew (E : Env σ) (mm addr size flags : Nat) : EStateM Stop (Uvm σ) Nat := do
  let vma ← kmalloc E vmaBytes
  if vma ≠ 0 then
    modify fun u => { u with
      vma := update u.vma vma ⟨addr, size, flags, mm, 0⟩
      links := u.links.init (.vma vma)
      share := u.share.init (.vma vma) }
  return vma

def upagesNew (E : Env σ) (size flags : Nat) : EStateM Stop (Uvm σ) Nat := do
  let p ← kmalloc E upagesBytes
  if p ≠ 0 then
    modify fun u => { u with
      upages := update u.upages p ⟨⟨0, size, flags⟩, 0⟩
      share := u.share.init (.sentry p) }
  return p

def setPages (p : Nat) (pages : Pages) : EStateM Stop (Uvm σ) Unit :=
  modify fun u => { u with
    upages := update u.upages p { u.upages p with pages := pages } }

/-- `alloc_pages(p)` of a `struct upages`. -/
def allocUpages (E : Env σ) (p : Nat) : EStateM Stop (Uvm σ) Int := do
  touch [p]
  let u ← get
  let (result, pages) ← onEnv (E.allocPages (u.upages p).pages)
  setPages p pages
  return result

/-- `free_pages(p)` of a `struct upages`. -/
def freeUpages (E : Env σ) (p : Nat) : EStateM Stop (Uvm σ) Unit := do
  touch [p]
  let u ← get
  let pages ← onEnv (E.freePages (u.upages p).pages)
  setPages p pages

def atomicInc (_p : Nat) : EStateM Stop (Uvm σ) Unit := pure ()

def atomicDec (_p : Nat) : EStateM Stop (Uvm σ) Unit := pure ()

def refUpages (p : Nat) : EStateM Stop (Uvm σ) Unit := do
  touch [p]
  atomicInc p

/-- `__unref_and_free_upages`, whether the pages were freed. -/
def unrefAndFreeUpages (E : Env σ) (p : Nat) : EStateM Stop (Uvm σ) Bool := do
  touch [p]
  atomicDec p
  let u ← get
  if (u.upages p).refs = 0 then
    freeUpages E p
    return true
  else return false

/-! ## Looking for areas -/

/-- `for_each_entry` with a body that only breaks, from the node `vma` on. -/
def forEachEntry (mm : Nat) (stop : Nat → Bool) : Nat → VmaNode →
    EStateM Stop (Uvm σ) VmaNode
  | 0, _ => throw .fuel
  | fuel + 1, vma => do
      if vma = .sentry mm then return vma
      else
        touch vma.area
        let u ← get
        if stop (u.startOf vma) then return vma
        else
          let vma ← nextEntry vma
          forEachEntry mm stop fuel vma

/-- `__find_vma_before`, `none` for `NULL`. -/
def findVmaBefore (mm addr size : Nat) : EStateM Stop (Uvm σ) (Option VmaNode) := do
  let first ← nextEntry (.sentry mm)
  if first = .sentry mm then return some (.sentry mm)
  else
    let vma ← forEachEntry mm (fun start => start ≥ (addr + size) % 2 ^ 32) listFuel first
    let vmaPrev ← prevEntry vma
    touch vmaPrev.area
    let u ← get
    if addr < (u.startOf vmaPrev + u.sizeOf vmaPrev) % 2 ^ 32 then
      -- overlap detected
      return none
    else return some vmaPrev

/-- The second loop of `__find_continuous_vma`. -/
def continuousLoop (addr len : Nat) : Nat → Nat → VmaNode → EStateM Stop (Uvm σ) Bool
  | 0, _, _ => throw .fuel
  | fuel + 1, i, vma => do
      if i < len then
        let vma ← nextEntry vma
        touch vma.area
        let u ← get
        if u.startOf vma ≠ (addr + i) % 2 ^ 32 then
          -- requested region contain unmapped virtual page
          return false
        else continuousLoop addr len fuel ((i + pgSize) % 2 ^ 32) vma
      else return true

def findContinuousVma (mm addr len : Nat) : EStateM Stop (Uvm σ) (Option VmaNode) := do
  kassert "__find_continuous_vma" "PTR_IS_ALIGNED(addr, PAGE_SIZE)" 140 (addr % pgSize = 0)
  kassert "__find_continuous_vma" "IS_ALIGNED(len, PAGE_SIZE)" 141 (len % pgSize = 0)
  let first ← nextEntry (.sentry mm)
  let vma ← forEachEntry mm (fun start => start = addr) listFuel first
  if vma = .sentry mm then return none
  else
    if ← continuousLoop addr len (len / pgSize + 1) pgSize vma then return some vma
    else return none

/-! ## Unmapping -/

/-- A round of `__unmap_and_free_vma`. -/
def unmapVma (E : Env σ) (mm vma : Nat) : EStateM Stop (Uvm σ) Unit := do
  touch [vma]
  delNode (.vma vma)
  delShare (.vma vma)
  touch [mm, vma]
  let u ← get
  let (unmapped, _) ← onEnv (E.unmapPages (u.pgindex mm) (u.vma vma).start (u.vma vma).size)
  kassert "__unmap_and_free_vma"
    "unmap_pages(mm->pgindex, vma->start, vma->size, NULL) == vma_size" 183
    (unmapped % 2 ^ 32 = (u.vma vma).size)
  touch [vma]
  if ← unrefAndFreeUpages E (u.vma vma).pages then
    kfree E (u.vma vma).pages
  kfree E vma

/-- The loop of `__unmap_and_free_vma`. With the sentry for a VMA, the fields
behind the two words of `before` are not known. -/
def unmapLoop (E : Env σ) (mm size : Nat) : Nat → Nat → VmaNode → EStateM Stop (Uvm σ) Unit
  | 0, _, _ => throw .fuel
  | fuel + 1, i, vmaCur => do
      if i < size then
        match vmaCur with
        | .sentry _ => throw (.oob i)
        | .vma vma =>
            let vmaNext ← nextEntry vmaCur
            let u ← get
            unmapVma E mm vma
            unmapLoop E mm size fuel ((i + (u.vma vma).size) % 2 ^ 32) vmaNext

/-- `__unmap_and_free_vma`, at `vmaStart`. -/
def unmapAndFreeVma (E : Env σ) (mm : Nat) (vmaStart : VmaNode) (size : Nat) :
    EStateM Stop (Uvm σ) Unit :=
  unmapLoop E mm size (size + 1) 0 vmaStart

/-! ## Creating and destroying areas -/

/-- A new area gets its pages and goes to its lists, behind `vmaCur`. -/
def attachVma (vma p : Nat) (vmaCur : VmaNode) : EStateM Stop (Uvm σ) Unit := do
  touch [vma]
  modify fun u => { u with
    vma := update u.vma vma { u.vma vma with pages := p } }
  refUpages p
  addNode (.vma vma) vmaCur
  addShare (.vma vma) (.sentry p)

/-- The body that the loops of `create_uvm` and `mm_clone` share, with their
`goto`s: a new area behind `vmaCur`, on pages that are requested with what
`request` answers and filled by `fill`. It answers the new area, or the
`retcode` with which the loop is left for `rollback`. -/
def linkNewVma (E : Env σ) (mm start size flags : Nat)
    (request : EStateM Stop (Uvm σ) (Nat × Nat)) (fill : Nat → EStateM Stop (Uvm σ) Unit)
    (vmaCur : VmaNode) : EStateM Stop (Uvm σ) (Int ⊕ Nat) := do
  let vma ← vmaNew E mm start size flags
  if vma = 0 then return .inl (-enomem)
  else
    let (psize, pflags) ← request
    let p ← upagesNew E psize pflags
    if p = 0 then
      kfree E vma
      return .inl (-enomem)
    else
      let result ← allocUpages E p
      if result < 0 then
        kfree E p
        kfree E vma
        return .inl (-enomem)
      else
        touch [mm, p]
        let u ← get
        let retcode ← onEnv (E.mapPages (u.pgindex mm) start (u.upages p).pages.paddr size flags)
        if retcode < 0 then
          freeUpages E p
          kfree E p
          kfree E vma
          return .inl retcode
        else
          fill p
          attachVma vma p vmaCur
          return .inr vma

/-- The loop of `create_uvm`: the `retcode`, and how much is mapped. -/
def createLoop (E : Env σ) (mm len flags : Nat) : Nat → Nat → Nat → VmaNode →
    EStateM Stop (Uvm σ) (Int × Nat)
  | 0, _, _, _ => throw .fuel
  | fuel + 1, mapped, vcur, vmaCur => do
      if mapped < len then
        match ← linkNewVma E mm vcur pgSize flags (pure (pgSize, 0)) (fun _ => pure ())
            vmaCur with
        | .inl retcode => return (retcode, mapped)
        | .inr vma =>
            createLoop E mm len flags fuel ((mapped + pgSize) % 2 ^ 32)
              ((vcur + pgSize) % 2 ^ 32) (.vma vma)
      else return (0, mapped)

def createUvm (E : Env σ) (mm addr len flags : Nat) : EStateM Stop (Uvm σ) Int := do
  if len % pgSize ≠ 0 ∨ mm = 0 ∨ addr % pgSize ≠ 0 then return -einval
  else if len = 0 then return 0
  else
    match ← findVmaBefore mm addr len with
    | none => return -efault
    | some vmaStart =>
        let (retcode, mapped) ← createLoop E mm len flags (len / pgSize + 1) 0 addr vmaStart
        if retcode < 0 then
          let first ← nextEntry vmaStart
          unmapAndFreeVma E mm first mapped
        return retcode

def destroyUvm (E : Env σ) (mm addr len : Nat) : EStateM Stop (Uvm σ) Int := do
  if len % pgSize ≠ 0 ∨ mm = 0 ∨ addr % pgSize ≠ 0 then return -einval
  else
    match ← findContinuousVma mm addr len with
    | none => return -efault
    | some vma =>
        unmapAndFreeVma E mm vma len
        return 0

/-! ## `mm_clone` -/

/-- `vma->pages->size` and `vma->pages->flags`. -/
def pagesRequest (vma : Nat) : EStateM Stop (Uvm σ) (Nat × Nat) := do
  touch [vma]
  let u ← get
  touch [(u.vma vma).pages]
  let pages := (u.upages (u.vma vma).pages).pages
  return (pages.size, pages.flags)

/-- The `memmove` of `mm_clone`, to the pages of `p` from those of `vma`. -/
def copyPages (E : Env σ) (vma size p : Nat) : EStateM Stop (Uvm σ) Unit := do
  touch [vma, p]
  let u ← get
  touch [(u.vma vma).pages]
  onEnv (E.memmove (pa2kva (u.upages p).pages.paddr)
    (pa2kva (u.upages (u.vma vma).pages).pages.paddr) size)

/-- The loop of `mm_clone` over the areas of `src`, from `vma` on. -/
def cloneLoop (E : Env σ) (dst src : Nat) : Nat → Nat → VmaNode → VmaNode →
    EStateM Stop (Uvm σ) (Int × Nat)
  | 0, _, _, _ => throw .fuel
  | fuel + 1, clonedSize, vma, vmaCur => do
      if vma = .sentry src then return (0, clonedSize)
      else match vma with
      | .sentry _ => throw (.oob 0)
      | .vma v =>
          touch [v]
          let u ← get
          let area := u.vma v
          match ← linkNewVma E dst area.start area.size area.flags (pagesRequest v)
              (copyPages E v area.size) vmaCur with
          | .inl retcode => return (retcode, clonedSize)
          | .inr vmaNew => do
              touch [vmaNew]
              let u ← get
              let vma ← nextEntry vma
              cloneLoop E dst src fuel ((clonedSize + (u.vma vmaNew).size) % 2 ^ 32)
                vma (.vma vmaNew)

def mmClone (E : Env σ) (dst src : Nat) : EStateM Stop (Uvm σ) Int := do
  let first ← nextEntry (.sentry src)
  let (retcode, clonedSize) ← cloneLoop E dst src listFuel 0 first (.sentry dst)
  if retcode < 0 then
    let first ← nextEntry (.sentry dst)
    unmapAndFreeVma E dst first clonedSize
  return retcode

/-! ## `mm_destroy` -/

def cleanVma (E : Env σ) (mm vma : Nat) : EStateM Stop (Uvm σ) Unit := do
  touch [vma]
  let u ← get
  touch [(u.vma vma).pages, mm]
  let pages := (u.upages (u.vma vma).pages).pages
  kassert "__clean_vma" "vma->size == vma->pages->size" 63 ((u.vma vma).size = pages.size)
  let (unmapped, pa) ← onEnv (E.unmapPages (u.pgindex mm) (u.vma vma).start (u.vma vma).size)
  touch [vma, (u.vma vma).pages]
  kassert "__clean_vma" "pa == vma->pages->paddr" 67 (pa = pages.paddr)
  kassert "__clean_vma" "unmapped == vma->size" 68 (unmapped % 2 ^ 32 = (u.vma vma).size)

/-- A round of the loop of `mm_destroy`. -/
def destroyVma (E : Env σ) (mm vma : Nat) : EStateM Stop (Uvm σ) Unit := do
  cleanVma E mm vma
  touch [vma]
  let u ← get
  if ← unrefAndFreeUpages E (u.vma vma).pages then
    kfree E (u.vma vma).pages
  kfree E vma

/-- The `for_each_entry_safe` of `mm_destroy`, which reads the link of the area
behind before it frees one. -/
def destroyLoop (E : Env σ) (mm : Nat) : Nat → VmaNode → VmaNode → EStateM Stop (Uvm σ) Unit
  | 0, _, _ => throw .fuel
  | fuel + 1, vma, vmaNext => do
      if vma = .sentry mm then return ()
      else match vma with
      | .sentry _ => throw (.oob 0)
      | .vma v =>
          destroyVma E mm v
          let n ← nextEntry vmaNext
          destroyLoop E mm fuel vmaNext n

def mmDestroy (E : Env σ) (mm : Nat) : EStateM Stop (Uvm σ) Unit := do
  let u ← get
  -- ignore kernel mm
  if mm = 0 ∨ mm = u.kernelMm then return ()
  else
    let vma ← nextEntry (.sentry mm)
    let vmaNext ← nextEntry vma
    destroyLoop E mm listFuel vma vmaNext
    touch [mm]
    let u ← get
    onEnv (E.destroyPgindex (u.pgindex mm))
    kfree E mm

end Aim.Kern
