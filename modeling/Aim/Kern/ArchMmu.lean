import Aim.Kern.Uvm

/-!
# `kern/arch/i386/arch_mmu.c`: page indexes

A page index is a page directory of 1024 entries. An entry is not present, or
it has the frame of a page table of 1024 entries, or, with `PTE_PS`, it maps
four megabytes by itself. Page tables are allocated when they are needed.

A page directory is used through the window at `KERN_BASE`, and so is a page
table that was found in a directory; but a page table that has just been
allocated is used at its physical address. So all accesses are by kernel address.

`pgalloc` and `pgfree` are parameters, with those of `pmm.h` as the instance
`pager`. `unmap_pages` panics on i386, and is a parameter of what is built on
this file.
-/

namespace Aim.Kern

open Aim.Lib

variable {σ : Type}

/-! ## Entries -/

def pteP : Nat := 0x001

def pteW : Nat := 0x002

def pteU : Nat := 0x004

def ptePS : Nat := 0x080

def pdx (va : Nat) : Nat := va / 2 ^ 22 % 1024

def ptx (va : Nat) : Nat := va / 2 ^ 12 % 1024

/-- `PGROUNDDOWN` and `PTE_ADDR`. -/
def pgRoundDown (a : Nat) : Nat := a / pgSize * pgSize

/-- `postmap_addr`. -/
def postmapAddr (a : Nat) : Nat := if kernBase ≤ a then a else a + kernBase

/-- What the MMU finds for `va` in the directory at the physical address `dir`:
the entry that maps it, if it is present. -/
def pageEntry (m : Mem) (dir va : Nat) : Option Nat :=
  let pde := m.load32 (dir + 4 * pdx va)
  if pde &&& pteP = 0 then none
  else if pde &&& ptePS ≠ 0 then some pde
  else
    let pte := m.load32 (pgRoundDown pde + 4 * ptx va)
    if pte &&& pteP = 0 then none else some pte

/-- Where the MMU takes an access at `va`. -/
def translate (m : Mem) (dir va : Nat) : Option Nat :=
  (pageEntry m dir va).map fun entry =>
    if m.load32 (dir + 4 * pdx va) &&& ptePS ≠ 0 then 2 ^ 22 * (entry / 2 ^ 22) + va % 2 ^ 22
    else pgRoundDown entry + va % pgSize

/-! ## `early_mm_init`

This runs before there is paging, on physical addresses. -/

def devSpace : Nat := 0xFE000000

/-- The loop of `page_index_early_map`; the answer is `a` after it. -/
def earlyMapLoop (bootPageIndex last : Nat) : Nat → Nat → Nat → EStateM Stop Mem Nat
  | 0, _, _ => throw .fuel
  | fuel + 1, a, paddr => do
      if a < last then
        modify fun m => m.store32 (bootPageIndex + 4 * (a / 2 ^ 22))
          (paddr ||| pteP ||| pteW ||| ptePS)
        earlyMapLoop bootPageIndex last fuel ((a + 2 ^ 22) % 2 ^ 32) ((paddr + 2 ^ 22) % 2 ^ 64)
      else return a

/-- The loop that ends makes at most 1024 rounds. -/
def pageIndexEarlyMap (bootPageIndex paddr vaddr size : Nat) : EStateM Stop Mem Int := do
  let last := pgRoundDown ((vaddr + size + 2 ^ 32 - 1) % 2 ^ 32)
  let a ← earlyMapLoop bootPageIndex last (2 ^ 10 + 1) (pgRoundDown vaddr) paddr
  return ((last : Int) - a) % 2 ^ 32 / 2 ^ 22

/-- The entries of `entrypgdir` that `mp.c` starts with: the first four megabytes, at
both addresses. -/
def entrypgdir (j : Nat) : Nat :=
  if j = 0 ∨ j = kernBase / 2 ^ 22 then pteP ||| pteW ||| ptePS else 0

/-- The page directory `entrypgdir` is at the physical address `dir`, and `kend`
is `&_end`. `KERN_START` is a choice of the configuration. -/
def earlyMmInit (kernStart dir kend : Nat) : EStateM Stop Mem Unit := do
  let _ ← pageIndexEarlyMap dir 0 0 ((kend + 2 ^ 32 - kernBase + 0x10000000) % 2 ^ 32)
  let _ ← pageIndexEarlyMap dir 0 kernBase
    ((kend + 2 ^ 32 - kernBase + kernStart + 0x10000000) % 2 ^ 32)
  let _ ← pageIndexEarlyMap dir devSpace devSpace 0x01000000

/-! ## `walkpgdir` and its callers -/

structure Pager (σ : Type) where
  pgalloc : EStateM Stop (Phys σ) Nat
  pgfree : Nat → EStateM Stop (Phys σ) Unit

/-- `pgalloc` and `pgfree` of `pmm.h`. -/
def pager (P : PageAllocator σ) : Pager σ := ⟨pgalloc P, pgfree P⟩

def walkpgdir (G : Pager σ) (pgdir va : Nat) (alloc : Bool) : EStateM Stop (Phys σ) Nat := do
  let pde := (pgdir + 4 * pdx va) % 2 ^ 32
  let entry ← kload pde
  if entry &&& pteP ≠ 0 then
    return (postmapAddr (pgRoundDown entry) + 4 * ptx va) % 2 ^ 32
  else if !alloc then return 0
  else
    let paddr ← G.pgalloc
    let pgtab := paddr % 2 ^ 32
    if pgtab = 0 then return 0
    else
      -- Make sure all those PTE_P bits are zero.
      kmemset pgtab 0 pgSize
      kstore pde (premapAddr pgtab ||| pteP ||| pteW ||| pteU)
      return (pgtab + 4 * ptx va) % 2 ^ 32

/-- The loop of `map_pages`. -/
def mapLoop (G : Pager σ) (pgindex flags last : Nat) : Nat → Nat → Nat →
    EStateM Stop (Phys σ) Int
  | 0, _, _ => throw .fuel
  | fuel + 1, a, paddr => do
      let pte ← walkpgdir G pgindex a true
      if pte = 0 then return -1
      else
        let entry ← kload pte
        if entry &&& pteP ≠ 0 then throw (.panic "remap" [])
        else
          kstore pte ((paddr ||| flags ||| pteP) % 2 ^ 32)
          if a = last then return 0
          else
            mapLoop G pgindex flags last fuel ((a + pgSize) % 2 ^ 32) ((paddr + pgSize) % 2 ^ 64)

def mapPages (G : Pager σ) (pgindex vaddr paddr size flags : Nat) :
    EStateM Stop (Phys σ) Int :=
  mapLoop G pgindex flags (pgRoundDown ((vaddr + size + 2 ^ 32 - 1) % 2 ^ 32)) (2 ^ 20)
    (pgRoundDown vaddr) paddr

/-- The loop of `set_pages_perm`. -/
def setPermLoop (G : Pager σ) (pgindex flags last : Nat) : Nat → Nat →
    EStateM Stop (Phys σ) Int
  | 0, _ => throw .fuel
  | fuel + 1, a => do
      let pte ← walkpgdir G pgindex a true
      if pte = 0 then return -1
      else
        let entry ← kload pte
        kstore pte (pgRoundDown entry)
        let entry ← kload pte
        kstore pte (entry ||| flags)
        if a = last then return 0
        else setPermLoop G pgindex flags last fuel ((a + pgSize) % 2 ^ 32)

def setPagesPerm (G : Pager σ) (pgindex vaddr size flags : Nat) : EStateM Stop (Phys σ) Int :=
  setPermLoop G pgindex flags (pgRoundDown ((vaddr + size + 2 ^ 32 - 1) % 2 ^ 32)) (2 ^ 20)
    (pgRoundDown vaddr)

def initPgindex (G : Pager σ) : EStateM Stop (Phys σ) Nat := do
  let paddr ← G.pgalloc
  let pgindex := (paddr + kernBase) % 2 ^ 32
  kmemset pgindex 0 pgSize
  return pgindex

/-- The loop of `page_index_clear`, with `fuel` entries to go. -/
def clearLoop (G : Pager σ) (index : Nat) : Nat → Nat → EStateM Stop (Phys σ) Unit
  | 0, _ => return ()
  | fuel + 1, i => do
      let entry ← kload ((index + 4 * i) % 2 ^ 32)
      if entry &&& pteP ≠ 0 ∧ entry &&& ptePS = 0 then G.pgfree (pgRoundDown entry)
      kstore ((index + 4 * i) % 2 ^ 32) 0
      clearLoop G index fuel (i + 1)

def pageIndexClear (G : Pager σ) (index : Nat) : EStateM Stop (Phys σ) Unit :=
  clearLoop G index 1024 0

def destroyPgindex (G : Pager σ) (pgindex : Nat) : EStateM Stop (Phys σ) Unit := do
  pageIndexClear G pgindex
  G.pgfree ((pgindex + 2 ^ 32 - kernBase) % 2 ^ 32)

/-! ## What `uvm.c` stands on -/

/-- What is not part of `arch_mmu.c`. -/
structure Base (σ : Type) where
  kmalloc : Nat → EStateM Stop (Phys σ) Nat
  kfree : Nat → EStateM Stop (Phys σ) Unit
  allocPages : Pages → EStateM Stop (Phys σ) (Int × Pages)
  freePages : Pages → EStateM Stop (Phys σ) Pages
  pager : Pager σ
  unmapPages : Nat → Nat → Nat → EStateM Stop (Phys σ) (Int × Nat)

/-- The environment of `uvm.c` on i386. -/
def i386 (B : Base σ) : Env (Phys σ) where
  kmalloc := B.kmalloc
  kfree := B.kfree
  allocPages := B.allocPages
  freePages := B.freePages
  initPgindex := initPgindex B.pager
  mapPages := mapPages B.pager
  unmapPages := B.unmapPages
  destroyPgindex := destroyPgindex B.pager
  memmove := kmemmove

end Aim.Kern
