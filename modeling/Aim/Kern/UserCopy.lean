import Aim.Kern.ArchMmu

/-!
# `kern/mm/uvm.c`: permissions of areas, and copying to and from user memory

The functions of `uvm.c` that reach into the page index of i386: `set_uvm_perm`,
`uva2kva`, and the three that copy and fill. The last have one body. If the
address space is that of the running process, its page index is loaded, and the
user's memory and the buffer are accessed through it, by the MMU. A page index of
`mm_new` maps the areas and no address of the kernel (`kmmap_apply` is commented
out), so there a buffer of the kernel is a page fault. Otherwise the pages are
looked up one by one, and accessed through the window, like the buffer.

An access that the MMU does not allow is a page fault, and a call that makes one
is stopped there. The paging is set up with `CR0_WP`, so the kernel cannot write
to a page that is not writable either.
-/

namespace Aim.Kern

open Aim.Lib

variable {σ : Type}

def enoent : Int := 2

def eacces : Int := 13

/-! ## `set_uvm_perm` -/

/-- The loop of `set_uvm_perm`. The area is always the one it started with. -/
def setUvmPermLoop (G : Pager σ) (mm vma len flags : Nat) : Nat → Nat → Nat →
    EStateM Stop (Uvm (Phys σ)) Int
  | 0, _, _ => throw .fuel
  | fuel + 1, i, addr => do
      if i < len then
        touch [vma]
        modify fun u => { u with
          vma := Function.update u.vma vma { u.vma vma with flags := flags } }
        touch [mm]
        let u ← get
        let result ← onEnv (setPagesPerm G (u.pgindex mm) addr pgSize flags)
        if result ≠ 0 then return -enoent
        else
          setUvmPermLoop G mm vma len flags fuel ((i + pgSize) % 2 ^ 32)
            ((addr + pgSize) % 2 ^ 32)
      else return 0

/-- `__find_continuous_vma` does not answer the sentry. -/
def setUvmPerm (G : Pager σ) (mm addr len flags : Nat) : EStateM Stop (Uvm (Phys σ)) Int := do
  if len % pgSize ≠ 0 ∨ mm = 0 ∨ addr % pgSize ≠ 0 then return -einval
  else
    match ← findContinuousVma mm addr len with
    | none => return -efault
    | some (.sentry _) => throw (.oob 0)
    | some (.vma vma) => setUvmPermLoop G mm vma len flags (len / pgSize + 1) 0 addr

/-! ## `uva2kva` -/

/-- The source does not ask whether there is a page table. -/
def uva2kva (G : Pager σ) (pgindex uva : Nat) : EStateM Stop (Phys σ) Nat := do
  let pte ← walkpgdir G pgindex uva false
  if pte = 0 then throw (.oob 0)
  else
    let entry ← kload pte
    if entry &&& pteP = 0 then return 0
    else if entry &&& pteU = 0 then return 0
    else return postmapAddr (pgRoundDown entry)

/-! ## Accesses through the MMU -/

/-- Where the MMU takes an access of the kernel at `va`, with the page directory
`dir` loaded, if it allows it. -/
def kernelAccess (m : Mem) (dir va : Nat) (write : Bool) : Option Nat :=
  (pageEntry m dir va).bind fun entry =>
    if write ∧ (entry &&& pteW = 0 ∨ m.load32 (dir + 4 * pdx va) &&& pteW = 0) then none
    else translate m dir va

/-- Which of the `n` bytes from `va` on is taken to `x`. -/
def userIndex (m : Mem) (dir va n : Nat) (write : Bool) (x : Nat) : Option Nat :=
  (List.range n).find? fun i => kernelAccess m dir ((va + i) % 2 ^ 32) write = some x

/-- `memset`. -/
def ufill (m : Mem) (dir va : Nat) (b : UInt8) (n : Nat) : Mem := fun x =>
  (userIndex m dir va n true x).elim (m x) fun _ => b

/-- `memmove`. -/
def ucopy (m : Mem) (dir dst src n : Nat) : Mem := fun x =>
  (userIndex m dir dst n true x).elim (m x) fun i =>
    (kernelAccess m dir ((src + i) % 2 ^ 32) false).elim (m x) m

/-- The `n` bytes from `va` on are accessed. -/
def touchUser (dir va n : Nat) (write : Bool) : EStateM Stop (Phys σ) Unit := do
  let s ← get
  match (List.range n).find? fun i =>
      (kernelAccess s.mem dir ((va + i) % 2 ^ 32) write).isNone with
  | none => return ()
  | some i => throw (.oob ((va + i) % 2 ^ 32))

def umemset (dir va : Nat) (b : UInt8) (n : Nat) : EStateM Stop (Phys σ) Unit := do
  touchUser dir va n true
  modify fun s => { s with mem := ufill s.mem dir va b n }

def umemmove (dir dst src n : Nat) : EStateM Stop (Phys σ) Unit := do
  touchUser dir src n false
  touchUser dir dst n true
  modify fun s => { s with mem := ucopy s.mem dir dst src n }

/-! ## `__copy_fill_uvm` -/

/-- The `mm` of `current_proc`, if there is a `current_proc`, and the physical
address of the page directory that is loaded. -/
structure Current where
  procMm : Option Nat
  cr3 : Nat

def getPgindex (cur : Current) : Nat := (cur.cr3 + 2 ^ 32 - kernBase) % 2 ^ 32

/-- `PTR_ALIGN_ABOVE(p, PAGE_SIZE)`. -/
def ptrAlignAbove (p : Nat) : Nat := (((p + 2 ^ 32 - 1) % 2 ^ 32 ||| (pgSize - 1)) + 1) % 2 ^ 32

/-- `PTR_ALIGN_NEXT(p, PAGE_SIZE)`. -/
def ptrAlignNext (p : Nat) : Nat := ptrAlignAbove ((p + 1) % 2 ^ 32)

/-- The accesses through the page index that is loaded. -/
def copyFillDirect (cur : Current) (uvaddr vaddr : Nat) (c : UInt8) (len : Nat)
    (fill touser : Bool) : EStateM Stop (Phys σ) Unit :=
  if fill then umemset cur.cr3 uvaddr c len
  else if !touser then umemmove cur.cr3 vaddr uvaddr len
  else umemmove cur.cr3 uvaddr vaddr len

/-- The accesses to one page through the window. -/
def copyFillPage (kuvaddr vaddr : Nat) (c : UInt8) (l : Nat) (fill touser : Bool) :
    EStateM Stop (Phys σ) Unit :=
  if fill then kmemset kuvaddr c l
  else if !touser then kmemmove vaddr kuvaddr l
  else kmemmove kuvaddr vaddr l

/-- The loop over the pages, from `start` up to `stop`. -/
def copyFillLoop (G : Pager σ) (mm : Nat) (c : UInt8) (fill touser : Bool) (stop : Nat) :
    Nat → Nat → Nat → EStateM Stop (Uvm (Phys σ)) Int
  | 0, _, _ => throw .fuel
  | fuel + 1, start, vaddr => do
      if start < stop then
        touch [mm]
        let u ← get
        let kuvaddr ← onEnv (uva2kva G (u.pgindex mm) start)
        let l := (min (ptrAlignNext start) stop + 2 ^ 32 - start) % 2 ^ 32
        if kuvaddr = 0 then return -eacces
        else
          onEnv (copyFillPage kuvaddr vaddr c l fill touser)
          copyFillLoop G mm c fill touser stop fuel (ptrAlignNext start) ((vaddr + l) % 2 ^ 32)
      else return 0

/-- `__copy_fill_uvm`. -/
def copyFillUvm (G : Pager σ) (cur : Current) (mm uvaddr vaddr : Nat) (c : UInt8) (len : Nat)
    (fill touser : Bool) : EStateM Stop (Uvm (Phys σ)) Int := do
  let stop := (uvaddr + len) % 2 ^ 32
  let startPage := pgRoundDown uvaddr
  let endPage := ptrAlignAbove stop
  match ← findContinuousVma mm startPage ((endPage + 2 ^ 32 - startPage) % 2 ^ 32) with
  | none => return -efault
  | some _ =>
      if cur.procMm = some mm then
        -- If the page table is already loaded, we can exploit that
        touch [mm]
        let u ← get
        kassert "__copy_fill_uvm" "mm->pgindex == get_pgindex()" 489
          (u.pgindex mm = getPgindex cur)
        onEnv (copyFillDirect cur uvaddr vaddr c len fill touser)
        return 0
      else
        -- Otherwise, we have to dive into the page table
        copyFillLoop G mm c fill touser stop (2 ^ 20 + 1) uvaddr vaddr

def copyToUvm (G : Pager σ) (cur : Current) (mm uvaddr vaddr len : Nat) :
    EStateM Stop (Uvm (Phys σ)) Int :=
  copyFillUvm G cur mm uvaddr vaddr 0 len false true

def copyFromUvm (G : Pager σ) (cur : Current) (mm uvaddr vaddr len : Nat) :
    EStateM Stop (Uvm (Phys σ)) Int :=
  copyFillUvm G cur mm uvaddr vaddr 0 len false false

def fillUvm (G : Pager σ) (cur : Current) (mm uvaddr : Nat) (c : UInt8) (len : Nat) :
    EStateM Stop (Uvm (Phys σ)) Int :=
  copyFillUvm G cur mm uvaddr 0 c len true true

end Aim.Kern
