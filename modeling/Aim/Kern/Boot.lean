import Aim.Lib.Mem

/-!
# `boot/bootmain.c`: loading the kernel

The disk is its bytes. `readsect` waits for the drive, gives it the number of a
sector and takes 512 bytes from it. The numbers come from a byte offset of 32 bits,
so they are below `2 ^ 24` and the four registers hold all of them.

Memory is the memory of the machine, and a pointer is an address modulo `2 ^ 32`.
The code, the stack and the local variables of the loader are not part of it.
`bootLoad` is `bootmain` up to the call of the entry point.
-/

namespace Aim.Kern

open Aim.Lib

/-- `SECTSIZE`. -/
def sectSize : Nat := 512

def readsect (disk : Nat → UInt8) (dst offset : Nat) : EStateM Stop Mem Unit :=
  modify fun m => m.write dst sectSize fun i => disk (sectSize * offset + i)

def readsegLoop (disk : Nat → UInt8) (epa : Nat) : Nat → Nat → Nat → EStateM Stop Mem Unit
  | 0, _, _ => throw .fuel
  | fuel + 1, pa, offset => do
      if pa < epa then
        readsect disk pa offset
        readsegLoop disk epa fuel ((pa + sectSize) % 2 ^ 32) ((offset + 1) % 2 ^ 32)
      else return ()

/-- As many rounds as there are sectors in the address space, and the last test. -/
def readFuel : Nat := 2 ^ 23 + 1

def readseg (disk : Nat → UInt8) (pa count offset : Nat) : EStateM Stop Mem Unit :=
  let epa := (pa + count) % 2 ^ 32
  let pa := (pa + 2 ^ 32 - offset % sectSize) % 2 ^ 32
  readsegLoop disk epa readFuel pa (offset / sectSize)

def stosb (addr : Nat) (data : UInt8) (cnt : Nat) : EStateM Stop Mem Unit :=
  modify fun m => m.write addr cnt fun _ => data

/-- What is read of a `struct elf32_phdr`. -/
structure Phdr where
  offset : Nat
  paddr : Nat
  filesz : Nat
  memsz : Nat
  deriving DecidableEq

def phdrAt (m : Mem) (ph : Nat) : Phdr where
  offset := m.load32 (ph + 4)
  paddr := m.load32 (ph + 12)
  filesz := m.load32 (ph + 16)
  memsz := m.load32 (ph + 20)

/-- `sizeof(struct elf32_phdr)`. -/
def phdrSize : Nat := 32

/-- `e_phoff` of the `struct elf32hdr` at an address. -/
def ePhoff (m : Mem) (elf : Nat) : Nat := m.load32 (elf + 28)

/-- `e_phnum`, of 16 bits. -/
def ePhnum (m : Mem) (elf : Nat) : Nat :=
  (m ((elf + 44) % 2 ^ 32)).toNat + 2 ^ 8 * (m ((elf + 45) % 2 ^ 32)).toNat

/-- The end of a round: the bytes of the segment at `pa` the file does not have. -/
def clearRest (pa : Nat) (h : Phdr) : EStateM Stop Mem Unit :=
  if h.memsz > h.filesz then stosb (pa + h.filesz) 0 (h.memsz - h.filesz) else return ()

/-- The loop over the program headers. A header is looked at again after its segment
was read. -/
def loadLoop (disk : Nat → UInt8) (diskOffset eph : Nat) : Nat → Nat → EStateM Stop Mem Unit
  | 0, _ => throw .fuel
  | fuel + 1, ph => do
      if ph < eph then
        let m ← get
        let h := phdrAt m ph
        readseg disk h.paddr h.filesz ((h.offset + diskOffset) % 2 ^ 32)
        let m ← get
        clearRest h.paddr (phdrAt m ph)
        loadLoop disk diskOffset eph fuel ((ph + phdrSize) % 2 ^ 32)
      else return ()

/-- `pe->LBA_of_first_absolute_sector`, of the second entry of the partition table. -/
def firstSector (m : Mem) : Nat := m.load32 (0x7c00 + 0x1be + 16 + 8)

/-- The scratch space. -/
def scratch : Nat := 0x10000

/-- The bytes of the kernel that are read to the scratch space. -/
def scratchSize : Nat := 10240

def bootLoad (disk : Nat → UInt8) : EStateM Stop Mem Unit := do
  let m ← get
  let diskOffset := firstSector m * sectSize % 2 ^ 32
  readseg disk scratch scratchSize diskOffset
  let m ← get
  let ph := (scratch + ePhoff m scratch) % 2 ^ 32
  let eph := (ph + phdrSize * ePhnum m scratch) % 2 ^ 32
  loadLoop disk diskOffset eph (2 ^ 16) ph

end Aim.Kern
