import Aim.Kern.Libc

/-!
# `kern/arch/i386/mp.c`: the processors of the machine

The firmware describes the processors in a table. `mpinit` looks for it, checks
it and takes the ids of the processors' local APICs from its entries, one slot
of `cpus` after the other.

Memory is what is seen through `P2V`, by physical address. `mpinit` also masks
the interrupts of a machine with an IMCR; this writes to ports only and is left
out. In the loop over the entries an unknown type leaves the `switch` and not
the loop, which then looks at the same entry again. A table is taken not to go
round at the end of the address space.

What differs from processor to processor is passed as an argument: the register
`lapic[ID]` of its local APIC, and the word at `%gs:0`, where `seginit` stores
the address of the slot. The slot is named by its number; `none` is `NULL`. The
message that `cpunum` prints when interrupts are on is left out.
-/

namespace Aim.Kern

open Aim.Lib

/-- `NCPU`, the number of entries of `cpus`. -/
def ncpuMax : Nat := 8

/-- The static variables: the field `apicid` of the entries of `cpus`, and
`ncpu`, `ismp`, `ioapicid` and `lapic`. -/
structure Mp where
  apicid : Nat → UInt8
  ncpu : Nat
  ismp : Bool
  ioapicid : UInt8
  lapic : Nat

/-- All of them are zero at first. -/
def Mp.zero : Mp := ⟨fun _ => 0, 0, false, 0, 0⟩

/-! ## The search -/

def bytesAt (mem : Nat → UInt8) (p len : Nat) : List UInt8 :=
  (List.range len).map fun i => mem (p + i)

/-- `sum`, as an unsigned char. -/
def sum (mem : Nat → UInt8) (addr len : Nat) : Nat :=
  (bytesAt mem addr len).foldl (fun s b => s + b.toNat) 0 % 2 ^ 8

/-- A little-endian word of `n` bytes. -/
def wordAt (mem : Nat → UInt8) (p n : Nat) : Nat :=
  (bytesAt mem p n).foldr (fun b w => b.toNat + 2 ^ 8 * w) 0

/-- The loop of `mpsearch1`, with `n` places left to look at. -/
def mpsearch1Loop (mem : Nat → UInt8) : Nat → Nat → Option Nat
  | 0, _ => none
  | n + 1, p =>
      if memcmp (bytesAt mem p 4) "_MP_".toUTF8.data.toList = 0 ∧ sum mem p 16 = 0 then some p
      else mpsearch1Loop mem n ((p + 16) % 2 ^ 32)

def mpsearch1 (mem : Nat → UInt8) (a len : Nat) : Option Nat := mpsearch1Loop mem (len / 16) a

def mpsearch (mem : Nat → UInt8) : Option Nat :=
  let bda := 0x400
  let p := ((mem (bda + 0x0F)).toNat * 2 ^ 8 + (mem (bda + 0x0E)).toNat) * 2 ^ 4
  let near :=
    if p ≠ 0 then mpsearch1 mem p 1024
    else
      let p := ((mem (bda + 0x14)).toNat * 2 ^ 8 + (mem (bda + 0x13)).toNat) * 1024
      mpsearch1 mem ((p + 2 ^ 32 - 1024) % 2 ^ 32) 1024
  match near with
  | some mp => some mp
  | none => mpsearch1 mem 0xF0000 0x10000

/-- `conf->length`. -/
def confLength (mem : Nat → UInt8) (conf : Nat) : Nat := wordAt mem (conf + 4) 2

def mpconfig (mem : Nat → UInt8) : Option Nat :=
  match mpsearch mem with
  | none => none
  | some mp =>
      let conf := wordAt mem (mp + 4) 4
      if conf = 0 then none
      else if memcmp (bytesAt mem conf 4) "PCMP".toUTF8.data.toList ≠ 0 then none
      else if mem (conf + 6) ≠ 1 ∧ mem (conf + 6) ≠ 4 then none
      else if sum mem conf (confLength mem conf) ≠ 0 then none
      else some conf

/-! ## The table -/

/-- The loop of `mpinit` from the entry at `p` on, with the table ending at
`e`. -/
def mpinitLoop (mem : Nat → UInt8) (e : Nat) : Nat → Nat → EStateM Stop Mp Unit
  | 0, _ => throw .fuel
  | fuel + 1, p => do
      if p < e then
        match (mem p).toNat with
        | 0 => do
            modify fun s =>
              if s.ncpu < ncpuMax then
                { s with apicid := Function.update s.apicid s.ncpu (mem (p + 1)), ncpu := s.ncpu + 1 }
              else s
            mpinitLoop mem e fuel (p + 20)
        | 2 => do
            modify fun s => { s with ioapicid := mem (p + 1) }
            mpinitLoop mem e fuel (p + 8)
        | 1 | 3 | 4 => mpinitLoop mem e fuel (p + 8)
        | _ => do
            modify fun s => { s with ismp := false }
            mpinitLoop mem e fuel p

/-- `mpinit`. The fuel of its loop is more than the bytes of a table. -/
def mpinit (mem : Nat → UInt8) : EStateM Stop Mp Unit := do
  match mpconfig mem with
  | none => return ()
  | some conf =>
      modify fun s => { s with ismp := true, lapic := wordAt mem (conf + 36) 4 }
      mpinitLoop mem (conf + confLength mem conf) (2 ^ 16 + 1) (conf + 44)
      modify fun s => if s.ismp then s else { s with ncpu := 1, lapic := 0, ioapicid := 0 }

/-! ## Numbers of processors -/

/-- `cpunum`, where `lapic[ID]` is `id`. -/
def cpunum (s : Mp) (id : Nat) : Nat :=
  if s.lapic = 0 then 0
  else ((List.range s.ncpu).find? fun i => (s.apicid i).toNat = id / 2 ^ 24).getD 0

/-- What `seginit` stores at `%gs:0`. -/
def seginit (s : Mp) (id : Nat) : Option Nat := some (cpunum s id)

/-- `cpuid`, where the word at `%gs:0` is `gs`. -/
def cpuid (s : Mp) (gs : Option Nat) : Nat :=
  match gs with
  | none => 0
  | some c => (s.apicid c).toNat

end Aim.Kern
