import Aim.Kern.Uvm

/-!
# `kern/mm/kmmap/early_kmmap.c`: the queue of early mappings

Mappings are queued before the memory management unit is set up, in an array
of ten. The array is the list of the entries added since it was cleared.
Virtual addresses and sizes are 32-bit, physical addresses 64-bit; pointer
additions are taken modulo `2 ^ 32`. The three addresses the address space is
divided at, and the check of the architecture, `early_mapping_valid`, are
parameters.
-/

namespace Aim.Kern

open Aim.Lib

/-- `EARLY_MAPPING_MEMORY` to `EARLY_MAPPING_OTHER`. -/
inductive MappingType where
  | memory
  | kmmap
  | temp
  | other
  deriving DecidableEq, Repr

structure EarlyMapping where
  paddr : Nat
  vaddr : Nat
  size : Nat
  type : MappingType
  deriving DecidableEq, Repr

/-- `KERN_BASE`, `KMMAP_BASE`, `RESERVED_BASE` and `early_mapping_valid`. -/
structure KmmapLayout where
  kernBase : Nat
  kmmapBase : Nat
  reservedBase : Nat
  kmmap_lt : kmmapBase < 2 ^ 32
  reserved_lt : reservedBase < 2 ^ 32
  valid : EarlyMapping → Bool

/-- The static variables: the entries of `queue`, `mem_top` and `kmmap_top`. -/
structure EarlyQueue where
  queue : List EarlyMapping
  memTop : Nat
  kmmapTop : Nat
  deriving DecidableEq, Repr

/-- `EARLY_MAPPING_QUEUE_LENGTH`. -/
def earlyQueueLength : Nat := 10

/-- `OVERLAP`, on pointers. -/
def overlap (st₁ len₁ st₂ len₂ : Nat) : Bool :=
  (st₁ > st₂ && st₁ < (st₂ + len₂) % 2 ^ 32) || (st₂ > st₁ && st₂ < (st₁ + len₁) % 2 ^ 32)

def earlyMappingClear (K : KmmapLayout) : EStateM Stop EarlyQueue Unit :=
  modify fun s => { s with queue := [], memTop := K.kernBase, kmmapTop := K.kmmapBase }

def earlyMappingAdd (K : KmmapLayout) (entry : EarlyMapping) : EStateM Stop EarlyQueue Int := do
  let s ← get
  require (.panic ("Assertion failed in early_mapping_add (%s:%d): " ++
      "queue_size <= EARLY_MAPPING_QUEUE_LENGTH\n") [58])
    (decide (s.queue.length ≤ earlyQueueLength))
  if s.queue.length = earlyQueueLength then return -enomem
  else if !K.valid entry then return -einval
  else if s.queue.any fun q => overlap entry.vaddr entry.size q.vaddr q.size then return -einval
  else
    set { s with queue := s.queue ++ [entry] }
    return 0

def earlyMappingAddMemory (K : KmmapLayout) (base size : Nat) : EStateM Stop EarlyQueue Nat := do
  let s ← get
  if s.memTop ≥ K.kmmapBase then return 0
  else
    let size := if size > K.kmmapBase - s.memTop then K.kmmapBase - s.memTop else size
    let ret ← earlyMappingAdd K ⟨base, s.memTop, size, .memory⟩
    if ret < 0 then return 0
    else
      modify fun s => { s with memTop := (s.memTop + size) % 2 ^ 32 }
      return size

def earlyMappingAddKmmap (K : KmmapLayout) (base size : Nat) : EStateM Stop EarlyQueue Nat := do
  let s ← get
  if s.kmmapTop ≥ K.reservedBase then return 0
  else if size > K.reservedBase - s.kmmapTop then return 0
  else
    let ret ← earlyMappingAdd K ⟨base, s.kmmapTop, size, .kmmap⟩
    if ret < 0 then return 0
    else
      modify fun q => { q with kmmapTop := (q.kmmapTop + size) % 2 ^ 32 }
      return s.kmmapTop

end Aim.Kern
