import Aim.Kern.SimpleAlloc

/-!
# `kern/mm/vmm/vmm.c`: the registered simple allocator

`kmalloc` and its companions call the functions of whatever simple allocator
was registered last. `simpleAllocator` is the one of `simple_alloc.c`, which
takes no notice of the flags. A registered allocator works on the memory and on
the globals of the kernel; the type `σ` is what else it may keep.

`size_t` has 32 bits, and the product in `kcalloc` is taken modulo `2 ^ 32`.
-/

namespace Aim.Kern

open Aim.Lib

variable {σ : Type}

/-- `struct simple_allocator`. -/
structure SimpleAllocator (σ : Type) where
  alloc : (size flags : Nat) → EStateM Stop (Simple σ) Nat
  free : (obj : Nat) → EStateM Stop (Simple σ) Unit
  size : (obj : Nat) → EStateM Stop (Simple σ) Nat

/-- The dummy implementations that are there before one is registered. -/
def dummySimple : SimpleAllocator σ :=
  ⟨fun _ _ => return 0, fun _ => return (), fun _ => return 0⟩

/-- The allocator of `simple_alloc.c`, over the page allocator `P`. -/
def simpleAllocator (P : PageAllocator σ) : SimpleAllocator σ :=
  ⟨fun size _ => simpleAlloc P size, simpleFree P, simpleSize⟩

namespace Vmm

def memset (a : Nat) (b : UInt8) (n : Nat) : EStateM Stop (Simple σ) Unit :=
  modify fun s => { s with phys := { s.phys with mem := s.phys.mem.fill a b n } }

variable (A : SimpleAllocator σ)

def kmalloc (size flags : Nat) : EStateM Stop (Simple σ) Nat := do
  if size > pgSize / 2 then throw (.panic "kmalloc: size %lu too large\n" [size])
  else
    let result ← A.alloc size flags
    if flags &&& gfpZero ≠ 0 then memset result 0 size
    return result

def kcalloc (nmemb size flags : Nat) : EStateM Stop (Simple σ) Nat := do
  let result ← kmalloc A (nmemb * size % 2 ^ 32) flags
  memset result 0 (nmemb * size % 2 ^ 32)
  return result

def kfree (obj : Nat) : EStateM Stop (Simple σ) Unit := do
  if obj ≠ 0 then A.free obj

def ksize (obj : Nat) : EStateM Stop (Simple σ) Nat :=
  if obj ≠ 0 then A.size obj else return 0

end Vmm

end Aim.Kern
