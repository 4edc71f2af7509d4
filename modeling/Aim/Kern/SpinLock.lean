import Aim.Lib.Run

/-!
# `arch-sync.h` of i386: spin locks

`spin_lock` and `spin_unlock`, one access to the lock after the other, so that
what happens between two accesses can be said. A step answers the next access,
`none` at the end. A processor is known by the address of its `struct percpu`,
`me`. The field `pcs` is written and never read; it is left out, and so is the
write to it.
-/

namespace Aim.Kern

open Aim.Lib

structure SpinLock where
  locked : Nat
  percpu : Nat
  deriving DecidableEq, Repr

/-- `EMPTY_LOCK`, and what `spinlock_init` makes. -/
def SpinLock.empty : SpinLock := ⟨0, 0⟩

/-- The accesses of `spin_lock`: the two reads of its test, the exchange, and
the note of who holds the lock. -/
inductive LockPc where
  | test
  | owner
  | xchg
  | record
  deriving DecidableEq, Repr

/-- The accesses of `spin_unlock`. -/
inductive UnlockPc where
  | test
  | forget
  | clear
  deriving DecidableEq, Repr

/-- The addresses of the processors' `struct percpu`. -/
structure Percpus (ι : Type) where
  percpu : ι → Nat
  percpu_inj : Function.Injective percpu
  percpu_ne : ∀ i, percpu i ≠ 0

def slotAt (b : Bool) : Nat := 0x80100000 + 0x100 * b.toNat

theorem slotAt_injective : Function.Injective slotAt := by
  intro a b h
  cases a <;> cases b <;> first | rfl | cases h

theorem slotAt_ne_zero (b : Bool) : slotAt b ≠ 0 := by
  rw [slotAt]
  omega

/-- Two processors. -/
def twoPercpus : Percpus Bool := ⟨slotAt, slotAt_injective, slotAt_ne_zero⟩

def spinLockStep (me : Nat) : LockPc → EStateM Stop SpinLock (Option LockPc)
  | .test => do
      let lock ← get
      return some (if lock.locked ≠ 0 then .owner else .xchg)
  | .owner => do
      let lock ← get
      if lock.percpu = me then throw (.panic "already acquired!\n" [])
      return some .xchg
  | .xchg => do
      let lock ← get
      set { lock with locked := 1 }
      return some (if lock.locked ≠ 0 then .xchg else .record)
  | .record => do
      modify fun lock => { lock with percpu := me }
      return none

theorem run_spinLock_test (me : Nat) (l : SpinLock) : (spinLockStep me .test).run l =
    .ok (some (if l.locked ≠ 0 then .owner else .xchg)) l := rfl

theorem run_spinLock_owner {me : Nat} {l : SpinLock} (h : l.percpu ≠ me) :
    (spinLockStep me .owner).run l = .ok (some .xchg) l := by
  simp [spinLockStep, h]

theorem run_spinLock_xchg (me : Nat) (l : SpinLock) : (spinLockStep me .xchg).run l =
    .ok (some (if l.locked ≠ 0 then .xchg else .record)) { l with locked := 1 } := rfl

def spinUnlockStep : UnlockPc → EStateM Stop SpinLock (Option UnlockPc)
  | .test => do
      let lock ← get
      if lock.locked = 0 then throw (.panic "release non-holding lock" [])
      return some .forget
  | .forget => do
      modify fun lock => { lock with percpu := 0 }
      return some .clear
  | .clear => do
      modify fun lock => { lock with locked := 0 }
      return none

end Aim.Kern
