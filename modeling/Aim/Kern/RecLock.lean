import Aim.Kern.SpinLock

/-!
# `aim/sync.h`: recursive spin locks

`recursive_lock` and `recursive_unlock` run by many processors at once. As for
the spin lock inside, each function is taken one access to memory at a time, and
a processor is either between two calls or at one of the accesses; `++` and `--`
are a read and a write. `cpuid` is the field `apicid` of a processor's slot, an
unsigned char, and `get_gs_cpu` the address of its `struct percpu`.

Beside the lock there is a count for each processor that no code reads: how many
of its `recursive_lock`s have gone through and have not been undone.
-/

namespace Aim.Kern

open Aim.Lib Function

structure RLock where
  lock : SpinLock
  holder : Int
  depth : Int
  deriving DecidableEq, Repr

/-- `EMPTY_RLOCK`. -/
def RLock.empty : RLock := ⟨.empty, -1, 0⟩

/-- The processors, told apart by both numbers. -/
structure Cpus (ι : Type) extends Percpus ι where
  cpuid : ι → Nat
  cpuid_inj : Injective cpuid

/-- Where a processor is. A `Write` has the value that was read. -/
inductive RPc where
  | idle
  | lockHolder
  | lockSpin (pc : LockPc)
  | lockOwn
  | lockRead
  | lockWrite (depth : Int)
  | unlockHolder
  | unlockDepth
  | unlockRead
  | unlockWrite (depth : Int)
  | unlockZero
  | unlockFree
  | unlockSpin (pc : UnlockPc)
  deriving DecidableEq, Repr

structure RState (ι : Type) where
  rlock : RLock
  pc : ι → RPc
  nest : ι → Nat

variable {ι : Type} [DecidableEq ι]

def RState.goto (s : RState ι) (i : ι) (pc : RPc) : RState ι :=
  { s with pc := update s.pc i pc }

def onSpin {α : Type} (x : EStateM Stop SpinLock α) : EStateM Stop (RState ι) α :=
  zoom (fun s => s.rlock.lock) (fun l s => { s with rlock := { s.rlock with lock := l } }) x

def recursiveAssert (line : Int) (condition : String) (holds : Bool) :
    EStateM Stop (RState ι) Unit :=
  require (.panic ("Assertion failed in recursive_unlock (%s:%d): " ++ condition ++ "\n") [line])
    holds

/-- The next access of the processor `i`. -/
def access (P : Cpus ι) (i : ι) : EStateM Stop (RState ι) Unit := do
  let s ← get
  match s.pc i with
  | .idle => return ()
  -- recursive_lock
  | .lockHolder =>
      set (s.goto i (if s.rlock.holder ≠ P.cpuid i then .lockSpin .test else .lockRead))
  | .lockSpin pc => do
      match ← onSpin (spinLockStep (P.percpu i) pc) with
      | some pc => modify fun s => s.goto i (.lockSpin pc)
      | none => modify fun s => s.goto i .lockOwn
  | .lockOwn =>
      set ({ s with rlock := { s.rlock with holder := P.cpuid i } }.goto i .lockRead)
  | .lockRead => set (s.goto i (.lockWrite s.rlock.depth))
  | .lockWrite depth =>
      set ({ s with
        rlock := { s.rlock with depth := asInt (depth + 1) }
        nest := update s.nest i (s.nest i + 1) }.goto i .idle)
  -- recursive_unlock
  | .unlockHolder => do
      recursiveAssert 82 "cpuid() == lock->holder" (P.cpuid i == s.rlock.holder)
      set (s.goto i .unlockDepth)
  | .unlockDepth => do
      recursiveAssert 83 "lock->depth > 0" (0 < s.rlock.depth)
      set (s.goto i .unlockRead)
  | .unlockRead => set (s.goto i (.unlockWrite s.rlock.depth))
  | .unlockWrite depth =>
      set ({ s with
        rlock := { s.rlock with depth := asInt (depth - 1) }
        nest := update s.nest i (s.nest i - 1) }.goto i .unlockZero)
  | .unlockZero => set (s.goto i (if s.rlock.depth = 0 then .unlockFree else .idle))
  | .unlockFree =>
      set ({ s with rlock := { s.rlock with holder := -1 } }.goto i (.unlockSpin .test))
  | .unlockSpin pc => do
      match ← onSpin (spinUnlockStep pc) with
      | some pc => modify fun s => s.goto i (.unlockSpin pc)
      | none => modify fun s => s.goto i .idle

/-- What may happen next: a processor calls one of the functions, or goes on with
the one it is in. -/
inductive REvent (ι : Type) where
  | lock (i : ι)
  | unlock (i : ι)
  | access (i : ι)
  deriving DecidableEq, Repr

def REvent.run (P : Cpus ι) : REvent ι → EStateM Stop (RState ι) Unit
  | .lock i => modify fun s => s.goto i .lockHolder
  | .unlock i => modify fun s => s.goto i .unlockHolder
  | .access i => Aim.Kern.access P i

/-- A processor makes one call at a time, and undoes only what it has done. -/
def REvent.legal (s : RState ι) : REvent ι → Prop
  | .lock i => s.pc i = .idle
  | .unlock i => s.pc i = .idle ∧ 0 < s.nest i
  | .access i => s.pc i ≠ .idle

instance REvent.decidableLegal (s : RState ι) : (e : REvent ι) → Decidable (e.legal s)
  | .lock _ => inferInstanceAs (Decidable (_ = _))
  | .unlock _ => inferInstanceAs (Decidable (_ ∧ _))
  | .access _ => inferInstanceAs (Decidable (_ ≠ _))

def RState.start (ι : Type) : RState ι := ⟨.empty, fun _ => .idle, fun _ => 0⟩

/-- The runs of the processors `P` on one lock. -/
def recRun (P : Cpus ι) : Machine Stop (RState ι) (REvent ι) where
  init s := s = .start ι
  legal := fun s e => e.legal s
  step := REvent.run P

instance recRun.decidableLegal (P : Cpus ι) (s : RState ι) (e : REvent ι) :
    Decidable ((recRun P).legal s e) :=
  inferInstanceAs (Decidable (e.legal s))

end Aim.Kern
