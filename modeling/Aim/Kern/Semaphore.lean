import Aim.Kern.SpinLock

/-!
# `arch-sync.h` of i386: semaphores

`semaphore_inc` and `semaphore_dec` run by many processors at once, taken one
access to memory at a time as the spin lock inside is; `++` and `--` are a read
and a write. The field `limit` is written once and never read; it is left out.

Beside the semaphore there are three counts that no code reads: the calls of
`semaphore_inc`, and how many calls of each function have come to their end.
-/

namespace Aim.Kern

open Aim.Lib

structure Semaphore where
  spinlock : SpinLock
  val : Int
  deriving DecidableEq, Repr

def semaphoreInit (val : Int) : Semaphore := ⟨.empty, val⟩

/-- Where a processor is. A `Write` has the value that was read; `decUnlock` is
the unlock in front of the `break`, `decRetry` the one of the other branch. -/
inductive SemPc where
  | idle
  | decLock (pc : LockPc)
  | decTest
  | decRead
  | decWrite (val : Int)
  | decUnlock (pc : UnlockPc)
  | decRetry (pc : UnlockPc)
  | incLock (pc : LockPc)
  | incRead
  | incWrite (val : Int)
  | incUnlock (pc : UnlockPc)
  deriving DecidableEq, Repr

structure SemState (ι : Type) where
  sem : Semaphore
  pc : ι → SemPc
  incs : Nat
  incsDone : Nat
  decsDone : Nat

variable {ι : Type} [DecidableEq ι]

def SemState.goto (s : SemState ι) (i : ι) (pc : SemPc) : SemState ι :=
  { s with pc := Function.update s.pc i pc }

def SemState.putVal (s : SemState ι) (val : Int) : SemState ι :=
  { s with sem := { s.sem with val := val } }

def SemState.putLock (s : SemState ι) (lock : SpinLock) : SemState ι :=
  { s with sem := { s.sem with spinlock := lock } }

def onSemLock {α : Type} (x : EStateM Stop SpinLock α) : EStateM Stop (SemState ι) α :=
  zoom (fun s => s.sem.spinlock) (fun l s => s.putLock l) x

/-- An access of `spin_lock(&sem->spinlock)`, which is followed by `next`. -/
def semLock (P : Percpus ι) (i : ι) (wait : LockPc → SemPc) (next : SemPc) (pc : LockPc) :
    EStateM Stop (SemState ι) Unit := do
  match ← onSemLock (spinLockStep (P.percpu i) pc) with
  | some pc => modify fun s => s.goto i (wait pc)
  | none => modify fun s => s.goto i next

/-- An access of `spin_unlock(&sem->spinlock)`; the last one does `last` as well. -/
def semUnlock (i : ι) (wait : UnlockPc → SemPc) (last : SemState ι → SemState ι)
    (pc : UnlockPc) : EStateM Stop (SemState ι) Unit := do
  match ← onSemLock (spinUnlockStep pc) with
  | some pc => modify fun s => s.goto i (wait pc)
  | none => modify last

def SemState.endDec (i : ι) (s : SemState ι) : SemState ι :=
  { s with decsDone := s.decsDone + 1 }.goto i .idle

def SemState.endInc (i : ι) (s : SemState ι) : SemState ι :=
  { s with incsDone := s.incsDone + 1 }.goto i .idle

/-- The next access of the processor `i`. -/
def semAccess (P : Percpus ι) (i : ι) : EStateM Stop (SemState ι) Unit := do
  let s ← get
  match s.pc i with
  | .idle => return ()
  -- semaphore_dec
  | .decLock pc => semLock P i .decLock .decTest pc
  | .decTest => set (s.goto i (if 0 < s.sem.val then .decRead else .decRetry .test))
  | .decRead => set (s.goto i (.decWrite s.sem.val))
  | .decWrite val => set ((s.putVal (asInt (val - 1))).goto i (.decUnlock .test))
  | .decUnlock pc => semUnlock i .decUnlock (.endDec i) pc
  | .decRetry pc => semUnlock i .decRetry (fun s => s.goto i (.decLock .test)) pc
  -- semaphore_inc
  | .incLock pc => semLock P i .incLock .incRead pc
  | .incRead => set (s.goto i (.incWrite s.sem.val))
  | .incWrite val => set ((s.putVal (asInt (val + 1))).goto i (.incUnlock .test))
  | .incUnlock pc => semUnlock i .incUnlock (.endInc i) pc

/-- What may happen next: a processor calls one of the functions, or goes on with
the one it is in. -/
inductive SemEvent (ι : Type) where
  | inc (i : ι)
  | dec (i : ι)
  | access (i : ι)
  deriving DecidableEq, Repr

def SemEvent.run (P : Percpus ι) : SemEvent ι → EStateM Stop (SemState ι) Unit
  | .inc i => modify fun s => { s with incs := s.incs + 1 }.goto i (.incLock .test)
  | .dec i => modify fun s => s.goto i (.decLock .test)
  | .access i => semAccess P i

/-- A processor makes one call at a time. -/
def SemEvent.legal (s : SemState ι) : SemEvent ι → Prop
  | .inc i => s.pc i = .idle
  | .dec i => s.pc i = .idle
  | .access i => s.pc i ≠ .idle

instance SemEvent.decidableLegal (s : SemState ι) : (e : SemEvent ι) → Decidable (e.legal s)
  | .inc _ => inferInstanceAs (Decidable (_ = _))
  | .dec _ => inferInstanceAs (Decidable (_ = _))
  | .access _ => inferInstanceAs (Decidable (_ ≠ _))

def SemState.start (ι : Type) (v : Int) : SemState ι :=
  ⟨semaphoreInit v, fun _ => .idle, 0, 0, 0⟩

/-- The runs of the processors `P` on a semaphore that `semaphore_init` has given
the value `v`. -/
def semRun (P : Percpus ι) (v : Int) : Machine Stop (SemState ι) (SemEvent ι) where
  init s := s = .start ι v
  legal := fun s e => e.legal s
  step := SemEvent.run P

instance semRun.decidableLegal (P : Percpus ι) (v : Int) (s : SemState ι) (e : SemEvent ι) :
    Decidable ((semRun P v).legal s e) :=
  inferInstanceAs (Decidable (e.legal s))

end Aim.Kern
