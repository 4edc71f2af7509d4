import Aim.Kern.Bitmap
import Aim.Kern.Uvm

/-!
# `kern/proc/proc.c`: processes

A process has an id, `kpid`, from a bitmap of the ids in use, a kernel stack of
one page, and a node for the list of the scheduler. Ids count from 1, and so do
the bits of the bitmap; `0` is what the search for a free id answers when there
is none, and the id of the idle process.

Processes are named by the addresses of their `struct proc`. The fields that no
function here or in `sched.c` reads are left out, and so are the locks. The
allocators are a parameter, `ProcEnv`. On i386 `atomic_set_bit` and
`atomic_clear_bit` are empty.
-/

namespace Aim.Kern

open Aim.Lib

/-! ## The bitmap -/

/-- `atomic_set_bit` of i386. -/
def atomicSetBit (_nr : Int) (addr : List (BitVec 32)) : List (BitVec 32) := addr

/-- `atomic_clear_bit` of i386. -/
def atomicClearBit (_nr : Int) (addr : List (BitVec 32)) : List (BitVec 32) := addr

/-! ## Processes -/

/-- `PS_EMBRYO` to `PS_ONPROC`; `unset` is the zero of a static object. -/
inductive PState where
  | unset
  | embryo
  | runnable
  | sleeping
  | zombie
  | onproc
  deriving DecidableEq, Repr

structure Proc where
  kstack : Nat
  kstackSize : Nat
  tid : Int
  pid : Int
  kpid : Int
  state : PState
  oncpu : Int
  bed : Nat
  ns : Nat
  mm : Nat
  deriving DecidableEq, Repr

/-- A node of the list of the scheduler: its sentry, or the `sched_node` of a
process. -/
inductive SchedNode where
  | sentry
  | proc (p : Nat)
  deriving DecidableEq, Repr

/-- What processes stand on. -/
structure ProcEnv (σ : Type) where
  kmalloc : Nat → EStateM Stop σ Nat
  kfree : Nat → EStateM Stop σ Unit
  pgalloc : EStateM Stop σ Nat
  pgfree : Nat → EStateM Stop σ Unit

/-- All processes, and the scheduler of one processor. `owner` is the field `p`
of a list node, `idle` the idle process and `current` the running one. The
context of a process that is not running is in `sleep_with_lock` if it is one of
`inSleep`. -/
structure Procs (σ : Type) where
  env : σ
  bitmap : List (BitVec 32)
  proc : Nat → Proc
  links : Links SchedNode
  owner : SchedNode → Nat
  scheduler : Nat
  idle : Nat
  current : Nat
  inSleep : Nat → Bool

variable {σ : Type}

def onProcEnv {α : Type} (x : EStateM Stop σ α) : EStateM Stop (Procs σ) α :=
  zoom Procs.env (fun e s => { s with env := e }) x

/-- An access to the object at `p`. -/
def deref (p : Nat) : EStateM Stop (Procs σ) Unit := do
  if p = 0 then throw (.oob 0)

/-- The `struct proc` at `p` is written. -/
def Procs.put (s : Procs σ) (p : Nat) (x : Proc) : Procs σ :=
  { s with proc := Function.update s.proc p x }

/-- `sizeof(struct proc)`. -/
def procBytes : Nat := 392

def cpuNone : Int := -1

def allocKstack (E : ProcEnv σ) : EStateM Stop (Procs σ) Nat := do
  let paddr ← onProcEnv E.pgalloc
  if paddr = 2 ^ 64 - 1 then return 0
  else return pa2kva paddr

def freeKstack (E : ProcEnv σ) (kstack : Nat) : EStateM Stop (Procs σ) Unit :=
  onProcEnv (E.pgfree ((kstack + 2 ^ 32 - kernBase) % 2 ^ 32))

/-- `kpid_new`. `n` is `MAX_PROCESSES`. -/
def kpidNew (n : Nat) : EStateM Stop (Procs σ) Int := do
  let s ← get
  match bitmapFindFirstZeroBit s.bitmap n with
  | .error e => throw e
  | .ok bit =>
      let kpid := toInt32 bit
      set { s with bitmap := atomicSetBit kpid s.bitmap }
      return kpid

def kpidRecycle (kpid : Int) : EStateM Stop (Procs σ) Unit :=
  modify fun s => { s with bitmap := atomicClearBit kpid s.bitmap }

/-- `pid_new`. `pid_recycle` is empty. -/
def pidNew (kpid : Int) (_ns : Nat) : Int := kpid

def procNew (E : ProcEnv σ) (n ns : Nat) : EStateM Stop (Procs σ) Nat := do
  let proc ← onProcEnv (E.kmalloc procBytes)
  if proc = 0 then return 0
  else
    let kstack ← allocKstack E
    modify fun s => s.put proc { s.proc proc with kstack := kstack }
    if kstack = 0 then
      onProcEnv (E.kfree proc)
      return 0
    else
      let kpid ← kpidNew n
      modify fun s => s.put proc
        { kstack := kstack, kstackSize := pgSize, tid := kpid, pid := pidNew kpid ns, kpid := kpid
          state := .embryo, oncpu := cpuNone, bed := 0, ns := ns, mm := 0 }
      modify fun s => { s with
        links := s.links.init (.proc proc)
        owner := Function.update s.owner (.proc proc) proc }
      return proc

def procDestroy (E : ProcEnv σ) (proc : Nat) : EStateM Stop (Procs σ) Unit := do
  deref proc
  let s ← get
  kpidRecycle (s.proc proc).kpid
  freeKstack E (s.proc proc).kstack
  onProcEnv (E.kfree proc)

end Aim.Kern
