import Aim.Kern.Proc

/-!
# `kern/proc/sched/sched.c`: the scheduler

The scheduler has a list of processes, a ring of the nodes embedded in them
through a sentry in `struct scheduler`. Every node has a pointer to its process,
and that of the sentry is `NULL`.

The functions that the source reaches through the pointers of `struct scheduler`
are called directly. There is one processor, and the locks are left out.

A call of `switch_context` goes on in the process it switches to. That process
is at a `switch_context` of its own, in `schedule`, where nothing follows, or in
`sleep_with_lock`, where it takes its `bed` away; this is part of
`switchContext`.
-/

namespace Aim.Kern

open Aim.Lib Function

variable {σ : Type}

/-- `sizeof(struct scheduler)`. -/
def schedulerBytes : Nat := 32

def schedInit (E : ProcEnv σ) : EStateM Stop (Procs σ) Unit := do
  let scheduler ← onProcEnv (E.kmalloc schedulerBytes)
  deref scheduler
  modify fun s => { s with
    scheduler := scheduler
    links := s.links.init .sentry
    owner := update s.owner .sentry 0 }

namespace Sched

/-- FCFS. -/
def pick : EStateM Stop (Procs σ) Nat := do
  let s ← get
  if s.links.next .sentry = .sentry then return 0
  else
    let p := s.owner .sentry
    set { s with links := s.links.del .sentry }
    return p

def add (p : Nat) : EStateM Stop (Procs σ) Int := do
  deref p
  modify fun s => { s with links := s.links.addTail (.proc p) .sentry }
  return 0

def remove (p : Nat) : EStateM Stop (Procs σ) Int := do
  deref p
  modify fun s => { s with links := s.links.del (.proc p) }
  return 0

def next (p : Nat) : EStateM Stop (Procs σ) Nat := do
  deref p
  let s ← get
  return s.owner (s.links.next (.proc p))

/-- The loop of `find`, from the node `pos` on. -/
def findLoop (pid : Int) : Nat → SchedNode → EStateM Stop (Procs σ) Nat
  | 0, _ => throw .fuel
  | fuel + 1, pos => do
      if pos = .sentry then return 0
      else
        let s ← get
        deref (s.owner pos)
        if (s.proc (s.owner pos)).pid = pid then return s.owner pos
        else findLoop pid fuel (s.links.next pos)

/-- `find`. Its argument `ns` is not read. -/
def find (pid : Int) : EStateM Stop (Procs σ) Nat := do
  let s ← get
  findLoop pid listFuel (s.links.next .sentry)

end Sched

def procAdd (p : Nat) : EStateM Stop (Procs σ) Unit := do
  let _ ← Sched.add p

def procRemove (p : Nat) : EStateM Stop (Procs σ) Unit := do
  let _ ← Sched.remove p

def procNext (p : Nat) : EStateM Stop (Procs σ) Nat := Sched.next p

/-- `switch_context`, up to where the process `p` waits to run again. -/
def switchContext (p : Nat) : EStateM Stop (Procs σ) Unit := do
  modify fun s => { s with current := p }
  let s ← get
  -- switch_pgindex(proc->mm->pgindex)
  deref (s.proc p).mm
  if s.inSleep p then
    set { s.put p { s.proc p with bed := 0 } with inSleep := update s.inSleep p false }

/-- `schedule`, with the number of the processor. -/
def schedule (cpuid : Int) : EStateM Stop (Procs σ) Unit := do
  let s ← get
  let oldproc := s.current
  require (.panic ("Assertion failed in schedule (%s:%d): " ++
      "!((oldproc->kpid == 0) ^ (oldproc == cpu_idleproc))\n") [59])
    (decide ((s.proc oldproc).kpid = 0) == decide (oldproc = s.idle))
  if (s.proc oldproc).state = .onproc then
    set (s.put oldproc { s.proc oldproc with state := .runnable })
  let picked ← Sched.pick
  let newproc := if picked = 0 then s.idle else picked
  modify fun s => s.put newproc { s.proc newproc with state := .onproc, oncpu := cpuid }
  switchContext newproc

/-- `sleep`, up to where it switches to the idle process. -/
def sleep (bed : Nat) : EStateM Stop (Procs σ) Unit := do
  modify fun s => { s.put s.current { s.proc s.current with bed := bed, state := .sleeping } with
    inSleep := update s.inSleep s.current true }
  let s ← get
  switchContext s.idle

/-- The loop of `wakeup`, with `proc` to be looked at. -/
def wakeupLoop (bed : Nat) : Nat → Nat → EStateM Stop (Procs σ) Unit
  | 0, _ => throw .fuel
  | fuel + 1, proc => do
      if proc = 0 then return ()
      else
        let s ← get
        if (s.proc proc).bed = bed ∧ (s.proc proc).state = .sleeping then
          set (s.put proc { s.proc proc with state := .runnable })
        let proc ← procNext proc
        wakeupLoop bed fuel proc

def wakeup (bed : Nat) : EStateM Stop (Procs σ) Unit := do
  let proc ← procNext 0
  wakeupLoop bed listFuel proc

end Aim.Kern
