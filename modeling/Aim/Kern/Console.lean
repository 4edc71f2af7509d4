import Aim.Kern.SpinLock

/-!
# `kputs` and the interrupts of one processor

`kern/dev/console.c` prints under a lock, which it takes with
`spin_lock_irq_save` of `aim/sync.h`. On i386 the macros of `arch-irq.h` keep the
flags register in a variable and load it back, and nothing else.

A processor has a stack of activations: of `kputs`, and of the code an interrupt
runs, under each of which is what it interrupted. The bottom is the rest of the
kernel. `handle_interrupt` prints (also by way of `kprintf`, which calls `kputs`)
and acknowledges the interrupt; of this only the printing matters here, and it
may print any number of times. The gates of `irq0`, `irq1`, `irq14` and `irq38`
are interrupt gates, which turn interrupts off, and the others are trap gates,
which do not.

Beside its variables an activation of `kputs` has the flags register at its
entry, which no code reads.
-/

namespace Aim.Kern

open Aim.Lib

/-- Where an activation of `kputs` is. `puts n` has `n` characters left. -/
inductive KputsPc where
  | start
  | save
  | lock (pc : LockPc)
  | puts (n : Nat)
  | unlock (pc : UnlockPc)
  | restore
  | ret
  deriving DecidableEq, Repr

/-- An activation of `kputs`, of a string of `chars` characters. -/
structure Kputs where
  pc : KputsPc
  chars : Nat
  flags : BitVec 32
  entry : BitVec 32
  deriving DecidableEq, Repr

/-- An activation; that of an interrupt has the flags register it goes back
to. -/
inductive Activation where
  | kputs (k : Kputs)
  | irq (eflags : BitVec 32)
  deriving DecidableEq, Repr

/-- A processor. `me` is the address of its `struct percpu`, `console` says
whether `__puts` is set, and the innermost activation is the first. -/
structure Cpu where
  me : Nat
  console : Bool
  eflags : BitVec 32
  lock : SpinLock
  stack : List Activation
  deriving DecidableEq, Repr

/-- `FL_IF`, the interrupt flag. -/
def ifSet (eflags : BitVec 32) : Bool := eflags &&& 0x200 != 0

/-- `cli`, on the register. -/
def ifClear (eflags : BitVec 32) : BitVec 32 := eflags &&& ~~~0x200

def onLock {α : Type} (x : EStateM Stop SpinLock α) : EStateM Stop Cpu α :=
  zoom Cpu.lock (fun l c => { c with lock := l }) x

/-- The next instruction of the activation `k`: `none` when it returns. -/
def Kputs.step (k : Kputs) : EStateM Stop Cpu (Option Kputs) :=
  match k.pc with
  | .start => do
      let c ← get
      if c.console then return some { k with pc := .save }
      else return none
  | .save => do
      -- local_irq_save(flags)
      let c ← get
      return some { k with pc := .lock .test, flags := c.eflags }
  | .lock pc => do
      let c ← get
      match ← onLock (spinLockStep c.me pc) with
      | some pc => return some { k with pc := .lock pc }
      | none => return some { k with pc := .puts k.chars }
  | .puts 0 => return some { k with pc := .unlock .test }
  | .puts (n + 1) => return some { k with pc := .puts n }
  | .unlock pc => do
      match ← onLock (spinUnlockStep pc) with
      | some pc => return some { k with pc := .unlock pc }
      | none => return some { k with pc := .restore }
  | .restore => do
      -- local_irq_restore(flags)
      modify fun c => { c with eflags := k.flags }
      return some { k with pc := .ret }
  | .ret => return none

/-- The gate an interrupt goes through. -/
inductive Gate where
  | interrupt
  | trap
  deriving DecidableEq, Repr

/-- What may happen next. -/
inductive CpuEvent where
  /-- `kputs` is called, by the kernel or by an interrupt's code. -/
  | call (chars : Nat)
  /-- The innermost `kputs` executes an instruction. -/
  | step
  /-- An interrupt is taken. -/
  | interrupt (gate : Gate)
  /-- An interrupt's code returns. -/
  | iret
  /-- The kernel, outside of `kputs` and of interrupts, loads the flags
  register. -/
  | load (eflags : BitVec 32)
  deriving DecidableEq, Repr

def CpuEvent.run : CpuEvent → EStateM Stop Cpu Unit
  | .call chars => modify fun c =>
      { c with stack := .kputs ⟨.start, chars, 0, c.eflags⟩ :: c.stack }
  | .step => do
      let c ← get
      match c.stack with
      | .kputs k :: rest => do
          match ← k.step with
          | some k' => modify fun c => { c with stack := .kputs k' :: rest }
          | none => modify fun c => { c with stack := rest }
      | _ => return ()
  | .interrupt gate => modify fun c =>
      { c with
        stack := .irq c.eflags :: c.stack
        eflags := match gate with
          | .interrupt => ifClear c.eflags
          | .trap => c.eflags }
  | .iret => do
      let c ← get
      match c.stack with
      | .irq eflags :: rest => set { c with eflags := eflags, stack := rest }
      | _ => return ()
  | .load eflags => modify fun c => { c with eflags := eflags }

/-- Who runs: the innermost activation is one of `kputs`. -/
def Cpu.inKputs (c : Cpu) : Bool :=
  match c.stack with
  | .kputs _ :: _ => true
  | _ => false

/-- Who runs: the innermost activation is that of an interrupt. -/
def Cpu.inIrq (c : Cpu) : Bool :=
  match c.stack with
  | .irq _ :: _ => true
  | _ => false

def CpuEvent.legal (c : Cpu) : CpuEvent → Prop
  | .call _ => c.inKputs = false
  | .step => c.inKputs = true
  | .interrupt _ => ifSet c.eflags = true
  | .iret => c.inIrq = true
  | .load _ => c.stack = []

instance CpuEvent.decidableLegal (c : Cpu) : (e : CpuEvent) → Decidable (e.legal c)
  | .call _ => inferInstanceAs (Decidable (_ = _))
  | .step => inferInstanceAs (Decidable (_ = _))
  | .interrupt _ => inferInstanceAs (Decidable (_ = _))
  | .iret => inferInstanceAs (Decidable (_ = _))
  | .load _ => inferInstanceAs (Decidable (_ = _))

/-- The runs of a processor, from the kernel's code with the lock free. -/
def cpuRun : Machine Stop Cpu CpuEvent where
  init c := c.stack = [] ∧ c.lock = .empty
  legal := fun c e => e.legal c
  step := CpuEvent.run

instance cpuRun.decidableLegal (c : Cpu) (e : CpuEvent) : Decidable (cpuRun.legal c e) :=
  inferInstanceAs (Decidable (e.legal c))

end Aim.Kern
