import Aim.Kern.Console

/-!
# Printing and interrupts

A lock that is also taken by interrupts has to be held with interrupts off, or
the interrupt waits for the code it interrupted. `IrqSafe` says this of the lock
of the console. The macros that are to see to it keep the flags register and do
not turn interrupts off, so `kputs` is safe where it is called with interrupts
off already, and an interrupt in the middle of a `kputs` that is called with
interrupts on finds the lock taken by its own processor.

Under that condition an activation of `kputs` that gets to the lock is never
interrupted: nothing but interrupts is below it, and its position says all about
the lock and the flags register (`Printing`).
-/

namespace Aim.Kern

open Aim.Lib

/-- The code from `spin_lock_irq_save` to `spin_unlock_irq_restore`. -/
def KputsPc.masked : KputsPc → Bool
  | .lock _ | .puts _ | .unlock _ | .restore => true
  | _ => false

/-- The code between the exchange that takes the lock and the store that
releases it. -/
def KputsPc.holds : KputsPc → Bool
  | .lock .record | .puts _ | .unlock _ => true
  | _ => false

structure IrqSafe (c : Cpu) : Prop where
  /-- `spin_lock` is not called while the processor holds the lock. -/
  once : ∀ k rest, c.stack = .kputs k :: rest → k.pc = .lock .test →
    ∀ k', Activation.kputs k' ∈ c.stack → k'.pc.holds = false
  /-- Interrupts are off from the one macro to the other. -/
  off : ∀ k, Activation.kputs k ∈ c.stack → k.pc.masked = true → ifSet c.eflags = false
  /-- A call that returns leaves the interrupt flag as it found it. -/
  back : ∀ k rest, c.stack = .kputs k :: rest → k.pc = .ret → ifSet c.eflags = ifSet k.entry

/-- Where there is a console to print to, interrupts are off at the calls of
`kputs`. -/
def CalledMasked (c : Cpu) : CpuEvent → Prop
  | .call _ => c.console = true → ifSet c.eflags = false
  | _ => True

instance (c : Cpu) : (e : CpuEvent) → Decidable (CalledMasked c e)
  | .call _ => inferInstanceAs (Decidable (_ → _))
  | .step | .interrupt _ | .iret | .load _ => inferInstanceAs (Decidable True)

/-! ## An activation of `kputs` that is not interrupted -/

/-- The lock as the processor `me` leaves it at each position. -/
def KputsPc.lockAt (me : Nat) : KputsPc → SpinLock
  | .lock .record | .unlock .clear => ⟨1, 0⟩
  | .puts _ | .unlock .test | .unlock .forget => ⟨1, me⟩
  | _ => .empty

/-- The activation `k` runs on `c` with interrupts off since its call. -/
structure Printing (k : Kputs) (c : Cpu) : Prop where
  off : ifSet c.eflags = false
  entry : k.entry = c.eflags
  flags : k.pc.masked = true → k.flags = c.eflags
  lock : c.lock = k.pc.lockAt c.me
  free : k.pc ≠ .lock .owner

variable {c : Cpu} {k : Kputs} {rest : List Activation}

/-- What such an activation does next: it moves on, with the lock along, or it
returns. -/
theorem Printing.step (h : Printing k c) (hc : c.console = true) :
    (∃ pc flags, k.step.run c =
        .ok (some { k with pc := pc, flags := flags }) { c with lock := pc.lockAt c.me } ∧
      (pc.masked = true → flags = c.eflags) ∧ pc ≠ .lock .owner) ∨
    k.step.run c = .ok none c ∧ c.lock = .empty := by
  obtain ⟨pc, chars, flags, entry⟩ := k
  obtain ⟨me, console, eflags, lock, stack⟩ := c
  obtain ⟨_, _, hflags, hlock, hfree⟩ := h
  obtain rfl : console = true := hc
  obtain rfl : lock = pc.lockAt me := hlock
  cases pc with
  | start => exact .inl ⟨.save, flags, rfl, nofun, nofun⟩
  | save => exact .inl ⟨.lock .test, eflags, rfl, fun _ => rfl, nofun⟩
  | lock pc =>
      cases pc with
      | test => exact .inl ⟨.lock .xchg, flags, rfl, hflags, nofun⟩
      | owner => exact absurd rfl hfree
      | xchg => exact .inl ⟨.lock .record, flags, rfl, hflags, nofun⟩
      | record => exact .inl ⟨.puts chars, flags, rfl, hflags, nofun⟩
  | puts n =>
      cases n with
      | zero => exact .inl ⟨.unlock .test, flags, rfl, hflags, nofun⟩
      | succ n => exact .inl ⟨.puts n, flags, rfl, hflags, nofun⟩
  | unlock pc =>
      cases pc with
      | test => exact .inl ⟨.unlock .forget, flags, rfl, hflags, nofun⟩
      | forget => exact .inl ⟨.unlock .clear, flags, rfl, hflags, nofun⟩
      | clear => exact .inl ⟨.restore, flags, rfl, hflags, nofun⟩
  | restore =>
      -- The register already has the value that is loaded back.
      obtain rfl : flags = eflags := hflags rfl
      exact .inl ⟨.ret, flags, rfl, nofun, nofun⟩
  | ret => exact .inr ⟨rfl, rfl⟩

/-! ## The stack -/

/-- No activation of `kputs` is on the stack. -/
def OnlyIrqs (stack : List Activation) : Prop := ∀ k, Activation.kputs k ∉ stack

theorem OnlyIrqs.cons {stack : List Activation} (h : OnlyIrqs stack) (e : BitVec 32) :
    OnlyIrqs (.irq e :: stack) := by
  intro k hk
  rcases List.mem_cons.mp hk with hk | hk
  · cases hk
  · exact h k hk

/-- Without a console no call of `kputs` gets past its first line. -/
structure Silent (c : Cpu) : Prop where
  console : c.console = false
  start : ∀ k, Activation.kputs k ∈ c.stack → k.pc = .start

/-- With one, a call of `kputs` is the innermost activation and the only one. -/
structure Alone (c : Cpu) : Prop where
  console : c.console = true
  below : OnlyIrqs c.stack.tail
  printing : ∀ k rest, c.stack = .kputs k :: rest → Printing k c
  free : c.inKputs = false → c.lock = .empty

theorem Silent.irqSafe (h : Silent c) : IrqSafe c := by
  refine ⟨?_, ?_, ?_⟩
  · intro k rest hs hk k' hk'
    rw [h.start k' hk']
    rfl
  · intro k hk hm
    rw [h.start k hk] at hm
    cases hm
  · intro k rest hs hk
    rw [h.start k (hs ▸ List.mem_cons_self)] at hk
    cases hk

theorem Alone.first (h : Alone c) (hk : Activation.kputs k ∈ c.stack) :
    ∃ rest, c.stack = .kputs k :: rest := by
  have hbelow := h.below
  cases hs : c.stack with
  | nil =>
      rw [hs] at hk
      cases hk
  | cons a rest =>
      rw [hs] at hk hbelow
      rcases List.mem_cons.mp hk with rfl | hk
      · exact ⟨rest, rfl⟩
      · exact absurd hk (hbelow k)

theorem Alone.irqSafe (h : Alone c) : IrqSafe c := by
  refine ⟨?_, ?_, ?_⟩
  · intro k rest hs hk k' hk'
    obtain ⟨rest', hs'⟩ := h.first hk'
    rw [hs] at hs'
    cases hs'
    rw [hk]
    rfl
  · intro k hk _
    obtain ⟨rest, hs⟩ := h.first hk
    exact (h.printing k rest hs).off
  · intro k rest hs _
    rw [(h.printing k rest hs).entry]

theorem Alone.onlyIrqs (h : Alone c) (hk : c.inKputs = false) : OnlyIrqs c.stack := by
  intro k hmem
  obtain ⟨rest, hs⟩ := h.first hmem
  rw [Cpu.inKputs, hs] at hk
  cases hk

theorem OnlyIrqs.alone (hstack : OnlyIrqs c.stack) (hc : c.console = true)
    (hlock : c.lock = .empty) : Alone c := by
  refine ⟨hc, ?_, ?_, ?_⟩
  · intro k hk
    exact hstack k (List.mem_of_mem_tail hk)
  · intro k rest hs
    exact absurd (hs ▸ List.mem_cons_self) (hstack k)
  · intro _
    exact hlock

/-! ## The events -/

/-- An instruction of `kputs`, from what the activation does. -/
theorem run_step {c c' : Cpu} {r : Option Kputs} (hs : c.stack = .kputs k :: rest)
    (hstep : k.step.run c = .ok r c') :
    (CpuEvent.run .step).run c =
      .ok () { c' with stack := (r.map Activation.kputs).toList ++ rest } := by
  simp only [CpuEvent.run, EStateM.run_bind, EStateM.run_get, hs, hstep]
  cases r with
  | some k' => rfl
  | none => rfl

theorem Silent.step (h : Silent c) (hs : c.stack = .kputs k :: rest) :
    ∃ c', (CpuEvent.run .step).run c = .ok () c' ∧ Silent c' := by
  have hstep : k.step.run c = .ok none c := by
    have hpc : k.pc = .start := h.start k (hs ▸ List.mem_cons_self)
    simp [Kputs.step, hpc, h.console]
  refine ⟨_, run_step hs hstep, h.console, ?_⟩
  intro k' hk'
  exact h.start k' (hs ▸ List.mem_cons_of_mem _ hk')

theorem Alone.step (h : Alone c) (hs : c.stack = .kputs k :: rest) :
    ∃ c', (CpuEvent.run .step).run c = .ok () c' ∧ Alone c' := by
  have hp := h.printing k rest hs
  have hbelow : OnlyIrqs rest := by
    have hbelow := h.below
    rw [hs] at hbelow
    exact hbelow
  rcases hp.step h.console with ⟨pc, flags, hstep, hflags, hfree⟩ | ⟨hstep, hlock⟩
  · refine ⟨_, run_step hs hstep, h.console, hbelow, ?_, nofun⟩
    intro k' rest' hs'
    cases hs'
    exact ⟨hp.off, hp.entry, hflags, rfl, hfree⟩
  · exact ⟨_, run_step hs hstep, hbelow.alone h.console hlock⟩

/-- Where interrupts are on, no `kputs` runs. -/
theorem Alone.not_inKputs (h : Alone c) (hon : ifSet c.eflags = true) : c.inKputs = false := by
  rw [Cpu.inKputs]
  split
  · rename_i k rest hs
    have hoff := (h.printing k rest hs).off
    rw [hon] at hoff
    cases hoff
  · rfl

theorem exists_of_inKputs (h : c.inKputs = true) : ∃ k rest, c.stack = .kputs k :: rest := by
  rw [Cpu.inKputs] at h
  split at h
  · rename_i k rest hs
    exact ⟨k, rest, hs⟩
  · cases h

theorem exists_of_inIrq (h : c.inIrq = true) : ∃ e rest, c.stack = .irq e :: rest := by
  rw [Cpu.inIrq] at h
  split at h
  · rename_i e rest hs
    exact ⟨e, rest, hs⟩
  · cases h

theorem silent_event {e : CpuEvent} (h : Silent c) (hl : e.legal c) :
    ∃ c', e.run.run c = .ok () c' ∧ Silent c' := by
  cases e with
  | call chars =>
      refine ⟨_, rfl, h.console, ?_⟩
      intro k hk
      rcases List.mem_cons.mp hk with hk | hk
      · cases hk
        rfl
      · exact h.start k hk
  | step =>
      obtain ⟨k, rest, hs⟩ := exists_of_inKputs hl
      exact h.step hs
  | interrupt gate =>
      refine ⟨_, rfl, h.console, ?_⟩
      intro k hk
      rcases List.mem_cons.mp hk with hk | hk
      · cases hk
      · exact h.start k hk
  | iret =>
      obtain ⟨eflags, rest, hs⟩ := exists_of_inIrq hl
      refine ⟨{ c with eflags := eflags, stack := rest }, ?_, h.console, ?_⟩
      · simp [CpuEvent.run, hs]
      · intro k hk
        exact h.start k (hs ▸ List.mem_cons_of_mem _ hk)
  | load eflags => exact ⟨_, rfl, h.console, h.start⟩

theorem alone_event {e : CpuEvent} (h : Alone c) (hl : e.legal c) (hm : CalledMasked c e) :
    ∃ c', e.run.run c = .ok () c' ∧ Alone c' := by
  cases e with
  | call chars =>
      refine ⟨_, rfl, h.console, h.onlyIrqs hl, ?_, nofun⟩
      intro k rest hs
      cases hs
      exact ⟨hm h.console, rfl, nofun, h.free hl, nofun⟩
  | step =>
      obtain ⟨k, rest, hs⟩ := exists_of_inKputs hl
      exact h.step hs
  | interrupt gate =>
      have hk := h.not_inKputs hl
      exact ⟨_, rfl, ((h.onlyIrqs hk).cons _).alone h.console (h.free hk)⟩
  | iret =>
      obtain ⟨eflags, rest, hs⟩ := exists_of_inIrq hl
      have hk : c.inKputs = false := by
        rw [Cpu.inKputs, hs]
      have hbelow : OnlyIrqs rest := by
        have hbelow := h.below
        rw [hs] at hbelow
        exact hbelow
      refine ⟨{ c with eflags := eflags, stack := rest }, ?_, ?_⟩
      · simp [CpuEvent.run, hs]
      · exact hbelow.alone h.console (h.free hk)
  | load eflags =>
      have hstack : c.stack = [] := hl
      have hk : c.inKputs = false := by
        rw [Cpu.inKputs, hstack]
      have hirqs := h.onlyIrqs hk
      refine ⟨{ c with eflags := eflags }, rfl, ?_⟩
      exact OnlyIrqs.alone hirqs h.console (h.free hk)

theorem masked_invariant :
    (cpuRun.restrict CalledMasked).Invariant fun c => Silent c ∨ Alone c := by
  refine ⟨?_, ?_⟩
  · intro c ⟨hstack, hlock⟩
    have hirqs : OnlyIrqs c.stack := by
      intro k hk
      rw [hstack] at hk
      cases hk
    cases hc : c.console with
    | false => exact .inl ⟨hc, fun k hk => absurd hk (hirqs k)⟩
    | true => exact .inr (hirqs.alone hc hlock)
  · intro c e hI ⟨hl, hm⟩
    rcases hI with hI | hI
    · obtain ⟨c', hrun, hI'⟩ := silent_event hI hl
      exact ⟨c', hrun, .inl hI'⟩
    · obtain ⟨c', hrun, hI'⟩ := alone_event hI hl hm
      exact ⟨c', hrun, .inr hI'⟩

/-- In every run that calls `kputs` with interrupts off, printing is safe, and no
instruction of it panics. -/
theorem irqSafe_of_calledMasked {c : Cpu} (h : (cpuRun.restrict CalledMasked).Reachable c) :
    IrqSafe c ∧ (cpuRun.restrict CalledMasked).Returns c := by
  have hI := Machine.reachable_of_inv masked_invariant h
  refine ⟨?_, masked_invariant.returns hI⟩
  rcases hI with hI | hI
  · exact hI.irqSafe
  · exact hI.irqSafe

/-! ## Two runs -/

/-- A processor in the kernel's code, with a console and the lock free. -/
def idleCpu (eflags : BitVec 32) : Cpu := ⟨0x80100000, true, eflags, .empty, []⟩

theorem idleCpu_init (eflags : BitVec 32) : cpuRun.init (idleCpu eflags) := ⟨rfl, rfl⟩

/-- A call with interrupts off, up to where it holds the lock. -/
theorem irqSafe_of_calledMasked_call : ∃ c k, (cpuRun.restrict CalledMasked).Reachable c ∧
    c.stack = [.kputs k] ∧ k.pc.holds = true ∧ IrqSafe c ∧
    (cpuRun.restrict CalledMasked).Returns c := by
  have hstart : (cpuRun.restrict CalledMasked).Reachable (idleCpu 0x2) :=
    .init (idleCpu_init _)
  obtain ⟨c, hreach, hs⟩ := hstart.sees [.call 1, .step, .step, .step, .step, .step] Cpu.stack
    [.kputs ⟨.puts 1, 1, 0x2, 0x2⟩] (by decide +kernel) (by decide +kernel)
  obtain ⟨hsafe, hreturns⟩ := irqSafe_of_calledMasked hreach
  exact ⟨c, _, hreach, hs, rfl, hsafe, hreturns⟩

/-- A call with interrupts on: an interrupt comes when the lock is taken, and its
code prints. -/
def printInPrint : List CpuEvent :=
  [.call 1, .step, .step, .step, .step, .step, .interrupt .interrupt, .call 1, .step, .step]

/-- The interrupt calls `spin_lock` on the lock its own processor holds, and
panics. -/
theorem kputs_interrupted : ∃ c c', cpuRun.Reachable c ∧ ¬ IrqSafe c ∧
    cpuRun.after [.step] c = some c' ∧
    stopped (cpuRun.step .step) c' = some (.panic "already acquired!\n" []) := by
  have hview : (cpuRun.after printInPrint (idleCpu 0x202)) = some
      { idleCpu 0x2 with
        lock := ⟨1, 0x80100000⟩
        stack := [.kputs ⟨.lock .test, 1, 0x2, 0x2⟩, .irq 0x202,
          .kputs ⟨.puts 1, 1, 0x202, 0x202⟩] } := by
    decide +kernel
  have hstart : cpuRun.Reachable (idleCpu 0x202) := .init (idleCpu_init _)
  refine ⟨_, _, hstart.after (by decide +kernel) hview, ?_, rfl, by decide +kernel⟩
  intro h
  have hfree := h.once _ _ rfl rfl ⟨.puts 1, 1, 0x202, 0x202⟩ (by decide)
  cases hfree

end Aim.Kern
