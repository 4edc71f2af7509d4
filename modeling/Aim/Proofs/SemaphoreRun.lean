import Aim.Kern.Semaphore
import Aim.Lib.Turns

/-!
# A semaphore loses and invents nothing

The processors take turns at the spin lock of the semaphore, and the one whose
turn it is determines all of its words: the lock by how far it has got with
taking it or giving it back (`Grip`), and the value by what it has already
counted of its own call (`change`) beside the calls that have come to their end
(`level`). One lemma for each access shows this kept.

For the value not to go round, an increment has to be one of the calls that have
not come to their end. There are as many of these as there are processors in one,
which is what `AtMost` says of them.
-/

namespace Aim.Kern

open Aim.Lib

/-! ## What is known of the words -/

/-- How far a processor has got hold of the lock. -/
inductive Grip where
  | out
  | taken
  | noted
  | forgotten

def LockPc.grip : LockPc → Grip
  | .record => .taken
  | .test | .owner | .xchg => .out

def UnlockPc.grip : UnlockPc → Grip
  | .clear => .forgotten
  | .test | .forget => .noted

def Grip.words (me : Nat) : Grip → SpinLock
  | .out => .empty
  | .taken | .forgotten => ⟨1, 0⟩
  | .noted => ⟨1, me⟩

def SemPc.grip : SemPc → Grip
  | .idle => .out
  | .decLock pc | .incLock pc => pc.grip
  | .decUnlock pc | .decRetry pc | .incUnlock pc => pc.grip
  | .decTest | .decRead | .decWrite _ | .incRead | .incWrite _ => .noted

/-- What a call has changed the value by and is not yet counted for. -/
def SemPc.change : SemPc → Int
  | .decUnlock _ => -1
  | .incUnlock _ => 1
  | _ => 0

/-- What has been read is still there, and a decrement has seen that it can go on. -/
def SemPc.Fits (val : Int) : SemPc → Prop
  | .decRead => 0 < val
  | .decWrite x => x = val ∧ 0 < val
  | .incWrite x => x = val
  | _ => True

def SemPc.Inside (pc : SemPc) : Prop := pc.grip ≠ .out

def SemPc.Incrementing : SemPc → Prop
  | .incLock _ | .incRead | .incWrite _ | .incUnlock _ => True
  | _ => False

/-- The value that the calls which have come to their end make. -/
def SemState.level {ι : Type} (v : Int) (s : SemState ι) : Int := v + s.incsDone - s.decsDone

theorem SemState.level_le {ι : Type} (v : Int) (s : SemState ι) : s.level v ≤ v + s.incsDone := by
  rw [SemState.level]
  omega

/-- The semaphore `w.1` at the level `w.2` while no processor has the lock. -/
structure SemFree (w : Semaphore × Int) : Prop where
  lock : w.1.spinlock = .empty
  val : w.1.val = w.2
  nonneg : 0 ≤ w.1.val

variable {ι : Type} {v : Int}

/-- The same while the processor `i` has it. -/
structure SemHeld (P : Percpus ι) (i : ι) (pc : SemPc) (w : Semaphore × Int) : Prop where
  lock : w.1.spinlock = pc.grip.words (P.percpu i)
  val : w.1.val = w.2 + pc.change
  nonneg : 0 ≤ w.1.val
  level : 0 ≤ w.2
  fits : pc.Fits w.1.val

structure SemInv (P : Percpus ι) (v : Int) (s : SemState ι) : Prop where
  owned : OneInside SemPc.Inside SemFree (SemHeld P) s.pc (s.sem, s.level v)
  calls : AtMost SemPc.Incrementing (s.incs - s.incsDone) s.pc
  done_le : s.incsDone ≤ s.incs
  few : v + s.incs < 2 ^ 31

theorem semInv_start (P : Percpus ι) (h₀ : 0 ≤ v) (h : v < 2 ^ 31) :
    SemInv P v (.start ι v) where
  owned := by
    refine .of_free (fun _ hin => hin rfl) ⟨rfl, ?_, h₀⟩
    simp [SemState.start, SemState.level, semaphoreInit]
  calls := .of_none fun _ => id
  done_le := le_rfl
  few := by
    simpa [SemState.start] using h

section Words

variable {P : Percpus ι} {v : Int} {s : SemState ι} {i : ι} {pc : SemPc}

theorem words_locked (me : Nat) {g : Grip} (h : g ≠ .out) : (g.words me).locked = 1 := by
  cases g with
  | out => exact absurd rfl h
  | taken | noted | forgotten => rfl

theorem words_percpu (me : Nat) (g : Grip) :
    (g.words me).percpu = 0 ∨ (g.words me).percpu = me := by
  cases g with
  | out | taken | forgotten => exact .inl rfl
  | noted => exact .inr rfl

/-- The processor that is inside knows all the words. -/
theorem SemInv.mine (h : SemInv P v s) (hpc : s.pc i = pc) (hin : pc.Inside) :
    (∀ j, j ≠ i → ¬ (s.pc j).Inside) ∧ SemHeld P i pc (s.sem, s.level v) := by
  subst hpc
  exact h.owned.held i hin

theorem SemInv.all_out (h : SemInv P v s) (hl : s.sem.spinlock.locked = 0) :
    (∀ j, ¬ (s.pc j).Inside) ∧ SemFree (s.sem, s.level v) := by
  refine h.owned.all_out fun j hin hheld => ?_
  have hone := words_locked (P.percpu j) hin
  rw [← hheld.lock] at hone
  exact absurd (hl.symm.trans hone) Nat.zero_ne_one

theorem SemInv.locked_eq (h : SemInv P v s) (hl : s.sem.spinlock.locked ≠ 0) :
    s.sem.spinlock.locked = 1 := by
  rcases h.owned.cases with hfree | ⟨j, hin, hheld⟩
  · exact absurd (congrArg SpinLock.locked hfree.lock) hl
  · rw [hheld.lock]
    exact words_locked _ hin

/-- A processor that does not have the lock never sees itself noted there. -/
theorem SemInv.not_mine (h : SemInv P v s) (hout : ¬ (s.pc i).Inside) :
    s.sem.spinlock.percpu ≠ P.percpu i := by
  rcases h.owned.cases with hfree | ⟨j, hin, hheld⟩
  · rw [hfree.lock]
    exact (P.percpu_ne i).symm
  · rw [hheld.lock]
    rcases words_percpu (P.percpu j) (s.pc j).grip with hzero | hj
    · rw [hzero]
      exact (P.percpu_ne i).symm
    · rw [hj]
      intro heq
      obtain rfl := P.percpu_inj heq
      exact hout hin

end Words

/-! ## The ways to move on -/

section Moves

variable [DecidableEq ι] {P : Percpus ι} {v : Int} {s : SemState ι} {i : ι} {pc q : SemPc}

/-- The access `x` does not panic, and keeps what is known. -/
def Goes (P : Percpus ι) (v : Int) (s : SemState ι) (x : EStateM Stop (SemState ι) Unit) : Prop :=
  ∃ s', x.run s = .ok () s' ∧ SemInv P v s'

theorem SemInv.watch (h : SemInv P v s) (hi : ¬ (s.pc i).Inside) (hq : ¬ q.Inside)
    (hinc : q.Incrementing → (s.pc i).Incrementing) : SemInv P v (s.goto i q) where
  owned := h.owned.watch hi hq
  calls := h.calls.stay hinc
  done_le := h.done_le
  few := h.few

theorem SemInv.advance (h : SemInv P v s) (sem : Semaphore)
    (hothers : ∀ j, j ≠ i → ¬ (s.pc j).Inside) (hq : q.Inside)
    (hinc : q.Incrementing → (s.pc i).Incrementing) (hheld : SemHeld P i q (sem, s.level v)) :
    SemInv P v ({ s with sem := sem }.goto i q) where
  owned := .advance hothers hq hheld
  calls := h.calls.stay hinc
  done_le := h.done_le
  few := h.few

/-- The processor that is noted in the lock reads, and nothing changes. -/
theorem SemInv.look (h : SemInv P v s) (hpc : s.pc i = pc) (hgrip : pc.grip = .noted)
    (hq : q.grip = .noted) (hchange : q.change = pc.change)
    (hinc : q.Incrementing → pc.Incrementing) (hfits : q.Fits s.sem.val) :
    SemInv P v (s.goto i q) := by
  have hnoted : ∀ {pc : SemPc}, pc.grip = .noted → pc.Inside := by
    intro pc hpc
    rw [SemPc.Inside, hpc]
    nofun
  obtain ⟨hothers, hheld⟩ := h.mine hpc (hnoted hgrip)
  refine h.advance s.sem hothers (hnoted hq) (hpc ▸ hinc) ?_
  refine ⟨?_, ?_, hheld.nonneg, hheld.level, hfits⟩
  · rw [hq, ← hgrip]
    exact hheld.lock
  · rw [hchange]
    exact hheld.val

end Moves

/-! ## The lock and the unlock -/

section Spin

variable [DecidableEq ι] {P : Percpus ι} {v : Int} {s : SemState ι} {i : ι} {l : SpinLock}
  {last : SemState ι → SemState ι} {wait : UnlockPc → SemPc}

omit [DecidableEq ι] in
theorem run_onSemLock {α : Type} {x : EStateM Stop SpinLock α} {a : α}
    (h : x.run s.sem.spinlock = .ok a l) : (onSemLock x).run s = .ok a (s.putLock l) :=
  run_zoom_ok h

/-- The positions in a `spin_lock`, and the one behind it: nothing has been read or
changed there. -/
structure LockPart (wait : LockPc → SemPc) (next : SemPc) : Prop where
  grip : ∀ pc, (wait pc).grip = pc.grip
  change : ∀ pc, (wait pc).change = 0
  fits : ∀ pc val, (wait pc).Fits val
  grip_next : next.grip = .noted
  change_next : next.change = 0
  fits_next : ∀ val, next.Fits val
  call : ∀ pc pc', (wait pc').Incrementing → (wait pc).Incrementing
  call_next : ∀ pc, next.Incrementing → (wait pc).Incrementing

theorem decLock_part : LockPart .decLock .decTest where
  grip _ := rfl
  change _ := rfl
  fits _ _ := trivial
  grip_next := rfl
  change_next := rfl
  fits_next _ := trivial
  call _ _ := id
  call_next _ := id

theorem incLock_part : LockPart .incLock .incRead where
  grip _ := rfl
  change _ := rfl
  fits _ _ := trivial
  grip_next := rfl
  change_next := rfl
  fits_next _ := trivial
  call _ _ := id
  call_next _ := id

theorem run_semLock {wait : LockPc → SemPc} {next : SemPc} {pc : LockPc} {r : Option LockPc}
    (hstep : (spinLockStep (P.percpu i) pc).run s.sem.spinlock = .ok r l) :
    (semLock P i wait next pc).run s = .ok () ((s.putLock l).goto i (r.elim next wait)) := by
  rw [semLock, run_bind_ok (run_onSemLock hstep)]
  cases r with
  | some pc => rfl
  | none => rfl

section Lock

variable {wait : LockPc → SemPc} {next : SemPc} {pc : LockPc}

theorem LockPart.not_inside (hw : LockPart wait next) (h : pc.grip = .out) :
    ¬ (wait pc).Inside := by
  rw [SemPc.Inside, hw.grip, h]
  simp

theorem LockPart.inside (hw : LockPart wait next) : (wait .record).Inside := by
  rw [SemPc.Inside, hw.grip]
  nofun

variable (h : SemInv P v s) (hw : LockPart wait next)

include h hw

/-- While the lock is not taken the accesses only look. -/
theorem SemInv.lock_look (hpc : s.pc i = wait pc) (hout : pc.grip = .out) (pc' : LockPc)
    (hout' : pc'.grip = .out) :
    SemInv P v (s.goto i (wait pc')) := by
  refine h.watch ?_ (hw.not_inside hout') ?_
  · rw [hpc]
    exact hw.not_inside hout
  · rw [hpc]
    exact hw.call pc pc'

theorem SemInv.lock_take (hpc : s.pc i = wait pc) (hl : s.sem.spinlock.locked = 0) :
    SemInv P v ((s.putLock { s.sem.spinlock with locked := 1 }).goto i (wait .record)) := by
  obtain ⟨hall, hfree⟩ := h.all_out hl
  have hempty : s.sem.spinlock = .empty := hfree.lock
  have hval : s.sem.val = s.level v := hfree.val
  have hnonneg : 0 ≤ s.sem.val := hfree.nonneg
  rw [hempty]
  refine h.advance { s.sem with spinlock := ⟨1, 0⟩ } (fun j _ => hall j) hw.inside ?_ ?_
  · rw [hpc]
    exact hw.call _ _
  · refine ⟨?_, ?_, hnonneg, hval ▸ hnonneg, hw.fits _ _⟩
    · rw [hw.grip]
      rfl
    · rw [hw.change, add_zero]
      exact hval

theorem SemInv.lock_note (hpc : s.pc i = wait .record) :
    SemInv P v ((s.putLock { s.sem.spinlock with percpu := P.percpu i }).goto i next) := by
  obtain ⟨hothers, hheld⟩ := h.mine hpc hw.inside
  have hlock : s.sem.spinlock = ⟨1, 0⟩ := by
    rw [show s.sem.spinlock = _ from hheld.lock, hw.grip]
    rfl
  have hval : s.sem.val = s.level v + 0 := by
    rw [← hw.change .record]
    exact hheld.val
  rw [hlock]
  refine h.advance { s.sem with spinlock := ⟨1, P.percpu i⟩ } hothers ?_ ?_
    ⟨?_, ?_, hheld.nonneg, hheld.level, hw.fits_next _⟩
  · rw [SemPc.Inside, hw.grip_next]
    nofun
  · rw [hpc]
    exact hw.call_next _
  · rw [hw.grip_next]
    rfl
  · rw [hw.change_next]
    exact hval

theorem SemInv.lock (hpc : s.pc i = wait pc) :
    Goes P v s (semLock P i wait next pc) := by
  cases pc with
  | test =>
      refine ⟨_, run_semLock (run_spinLock_test _ _), ?_⟩
      by_cases hl : s.sem.spinlock.locked = 0
      · rw [if_neg (not_not.mpr hl)]
        exact h.lock_look hw hpc rfl .xchg rfl
      · rw [if_pos hl]
        exact h.lock_look hw hpc rfl .owner rfl
  | owner =>
      have hout : ¬ (s.pc i).Inside := by
        rw [hpc]
        exact hw.not_inside rfl
      exact ⟨_, run_semLock (run_spinLock_owner (h.not_mine hout)),
        h.lock_look hw hpc rfl .xchg rfl⟩
  | xchg =>
      refine ⟨_, run_semLock (run_spinLock_xchg _ _), ?_⟩
      by_cases hl : s.sem.spinlock.locked = 0
      · rw [if_neg (not_not.mpr hl)]
        exact h.lock_take hw hpc hl
      · -- The word is 1 already.
        rw [if_pos hl, ← h.locked_eq hl]
        exact h.lock_look hw hpc rfl .xchg rfl
  | record => exact ⟨_, run_semLock rfl, h.lock_note hw hpc⟩

end Lock

/-- The positions in a `spin_unlock`. -/
structure UnlockPart (wait : UnlockPc → SemPc) (change : Int) : Prop where
  grip : ∀ pc, (wait pc).grip = pc.grip
  change : ∀ pc, (wait pc).change = change
  fits : ∀ pc val, (wait pc).Fits val
  call : ∀ pc pc', (wait pc').Incrementing → (wait pc).Incrementing

theorem decUnlock_part : UnlockPart .decUnlock (-1) where
  grip _ := rfl
  change _ := rfl
  fits _ _ := trivial
  call _ _ := id

theorem decRetry_part : UnlockPart .decRetry 0 where
  grip _ := rfl
  change _ := rfl
  fits _ _ := trivial
  call _ _ := id

theorem incUnlock_part : UnlockPart .incUnlock 1 where
  grip _ := rfl
  change _ := rfl
  fits _ _ := trivial
  call _ _ := id

theorem run_semUnlock {pc pc' : UnlockPc}
    (hstep : (spinUnlockStep pc).run s.sem.spinlock = .ok (some pc') l) :
    (semUnlock i wait last pc).run s = .ok () ((s.putLock l).goto i (wait pc')) := by
  rw [semUnlock, run_bind_ok (run_onSemLock hstep)]
  rfl

theorem run_semUnlock_clear :
    (semUnlock i wait last .clear).run s =
      .ok () (last (s.putLock { s.sem.spinlock with locked := 0 })) := by
  have hstep : (spinUnlockStep .clear).run s.sem.spinlock =
      .ok none { s.sem.spinlock with locked := 0 } := rfl
  rw [semUnlock, run_bind_ok (run_onSemLock hstep)]
  rfl

/-- What is left to show of an unlock is what its last access makes, with the lock
free and the value counted. -/
theorem SemInv.unlock {change : Int}
    {pc : UnlockPc} (h : SemInv P v s) (hw : UnlockPart wait change) (hpc : s.pc i = wait pc)
    (hlast : (∀ j, j ≠ i → ¬ (s.pc j).Inside) →
      SemFree (⟨.empty, s.sem.val⟩, s.level v + change) → SemInv P v (last (s.putLock .empty))) :
    Goes P v s (semUnlock i wait last pc) := by
  have hin : ∀ pc, (wait pc).Inside := by
    intro pc
    rw [SemPc.Inside, hw.grip]
    cases pc <;> nofun
  obtain ⟨hothers, hheld⟩ := h.mine hpc (hin pc)
  have hlock : s.sem.spinlock = pc.grip.words (P.percpu i) := by
    rw [← hw.grip]
    exact hheld.lock
  have hval : s.sem.val = s.level v + change := by
    rw [← hw.change pc]
    exact hheld.val
  have hgo : ∀ pc' l, l = pc'.grip.words (P.percpu i) →
      SemInv P v ((s.putLock l).goto i (wait pc')) := by
    intro pc' l hl
    refine h.advance { s.sem with spinlock := l } hothers (hin pc') ?_ ?_
    · rw [hpc]
      exact hw.call pc pc'
    · refine ⟨?_, ?_, hheld.nonneg, hheld.level, hw.fits _ _⟩
      · rw [hw.grip]
        exact hl
      · rw [hw.change]
        exact hval
  cases pc with
  | test =>
      have hstep : (spinUnlockStep .test).run s.sem.spinlock =
          .ok (some .forget) s.sem.spinlock := by
        rw [hlock]
        rfl
      exact ⟨_, run_semUnlock hstep, hgo .forget _ hlock⟩
  | forget =>
      refine ⟨_, run_semUnlock rfl, hgo .clear _ ?_⟩
      rw [hlock]
      rfl
  | clear =>
      refine ⟨_, run_semUnlock_clear, ?_⟩
      rw [hlock]
      exact hlast hothers ⟨rfl, hval, hheld.nonneg⟩

end Spin

/-! ## The accesses -/

section Access

variable [DecidableEq ι] {P : Percpus ι} {v : Int} {s : SemState ι} {i : ι} (h : SemInv P v s)

include h

theorem SemInv.endDec (hothers : ∀ j, j ≠ i → ¬ (s.pc j).Inside)
    (hfree : SemFree (⟨.empty, s.sem.val⟩, s.level v + -1)) :
    SemInv P v ((s.putLock .empty).endDec i) where
  owned := by
    refine .leave hothers (not_not.mpr rfl) ⟨rfl, ?_, hfree.nonneg⟩
    have hval : s.sem.val = s.level v + -1 := hfree.val
    show s.sem.val = v + s.incsDone - (s.decsDone + 1 : Nat)
    rw [hval, SemState.level]
    omega
  calls := h.calls.stay False.elim
  done_le := h.done_le
  few := h.few

theorem SemInv.endInc (hinc : (s.pc i).Incrementing) (hothers : ∀ j, j ≠ i → ¬ (s.pc j).Inside)
    (hfree : SemFree (⟨.empty, s.sem.val⟩, s.level v + 1)) :
    SemInv P v ((s.putLock .empty).endInc i) where
  owned := by
    refine .leave hothers (not_not.mpr rfl) ⟨rfl, ?_, hfree.nonneg⟩
    have hval : s.sem.val = s.level v + 1 := hfree.val
    show s.sem.val = v + (s.incsDone + 1 : Nat) - s.decsDone
    rw [hval, SemState.level]
    omega
  calls := h.calls.stop hinc id
  done_le := by
    have hleft := h.calls.pos_of_mem hinc
    show s.incsDone + 1 ≤ s.incs
    omega
  few := h.few

theorem SemInv.retry (hothers : ∀ j, j ≠ i → ¬ (s.pc j).Inside)
    (hfree : SemFree (⟨.empty, s.sem.val⟩, s.level v + 0)) :
    SemInv P v ((s.putLock .empty).goto i (.decLock .test)) where
  owned := by
    rw [add_zero] at hfree
    exact .leave hothers (not_not.mpr rfl) hfree
  calls := h.calls.stay False.elim
  done_le := h.done_le
  few := h.few

theorem SemInv.decTest (hpc : s.pc i = .decTest) :
    Goes P v s (semAccess P i) := by
  have hrun : (semAccess P i).run s =
      .ok () (s.goto i (if 0 < s.sem.val then .decRead else .decRetry .test)) := by
    simp [semAccess, hpc]
  refine ⟨_, hrun, ?_⟩
  by_cases hpos : 0 < s.sem.val
  · rw [if_pos hpos]
    exact h.look hpc rfl rfl rfl id hpos
  · rw [if_neg hpos]
    exact h.look hpc rfl rfl rfl id trivial

theorem SemInv.decRead (hpc : s.pc i = .decRead) :
    Goes P v s (semAccess P i) := by
  have hpos : 0 < s.sem.val := (h.mine hpc nofun).2.fits
  have hrun : (semAccess P i).run s = .ok () (s.goto i (.decWrite s.sem.val)) := by
    simp [semAccess, hpc]
  exact ⟨_, hrun, h.look hpc rfl rfl rfl id ⟨rfl, hpos⟩⟩

theorem SemInv.incRead (hpc : s.pc i = .incRead) :
    Goes P v s (semAccess P i) := by
  have hrun : (semAccess P i).run s = .ok () (s.goto i (.incWrite s.sem.val)) := by
    simp [semAccess, hpc]
  exact ⟨_, hrun, h.look hpc rfl rfl rfl id rfl⟩

theorem SemInv.decWrite {x : Int} (hpc : s.pc i = .decWrite x) :
    Goes P v s (semAccess P i) := by
  obtain ⟨hothers, hheld⟩ := h.mine hpc nofun
  obtain ⟨rfl, hpos⟩ : x = s.sem.val ∧ 0 < s.sem.val := hheld.fits
  have hval : s.sem.val = s.level v + 0 := hheld.val
  have hle := s.level_le v
  have hdone := h.done_le
  have hfew := h.few
  have hint : asInt (s.sem.val - 1) = s.sem.val - 1 := asInt_of_small (by omega) (by omega)
  have hrun : (semAccess P i).run s =
      .ok () ((s.putVal (s.sem.val - 1)).goto i (.decUnlock .test)) := by
    simp [semAccess, hpc, hint]
  refine ⟨_, hrun, h.advance { s.sem with val := s.sem.val - 1 } hothers nofun False.elim
    ⟨hheld.lock, ?_, ?_, hheld.level, trivial⟩⟩
  · show s.sem.val - 1 = s.level v + -1
    omega
  · show 0 ≤ s.sem.val - 1
    omega

theorem SemInv.incWrite {x : Int} (hpc : s.pc i = .incWrite x) :
    Goes P v s (semAccess P i) := by
  obtain ⟨hothers, hheld⟩ := h.mine hpc nofun
  obtain rfl : x = s.sem.val := hheld.fits
  have hinc : (s.pc i).Incrementing := by
    rw [hpc]
    trivial
  have hval : s.sem.val = s.level v + 0 := hheld.val
  have hnonneg : 0 ≤ s.sem.val := hheld.nonneg
  have hle := s.level_le v
  have hfew := h.few
  -- This call is not one of those that have come to their end.
  have hleft := h.calls.pos_of_mem hinc
  have hint : asInt (s.sem.val + 1) = s.sem.val + 1 := asInt_of_small (by omega) (by omega)
  have hrun : (semAccess P i).run s =
      .ok () ((s.putVal (s.sem.val + 1)).goto i (.incUnlock .test)) := by
    simp [semAccess, hpc, hint]
  refine ⟨_, hrun, h.advance { s.sem with val := s.sem.val + 1 } hothers nofun (fun _ => hinc)
    ⟨hheld.lock, ?_, ?_, hheld.level, trivial⟩⟩
  · show s.sem.val + 1 = s.level v + 1
    omega
  · show 0 ≤ s.sem.val + 1
    omega

theorem SemInv.access (hpc : s.pc i ≠ .idle) : Goes P v s (semAccess P i) := by
  have hstep : ∀ {x : EStateM Stop (SemState ι) Unit}, (semAccess P i).run s = x.run s →
      Goes P v s x → Goes P v s (semAccess P i) := by
    rintro x hrun ⟨s', hx, hI⟩
    exact ⟨s', hrun.trans hx, hI⟩
  cases hcase : s.pc i with
  | idle => exact absurd hcase hpc
  | decTest => exact h.decTest hcase
  | decRead => exact h.decRead hcase
  | decWrite x => exact h.decWrite hcase
  | incRead => exact h.incRead hcase
  | incWrite x => exact h.incWrite hcase
  | decLock pc =>
      refine hstep ?_ (h.lock decLock_part hcase)
      simp [semAccess, hcase]
  | incLock pc =>
      refine hstep ?_ (h.lock incLock_part hcase)
      simp [semAccess, hcase]
  | decUnlock pc =>
      refine hstep ?_ (h.unlock decUnlock_part hcase h.endDec)
      simp [semAccess, hcase]
  | decRetry pc =>
      refine hstep (x := semUnlock i .decRetry (fun s => s.goto i (.decLock .test)) pc) ?_
        (h.unlock decRetry_part hcase h.retry)
      simp [semAccess, hcase]
  | incUnlock pc =>
      refine hstep ?_ (h.unlock incUnlock_part hcase (h.endInc ?_))
      · simp [semAccess, hcase]
      · rw [hcase]
        trivial

end Access

/-! ## Whole runs -/

variable [DecidableEq ι]

/-- There is one more `semaphore_inc` only while the calls of it and the first value
are together below `2 ^ 31`. -/
def FewIncs (v : Int) (s : SemState ι) : SemEvent ι → Prop
  | .inc _ => v + (s.incs + 1 : Nat) < 2 ^ 31
  | .dec _ | .access _ => True

instance FewIncs.decidable (v : Int) (s : SemState ι) :
    (e : SemEvent ι) → Decidable (FewIncs v s e)
  | .inc _ => inferInstanceAs (Decidable (_ < _))
  | .dec _ => inferInstanceAs (Decidable True)
  | .access _ => inferInstanceAs (Decidable True)

theorem semInv_invariant (P : Percpus ι) (h₀ : 0 ≤ v) (h : v < 2 ^ 31) :
    ((semRun P v).restrict (FewIncs v)).Invariant (SemInv P v) := by
  refine ⟨?_, ?_⟩
  · intro s hs
    obtain rfl : s = .start ι v := hs
    exact semInv_start P h₀ h
  · intro s e hI ⟨hl, hfew⟩
    cases e with
    | inc i =>
        have hidle : s.pc i = .idle := hl
        refine ⟨_, rfl, ?_, ?_, ?_, hfew⟩
        · refine hI.owned.watch ?_ (not_not.mpr rfl)
          rw [hidle]
          exact not_not.mpr rfl
        · have hcalls := hI.calls.start (i := i) (q := .incLock .test)
          rwa [← Nat.sub_add_comm hI.done_le] at hcalls
        · exact Nat.le_succ_of_le hI.done_le
    | dec i =>
        have hidle : s.pc i = .idle := hl
        refine ⟨_, rfl, hI.watch ?_ (not_not.mpr rfl) False.elim⟩
        rw [hidle]
        exact not_not.mpr rfl
    | access i => exact hI.access hl

/-! ## What a semaphore is for -/

structure SemSafe (v : Int) (s : SemState ι) : Prop where
  nonneg : 0 ≤ s.sem.val
  conserved : s.sem.spinlock.locked = 0 → s.sem.val = v + s.incsDone - s.decsDone
  decsDone_le : s.decsDone ≤ v + s.incsDone
  incsDone_le : s.incsDone ≤ s.incs

omit [DecidableEq ι] in
theorem SemInv.semSafe {P : Percpus ι} {s : SemState ι} (h : SemInv P v s) : SemSafe v s := by
  have hlevel : 0 ≤ s.sem.val ∧ 0 ≤ s.level v := by
    rcases h.owned.cases with hfree | ⟨j, _, hheld⟩
    · have hval : s.sem.val = s.level v := hfree.val
      exact ⟨hfree.nonneg, hval ▸ hfree.nonneg⟩
    · exact ⟨hheld.nonneg, hheld.level⟩
  refine ⟨hlevel.1, fun hl => (h.all_out hl).2.val, ?_, h.done_le⟩
  have hpos := hlevel.2
  rw [SemState.level] at hpos
  omega

/-- In every run of the processors with fewer than `2 ^ 31 - v` increments, nothing
is lost and nothing invented, and no access panics. -/
theorem semaphore_conserves {P : Percpus ι} {v : Int} {s : SemState ι} (h₀ : 0 ≤ v)
    (hv : v < 2 ^ 31) (h : ((semRun P v).restrict (FewIncs v)).Reachable s) :
    SemSafe v s ∧ ((semRun P v).restrict (FewIncs v)).Returns s := by
  have hinv := semInv_invariant P h₀ hv
  have hI := Machine.reachable_of_inv hinv h
  exact ⟨hI.semSafe, hinv.returns hI⟩

/-- From the value 1: a decrement goes through, a second one finds 0 and tries again
until the first processor, which had to wait for it, has done its increment. -/
def handover : List (SemEvent Bool) :=
  .dec false :: List.replicate 9 (.access false) ++ .dec true :: List.replicate 4 (.access true) ++
    .inc false :: List.replicate 3 (.access false) ++ List.replicate 3 (.access true) ++
    List.replicate 7 (.access false) ++ List.replicate 9 (.access true)

theorem semaphore_conserves_handover :
    ∃ s, ((semRun twoPercpus 1).restrict (FewIncs 1)).Reachable s ∧
      s.sem = ⟨.empty, 0⟩ ∧ s.incsDone = 1 ∧ s.decsDone = 2 ∧
      SemSafe 1 s ∧ ((semRun twoPercpus 1).restrict (FewIncs 1)).Returns s := by
  have hstart : ((semRun twoPercpus 1).restrict (FewIncs 1)).Reachable (.start Bool 1) :=
    .init rfl
  obtain ⟨s, hreach, hs⟩ := hstart.sees handover (fun s => (s.sem, s.incsDone, s.decsDone))
    (⟨.empty, 0⟩, 1, 2) (by decide +kernel) (by decide +kernel)
  simp only [Prod.mk.injEq] at hs
  obtain ⟨hsem, hincs, hdecs⟩ := hs
  obtain ⟨hsafe, hreturns⟩ := semaphore_conserves (by decide) (by decide) hreach
  exact ⟨s, hreach, hsem, hincs, hdecs, hsafe, hreturns⟩

end Aim.Kern
