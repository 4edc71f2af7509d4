import Aim.Kern.RecLock
import Aim.Lib.Turns

/-!
# The recursive lock keeps the processors apart

A contender reads `holder` without the lock while the owner writes `holder`,
`depth` and the words of the spin lock one after the other. What keeps this
right is that every word is a function of where the owner is: a processor is in
one of six stages, at most one is not `out`, and its stage gives all the words
(`Settled`). The contenders' reads then have only one outcome each.

`depth` is an `int`, so the count is right as long as the nesting stays below
`2 ^ 31`. One more call and `depth` is negative (`recursive_lock_overflow`).
-/

namespace Aim.Kern

open Aim.Lib Function

variable {ι : Type}

/-! ## Stages -/

/-- How far a processor is with the lock. -/
inductive Stage where
  | out
  /-- The exchange has succeeded. -/
  | taken
  /-- `percpu` is set. -/
  | recorded
  /-- `holder` is set. -/
  | held
  /-- `holder` is reset. -/
  | freed
  /-- `percpu` is reset. -/
  | forgotten
  deriving DecidableEq

def RPc.stage : RPc → Nat → Stage
  | .idle, n | .lockHolder, n => if n = 0 then .out else .held
  | .lockSpin .record, _ => .taken
  | .lockSpin _, _ => .out
  | .lockOwn, _ => .recorded
  | .unlockSpin .clear, _ => .forgotten
  | .unlockSpin _, _ => .freed
  | _, _ => .held

/-- What a position says of the nesting and of the value that was read. -/
def RPc.Fits : RPc → Nat → Prop
  | .idle, _ | .unlockZero, _ => True
  | .lockHolder, n | .lockRead, n => n + 1 < 2 ^ 31
  | .lockSpin _, n | .lockOwn, n | .unlockFree, n | .unlockSpin _, n => n = 0
  | .lockWrite d, n => d = n ∧ n + 1 < 2 ^ 31
  | .unlockHolder, n | .unlockDepth, n | .unlockRead, n => 0 < n
  | .unlockWrite d, n => 0 < n ∧ d = n

def RState.stage (s : RState ι) (i : ι) : Stage := (s.pc i).stage (s.nest i)

/-- The words of the lock as a processor leaves them at a stage and nesting. -/
def Stage.words (P : Cpus ι) (i : ι) (n : Nat) : Stage → RLock
  | .out => .empty
  | .taken | .forgotten => ⟨⟨1, 0⟩, -1, n⟩
  | .recorded | .freed => ⟨⟨1, P.percpu i⟩, -1, n⟩
  | .held => ⟨⟨1, P.percpu i⟩, P.cpuid i, n⟩

/-- All that holds between two accesses. -/
structure Settled (P : Cpus ι) (s : RState ι) : Prop where
  fits : ∀ i, (s.pc i).Fits (s.nest i)
  small : ∀ i, s.nest i < 2 ^ 31
  free : (∀ i, s.stage i = .out) → s.rlock = .empty
  owned : ∀ i, s.stage i ≠ .out →
    (∀ j, j ≠ i → s.stage j = .out) ∧ s.rlock = (s.stage i).words P i (s.nest i)

/-- The positions of `recursive_unlock` before it has undone a lock. -/
def RPc.undoing : RPc → Bool
  | .unlockHolder | .unlockDepth | .unlockRead | .unlockWrite _ => true
  | _ => false

/-- The processor `i` is between the end of its outermost `recursive_lock` and
the start of its outermost `recursive_unlock`. -/
def RState.Inside (s : RState ι) (i : ι) : Prop :=
  0 < s.nest i ∧ ((s.pc i).undoing = true → 1 < s.nest i)

/-- The calls that leave the nesting within an `int`. -/
def Shallow (s : RState ι) : REvent ι → Prop
  | .lock i => s.nest i + 1 < 2 ^ 31
  | _ => True

instance Shallow.decidable (s : RState ι) : (e : REvent ι) → Decidable (Shallow s e)
  | .lock _ => inferInstanceAs (Decidable (_ < _))
  | .unlock _ | .access _ => inferInstanceAs (Decidable True)

/-! ## What the words tell a processor -/

section Words

variable {P : Cpus ι} {s : RState ι} {i : ι} {pc : RPc}

/-- Either nobody is at the lock, or one processor is. -/
theorem Settled.owner (h : Settled P s) : ((∀ j, s.stage j = .out) ∧ s.rlock = .empty) ∨
    ∃ o, s.stage o ≠ .out ∧ s.rlock = (s.stage o).words P o (s.nest o) := by
  by_cases hall : ∀ j, s.stage j = .out
  · exact .inl ⟨hall, h.free hall⟩
  · obtain ⟨o, ho⟩ := not_forall.mp hall
    exact .inr ⟨o, ho, (h.owned o ho).2⟩

/-- The reads of a contender: the lock is not marked as its own. -/
theorem Settled.not_mine (h : Settled P s) (hi : s.stage i = .out) :
    s.rlock.holder ≠ P.cpuid i ∧ s.rlock.lock.percpu ≠ P.percpu i := by
  have hnull := (P.percpu_ne i).symm
  have hfree : (-1 : Int) ≠ P.cpuid i := by omega
  rcases h.owner with ⟨_, hr⟩ | ⟨o, ho, hr⟩
  · rw [hr]
    exact ⟨hfree, hnull⟩
  · have hoi : o ≠ i := by
      rintro rfl
      exact ho hi
    have hid : (P.cpuid o : Int) ≠ P.cpuid i := fun heq =>
      hoi (P.cpuid_inj (Int.ofNat_inj.mp heq))
    have hptr : P.percpu o ≠ P.percpu i := fun heq => hoi (P.percpu_inj heq)
    rw [hr]
    cases hst : s.stage o with
    | out => exact absurd hst ho
    | taken | forgotten => exact ⟨hfree, hnull⟩
    | recorded | freed => exact ⟨hfree, hptr⟩
    | held => exact ⟨hid, hptr⟩

/-- The exchange of a contender succeeds only where nobody is at the lock. -/
theorem Settled.all_out (h : Settled P s) (hl : s.rlock.lock.locked = 0) :
    (∀ j, s.stage j = .out) ∧ s.rlock = .empty := by
  rcases h.owner with hfree | ⟨o, ho, hr⟩
  · exact hfree
  · rw [hr] at hl
    cases hst : s.stage o with
    | out => exact absurd hst ho
    | taken | forgotten | recorded | freed | held =>
        rw [hst] at hl
        cases hl

theorem Settled.locked_eq (h : Settled P s) (hl : s.rlock.lock.locked ≠ 0) :
    s.rlock.lock.locked = 1 := by
  rcases h.owner with ⟨_, hr⟩ | ⟨o, ho, hr⟩
  · rw [hr] at hl
    exact absurd rfl hl
  · rw [hr]
    cases hst : s.stage o with
    | out => exact absurd hst ho
    | taken | forgotten | recorded | freed | held => rfl

theorem Settled.locked_eq_zero_iff (h : Settled P s) :
    s.rlock.lock.locked = 0 ↔ ∀ j, s.stage j = .out := by
  constructor
  · intro hl
    exact (h.all_out hl).1
  · intro hall
    rw [h.free hall]
    rfl

theorem Settled.mine (h : Settled P s) {st : Stage} (hpc : s.pc i = pc)
    (hst : pc.stage (s.nest i) = st) (hne : st ≠ .out) :
    (∀ j, j ≠ i → s.stage j = .out) ∧ s.rlock = st.words P i (s.nest i) := by
  have hstage : s.stage i = st := by
    rw [RState.stage, hpc]
    exact hst
  have howned := h.owned i (hstage ▸ hne)
  rw [hstage] at howned
  exact howned

theorem Settled.fitsAt (h : Settled P s) (hpc : s.pc i = pc) : pc.Fits (s.nest i) :=
  hpc ▸ h.fits i

/-- The reads of the owner, in the two words that are its own. -/
theorem holder_of_held (hr : s.rlock = Stage.held.words P i (s.nest i)) :
    s.rlock.holder = P.cpuid i := by
  rw [hr]
  rfl

theorem depth_of_held (hr : s.rlock = Stage.held.words P i (s.nest i)) :
    s.rlock.depth = s.nest i := by
  rw [hr]
  rfl

/-- Inside, `depth` and `holder` are set, and the lock is taken. -/
theorem Settled.inside (h : Settled P s) (hi : s.Inside i) : s.stage i = .held := by
  obtain ⟨hpos, _⟩ := hi
  have hne : s.nest i ≠ 0 := by omega
  rw [RState.stage]
  cases hpc : s.pc i with
  | idle => exact if_neg hne
  | lockHolder => exact if_neg hne
  | lockSpin pc =>
      exact absurd (h.fitsAt hpc) hne
  | lockOwn =>
      exact absurd (h.fitsAt hpc) hne
  | unlockSpin pc =>
      exact absurd (h.fitsAt hpc) hne
  | lockRead | lockWrite d | unlockHolder | unlockDepth | unlockRead | unlockWrite d
  | unlockZero | unlockFree => rfl

/-- Where a processor is at the lock, and how often it has it. -/
def RState.place (s : RState ι) (i : ι) : Stage × Nat := (s.stage i, s.nest i)

/-- The processors take turns at the lock. -/
theorem Settled.turns (h : Settled P s) : OneInside (fun q : Stage × Nat => q.1 ≠ .out)
    (· = RLock.empty) (fun i q r => r = q.1.words P i q.2) s.place s.rlock := by
  refine ⟨fun hout => h.free fun i => not_not.mp (hout i), fun i hi => ?_⟩
  obtain ⟨hothers, hr⟩ := h.owned i hi
  exact ⟨fun j hj => not_not.mpr (hothers j hj), hr⟩

theorem Settled.of_turns (hfits : ∀ i, (s.pc i).Fits (s.nest i)) (hsmall : ∀ i, s.nest i < 2 ^ 31)
    (h : OneInside (fun q : Stage × Nat => q.1 ≠ .out) (· = RLock.empty)
      (fun i q r => r = q.1.words P i q.2) s.place s.rlock) : Settled P s := by
  refine ⟨hfits, hsmall, fun hout => h.free fun i => not_not.mpr (hout i), fun i hi => ?_⟩
  obtain ⟨hothers, hr⟩ := h.held i hi
  exact ⟨fun j hj => not_not.mp (hothers j hj), hr⟩

theorem settled_start (P : Cpus ι) : Settled P (.start ι) := by
  refine ⟨fun _ => trivial, fun _ => Nat.two_pow_pos 31, fun _ => rfl, ?_⟩
  intro i hi
  exact absurd rfl hi

end Words

/-! ## Runs of the parts -/

section Parts

variable {s : RState ι}

theorem run_onSpin {α : Type} {x : EStateM Stop SpinLock α} {a : α} {l : SpinLock}
    (h : x.run s.rlock.lock = .ok a l) :
    (onSpin x).run s = .ok a { s with rlock := { s.rlock with lock := l } } :=
  run_zoom_ok h

theorem run_recursiveAssert {line : Int} {condition : String} {holds : Bool}
    (h : holds = true) : (recursiveAssert line condition holds).run s = .ok () s :=
  run_require h

end Parts

/-! ## What one processor may do -/

variable [DecidableEq ι]

/-- The state after the processor `i` has moved. -/
def RState.move (s : RState ι) (i : ι) (pc : RPc) (n : Nat) (r : RLock) : RState ι :=
  ⟨r, update s.pc i pc, update s.nest i n⟩

section Move

variable {P : Cpus ι} {s : RState ι} {i : ι} {pc : RPc} {n : Nat} {r : RLock}

@[simp] theorem stage_move_self : (s.move i pc n r).stage i = pc.stage n := by
  simp [RState.move, RState.stage]

theorem stage_move_of_ne {j : ι} (h : j ≠ i) : (s.move i pc n r).stage j = s.stage j := by
  simp [RState.move, RState.stage, h]

theorem fits_move (h : Settled P s) (hfits : pc.Fits n) (j : ι) :
    ((s.move i pc n r).pc j).Fits ((s.move i pc n r).nest j) := by
  by_cases hj : j = i
  · subst hj
    simpa [RState.move] using hfits
  · simpa [RState.move, hj] using h.fits j

theorem small_move (h : Settled P s) (hn : n < 2 ^ 31) (j : ι) :
    (s.move i pc n r).nest j < 2 ^ 31 := by
  by_cases hj : j = i
  · subst hj
    simpa [RState.move] using hn
  · simpa [RState.move, hj] using h.small j

theorem place_move : (s.move i pc n r).place = update s.place i (pc.stage n, n) := by
  funext j
  by_cases hj : j = i
  · subst hj
    simp [RState.place, RState.move, RState.stage]
  · simp [RState.place, RState.move, RState.stage, hj]

/-- A contender that only reads, or finds the lock taken. -/
theorem Settled.watch (h : Settled P s) (hi : s.stage i = .out) (hfits : pc.Fits n)
    (hn : n < 2 ^ 31) (hout : pc.stage n = .out) : Settled P (s.move i pc n s.rlock) := by
  refine .of_turns (fits_move h hfits) (small_move h hn) ?_
  rw [place_move]
  exact h.turns.watch (not_not.mpr hi) (not_not.mpr hout)

/-- The owner, or the one that becomes it, writes the words of its new stage. -/
theorem Settled.advance (h : Settled P s) (hothers : ∀ j, j ≠ i → s.stage j = .out)
    (hfits : pc.Fits n) (hn : n < 2 ^ 31) (hr : r = (pc.stage n).words P i n) :
    Settled P (s.move i pc n r) := by
  have hout : ∀ j, j ≠ i → ¬ (s.place j).1 ≠ .out := fun j hj => not_not.mpr (hothers j hj)
  refine .of_turns (fits_move h hfits) (small_move h hn) ?_
  rw [place_move]
  by_cases hst : pc.stage n = .out
  · rw [hst] at hr
    exact .leave hout (not_not.mpr hst) hr
  · exact .advance hout hst hr

end Move

/-! ## The accesses -/

section Access

variable {P : Cpus ι} {s : RState ι} {i : ι} {l : SpinLock} {d : Int} {pc : UnlockPc}

theorem goto_eq_move (pc : RPc) (r : RLock) :
    { s with rlock := r }.goto i pc = s.move i pc (s.nest i) r := by
  simp [RState.goto, RState.move]

/-- The positions of `recursive_unlock`. -/
def RPc.unlocking : RPc → Bool
  | .unlockHolder | .unlockDepth | .unlockRead | .unlockWrite _ | .unlockZero | .unlockFree
  | .unlockSpin _ => true
  | _ => false

/-- The access of the processor `i` goes through, all is settled after it, and a
processor that leaves the lock is at the end of a `recursive_unlock`. -/
def Moves (P : Cpus ι) (s : RState ι) (i : ι) : Prop :=
  ∃ pc n r, (access P i).run s = .ok () (s.move i pc n r) ∧ Settled P (s.move i pc n r) ∧
    (s.stage i ≠ .out → pc.stage n = .out → (s.pc i).unlocking = true ∧ pc = .idle)

/-- The words a processor leaves at a new position with the same nesting. -/
theorem Settled.run_advance (h : Settled P s) (pc : RPc) (r : RLock)
    (hothers : ∀ j, j ≠ i → s.stage j = .out) (hfits : pc.Fits (s.nest i))
    (hr : r = (pc.stage (s.nest i)).words P i (s.nest i))
    (hend : pc.stage (s.nest i) = .out → (s.pc i).unlocking = true ∧ pc = .idle)
    (hrun : (access P i).run s = .ok () ({ s with rlock := r }.goto i pc)) : Moves P s i := by
  rw [goto_eq_move] at hrun
  exact ⟨_, _, _, hrun, h.advance hothers hfits (h.small i) hr, fun _ => hend⟩

theorem Settled.run_watch (h : Settled P s) (pc : RPc) (hi : s.stage i = .out)
    (hfits : pc.Fits (s.nest i)) (hout : pc.stage (s.nest i) = .out)
    (hrun : (access P i).run s = .ok () (s.goto i pc)) : Moves P s i := by
  have hmove := goto_eq_move (s := s) (i := i) pc s.rlock
  rw [hmove] at hrun
  exact ⟨_, _, _, hrun, h.watch hi hfits (h.small i) hout, fun hne => absurd hi hne⟩

/-! ### `recursive_lock` -/

theorem Settled.lockHolder (h : Settled P s) (hpc : s.pc i = .lockHolder) : Moves P s i := by
  have hfits := h.fitsAt hpc
  by_cases hn : s.nest i = 0
  · have hout : s.stage i = .out := by
      rw [RState.stage, hpc, RPc.stage, if_pos hn]
    refine h.run_watch (.lockSpin .test) hout hn rfl ?_
    simp [access, hpc, (h.not_mine hout).1]
  · obtain ⟨hothers, hr⟩ := h.mine hpc (if_neg hn) nofun
    refine h.run_advance .lockRead s.rlock hothers hfits hr nofun ?_
    simp [access, hpc, holder_of_held hr]

/-- The position after an access of `spin_lock`. -/
def afterSpinLock : Option LockPc → RPc
  | some pc => .lockSpin pc
  | none => .lockOwn

theorem run_lockSpin {pc : LockPc} {r : Option LockPc} (hpc : s.pc i = .lockSpin pc)
    (hstep : (spinLockStep (P.percpu i) pc).run s.rlock.lock = .ok r l) :
    (access P i).run s =
      .ok () ({ s with rlock := { s.rlock with lock := l } }.goto i (afterSpinLock r)) := by
  simp only [access, EStateM.run_bind, EStateM.run_get, hpc, run_onSpin hstep]
  cases r with
  | some pc => rfl
  | none => rfl

theorem Settled.lockSpin (h : Settled P s) {pc : LockPc} (hpc : s.pc i = .lockSpin pc) :
    Moves P s i := by
  have hn := h.fitsAt hpc
  have hstage : s.stage i = (RPc.lockSpin pc).stage (s.nest i) := by
    rw [RState.stage, hpc]
  cases pc with
  | test =>
      have hrun := run_lockSpin hpc (run_spinLock_test (P.percpu i) _)
      by_cases hl : s.rlock.lock.locked = 0
      · rw [if_neg (not_not.mpr hl)] at hrun
        exact h.run_watch (.lockSpin .xchg) hstage hn rfl hrun
      · rw [if_pos hl] at hrun
        exact h.run_watch (.lockSpin .owner) hstage hn rfl hrun
  | owner =>
      refine h.run_watch (.lockSpin .xchg) hstage hn rfl ?_
      exact run_lockSpin hpc (run_spinLock_owner (h.not_mine hstage).2)
  | xchg =>
      have hrun := run_lockSpin hpc (run_spinLock_xchg (P.percpu i) _)
      by_cases hl : s.rlock.lock.locked = 0
      · obtain ⟨hall, hr⟩ := h.all_out hl
        rw [if_neg (not_not.mpr hl)] at hrun
        refine h.run_advance (.lockSpin .record) _ (fun j _ => hall j) hn ?_ nofun hrun
        rw [hr, show s.nest i = 0 from hn]
        rfl
      · -- The word is 1 already.
        have hl' := h.locked_eq hl
        rw [if_pos hl, ← hl'] at hrun
        exact h.run_watch (.lockSpin .xchg) hstage hn rfl hrun
  | record =>
      obtain ⟨hothers, hr⟩ := h.mine hpc rfl nofun
      refine h.run_advance .lockOwn _ hothers hn ?_ nofun (run_lockSpin hpc rfl)
      rw [hr]
      rfl

theorem Settled.lockOwn (h : Settled P s) (hpc : s.pc i = .lockOwn) : Moves P s i := by
  have hn := h.fitsAt hpc
  have hn' : s.nest i = 0 := hn
  obtain ⟨hothers, hr⟩ := h.mine hpc rfl nofun
  refine h.run_advance .lockRead { s.rlock with holder := P.cpuid i } hothers ?_ ?_ nofun ?_
  · show s.nest i + 1 < 2 ^ 31
    omega
  · rw [hr]
    rfl
  · simp [access, hpc]

theorem Settled.lockRead (h : Settled P s) (hpc : s.pc i = .lockRead) : Moves P s i := by
  have hfits := h.fitsAt hpc
  obtain ⟨hothers, hr⟩ := h.mine hpc rfl nofun
  refine h.run_advance (.lockWrite (s.nest i)) s.rlock hothers ⟨rfl, hfits⟩ hr nofun ?_
  simp [access, hpc, depth_of_held hr]

theorem Settled.lockWrite (h : Settled P s) (hpc : s.pc i = .lockWrite d) :
    Moves P s i := by
  have hfits := h.fitsAt hpc
  obtain ⟨rfl, hsmall⟩ := hfits
  obtain ⟨hothers, hr⟩ := h.mine hpc rfl nofun
  have hdepth : asInt ((s.nest i : Int) + 1) = (s.nest i + 1 : Nat) := by
    rw [asInt_of_small (by omega) (by omega)]
    rfl
  refine ⟨.idle, s.nest i + 1, { s.rlock with depth := (s.nest i + 1 : Nat) }, ?_, ?_, nofun⟩
  · simp [access, hpc, hdepth, RState.goto, RState.move]
  · refine h.advance hothers trivial hsmall ?_
    rw [hr]
    rfl

/-! ### `recursive_unlock` -/

theorem Settled.unlockHolder (h : Settled P s) (hpc : s.pc i = .unlockHolder) : Moves P s i := by
  have hfits := h.fitsAt hpc
  obtain ⟨hothers, hr⟩ := h.mine hpc rfl nofun
  refine h.run_advance .unlockDepth s.rlock hothers hfits hr nofun ?_
  have hholds : ((P.cpuid i : Int) == s.rlock.holder) = true := by
    rw [holder_of_held hr, beq_self_eq_true]
  simp only [access, EStateM.run_bind, EStateM.run_get, hpc, run_recursiveAssert hholds,
    EStateM.run_set]

theorem Settled.unlockDepth (h : Settled P s) (hpc : s.pc i = .unlockDepth) : Moves P s i := by
  have hfits := h.fitsAt hpc
  have hpos : 0 < s.nest i := hfits
  obtain ⟨hothers, hr⟩ := h.mine hpc rfl nofun
  refine h.run_advance .unlockRead s.rlock hothers hfits hr nofun ?_
  have hholds : decide (0 < s.rlock.depth) = true := by
    rw [depth_of_held hr]
    exact decide_eq_true (by omega)
  simp only [access, EStateM.run_bind, EStateM.run_get, hpc, run_recursiveAssert hholds,
    EStateM.run_set]

theorem Settled.unlockRead (h : Settled P s) (hpc : s.pc i = .unlockRead) : Moves P s i := by
  have hfits := h.fitsAt hpc
  obtain ⟨hothers, hr⟩ := h.mine hpc rfl nofun
  refine h.run_advance (.unlockWrite (s.nest i)) s.rlock hothers ⟨hfits, rfl⟩ hr nofun ?_
  simp [access, hpc, depth_of_held hr]

theorem Settled.unlockWrite (h : Settled P s) (hpc : s.pc i = .unlockWrite d) :
    Moves P s i := by
  have hfits := h.fitsAt hpc
  obtain ⟨hpos, rfl⟩ := hfits
  obtain ⟨hothers, hr⟩ := h.mine hpc rfl nofun
  have hsmall := h.small i
  have hdepth : asInt ((s.nest i : Int) - 1) = (s.nest i - 1 : Nat) := by
    rw [asInt_of_small (by omega) (by omega)]
    omega
  refine ⟨.unlockZero, s.nest i - 1, { s.rlock with depth := (s.nest i - 1 : Nat) }, ?_, ?_,
    nofun⟩
  · simp only [access, EStateM.run_bind, EStateM.run_get, hpc, hdepth]
    rfl
  · refine h.advance hothers trivial (by omega) ?_
    rw [hr]
    rfl

theorem Settled.unlockZero (h : Settled P s) (hpc : s.pc i = .unlockZero) : Moves P s i := by
  obtain ⟨hothers, hr⟩ := h.mine hpc rfl nofun
  by_cases hn : s.nest i = 0
  · refine h.run_advance .unlockFree s.rlock hothers hn hr nofun ?_
    simp [access, hpc, depth_of_held hr, hn]
  · -- The lock is still held from the calls further out.
    have hstage : RPc.idle.stage (s.nest i) = .held := if_neg hn
    refine h.run_advance .idle s.rlock hothers trivial ?_ ?_ ?_
    · rw [hstage]
      exact hr
    · rw [hstage]
      nofun
    · simp [access, hpc, depth_of_held hr, hn]

theorem Settled.unlockFree (h : Settled P s) (hpc : s.pc i = .unlockFree) : Moves P s i := by
  have hn := h.fitsAt hpc
  obtain ⟨hothers, hr⟩ := h.mine hpc rfl nofun
  refine h.run_advance (.unlockSpin .test) { s.rlock with holder := -1 } hothers hn ?_ nofun ?_
  · rw [hr]
    rfl
  · simp [access, hpc]

/-- The position after an access of `spin_unlock`. -/
def afterSpinUnlock : Option UnlockPc → RPc
  | some pc => .unlockSpin pc
  | none => .idle

theorem run_unlockSpin {r : Option UnlockPc} (hpc : s.pc i = .unlockSpin pc)
    (hstep : (spinUnlockStep pc).run s.rlock.lock = .ok r l) :
    (access P i).run s =
      .ok () ({ s with rlock := { s.rlock with lock := l } }.goto i (afterSpinUnlock r)) := by
  simp only [access, EStateM.run_bind, EStateM.run_get, hpc, run_onSpin hstep]
  cases r with
  | some pc => rfl
  | none => rfl

theorem Settled.unlockSpin (h : Settled P s) (hpc : s.pc i = .unlockSpin pc) :
    Moves P s i := by
  have hn := h.fitsAt hpc
  cases pc with
  | test =>
      obtain ⟨hothers, hr⟩ := h.mine hpc rfl nofun
      have hstep : (spinUnlockStep .test).run s.rlock.lock =
          .ok (some .forget) s.rlock.lock := by
        rw [hr]
        rfl
      exact h.run_advance (.unlockSpin .forget) _ hothers hn hr nofun
        (run_unlockSpin hpc hstep)
  | forget =>
      obtain ⟨hothers, hr⟩ := h.mine hpc rfl nofun
      refine h.run_advance (.unlockSpin .clear) _ hothers hn ?_ nofun (run_unlockSpin hpc rfl)
      rw [hr]
      rfl
  | clear =>
      obtain ⟨hothers, hr⟩ := h.mine hpc rfl nofun
      have hn' : s.nest i = 0 := hn
      refine h.run_advance .idle _ hothers trivial ?_ ?_ (run_unlockSpin hpc rfl)
      · rw [hr, RPc.stage, if_pos hn', hn']
        rfl
      · intro _
        rw [hpc]
        exact ⟨rfl, rfl⟩

theorem Settled.access (h : Settled P s) (hpc : s.pc i ≠ .idle) : Moves P s i := by
  cases hcase : s.pc i with
  | idle => exact absurd hcase hpc
  | lockHolder => exact h.lockHolder hcase
  | lockSpin pc => exact h.lockSpin hcase
  | lockOwn => exact h.lockOwn hcase
  | lockRead => exact h.lockRead hcase
  | lockWrite d => exact h.lockWrite hcase
  | unlockHolder => exact h.unlockHolder hcase
  | unlockDepth => exact h.unlockDepth hcase
  | unlockRead => exact h.unlockRead hcase
  | unlockWrite d => exact h.unlockWrite hcase
  | unlockZero => exact h.unlockZero hcase
  | unlockFree => exact h.unlockFree hcase
  | unlockSpin pc => exact h.unlockSpin hcase

end Access

/-! ## Whole runs -/

/-- A call only changes the position of its processor. -/
theorem Settled.call {P : Cpus ι} {s : RState ι} {i : ι} (h : Settled P s) {pc : RPc}
    (hpc : s.pc i = .idle) (hfits : pc.Fits (s.nest i))
    (hstage : pc.stage (s.nest i) = RPc.idle.stage (s.nest i)) : Settled P (s.goto i pc) := by
  have hi : s.stage i = pc.stage (s.nest i) := by
    rw [RState.stage, hpc, hstage]
  have hmove := goto_eq_move (s := s) (i := i) pc s.rlock
  rw [hmove]
  by_cases hout : s.stage i = .out
  · exact h.watch hout hfits (h.small i) (hi ▸ hout)
  · obtain ⟨hothers, hr⟩ := h.owned i hout
    refine h.advance hothers hfits (h.small i) ?_
    rw [hr, hi]

theorem settled_invariant (P : Cpus ι) : ((recRun P).restrict Shallow).Invariant (Settled P) := by
  refine ⟨?_, ?_⟩
  · intro s hs
    obtain rfl : s = .start ι := hs
    exact settled_start P
  · intro s e hI ⟨hl, hC⟩
    cases e with
    | lock i => exact ⟨_, rfl, hI.call hl hC rfl⟩
    | unlock i =>
        obtain ⟨hpc, hpos⟩ := hl
        refine ⟨_, rfl, hI.call hpc hpos ?_⟩
        exact (if_neg (by omega)).symm
    | access i =>
        obtain ⟨pc, n, r, hrun, hI', _⟩ := hI.access hl
        exact ⟨_, hrun, hI'⟩

/-! ## The lock keeps the processors apart -/

structure RecSafe (P : Cpus ι) (s : RState ι) : Prop where
  alone : ∀ i j, s.Inside i → s.Inside j → i = j
  marked : ∀ i, s.Inside i → s.rlock.depth = s.nest i ∧ s.rlock.holder = P.cpuid i
  locked : ∀ i, s.Inside i → s.rlock.lock.locked = 1
  /-- The spin lock is released by the last access of the `recursive_unlock` that
  undoes the outermost lock, and by no other. -/
  released : ∀ e s', (recRun P).legal s e → ((recRun P).step e).run s = .ok () s' →
    ((s.rlock.lock.locked ≠ 0 ∧ s'.rlock.lock.locked = 0) ↔
      ∃ i, e = .access i ∧ (s.pc i).unlocking = true ∧ s'.pc i = .idle ∧ s'.nest i = 0)

section Safe

variable {P : Cpus ι} {s s' : RState ι} {i : ι} {e : REvent ι}

theorem stage_ne_out_of_unlocking {pc : RPc} {n : Nat} (h : pc.unlocking = true) :
    pc.stage n ≠ .out := by
  cases pc with
  | unlockSpin pc => cases pc <;> nofun
  | idle | lockHolder | lockSpin pc | lockOwn | lockRead | lockWrite d => cases h
  | unlockHolder | unlockDepth | unlockRead | unlockWrite d | unlockZero | unlockFree => nofun

omit [DecidableEq ι] in
/-- A call by itself does not change the lock. -/
theorem released_of_call (he : ∀ i, e ≠ .access i) (hsame : s'.rlock = s.rlock) :
    (s.rlock.lock.locked ≠ 0 ∧ s'.rlock.lock.locked = 0) ↔
      ∃ i, e = .access i ∧ (s.pc i).unlocking = true ∧ s'.pc i = .idle ∧ s'.nest i = 0 := by
  refine iff_of_false ?_ fun ⟨i, hi, _⟩ => he i hi
  rw [hsame]
  exact fun ⟨hne, heq⟩ => hne heq

/-- Where the words change from taken to free, the one processor that moved has
left the lock. -/
theorem Settled.released (h : Settled P s) (hl : (recRun P).legal s e)
    (hrun : ((recRun P).step e).run s = .ok () s') :
    (s.rlock.lock.locked ≠ 0 ∧ s'.rlock.lock.locked = 0) ↔
      ∃ i, e = .access i ∧ (s.pc i).unlocking = true ∧ s'.pc i = .idle ∧ s'.nest i = 0 := by
  cases e with
  | lock i =>
      cases hrun
      exact released_of_call nofun rfl
  | unlock i =>
      cases hrun
      exact released_of_call nofun rfl
  | access i =>
      obtain ⟨pc, n, r, hmove, hI', hend⟩ := h.access hl
      obtain rfl : s.move i pc n r = s' := by
        rw [show ((recRun P).step (.access i)).run s = _ from hmove] at hrun
        cases hrun
        rfl
      have hpc : (s.move i pc n r).pc i = pc := by
        simp [RState.move]
      have hnest : (s.move i pc n r).nest i = n := by
        simp [RState.move]
      rw [hI'.locked_eq_zero_iff, ne_eq, h.locked_eq_zero_iff]
      constructor
      · intro ⟨hsome, hnone⟩
        have hi : s.stage i ≠ .out := by
          intro hi
          apply hsome
          intro j
          by_cases hj : j = i
          · exact hj ▸ hi
          · have hsame : (s.move i pc n r).stage j = s.stage j := stage_move_of_ne hj
            exact hsame ▸ hnone j
        have hout : pc.stage n = .out := by
          rw [← stage_move_self (s := s) (i := i) (r := r)]
          exact hnone i
        obtain ⟨hunlock, rfl⟩ := hend hi hout
        refine ⟨i, rfl, hunlock, hpc, ?_⟩
        rw [hnest]
        by_contra hn
        rw [RPc.stage, if_neg hn] at hout
        cases hout
      · intro ⟨j, hj, hunlock, hidle, hzero⟩
        cases hj
        have hi : s.stage i ≠ .out := stage_ne_out_of_unlocking hunlock
        refine ⟨fun hall => hi (hall i), ?_⟩
        intro j
        by_cases hj : j = i
        · rw [hj, RState.stage, hidle, hzero]
          rfl
        · rw [stage_move_of_ne hj]
          exact (h.owned i hi).1 j hj

theorem Settled.recSafe (h : Settled P s) : RecSafe P s := by
  have howned : ∀ i, s.Inside i → s.stage i ≠ .out ∧
      s.rlock = Stage.held.words P i (s.nest i) := by
    intro i hi
    have hst := h.inside hi
    have hne : s.stage i ≠ .out := by
      rw [hst]
      nofun
    have hr := (h.owned i hne).2
    rw [hst] at hr
    exact ⟨hne, hr⟩
  refine ⟨?_, ?_, ?_, fun e s' hl hrun => h.released hl hrun⟩
  · intro i j hi hj
    by_contra hij
    exact (howned i hi).1 ((h.owned j (howned j hj).1).1 i hij)
  · intro i hi
    rw [(howned i hi).2]
    exact ⟨rfl, rfl⟩
  · intro i hi
    rw [(howned i hi).2]
    rfl

end Safe

/-- In every run of the processors in which no nesting gets to `2 ^ 31`, the lock
keeps them apart, and no access panics. -/
theorem recursive_lock_safe {P : Cpus ι} {s : RState ι}
    (h : ((recRun P).restrict Shallow).Reachable s) :
    RecSafe P s ∧ ((recRun P).restrict Shallow).Returns s := by
  have hI := Machine.reachable_of_inv (settled_invariant P) h
  exact ⟨hI.recSafe, (settled_invariant P).returns hI⟩

/-! ## Two processors, and one that nests too deep -/

def twoCpu : Cpus Bool where
  toPercpus := twoPercpus
  cpuid b := b.toNat
  cpuid_inj a b h := by cases a <;> cases b <;> first | rfl | cases h

/-- The first processor takes the lock twice; the second one spins meanwhile. -/
def contended : List (REvent Bool) :=
  [.lock true, .access true, .access true] ++ .lock false :: List.replicate 7 (.access false) ++
    .lock false :: List.replicate 3 (.access false) ++ List.replicate 2 (.access true)

theorem recursive_lock_safe_two : ∃ s, ((recRun twoCpu).restrict Shallow).Reachable s ∧
    s.Inside false ∧ s.nest false = 2 ∧ s.pc true = .lockSpin .xchg ∧
    RecSafe twoCpu s ∧ ((recRun twoCpu).restrict Shallow).Returns s := by
  have hstart : ((recRun twoCpu).restrict Shallow).Reachable (.start Bool) := .init rfl
  obtain ⟨s, hreach, hs⟩ := hstart.sees contended (fun s => (s.nest false, s.pc false, s.pc true))
    (2, .idle, .lockSpin .xchg) (by decide +kernel) (by decide +kernel)
  simp only [Prod.mk.injEq] at hs
  obtain ⟨hnest, hidle, hspin⟩ := hs
  obtain ⟨hsafe, hreturns⟩ := recursive_lock_safe hreach
  refine ⟨s, hreach, ⟨by omega, ?_⟩, hnest, hspin, hsafe, hreturns⟩
  rw [hidle]
  nofun

def oneCpu : Cpus Unit where
  cpuid _ := 0
  cpuid_inj _ _ _ := rfl
  percpu _ := 0x80100000
  percpu_inj _ _ _ := rfl
  percpu_ne _ := nofun

/-- The lock of the processor between two calls. -/
def ownLock (d : Int) (n : Nat) : RState Unit :=
  ⟨⟨⟨1, 0x80100000⟩, 0, d⟩, fun _ => .idle, fun _ => n⟩

theorem ownLock_again (d : Int) (n : Nat) :
    (recRun oneCpu).Permits [.lock (), .access (), .access (), .access ()] (ownLock d n) ∧
    (recRun oneCpu).after [.lock (), .access (), .access (), .access ()] (ownLock d n) =
      some (ownLock (asInt (d + 1)) (n + 1)) := ⟨⟨rfl, nofun, nofun, nofun, trivial⟩, rfl⟩

theorem asInt_succ (n : Nat) : asInt (asInt n + 1) = asInt (n + 1 : Nat) := by
  rw [asInt, asInt, asInt, Int.bmod_add_bmod]
  rfl

/-- The lock after any number of calls of `recursive_lock`. -/
theorem ownLock_reachable (n : Nat) :
    (recRun oneCpu).Reachable (ownLock (asInt (n + 1 : Nat)) (n + 1)) := by
  induction n with
  | zero =>
      have hstart : (recRun oneCpu).Reachable (.start Unit) := .init rfl
      have hafter : (recRun oneCpu).after (.lock () :: List.replicate 7 (.access ()))
          (.start Unit) = some (ownLock (asInt 1) 1) := rfl
      exact hstart.after (by decide +kernel) hafter
  | succ n ih =>
      obtain ⟨hpermits, hafter⟩ := ownLock_again (asInt (n + 1 : Nat)) (n + 1)
      rw [asInt_succ] at hafter
      exact ih.after hpermits hafter

/-- `recursive_unlock` on a `depth` that is not positive. -/
theorem ownLock_unlock {d : Int} (hd : ¬ 0 < d) (n : Nat) :
    ∃ s, (recRun oneCpu).after [.unlock (), .access ()] (ownLock d n) = some s ∧
      stopped ((recRun oneCpu).step (.access ())) s = some (.panic
        "Assertion failed in recursive_unlock (%s:%d): lock->depth > 0\n" [83]) := by
  refine ⟨(ownLock d n).goto () .unlockDepth, rfl, ?_⟩
  have hfalse : decide (0 < d) = false := decide_eq_false hd
  show stopped (do
    recursiveAssert 83 "lock->depth > 0" (decide (0 < d))
    set (((ownLock d n).goto () .unlockDepth).goto () .unlockRead)) _ = _
  rw [hfalse]
  rfl

/-- After `2 ^ 31` calls `depth` is negative, and the next `recursive_unlock`
does not get past its second assertion. -/
theorem recursive_lock_overflow : ∃ s, (recRun oneCpu).Reachable s ∧ s.Inside () ∧
    s.nest () = 2 ^ 31 ∧ s.rlock.depth = - 2 ^ 31 ∧ ¬ RecSafe oneCpu s ∧
    ∃ s', (recRun oneCpu).after [.unlock (), .access ()] s = some s' ∧
      stopped ((recRun oneCpu).step (.access ())) s' = some (.panic
        "Assertion failed in recursive_unlock (%s:%d): lock->depth > 0\n" [83]) := by
  have hreach := ownLock_reachable (2 ^ 31 - 1)
  rw [Nat.sub_add_cancel Nat.one_le_two_pow] at hreach
  have hdepth : asInt (2 ^ 31 : Nat) = - 2 ^ 31 := by decide +kernel
  rw [hdepth] at hreach
  have hinside : (ownLock (- 2 ^ 31) (2 ^ 31)).Inside () := ⟨Nat.two_pow_pos 31, nofun⟩
  refine ⟨_, hreach, hinside, rfl, rfl, ?_, ownLock_unlock (by decide) _⟩
  intro h
  have hmarked : (- 2 ^ 31 : Int) = (2 ^ 31 : Nat) := (h.marked () hinside).1
  exact absurd hmarked (by decide)

end Aim.Kern
