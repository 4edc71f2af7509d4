import Aim.Kern.Sched
import Aim.Proofs.Kpid

/-!
# The list of the scheduler as a queue

Beside the scheduler a list is kept of the processes that should be on its list,
in the order in which they were added: the queue that `struct scheduler`
describes. `Queued` says that the ring has these processes and no others, and
`add`, `remove`, `next` and `find` are right on such a ring.

`pick` is not. It reads the process from the sentry, which has none, and then
unlinks the sentry and not the first node. And `next` is documented to answer
the first process for `NULL`, which it dereferences. So the answers are right
exactly where `pick` finds nothing and `next` is given a process
(`sched_answers_iff`).

`wakeup` starts its walk over the list with `next(NULL)`, and so never gets to a
process (`wakeup_stops`).
-/

namespace Aim.Kern

open Aim.Lib Links Function

variable {σ : Type}

/-! ## The component -/

inductive SchedCall where
  | add (p : Nat)
  | remove (p : Nat)
  | pick
  | next (p : Nat)
  | find (pid : Int)

/-- The call, with what it answers. -/
def SchedCall.run : SchedCall → EStateM Stop (Procs σ) Int
  | .add p => Sched.add p
  | .remove p => Sched.remove p
  | .pick => do
      let p ← Sched.pick
      return p
  | .next p => do
      let p ← Sched.next p
      return p
  | .find pid => do
      let p ← Sched.find pid
      return p

/-- The queue after a call. -/
def SchedCall.queue : SchedCall → List Nat → List Nat
  | .add p, q => q ++ [p]
  | .remove p, q => q.erase p
  | .pick, q => q.tail
  | .next _, q => q
  | .find _, q => q

structure SchedRun (σ : Type) where
  procs : Procs σ
  queue : List Nat

def SchedRun.step (c : SchedCall) : EStateM Stop (SchedRun σ) Unit := do
  let _ ← zoom procs (fun s r => { r with procs := s }) c.run
  modify fun r => { r with queue := c.queue r.queue }

/-- The scheduler after `sched_init`. A process that is added is one that
`proc_new` has made and that is not on the list; `remove` and `next` are given
processes on the list, and `next` also `NULL`. -/
def schedCalls (E : ProcEnv σ) : Machine Stop (SchedRun σ) SchedCall where
  init r := (∃ s, (schedInit E).run s = .ok () r.procs) ∧ r.queue = []
  legal r
    | .add p => 0 < p ∧ p < 2 ^ 32 ∧ r.procs.owner (.proc p) = p ∧ p ∉ r.queue
    | .remove p => p ∈ r.queue
    | .pick => True
    | .next p => p = 0 ∨ p ∈ r.queue
    | .find _ => True
  step := SchedRun.step

instance (E : ProcEnv σ) (r : SchedRun σ) : ∀ c, Decidable ((schedCalls E).legal r c)
  | .add _ => inferInstanceAs (Decidable (_ ∧ _ ∧ _ ∧ _))
  | .remove p => inferInstanceAs (Decidable (p ∈ r.queue))
  | .pick => inferInstanceAs (Decidable True)
  | .next _ => inferInstanceAs (Decidable (_ ∨ _))
  | .find _ => inferInstanceAs (Decidable True)

/-- What a call should answer, with `0` for `NULL`. -/
def Documented (r : SchedRun σ) : SchedCall → Int → Prop
  | .add _, a => a = 0
  | .remove _, a => a = 0
  | .pick, a => a = r.queue.headD 0
  | .next p, a => (p = 0 → a = r.queue.headD 0) ∧
      ∀ l₁ l₂, r.queue = l₁ ++ p :: l₂ → a = l₂.headD 0
  | .find pid, a => (a = 0 ∧ ∀ p ∈ r.queue, (r.procs.proc p).pid ≠ pid) ∨
      ∃ p ∈ r.queue, a = p ∧ p ≠ 0 ∧ (r.procs.proc p).pid = pid

/-- The call returns, with the right answer. -/
def Answers (r : SchedRun σ) (c : SchedCall) : Prop :=
  ∃ a s', (c.run : EStateM Stop (Procs σ) Int).run r.procs = .ok a s' ∧ Documented r c a

/-- `pick` is called when there is nothing to pick, and `next` with a process. -/
def Careful (r : SchedRun σ) : SchedCall → Prop
  | .pick => r.queue = []
  | .next p => p ≠ 0
  | _ => True

instance (r : SchedRun σ) : ∀ c, Decidable (Careful r c)
  | .add _ => inferInstanceAs (Decidable True)
  | .remove _ => inferInstanceAs (Decidable True)
  | .pick => inferInstanceAs (Decidable (r.queue = []))
  | .next p => inferInstanceAs (Decidable (p ≠ 0))
  | .find _ => inferInstanceAs (Decidable True)

/-! ## The ring -/

section Ring

variable {s : Procs σ} {q l : List Nat} {p : Nat}

/-- The ring of the scheduler has the processes `q`. -/
structure Queued (s : Procs σ) (q : List Nat) : Prop where
  ring : Ring s.links .sentry (q.map .proc)
  sentry : s.owner .sentry = 0
  owner : ∀ p ∈ q, s.owner (.proc p) = p
  range : ∀ p ∈ q, 0 < p ∧ p < 2 ^ 32

theorem Queued.nodup (h : Queued s q) : q.Nodup :=
  (List.nodup_cons.mp h.ring.nodup).2.of_map _

/-- The node behind a part of the ring belongs to the next process, or to none. -/
theorem Queued.owner_headD (h : Queued s q) (hl : ∀ p ∈ l, p ∈ q) :
    s.owner ((l.map SchedNode.proc).headD .sentry) = l.headD 0 := by
  cases l with
  | nil => exact h.sentry
  | cons p l => exact h.owner p (hl p List.mem_cons_self)

/-- The fuel of a loop over the list is enough. -/
theorem Queued.length_lt (h : Queued s q) : q.length < listFuel :=
  length_lt_of_addresses (by decide) h.nodup h.range

theorem Queued.init {E : ProcEnv σ} {s₀ : Procs σ} (h : (schedInit E).run s₀ = .ok () s) :
    Queued s [] := by
  rw [schedInit, EStateM.run_bind] at h
  cases hk : (onProcEnv (E.kmalloc schedulerBytes)).run s₀ with
  | error e s₁ =>
      rw [hk] at h
      cases h
  | ok scheduler s₁ =>
      rw [hk] at h
      simp only [deref] at h
      split at h
      · cases h
      · rw [run_bind_ok (EStateM.run_pure _ _), EStateM.run_modify] at h
        injection h with _ h
        subst h
        refine ⟨ring_init _ _, ?_, nofun, nofun⟩
        show update s₁.owner .sentry 0 .sentry = 0
        exact update_self _ _ _

theorem deref_ok (hp : 0 < p) : (deref p).run s = .ok () s := by
  rw [deref, if_neg (by omega)]
  rfl

theorem Queued.add (h : Queued s q) (hp : 0 < p) (hlt : p < 2 ^ 32)
    (howner : s.owner (.proc p) = p) (hq : p ∉ q) :
    ∃ s', (Sched.add p).run s = .ok 0 s' ∧ Queued s' (q ++ [p]) := by
  refine ⟨_, by rw [Sched.add, run_bind_ok (deref_ok hp)]; rfl, ?_⟩
  have hnew : SchedNode.proc p ∉ SchedNode.sentry :: q.map SchedNode.proc := by
    intro hmem
    rcases List.mem_cons.mp hmem with hmem | hmem
    · cases hmem
    · obtain ⟨p', hp', heq⟩ := List.mem_map.mp hmem
      cases heq
      exact hq hp'
  refine ⟨?_, h.sentry, ?_, ?_⟩
  · rw [List.map_append]
    exact h.ring.addTail hnew
  · intro x hx
    rcases List.mem_append.mp hx with hx | hx
    · exact h.owner x hx
    · rw [List.mem_singleton.mp hx]
      exact howner
  · intro x hx
    rcases List.mem_append.mp hx with hx | hx
    · exact h.range x hx
    · rw [List.mem_singleton.mp hx]
      exact ⟨hp, hlt⟩

theorem Queued.remove (h : Queued s q) (hp : p ∈ q) :
    ∃ s', (Sched.remove p).run s = .ok 0 s' ∧ Queued s' (q.erase p) := by
  have hpos := (h.range p hp).1
  refine ⟨_, by rw [Sched.remove, run_bind_ok (deref_ok hpos)]; rfl, ?_⟩
  obtain ⟨l₁, l₂, hl₁, rfl, herase⟩ := List.exists_erase_eq hp
  have hring := h.ring
  rw [List.map_append, List.map_cons] at hring
  rw [herase]
  have hsub : ∀ x ∈ l₁ ++ l₂, x ∈ l₁ ++ p :: l₂ := by
    intro x hx
    rcases List.mem_append.mp hx with hx | hx
    · exact List.mem_append_left _ hx
    · exact List.mem_append_right _ (List.mem_cons_of_mem _ hx)
  refine ⟨?_, h.sentry, fun x hx => h.owner x (hsub x hx), fun x hx => h.range x (hsub x hx)⟩
  rw [List.map_append]
  exact hring.del

theorem Queued.next {l₁ l₂ : List Nat} (h : Queued s (l₁ ++ p :: l₂)) :
    (Sched.next p).run s = .ok (l₂.headD 0) s := by
  have hpos := (h.range p (List.mem_append_right _ List.mem_cons_self)).1
  have hring := h.ring
  rw [List.map_append, List.map_cons] at hring
  have howner := h.owner_headD (l := l₂) fun x hx =>
    List.mem_append_right _ (List.mem_cons_of_mem _ hx)
  rw [Sched.next, run_bind_ok (deref_ok hpos), run_bind_ok (EStateM.run_get _), hring.next_mem,
    howner]
  rfl

/-- The loop of `find` from the rest `l₂` of the list on. -/
theorem Queued.findLoop {l₁ l₂ : List Nat} (h : Queued s (l₁ ++ l₂)) (pid : Int) {fuel : Nat}
    (hfuel : l₂.length < fuel) :
    ∃ a, (Sched.findLoop pid fuel ((l₂.map SchedNode.proc).headD .sentry)).run s = .ok a s ∧
      ((a = 0 ∧ ∀ p ∈ l₂, (s.proc p).pid ≠ pid) ∨
        ∃ p ∈ l₂, a = p ∧ p ≠ 0 ∧ (s.proc p).pid = pid) := by
  induction l₂ generalizing l₁ fuel with
  | nil =>
      obtain ⟨fuel, rfl⟩ : ∃ k, fuel = k + 1 := ⟨fuel - 1, by simp only [List.length_nil] at hfuel; omega⟩
      exact ⟨0, rfl, Or.inl ⟨rfl, nofun⟩⟩
  | cons p l ih =>
      obtain ⟨fuel, rfl⟩ : ∃ k, fuel = k + 1 := ⟨fuel - 1, by omega⟩
      rw [List.length_cons] at hfuel
      have hmem : p ∈ l₁ ++ p :: l := List.mem_append_right _ List.mem_cons_self
      have hpos := (h.range p hmem).1
      have howner := h.owner p hmem
      rw [List.map_cons, List.headD_cons, Sched.findLoop, if_neg nofun,
        run_bind_ok (EStateM.run_get _), howner, run_bind_ok (deref_ok hpos)]
      by_cases hpid : (s.proc p).pid = pid
      · rw [if_pos hpid]
        exact ⟨p, rfl, Or.inr ⟨p, List.mem_cons_self, rfl, by omega, hpid⟩⟩
      · have hring := h.ring
        rw [List.map_append, List.map_cons] at hring
        rw [if_neg hpid, hring.next_mem]
        rw [show l₁ ++ p :: l = (l₁ ++ [p]) ++ l by simp] at h
        obtain ⟨a, hrun, hans⟩ := ih h (Nat.lt_of_succ_lt_succ hfuel)
        refine ⟨a, hrun, ?_⟩
        rcases hans with ⟨ha, hnone⟩ | ⟨p', hp', hsome⟩
        · refine Or.inl ⟨ha, fun x hx => ?_⟩
          rcases List.mem_cons.mp hx with rfl | hx
          · exact hpid
          · exact hnone x hx
        · exact Or.inr ⟨p', List.mem_cons_of_mem _ hp', hsome⟩

theorem Queued.next_sentry (h : Queued s q) :
    s.links.next .sentry = (q.map SchedNode.proc).headD .sentry := by
  have hring : Ring s.links .sentry ([] ++ q.map SchedNode.proc) := h.ring
  exact hring.next_last

theorem Queued.find (h : Queued s q) (pid : Int) :
    ∃ a, (Sched.find pid).run s = .ok a s ∧
      ((a = 0 ∧ ∀ p ∈ q, (s.proc p).pid ≠ pid) ∨
        ∃ p ∈ q, a = p ∧ p ≠ 0 ∧ (s.proc p).pid = pid) := by
  rw [Sched.find, run_bind_ok (EStateM.run_get _), h.next_sentry]
  have hall : Queued s ([] ++ q) := h
  exact hall.findLoop pid h.length_lt

theorem Queued.pick_nil (h : Queued s []) : Sched.pick.run s = .ok 0 s := by
  have hempty : s.links.next .sentry = .sentry := h.next_sentry
  rw [Sched.pick, run_bind_ok (EStateM.run_get _), if_pos hempty]
  rfl

/-- There is a process, and `NULL` is picked. -/
theorem Queued.pick_cons (h : Queued s (p :: q)) : ∃ s', Sched.pick.run s = .ok 0 s' := by
  have hne : s.links.next .sentry ≠ .sentry := by
    rw [h.next_sentry]
    nofun
  refine ⟨{ s with links := s.links.del .sentry }, ?_⟩
  rw [Sched.pick, run_bind_ok (EStateM.run_get _), if_neg hne, h.sentry]
  rfl

end Ring

/-! ## Whole runs -/

section Run

variable {E : ProcEnv σ} {r : SchedRun σ} {c : SchedCall}

theorem Queued.call (h : Queued r.procs r.queue) (hl : (schedCalls E).legal r c)
    (hc : Careful r c) : ∃ a s', c.run.run r.procs = .ok a s' ∧ Documented r c a ∧
      Queued s' (c.queue r.queue) := by
  cases c with
  | add p =>
      obtain ⟨hpos, hlt, howner, hq⟩ := hl
      obtain ⟨s', hrun, h'⟩ := h.add hpos hlt howner hq
      exact ⟨0, s', hrun, rfl, h'⟩
  | remove p =>
      obtain ⟨s', hrun, h'⟩ := h.remove hl
      exact ⟨0, s', hrun, rfl, h'⟩
  | pick =>
      have hnil : r.queue = [] := hc
      rw [hnil] at h
      refine ⟨0, r.procs, ?_, ?_, ?_⟩
      · exact run_bind_ok h.pick_nil
      · rw [Documented, hnil]
        rfl
      · rw [hnil]
        exact h
  | next p =>
      have hp : p ∈ r.queue := hl.resolve_left hc
      obtain ⟨l₁, l₂, hq⟩ := List.append_of_mem hp
      rw [hq] at h
      refine ⟨l₂.headD 0, r.procs, run_bind_ok h.next, ⟨fun h0 => absurd h0 hc, ?_⟩, ?_⟩
      · intro m₁ m₂ hm
        have hrun : (Sched.next p).run r.procs = .ok (m₂.headD 0) r.procs := by
          rw [← hq, hm] at h
          exact h.next
        rw [h.next] at hrun
        injection hrun with hans
        rw [hans]
      · exact hq ▸ h
  | find pid =>
      obtain ⟨a, hrun, hans⟩ := h.find pid
      refine ⟨a, r.procs, run_bind_ok hrun, ?_, h⟩
      rcases hans with ⟨rfl, hnone⟩ | ⟨p, hp, rfl, hsome⟩
      · exact Or.inl ⟨rfl, hnone⟩
      · exact Or.inr ⟨a, hp, rfl, hsome⟩

theorem queued_of_reachable (hr : ((schedCalls E).restrict Careful).Reachable r) :
    Queued r.procs r.queue := by
  refine Machine.reachable_of_inv (I := fun r => Queued r.procs r.queue) ⟨?_, ?_⟩ hr
  · intro r hinit
    obtain ⟨⟨s, hs⟩, hq⟩ := hinit
    rw [hq]
    exact Queued.init hs
  · intro r c h hl
    obtain ⟨a, s', hrun, _, h'⟩ := h.call hl.1 hl.2
    refine ⟨⟨s', c.queue r.queue⟩, ?_, h'⟩
    show (SchedRun.step c).run r = _
    rw [SchedRun.step, run_bind_ok (run_zoom_ok hrun)]
    rfl

end Run

/-- In every run that was careful so far, exactly the careful calls answer as
they should. -/
theorem sched_answers_iff {E : ProcEnv σ} {r : SchedRun σ} {c : SchedCall}
    (hr : ((schedCalls E).restrict Careful).Reachable r) (hl : (schedCalls E).legal r c) :
    Answers r c ↔ Careful r c := by
  have h := queued_of_reachable hr
  constructor
  · intro hans
    obtain ⟨a, s', hrun, hdoc⟩ := hans
    cases c with
    | add p => trivial
    | remove p => trivial
    | find pid => trivial
    | pick =>
        cases hq : r.queue with
        | nil => exact hq
        | cons p q =>
            rw [hq] at h
            obtain ⟨s₁, hpick⟩ := h.pick_cons
            have hnull : (SchedCall.pick.run).run r.procs = .ok 0 s₁ := run_bind_ok hpick
            rw [hrun] at hnull
            injection hnull with ha
            rw [Documented, hq, List.headD_cons] at hdoc
            have hpos := (h.range p List.mem_cons_self).1
            omega
    | next p =>
        intro hp
        subst hp
        cases hrun
  · intro hc
    obtain ⟨a, s', hrun, hdoc, _⟩ := h.call hl hc
    exact ⟨a, s', hrun, hdoc⟩

/-- Processes as `proc_new` leaves them, with their addresses as ids. -/
def someProcs : Procs Nat :=
  { noProcs.procs with
    proc := fun p => ⟨0, 0, p, p, p, .embryo, cpuNone, 0, 0, 0⟩
    owner := fun
      | .sentry => 0
      | .proc p => p }

/-- The scheduler as `sched_init` leaves it. -/
def newSched : SchedRun Nat where
  procs := { someProcs with env := 1, scheduler := 0x100000, links := someProcs.links.init .sentry }
  queue := []

theorem newSched_init : (schedCalls bumpProcEnv).init newSched := by
  refine ⟨⟨someProcs, ?_⟩, rfl⟩
  have howner : update someProcs.owner .sentry 0 = someProcs.owner :=
    update_eq_self_iff.mpr rfl
  have hrun : (schedInit bumpProcEnv).run someProcs = .ok () { newSched.procs with
      owner := update someProcs.owner .sentry 0 } := rfl
  rw [hrun, howner]
  rfl

theorem sched_answers_iff_next :
    ∃ r, ((schedCalls bumpProcEnv).restrict Careful).Reachable r ∧
      r.queue = [0x1000, 0x2000] ∧ Answers r (.next 0x1000) := by
  have h₀ : ((schedCalls bumpProcEnv).restrict Careful).Reachable newSched := .init newSched_init
  obtain ⟨r, hreach, hqueue⟩ := h₀.sees [.add 0x1000, .add 0x2000] SchedRun.queue
    [0x1000, 0x2000] (by decide +kernel) (by decide +kernel)
  refine ⟨r, hreach, hqueue, (sched_answers_iff hreach ?_).mpr (show 0x1000 ≠ 0 by decide)⟩
  exact .inr (by simp [hqueue])

/-- With one process on the list `pick` answers `NULL`, and `next(NULL)` gets
at the null pointer. -/
theorem sched_pick_null :
    ∃ r, (schedCalls bumpProcEnv).Reachable r ∧ r.queue = [0x1000] ∧
      returned Sched.pick r.procs (fun p _ => p) = some 0 ∧ ¬ Answers r .pick ∧
      stopped (Sched.next 0) r.procs = some (.oob 0) ∧ ¬ Answers r (.next 0) := by
  have h₀ : (schedCalls bumpProcEnv).Reachable newSched := .init newSched_init
  obtain ⟨r, hreach, hsee⟩ := h₀.sees [.add 0x1000]
    (fun r => (r.queue, returned Sched.pick r.procs fun p _ => p)) ([0x1000], some 0)
    (by decide +kernel) (by decide +kernel)
  obtain ⟨hqueue, hpick⟩ := Prod.mk.inj hsee
  refine ⟨r, hreach, hqueue, hpick, ?_, rfl, ?_⟩
  · intro hans
    obtain ⟨a, s', hcall, hdoc⟩ := hans
    obtain ⟨p, s₁, hcall₁, hp⟩ := returned_eq_some hpick
    have hnull : (SchedCall.pick.run).run r.procs = .ok (p : Int) s₁ := run_bind_ok hcall₁
    rw [hcall] at hnull
    injection hnull with ha
    rw [Documented, hqueue, ha, hp] at hdoc
    exact absurd hdoc (by decide)
  · intro hans
    obtain ⟨a, s', hcall, _⟩ := hans
    cases hcall

/-! ## `wakeup` -/

inductive TaskCall where
  | add (p : Nat)
  | remove (p : Nat)
  | schedule
  | sleep (bed : Nat)
  | wakeup (bed : Nat)

/-- What the rest of the kernel does with the scheduler of the processor
`cpuid`. -/
def taskCalls (E : ProcEnv σ) (cpuid : Int) : Machine Stop (Procs σ) TaskCall where
  init s := ∃ s₀, (schedInit E).run s₀ = .ok () s
  legal _
    | .add p => 0 < p
    | .remove p => 0 < p
    | _ => True
  step
    | .add p => procAdd p
    | .remove p => procRemove p
    | .schedule => schedule cpuid
    | .sleep bed => sleep bed
    | .wakeup bed => wakeup bed

/-- `wakeup` returns, and what it did to the states of processes is to make those
on the list that slept on `bed` runnable. -/
def WakesUp (s : Procs σ) (bed : Nat) : Prop :=
  ∃ s', (wakeup bed).run s = .ok () s' ∧
    ∀ q : List Nat, Ring s.links .sentry (q.map .proc) → ∀ p, (s'.proc p).state =
      if p ∈ q ∧ (s.proc p).state = .sleeping ∧ (s.proc p).bed = bed then .runnable
      else (s.proc p).state

/-- It does so in no state: the first thing it does is to get at the null
pointer. -/
theorem wakeup_stops (s : Procs σ) (bed : Nat) :
    (wakeup bed).run s = .error (.oob 0) s ∧ ¬ WakesUp s bed := by
  have hstop : (wakeup bed).run s = .error (.oob 0) s := rfl
  refine ⟨hstop, fun h => ?_⟩
  obtain ⟨s', hrun, _⟩ := h
  rw [hstop] at hrun
  cases hrun

/-- With one process on the list. -/
theorem wakeup_null_first :
    ∃ s, (taskCalls bumpProcEnv 0).Reachable s ∧ Ring s.links .sentry [.proc 0x1000] ∧
      stopped (wakeup 0x42) s = some (.oob 0) ∧ ¬ WakesUp s 0x42 := by
  have h₀ : (taskCalls bumpProcEnv 0).Reachable newSched.procs := .init newSched_init.1
  have hring : Ring newSched.procs.links .sentry [] := ring_init _ _
  refine ⟨_, h₀.step (i := .add 0x1000) (show 0 < 0x1000 by decide) rfl, ?_, rfl, ?_⟩
  · exact hring.addTail (by decide)
  · intro h
    obtain ⟨s', hrun, _⟩ := h
    cases hrun

end Aim.Kern
