import Aim.Kern.Proc
import Aim.Lib.Ends
import Aim.Proofs.BitSearch

/-!
# Process ids

`kpid_new` looks for the first id that is not in the bitmap, and enters it with
`atomic_set_bit`. On i386 that is empty, so the bitmap stays as it was at the
start, and the first free id is 1 every time (`kpidNew_ends`). Two processes at
a time have the same id then, and one at a time has the right one.
-/

namespace Aim.Kern

open Aim.Lib Function

variable {σ : Type}

/-! ## The component -/

/-- The processes, and the list of those that were made and are not destroyed. -/
structure ProcRun (σ : Type) where
  procs : Procs σ
  live : List Nat

inductive ProcCall where
  | new (ns : Nat)
  | destroy (p : Nat)

namespace ProcRun

def call {α : Type} (x : EStateM Stop (Procs σ) α) : EStateM Stop (ProcRun σ) α :=
  zoom procs (fun s r => { r with procs := s }) x

def step (E : ProcEnv σ) (n : Nat) : ProcCall → EStateM Stop (ProcRun σ) Unit
  | .new ns => do
      let p ← call (procNew E n ns)
      if p ≠ 0 then modify fun r => { r with live := p :: r.live }
  | .destroy p => do
      call (procDestroy E p)
      modify fun r => { r with live := r.live.erase p }

/-- The ids of the processes that are there. -/
def kpids (r : ProcRun σ) : List Int := r.live.map fun p => (r.procs.proc p).kpid

end ProcRun

/-- `proc.c` with `n` for `MAX_PROCESSES`. -/
def procCalls (E : ProcEnv σ) (n : Nat) : Machine Stop (ProcRun σ) ProcCall where
  init r := r.procs.bitmap = List.replicate (bitsToLongs n) 0 ∧ r.live = []
  legal r
    | .new _ => True
    | .destroy p => p ∈ r.live
  step := ProcRun.step E n

instance (E : ProcEnv σ) (n : Nat) (r : ProcRun σ) : ∀ c, Decidable ((procCalls E n).legal r c)
  | .new _ => inferInstanceAs (Decidable True)
  | .destroy p => inferInstanceAs (Decidable (p ∈ r.live))

/-- No id is with two processes, and all are ids of processes. -/
structure KpidsOk (n : Nat) (r : ProcRun σ) : Prop where
  distinct : r.kpids.Nodup
  range : ∀ k ∈ r.kpids, 1 ≤ k ∧ k ≤ n

/-- A process is made only when there is none. -/
def OneAtATime (r : ProcRun σ) : ProcCall → Prop
  | .new _ => r.live = []
  | .destroy _ => True

instance (r : ProcRun σ) : ∀ c, Decidable (OneAtATime r c)
  | .new _ => inferInstanceAs (Decidable (r.live = []))
  | .destroy _ => inferInstanceAs (Decidable True)

/-! ## The first id -/

/-- In the empty bitmap the first free id is 1. -/
theorem findFirstZeroBit_empty {n : Nat} (hn : 0 < n) :
    bitmapFindFirstZeroBit (List.replicate (bitsToLongs n) 0) n = .ok 1 := by
  have hroom : n ≤ 32 * (List.replicate (bitsToLongs n) (0 : BitVec 32)).length := by
    rw [List.length_replicate, bitsToLongs]
    omega
  rw [bitmapFindFirstZeroBit, findFirstZeroBit_eq, zeroBits_finds.words_eq_findNext hroom,
    zeroBits_finds.findNext_self_iff hroom le_rfl hn]
  exact bit_replicate_zero _ _

section Calls

variable {E : ProcEnv σ} {n : Nat} {s : Procs σ} {r : ProcRun σ}

theorem kpidNew_ends (hn : 0 < n) (hs : s.bitmap = List.replicate (bitsToLongs n) 0) :
    Ends False (kpidNew n) s fun kpid s' => kpid = 1 ∧ s' = s := by
  rw [kpidNew]
  refine ends_get_bind ?_
  rw [hs, findFirstZeroBit_empty hn]
  refine ends_of_ok rfl ⟨by decide, ?_⟩
  rw [atomicSetBit, ← hs]

/-- What no call of `proc.c` does to ids: the bitmap stays, and an id that is
written is 1. -/
structure IdsKept (s s' : Procs σ) : Prop where
  bitmap : s'.bitmap = s.bitmap
  kpid : ∀ p, (s'.proc p).kpid = (s.proc p).kpid ∨ (s'.proc p).kpid = 1

theorem IdsKept.trans {s' s'' : Procs σ} (h : IdsKept s s') (h' : IdsKept s' s'') :
    IdsKept s s'' where
  bitmap := h'.bitmap.trans h.bitmap
  kpid p := by
    rcases h'.kpid p with hp | hp
    · rw [hp]
      exact h.kpid p
    · exact Or.inr hp

theorem idsKept_env (s : Procs σ) (e : σ) : IdsKept s { s with env := e } :=
  ⟨rfl, fun _ => Or.inl rfl⟩

/-- A `struct proc` is written that has its old id, or 1. -/
theorem idsKept_put {p : Nat} {x : Proc} (hx : x.kpid = (s.proc p).kpid ∨ x.kpid = 1) :
    IdsKept s (s.put p x) where
  bitmap := rfl
  kpid q := by
    show (update s.proc p x q).kpid = _ ∨ (update s.proc p x q).kpid = 1
    by_cases hqp : q = p
    · rw [hqp, update_self]
      exact hx
    · rw [update_of_ne hqp]
      exact Or.inl rfl

theorem onProcEnv_ends {α : Type} (x : EStateM Stop σ α) :
    Ends False (onProcEnv x) s fun _ s' => IdsKept s s' :=
  ends_zoom (ends_any x _) fun _ e _ => idsKept_env s e

theorem allocKstack_ends : Ends False (allocKstack E) s fun _ s' => IdsKept s s' := by
  refine (onProcEnv_ends _).bind fun paddr s' hs' => ?_
  split
  · exact ends_pure hs'
  · exact ends_pure hs'

theorem procNew_ends (hn : 0 < n) (hs : s.bitmap = List.replicate (bitsToLongs n) 0) (ns : Nat) :
    Ends False (procNew E n ns) s fun p s' => IdsKept s s' ∧ (p ≠ 0 → (s'.proc p).kpid = 1) := by
  refine (onProcEnv_ends _).bind fun p s₁ h₁ => ?_
  by_cases hp : p = 0
  · rw [if_pos hp]
    exact ends_pure ⟨h₁, fun h => absurd rfl h⟩
  rw [if_neg hp]
  refine allocKstack_ends.bind fun kstack s₂ h₂ => ?_
  refine ends_modify_bind ?_
  have h₃ : IdsKept s (s₂.put p { s₂.proc p with kstack := kstack }) :=
    h₁.trans (h₂.trans (idsKept_put (Or.inl rfl)))
  generalize s₂.put p { s₂.proc p with kstack := kstack } = s₃ at h₃ ⊢
  by_cases hk : kstack = 0
  · rw [if_pos hk]
    refine (onProcEnv_ends _).bind fun _ s₄ h₄ => ?_
    exact ends_pure ⟨h₃.trans h₄, fun h => absurd rfl h⟩
  · rw [if_neg hk]
    refine (kpidNew_ends hn (h₃.bitmap.trans hs)).bind fun kpid s₄ h₄ => ?_
    obtain ⟨rfl, rfl⟩ := h₄
    refine ends_modify_bind (ends_modify_bind (ends_pure ⟨?_, fun _ => ?_⟩))
    · exact ⟨h₃.bitmap, (h₃.trans (idsKept_put (Or.inr rfl))).kpid⟩
    · show (update s₄.proc p _ p).kpid = 1
      rw [update_self]

theorem procDestroy_ends (p : Nat) : Ends False (procDestroy E p) s fun _ s' => IdsKept s s' := by
  have hderef : Ends False (deref p) s fun _ s' => s' = s := by
    unfold deref
    split
    · exact ends_throw id
    · exact ends_pure rfl
  refine hderef.bind fun _ s' hs' => ?_
  subst hs'
  refine ends_get_bind (ends_modify_bind ?_)
  -- `atomic_clear_bit` is empty.
  refine (onProcEnv_ends _).bind fun _ s₁ h₁ => ?_
  exact (onProcEnv_ends _).imp fun _ s₂ h₂ => h₁.trans h₂

/-! ## Whole runs -/

/-- The bitmap is empty, and everyone is number 1. -/
structure AllOne (n : Nat) (r : ProcRun σ) : Prop where
  bitmap : r.procs.bitmap = List.replicate (bitsToLongs n) 0
  kpid : ∀ p ∈ r.live, (r.procs.proc p).kpid = 1

theorem AllOne.keep (h : AllOne n r) {s' : Procs σ} (hs : IdsKept r.procs s') :
    AllOne n { r with procs := s' } where
  bitmap := hs.bitmap.trans h.bitmap
  kpid p hp := by
    rcases hs.kpid p with hk | hk
    · exact hk.trans (h.kpid p hp)
    · exact hk

theorem AllOne.step (hn : 0 < n) (h : AllOne n r) (c : ProcCall) :
    Ends False (ProcRun.step E n c) r fun _ r' => AllOne n r' ∧
      match c with
      | .new _ => r'.live = r.live ∨ ∃ p, r'.live = p :: r.live
      | .destroy p => r'.live = r.live.erase p := by
  cases c with
  | new ns =>
      refine Ends.bind (Q := fun p r' => AllOne n r' ∧ r'.live = r.live ∧
          (p ≠ 0 → (r'.procs.proc p).kpid = 1)) ?_ fun p r' h' => ?_
      · exact ends_zoom (procNew_ends hn h.bitmap ns) fun p s' hs =>
          ⟨h.keep hs.1, rfl, hs.2⟩
      · obtain ⟨hall, hlive, hone⟩ := h'
        split
        · next hp =>
            refine ends_modify ⟨⟨hall.bitmap, ?_⟩, Or.inr ⟨p, by rw [hlive]⟩⟩
            intro q hq
            rcases List.mem_cons.mp hq with rfl | hq
            · exact hone hp
            · exact hall.kpid q hq
        · exact ends_pure ⟨hall, Or.inl hlive⟩
  | destroy p =>
      refine Ends.bind (Q := fun _ r' => AllOne n r' ∧ r'.live = r.live) ?_ fun _ r' h' => ?_
      · exact ends_zoom (procDestroy_ends p) fun _ s' hs => ⟨h.keep hs, rfl⟩
      · obtain ⟨hall, hlive⟩ := h'
        refine ends_modify ⟨⟨hall.bitmap, ?_⟩, by rw [hlive]⟩
        intro q hq
        exact hall.kpid q (List.mem_of_mem_erase hq)

/-- So the ids are right exactly as long as there is one process at most. -/
theorem AllOne.ok_iff (hn : 0 < n) (h : AllOne n r) : KpidsOk n r ↔ r.live.length ≤ 1 := by
  have hkpids : r.kpids = List.replicate r.live.length 1 := by
    rw [List.eq_replicate_iff]
    refine ⟨List.length_map _, fun k hk => ?_⟩
    obtain ⟨p, hp, rfl⟩ := List.mem_map.mp hk
    exact h.kpid p hp
  constructor
  · intro hok
    have hdistinct := hok.distinct
    rw [hkpids] at hdistinct
    exact List.nodup_replicate.mp hdistinct
  · intro hle
    refine ⟨?_, fun k hk => ?_⟩
    · rw [hkpids]
      exact List.nodup_replicate.mpr hle
    · rw [hkpids] at hk
      rw [List.eq_of_mem_replicate hk]
      omega

end Calls

/-- As long as a process is made only when there is none, ids are right. -/
theorem kpids_ok_one_at_a_time {E : ProcEnv σ} {n : Nat} (hn : 0 < n) {r : ProcRun σ}
    (hr : ((procCalls E n).restrict OneAtATime).Reachable r) : KpidsOk n r := by
  have hinv : AllOne n r ∧ r.live.length ≤ 1 := by
    refine Machine.reachable_of_kept (I := fun r => AllOne n r ∧ r.live.length ≤ 1) ?_ ?_ hr
    · intro r hinit
      refine ⟨⟨hinit.1, ?_⟩, ?_⟩
      · intro p hp
        rw [hinit.2] at hp
        cases hp
      · rw [hinit.2]
        exact Nat.zero_le 1
    · intro r c r' hI hl hrun
      obtain ⟨hall, hlive⟩ := (hI.1.step hn c).of_run hrun
      refine ⟨hall, ?_⟩
      cases c with
      | new ns =>
          have hnone : r.live = [] := hl.2
          rcases hlive with hlive | ⟨p, hlive⟩
          · rw [hlive, hnone]
            exact Nat.zero_le 1
          · rw [hlive, hnone]
            exact Nat.le_refl 1
      | destroy p =>
          have hle := hI.2
          simp only at hlive
          rw [hlive]
          exact Nat.le_trans (List.length_erase_le) hle
  exact (hinv.1.ok_iff hn).mpr hinv.2

/-- Allocators that answer one page after the other. -/
def bumpProcEnv : ProcEnv Nat where
  kmalloc _ := modifyGet fun k => (0x100000 + 0x1000 * k, k + 1)
  kfree _ := return ()
  pgalloc := modifyGet fun k => (0x100000 + 0x1000 * k, k + 1)
  pgfree _ := return ()

/-- Before the first process, with 65536 for `MAX_PROCESSES`. -/
def noProcs : ProcRun Nat where
  procs :=
    { env := 0
      bitmap := List.replicate (bitsToLongs 65536) 0
      proc := fun _ => ⟨0, 0, 0, 0, 0, .unset, 0, 0, 0, 0⟩
      links := ⟨id, id⟩
      owner := fun _ => 0
      scheduler := 0
      idle := 0x1000
      current := 0x1000
      inSleep := fun _ => false }
  live := []

/-- One process after the other gets the number 1. -/
theorem kpids_ok_one_at_a_time_twice :
    ∃ r, ((procCalls bumpProcEnv 65536).restrict OneAtATime).Reachable r ∧ r.kpids = [1] ∧
      KpidsOk 65536 r := by
  have h₀ : ((procCalls bumpProcEnv 65536).restrict OneAtATime).Reachable noProcs :=
    .init ⟨rfl, rfl⟩
  obtain ⟨r, hreach, hkpids⟩ := h₀.sees [.new 0, .destroy 0x100000, .new 0] ProcRun.kpids [1]
    (by decide +kernel) (by decide +kernel)
  exact ⟨r, hreach, hkpids, kpids_ok_one_at_a_time (by decide) hreach⟩

/-- And so does a second one beside it. -/
theorem kpids_twice_one :
    ∃ r, (procCalls bumpProcEnv 65536).Reachable r ∧ r.live = [0x102000, 0x100000] ∧
      r.kpids = [1, 1] ∧ ¬ KpidsOk 65536 r := by
  have h₀ : (procCalls bumpProcEnv 65536).Reachable noProcs := .init ⟨rfl, rfl⟩
  obtain ⟨r, hreach, hsee⟩ := h₀.sees [.new 0, .new 0] (fun r => (r.live, r.kpids))
    ([0x102000, 0x100000], [1, 1]) (by decide +kernel) (by decide +kernel)
  obtain ⟨hlive, hkpids⟩ := Prod.mk.inj hsee
  refine ⟨r, hreach, hlive, hkpids, fun hok => ?_⟩
  have hdistinct := hok.distinct
  rw [hkpids] at hdistinct
  exact absurd hdistinct (by decide)

end Aim.Kern
