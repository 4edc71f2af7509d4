import Aim.Lib.Ends
import Aim.Proofs.MpTable

/-!
# The two numbers of a processor

`cpunum` answers the slot of a processor, which it looks up by the id of the
local APIC. `cpuid` reads the slot's address back and answers the id that is
stored there. So the two agree on a processor only if its id is the number of
its slot.
-/

namespace Aim.Kern

open Aim.Lib

/-- `cpus` never overflows. -/
theorem mpinitLoop_ncpu {mem : Nat → UInt8} {e fuel p : Nat} {s : Mp} (h : s.ncpu ≤ ncpuMax) :
    Ends False (mpinitLoop mem e fuel p) s fun _ s' => s'.ncpu ≤ ncpuMax := by
  induction fuel generalizing p s with
  | zero => exact ends_throw id
  | succ fuel ih =>
      rw [mpinitLoop]
      by_cases hp : p < e
      · rw [if_pos hp]
        split
        · refine ends_modify_bind (ih ?_)
          by_cases hroom : s.ncpu < ncpuMax
          · rw [if_pos hroom]
            exact hroom
          · rw [if_neg hroom]
            exact h
        · exact ends_modify_bind (ih h)
        · exact ih h
        · exact ih h
        · exact ih h
        · exact ends_modify_bind (ih h)
      · rw [if_neg hp]
        exact ends_pure h

theorem mpinit_ncpu {mem : Nat → UInt8} {s : Mp} (h : (mpinit mem).run .zero = .ok () s) :
    s.ncpu ≤ ncpuMax := by
  have hends : Ends False (mpinit mem) .zero fun _ s' => s'.ncpu ≤ ncpuMax := by
    rw [mpinit]
    cases mpconfig mem with
    | none => exact ends_pure (Nat.zero_le _)
    | some conf =>
        refine ends_modify_bind ?_
        refine (mpinitLoop_ncpu (Nat.zero_le _)).bind ?_
        intro _ s' hs'
        refine ends_modify ?_
        by_cases hmp : s'.ismp = true
        · rw [if_pos hmp]
          exact hs'
        · rw [if_neg hmp]
          show 1 ≤ ncpuMax
          decide
  exact hends.of_run h

/-- A processor with an id of its own finds its slot. -/
theorem cpunum_eq {s : Mp} {k id : Nat} (hlapic : s.lapic ≠ 0)
    (hdistinct : ∀ i < s.ncpu, ∀ j < s.ncpu, s.apicid i = s.apicid j → i = j)
    (hk : k < s.ncpu) (hid : id / 2 ^ 24 = (s.apicid k).toNat) : cpunum s id = k := by
  rw [cpunum, if_neg hlapic, hid]
  cases hfind : (List.range s.ncpu).find? fun i =>
      decide ((s.apicid i).toNat = (s.apicid k).toNat) with
  | none =>
      rw [List.find?_eq_none] at hfind
      have hself := hfind k (List.mem_range.mpr hk)
      simp only [decide_true, not_true_eq_false] at hself
  | some i =>
      have hi := List.mem_range.mp (List.mem_of_find?_eq_some hfind)
      have heq : (s.apicid i).toNat = (s.apicid k).toNat := by
        simpa using List.find?_some hfind
      exact hdistinct i hi k hk (UInt8.toNat_inj.mp heq)

/-- Both numbers of a processor are its slot `k`, and the slot is one of `cpus`
and of the `maxCpus` entries of `idleproc`. -/
structure OwnSlot (maxCpus : Nat) (s : Mp) (gs : Option Nat) (id k : Nat) : Prop where
  cpuid : cpuid s gs = k
  cpunum : cpunum s id = k
  cpus : Aim.Kern.cpuid s gs < ncpuMax
  idleproc : Aim.Kern.cpuid s gs < maxCpus

/-- After `mpinit` and `seginit` the two numbers of processor `k` agree exactly
when the table gives it the id `k`. -/
theorem ownSlot_iff {mem : Nat → UInt8} {s : Mp} {maxCpus k id : Nat}
    (hinit : (mpinit mem).run .zero = .ok () s) (hlapic : s.lapic ≠ 0)
    (hdistinct : ∀ i < s.ncpu, ∀ j < s.ncpu, s.apicid i = s.apicid j → i = j)
    (hk : k < s.ncpu) (hid : id / 2 ^ 24 = (s.apicid k).toNat) :
    OwnSlot maxCpus s (seginit s id) id k ↔ (s.apicid k).toNat = k ∧ k < maxCpus := by
  have hnum := cpunum_eq hlapic hdistinct hk hid
  have hcpuid : cpuid s (seginit s id) = (s.apicid k).toNat := by
    rw [seginit, hnum, cpuid]
  have hncpu := mpinit_ncpu hinit
  constructor
  · intro h
    have hown := h.cpuid
    have hidle := h.idleproc
    rw [hcpuid] at hown hidle
    exact ⟨hown, by omega⟩
  · intro h
    obtain ⟨hown, hmax⟩ := h
    rw [hown] at hcpuid
    exact ⟨hcpuid, hnum, by omega, by omega⟩

/-- A machine with two processors, whose ids are `a` and `b`. -/
def twoCpus (a b check : UInt8) : Nat → UInt8 :=
  mpMachine 84 check 2 ((0 :: a :: List.replicate 18 0) ++ (0 :: b :: List.replicate 18 0))

/-- What `mpinit` makes of such a machine. -/
def TwoSlots (s : Mp) (a b : UInt8) : Prop :=
  s.ncpu = 2 ∧ s.lapic = 0xfee00000 ∧ s.apicid 0 = a ∧ s.apicid 1 = b

theorem TwoSlots.distinct {s : Mp} {a b : UInt8} (h : TwoSlots s a b) (hab : a ≠ b) :
    ∀ i < s.ncpu, ∀ j < s.ncpu, s.apicid i = s.apicid j → i = j := by
  obtain ⟨hn, _, ha, hb⟩ := h
  intro i hi j hj hij
  have hi' : i = 0 ∨ i = 1 := by omega
  have hj' : j = 0 ∨ j = 1 := by omega
  rcases hi' with rfl | rfl <;> rcases hj' with rfl | rfl
  · rfl
  · exact absurd (ha ▸ hb ▸ hij) hab
  · exact absurd (ha ▸ hb ▸ hij.symm) hab
  · rfl

theorem twoCpus_init {a b check : UInt8}
    (h : returned (mpinit (twoCpus a b check)) .zero
      (fun _ s => (s.ncpu, s.lapic, s.apicid 0, s.apicid 1)) = some (2, 0xfee00000, a, b)) :
    ∃ s, (mpinit (twoCpus a b check)).run .zero = .ok () s ∧ TwoSlots s a b := by
  obtain ⟨_, s, hrun, hs⟩ := returned_eq_some h
  simp only [Prod.mk.injEq] at hs
  exact ⟨s, hrun, hs⟩

/-- The second processor of a machine with the ids 0 and 1. -/
theorem ownSlot_iff_dense : ∃ s, (mpinit (twoCpus 0 1 0x97)).run .zero = .ok () s ∧
    (OwnSlot 2 s (seginit s 0x01000000) 0x01000000 1 ↔ (s.apicid 1).toNat = 1 ∧ 1 < 2) := by
  have hinit : returned (mpinit (twoCpus 0 1 0x97)) .zero
      (fun _ s => (s.ncpu, s.lapic, s.apicid 0, s.apicid 1)) = some (2, 0xfee00000, 0, 1) := by
    decide +kernel
  obtain ⟨s, hrun, hslots⟩ := twoCpus_init hinit
  have hdistinct := hslots.distinct (by decide)
  obtain ⟨hn, hlapic, _, hb⟩ := hslots
  refine ⟨s, hrun, ownSlot_iff hrun ?_ hdistinct ?_ ?_⟩
  · rw [hlapic]
    decide
  · omega
  · rw [hb]
    decide

/-- The second processor of a machine with the ids 0 and 9 is told that it is
number 9, past the end of `cpus`. -/
theorem cpuid_sparse : ∃ s, (mpinit (twoCpus 0 9 0x8f)).run .zero = .ok () s ∧ s.ncpu = 2 ∧
    cpunum s 0x09000000 = 1 ∧ cpuid s (seginit s 0x09000000) = 9 ∧
    ∀ maxCpus, ¬ OwnSlot maxCpus s (seginit s 0x09000000) 0x09000000 1 := by
  have hinit : returned (mpinit (twoCpus 0 9 0x8f)) .zero
      (fun _ s => (s.ncpu, s.lapic, s.apicid 0, s.apicid 1)) = some (2, 0xfee00000, 0, 9) := by
    decide +kernel
  obtain ⟨s, hrun, hslots⟩ := twoCpus_init hinit
  have hdistinct := hslots.distinct (by decide)
  obtain ⟨hn, hlapic, _, hb⟩ := hslots
  have hnum : cpunum s 0x09000000 = 1 := by
    refine cpunum_eq ?_ hdistinct (by omega) ?_
    · rw [hlapic]
      decide
    · rw [hb]
      decide
  have hcpuid : cpuid s (seginit s 0x09000000) = 9 := by
    rw [seginit, hnum, cpuid, hb]
    decide
  refine ⟨s, hrun, hn, hnum, hcpuid, ?_⟩
  intro maxCpus h
  have hown := h.cpuid
  rw [hcpuid] at hown
  omega

end Aim.Kern
