import Aim.Kern.Mp

/-!
# The walk over the table of the processors

A round of the loop of `mpinit` is a step to the next entry if the type of the entry
is known, and no step at all if it is not (`run_known`, `run_unknown`). So the loop
ends exactly on the tables whose walk meets no unknown type, with any fuel that is
more than the bytes of the table.

A table without an entry for a processor passes all checks too, and then `ncpu` stays
0 (`mpinit_iff`).
-/

namespace Aim.Kern

open Aim.Lib

/-- The bytes of an entry, by its type. -/
def entrySize (type : Nat) : Option Nat :=
  if type = 0 then some 20 else if type ≤ 4 then some 8 else none

/-- The walk from `p` to the end `e` meets the entry at `q`. -/
inductive Meets (mem : Nat → UInt8) (e : Nat) : Nat → Nat → Prop
  | here {p : Nat} (hp : p < e) : Meets mem e p p
  | next {p q n : Nat} (hp : p < e) (hn : entrySize (mem p).toNat = some n)
      (hq : Meets mem e (p + n) q) : Meets mem e p q

/-- All types that are met are known. -/
def AllKnown (mem : Nat → UInt8) (e p : Nat) : Prop :=
  ∀ q, Meets mem e p q → entrySize (mem q).toNat ≠ none

/-- What an entry of a known type changes. -/
def takeEntry (mem : Nat → UInt8) (p : Nat) (s : Mp) : Mp :=
  match (mem p).toNat with
  | 0 =>
      if s.ncpu < ncpuMax then
        { s with apicid := Function.update s.apicid s.ncpu (mem (p + 1)), ncpu := s.ncpu + 1 }
      else s
  | 2 => { s with ioapicid := mem (p + 1) }
  | _ => s

section Round

variable {mem : Nat → UInt8} {e p n : Nat} {s : Mp}

theorem entrySize_eq_some {type : Nat} (h : entrySize type = some n) :
    type = 0 ∧ n = 20 ∨ (type = 1 ∨ type = 2 ∨ type = 3 ∨ type = 4) ∧ n = 8 := by
  rw [entrySize] at h
  split at h
  · exact .inl ⟨‹_›, (Option.some.inj h).symm⟩
  · split at h
    · exact .inr ⟨by omega, (Option.some.inj h).symm⟩
    · cases h

theorem entrySize_eq_none {type : Nat} (h : entrySize type = none) : 5 ≤ type := by
  rw [entrySize] at h
  split at h
  · cases h
  · split at h
    · cases h
    · omega

theorem run_known (hp : p < e) (hn : entrySize (mem p).toNat = some n) (fuel : Nat) :
    (mpinitLoop mem e (fuel + 1) p).run s =
      (mpinitLoop mem e fuel (p + n)).run (takeEntry mem p s) := by
  rw [mpinitLoop, if_pos hp, takeEntry]
  rcases entrySize_eq_some hn with ⟨ht, rfl⟩ | ⟨ht | ht | ht | ht, rfl⟩
  · rw [ht]
    rfl
  · rw [ht]
    rfl
  · rw [ht]
    rfl
  · rw [ht]
    rfl
  · rw [ht]
    rfl

theorem run_unknown (hp : p < e) (hn : entrySize (mem p).toNat = none) (fuel : Nat) :
    (mpinitLoop mem e (fuel + 1) p).run s =
      (mpinitLoop mem e fuel p).run { s with ismp := false } := by
  obtain ⟨k, hk⟩ := Nat.exists_eq_add_of_le' (entrySize_eq_none hn)
  rw [mpinitLoop, if_pos hp, hk]
  rfl

/-- With an entry the number of processors goes up by one, if it is one for a
processor and there is a slot left. -/
theorem takeEntry_ncpu (mem : Nat → UInt8) (p : Nat) (s : Mp) : (takeEntry mem p s).ncpu =
    if (mem p).toNat = 0 ∧ s.ncpu < ncpuMax then s.ncpu + 1 else s.ncpu := by
  rw [takeEntry]
  split
  · next h =>
      by_cases hroom : s.ncpu < ncpuMax
      · simp [hroom, h]
      · simp [hroom]
  · next h => simp [h]
  · next h _ => rw [if_neg fun hzero => h hzero.1]

theorem takeEntry_ismp : (takeEntry mem p s).ismp = s.ismp := by
  rw [takeEntry]
  split
  · split <;> rfl
  · rfl
  · rfl

end Round

/-! ## Whole tables -/

section Table

variable {mem : Nat → UInt8} {e p : Nat}

theorem AllKnown.next {n : Nat} (h : AllKnown mem e p) (hp : p < e)
    (hn : entrySize (mem p).toNat = some n) : AllKnown mem e (p + n) :=
  fun q hq => h q (.next hp hn hq)

/-- What is met from an entry on is this entry, or is met from the next one on. -/
theorem exists_meets_iff {n : Nat} (hp : p < e) (hn : entrySize (mem p).toNat = some n)
    (P : Nat → Prop) : (∃ q, Meets mem e p q ∧ P q) ↔ P p ∨ ∃ q, Meets mem e (p + n) q ∧ P q := by
  constructor
  · rintro ⟨q, hq, hP⟩
    cases hq with
    | here => exact .inl hP
    | next _ hn' hq =>
        obtain rfl : n = _ := Option.some.inj (hn.symm.trans hn')
        exact .inr ⟨q, hq, hP⟩
  · rintro (hP | ⟨q, hq, hP⟩)
    · exact ⟨p, .here hp, hP⟩
    · exact ⟨q, .next hp hn hq, hP⟩

/-- A table of known types is walked to its end. -/
theorem run_mpinitLoop (hknown : AllKnown mem e p) {fuel : Nat} (hfuel : e - p < fuel) {s : Mp}
    (hs : s.ncpu ≤ ncpuMax) : ∃ s', (mpinitLoop mem e fuel p).run s = .ok () s' ∧
      s'.ismp = s.ismp ∧ s'.ncpu ≤ ncpuMax ∧
      (0 < s'.ncpu ↔ 0 < s.ncpu ∨ ∃ q, Meets mem e p q ∧ (mem q).toNat = 0) := by
  induction fuel generalizing p s with
  | zero => omega
  | succ fuel ih =>
      by_cases hp : p < e
      · obtain ⟨n, hn⟩ := Option.ne_none_iff_exists'.mp (hknown p (.here hp))
        have hpos : 0 < n := by
          rcases entrySize_eq_some hn with ⟨-, rfl⟩ | ⟨-, rfl⟩
          · decide
          · decide
        have hncpu := takeEntry_ncpu mem p s
        have hmax : 0 < ncpuMax := by decide
        have hle : (takeEntry mem p s).ncpu ≤ ncpuMax := by
          rw [hncpu]
          split
          · omega
          · exact hs
        obtain ⟨s', hrun, hismp, hle', hiff⟩ := ih (hknown.next hp hn) (by omega) hle
        refine ⟨s', (run_known hp hn fuel).trans hrun, hismp.trans takeEntry_ismp, hle', ?_⟩
        rw [hiff, exists_meets_iff hp hn, ← or_assoc, hncpu]
        refine or_congr_left ?_
        split
        · omega
        · omega
      · refine ⟨s, ?_, rfl, hs, ?_⟩
        · rw [mpinitLoop, if_neg hp]
          rfl
        · refine ⟨.inl, fun h => h.resolve_right ?_⟩
          rintro ⟨q, hq, -⟩
          cases hq
          · exact hp ‹_›
          · exact hp ‹_›

/-- A table with an unknown type is not. -/
theorem run_mpinitLoop_unknown {q : Nat} (hq : Meets mem e p q)
    (hunknown : entrySize (mem q).toNat = none) (fuel : Nat) (s : Mp) :
    ∃ s', (mpinitLoop mem e fuel p).run s = .error .fuel s' := by
  induction fuel generalizing p s with
  | zero => exact ⟨s, rfl⟩
  | succ fuel ih =>
      cases hq with
      | here hp =>
          rw [run_unknown hp hunknown]
          exact ih (.here hp) _
      | next hp hn hq =>
          rw [run_known hp hn]
          exact ih hq _

end Table

/-! ## `mpinit` -/

theorem confLength_lt (mem : Nat → UInt8) (conf : Nat) : confLength mem conf < 2 ^ 16 := by
  have hlow := (mem (conf + 4 + 0)).toNat_lt
  have hhigh := (mem (conf + 4 + 1)).toNat_lt
  show (mem (conf + 4 + 0)).toNat + 2 ^ 8 * ((mem (conf + 4 + 1)).toNat + 2 ^ 8 * 0) < 2 ^ 16
  omega

/-- The state in which the loop starts. -/
def mpStart (mem : Nat → UInt8) (conf : Nat) : Mp :=
  { Mp.zero with ismp := true, lapic := wordAt mem (conf + 36) 4 }

section Mpinit

variable {mem : Nat → UInt8} {conf : Nat}

theorem run_mpinit (hconf : mpconfig mem = some conf) : (mpinit mem).run .zero =
    ((mpinitLoop mem (conf + confLength mem conf) (2 ^ 16 + 1) (conf + 44)) >>= fun _ =>
      modify fun s => if s.ismp then s else { s with ncpu := 1, lapic := 0, ioapicid := 0 }).run
        (mpStart mem conf) := by
  rw [mpinit, hconf]
  rfl

/-- With known types, `mpinit` returns in the state after the loop. -/
theorem run_mpinit_known (hconf : mpconfig mem = some conf)
    (hknown : AllKnown mem (conf + confLength mem conf) (conf + 44)) :
    ∃ s, (mpinitLoop mem (conf + confLength mem conf) (2 ^ 16 + 1) (conf + 44)).run
        (mpStart mem conf) = .ok () s ∧
      (mpinit mem).run .zero = .ok () s ∧ s.ncpu ≤ ncpuMax ∧
      (0 < s.ncpu ↔
        ∃ q, Meets mem (conf + confLength mem conf) (conf + 44) q ∧ (mem q).toNat = 0) := by
  have hlength := confLength_lt mem conf
  have hfuel : conf + confLength mem conf - (conf + 44) < 2 ^ 16 + 1 := by omega
  obtain ⟨s, hrun, hismp, hle, hiff⟩ := run_mpinitLoop hknown hfuel
    (show (mpStart mem conf).ncpu ≤ ncpuMax from Nat.zero_le _)
  refine ⟨s, hrun, ?_, hle, ?_⟩
  · rw [run_mpinit hconf, run_bind_ok hrun]
    show EStateM.Result.ok () (if s.ismp = true then s else _) = _
    rw [if_pos (show s.ismp = true from hismp)]
  · rw [hiff]
    exact or_iff_right (Nat.lt_irrefl 0)

theorem run_mpinit_unknown {q : Nat} (hconf : mpconfig mem = some conf)
    (hq : Meets mem (conf + confLength mem conf) (conf + 44) q)
    (hunknown : entrySize (mem q).toNat = none) :
    ∃ s, (mpinit mem).run .zero = .error .fuel s := by
  obtain ⟨s, hrun⟩ := run_mpinitLoop_unknown hq hunknown (2 ^ 16 + 1) (mpStart mem conf)
  refine ⟨s, ?_⟩
  rw [run_mpinit hconf, run_bind_error hrun]

end Mpinit

/-- For a table that `mpconfig` accepts, the loop ends for some fuel only if no unknown
type is met, and `mpinit` returns with a number of processors from 1 to `NCPU` only if
there also is an entry for one. -/
theorem mpinit_iff {mem : Nat → UInt8} {conf : Nat} (hconf : mpconfig mem = some conf) :
    ((∃ fuel s, (mpinitLoop mem (conf + confLength mem conf) fuel (conf + 44)).run
        (mpStart mem conf) = .ok () s) ↔
      AllKnown mem (conf + confLength mem conf) (conf + 44)) ∧
    ((∃ s, (mpinit mem).run .zero = .ok () s ∧ 1 ≤ s.ncpu ∧ s.ncpu ≤ ncpuMax) ↔
      AllKnown mem (conf + confLength mem conf) (conf + 44) ∧
      ∃ q, Meets mem (conf + confLength mem conf) (conf + 44) q ∧ (mem q).toNat = 0) := by
  refine ⟨⟨?_, ?_⟩, ?_, ?_⟩
  · rintro ⟨fuel, s, hrun⟩ q hq hunknown
    obtain ⟨s', herror⟩ := run_mpinitLoop_unknown hq hunknown fuel (mpStart mem conf)
    rw [herror] at hrun
    cases hrun
  · intro hknown
    obtain ⟨s, hrun, -⟩ := run_mpinit_known hconf hknown
    exact ⟨_, s, hrun⟩
  · rintro ⟨s, hrun, hpos, -⟩
    have hknown : AllKnown mem (conf + confLength mem conf) (conf + 44) := by
      intro q hq hunknown
      obtain ⟨s', herror⟩ := run_mpinit_unknown hconf hq hunknown
      rw [herror] at hrun
      cases hrun
    obtain ⟨s', -, hrun', -, hiff⟩ := run_mpinit_known hconf hknown
    rw [hrun'] at hrun
    cases hrun
    exact ⟨hknown, hiff.mp hpos⟩
  · rintro ⟨hknown, hproc⟩
    obtain ⟨s, -, hrun, hle, hiff⟩ := run_mpinit_known hconf hknown
    exact ⟨s, hrun, hiff.mpr hproc, hle⟩

/-- A machine with a table of `length` bytes and `count` entries, whose checksum is
`check`. -/
def mpMachine (length check count : UInt8) (entries : List UInt8) (p : Nat) : UInt8 :=
  let mp : List UInt8 :=
    [0x5f, 0x4d, 0x50, 0x5f, 0, 0x10, 0, 0, 1, 4, 0x90, 0, 0, 0, 0, 0]
  let conf : List UInt8 :=
    [0x50, 0x43, 0x4d, 0x50, length, 0, 4, check] ++ List.replicate 26 0 ++
      [count, 0, 0, 0, 0xe0, 0xfe, 0, 0, 0, 0] ++ entries
  if 0xF0000 ≤ p then mp.getD (p - 0xF0000) 0
  else if 0x1000 ≤ p then conf.getD (p - 0x1000) 0
  else 0

/-- One entry of 8 bytes, of the type `type`. -/
def oneEntry (type check : UInt8) : Nat → UInt8 :=
  mpMachine 52 check 1 (type :: List.replicate 7 0)

/-- The entry of a bus. -/
theorem mpinit_iff_bus : mpconfig (oneEntry 1 0xb8) = some 0x1000 ∧
    ((∃ s, (mpinit (oneEntry 1 0xb8)).run .zero = .ok () s ∧ 1 ≤ s.ncpu ∧ s.ncpu ≤ ncpuMax) ↔
      AllKnown (oneEntry 1 0xb8) (0x1000 + confLength (oneEntry 1 0xb8) 0x1000) (0x1000 + 44) ∧
      ∃ q, Meets (oneEntry 1 0xb8) (0x1000 + confLength (oneEntry 1 0xb8) 0x1000) (0x1000 + 44) q ∧
        (oneEntry 1 0xb8 q).toNat = 0) := by
  have hconf : mpconfig (oneEntry 1 0xb8) = some 0x1000 := by decide +kernel
  exact ⟨hconf, (mpinit_iff hconf).2⟩

/-- An entry of type 5 is looked at forever, and with the entry of a bus only the
machine is left without a processor. -/
theorem mpinit_spins :
    (mpconfig (oneEntry 5 0xb4) = some 0x1000 ∧ ∀ fuel s, ∃ s',
      (mpinitLoop (oneEntry 5 0xb4) (0x1000 + confLength (oneEntry 5 0xb4) 0x1000) fuel
        (0x1000 + 44)).run s = .error .fuel s') ∧
    (mpconfig (oneEntry 1 0xb8) = some 0x1000 ∧
      returned (mpinit (oneEntry 1 0xb8)) .zero (fun _ s => s.ncpu) = some 0) := by
  have hlength : 0x1000 + 44 < 0x1000 + confLength (oneEntry 5 0xb4) 0x1000 := by decide +kernel
  have htype : entrySize (oneEntry 5 0xb4 (0x1000 + 44)).toNat = none := by decide +kernel
  refine ⟨⟨by decide +kernel, ?_⟩, by decide +kernel, by decide +kernel⟩
  exact run_mpinitLoop_unknown (.here hlength) htype

end Aim.Kern
