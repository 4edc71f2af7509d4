import Mathlib.Data.Finset.Card

/-!
# Parties that take turns

Each of the parties `ι` is at some position, and they share `w`. `OneInside` is
the invariant of a lock among them: no two are inside, the shared state is as
`free` says while none is, and as `held` says of the one that is. A step moves
one party, so there is one rule for each way of doing that. `AtMost` counts
parties, of which there need not be finitely many.
-/

namespace Aim.Lib

open Function

variable {ι Q W : Type}

structure OneInside (inside : Q → Prop) (free : W → Prop) (held : ι → Q → W → Prop)
    (pos : ι → Q) (w : W) : Prop where
  free : (∀ i, ¬ inside (pos i)) → free w
  held : ∀ i, inside (pos i) → (∀ j, j ≠ i → ¬ inside (pos j)) ∧ held i (pos i) w

/-- At most `n` of the parties are at a position with `p`. -/
def AtMost (p : Q → Prop) (n : Nat) (pos : ι → Q) : Prop :=
  ∀ T : Finset ι, (∀ i ∈ T, p (pos i)) → T.card ≤ n

section Inside

variable {inside : Q → Prop} {free : W → Prop} {held : ι → Q → W → Prop} {pos : ι → Q} {w w' : W}
  {i : ι} {q : Q}

theorem OneInside.of_free (hout : ∀ i, ¬ inside (pos i)) (h : free w) :
    OneInside inside free held pos w :=
  ⟨fun _ => h, fun i hi => absurd hi (hout i)⟩

/-- Whoever is inside keeps the others out of any state in which nobody would be. -/
theorem OneInside.all_out (h : OneInside inside free held pos w)
    (hno : ∀ i, inside (pos i) → ¬ held i (pos i) w) : (∀ i, ¬ inside (pos i)) ∧ free w := by
  have hout : ∀ i, ¬ inside (pos i) := fun i hi => hno i hi (h.held i hi).2
  exact ⟨hout, h.free hout⟩

theorem OneInside.cases (h : OneInside inside free held pos w) :
    free w ∨ ∃ i, inside (pos i) ∧ held i (pos i) w := by
  by_cases hout : ∀ i, ¬ inside (pos i)
  · exact .inl (h.free hout)
  · obtain ⟨i, hi⟩ := not_forall_not.mp hout
    exact .inr ⟨i, hi, (h.held i hi).2⟩

variable [DecidableEq ι]

/-- A party moves outside. -/
theorem OneInside.watch (h : OneInside inside free held pos w) (hi : ¬ inside (pos i))
    (hq : ¬ inside q) : OneInside inside free held (update pos i q) w := by
  have hsame : ∀ j, inside (update pos i q j) ↔ inside (pos j) := by
    intro j
    by_cases hj : j = i
    · rw [hj, update_self]
      exact iff_of_false hq hi
    · rw [update_of_ne hj]
  refine ⟨fun hout => h.free fun j hj => hout j ((hsame j).mpr hj), fun j hj => ?_⟩
  have hji : j ≠ i := by
    rintro rfl
    exact hi ((hsame j).mp hj)
  obtain ⟨hothers, hheld⟩ := h.held j ((hsame j).mp hj)
  rw [update_of_ne hji]
  exact ⟨fun k hk hin => hothers k hk ((hsame k).mp hin), hheld⟩

theorem update_out (hothers : ∀ j, j ≠ i → ¬ inside (pos j)) :
    ∀ j, j ≠ i → ¬ inside (update pos i q j) := by
  intro j hj
  rw [update_of_ne hj]
  exact hothers j hj

/-- A party goes in, or on, while the others are out. -/
theorem OneInside.advance (hothers : ∀ j, j ≠ i → ¬ inside (pos j)) (hq : inside q)
    (hheld : held i q w') : OneInside inside free held (update pos i q) w' := by
  have hout := update_out (q := q) hothers
  refine ⟨fun hall => ?_, fun j hj => ?_⟩
  · refine absurd ?_ (hall i)
    rwa [update_self]
  · have hji : j = i := by
      by_contra hne
      exact hout j hne hj
    rw [hji, update_self]
    exact ⟨hout, hheld⟩

/-- A party comes out, while the others are out. -/
theorem OneInside.leave (hothers : ∀ j, j ≠ i → ¬ inside (pos j)) (hq : ¬ inside q)
    (hfree : free w') : OneInside inside free held (update pos i q) w' := by
  refine .of_free (fun j => ?_) hfree
  by_cases hj : j = i
  · rwa [hj, update_self]
  · exact update_out hothers j hj

end Inside

section Count

variable {p : Q → Prop} {n : Nat} {pos : ι → Q} {i : ι} {q : Q}

theorem AtMost.of_none (h : ∀ i, ¬ p (pos i)) : AtMost p n pos := by
  intro T hT
  have hempty : T = ∅ := Finset.eq_empty_of_forall_notMem fun i hi => h i (hT i hi)
  simp [hempty]

theorem AtMost.pos_of_mem (h : AtMost p n pos) (hi : p (pos i)) : 0 < n := by
  have hone := h {i}
  simp only [Finset.mem_singleton, forall_eq, Finset.card_singleton] at hone
  exact hone hi

variable [DecidableEq ι]

theorem AtMost.stay (h : AtMost p n pos) (hq : p q → p (pos i)) : AtMost p n (update pos i q) := by
  intro T hT
  refine h T fun j hj => ?_
  have hpj := hT j hj
  by_cases hji : j = i
  · rw [hji, update_self] at hpj
    exact hji ▸ hq hpj
  · rwa [update_of_ne hji] at hpj

theorem AtMost.erase (h : AtMost p n pos) {T : Finset ι}
    (hT : ∀ j ∈ T, p (update pos i q j)) : (T.erase i).card ≤ n := by
  refine h _ fun j hj => ?_
  obtain ⟨hji, hj⟩ := Finset.mem_erase.mp hj
  have hpj := hT j hj
  rwa [update_of_ne hji] at hpj

theorem AtMost.start (h : AtMost p n pos) : AtMost p (n + 1) (update pos i q) := by
  intro T hT
  have hle := h.erase hT
  have hpred := Finset.pred_card_le_card_erase (s := T) (a := i)
  omega

theorem AtMost.stop (h : AtMost p n pos) (hi : p (pos i)) (hq : ¬ p q) :
    AtMost p (n - 1) (update pos i q) := by
  intro T hT
  have hiT : i ∉ T := by
    intro hmem
    have hpi := hT i hmem
    rw [update_self] at hpi
    exact hq hpi
  have hle : (insert i T).card ≤ n := by
    refine h _ fun j hj => ?_
    rcases Finset.mem_insert.mp hj with rfl | hj
    · exact hi
    · have hpj := hT j hj
      have hji : j ≠ i := ne_of_mem_of_not_mem hj hiT
      rwa [update_of_ne hji] at hpj
  rw [Finset.card_insert_of_notMem hiT] at hle
  omega

end Count

end Aim.Lib
