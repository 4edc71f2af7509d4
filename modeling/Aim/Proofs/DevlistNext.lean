import Aim.Proofs.DevlistRun

/-!
# `for_each_device`

The cursor of the iteration is an entry, and its last value is the entry of
`__head`, four bytes in front of it. The test for the end compares the cursor
with `__head` itself and never succeeds. What ends the iteration is the word
`dev` read at the cursor: a device in the list is not `NULL`, and the word in
front of `__head` may or may not be. If it is not, the iteration goes on with
the first device again, for ever.
-/

namespace Aim.Kern

open Aim.Lib
open Devlist (nodeOf entryOf next deviceLoop forEachDevice)

variable {σ : Type} {E : DevEnv σ} {s : Devlist σ} {l l₁ l₂ : List Nat} {e savep : Nat}

/-- The iteration meets the entries `l` one after the other, ends, and does not
fail its assertion. -/
structure Enumerates (E : DevEnv σ) (s : Devlist σ) (l : List Nat) : Prop where
  visits : ∀ savep, ∃ fuel,
    (forEachDevice E fuel savep).run s = .ok (l.map fun e => (e, s.dev e)) s
  assertion : ∀ savep fuel fmt args s',
    (forEachDevice E fuel savep).run s ≠ .error (.panic fmt args) s'

/-! ## One step -/

/-- The entry at which the iteration is before the rest `l₂` of the list. -/
def cursor (E : DevEnv σ) (l₂ : List Nat) : Nat := l₂.headD (entryOf E.head)

/-- The cursor never has the address of `__head`. -/
theorem Listed.cursor_ne (h : Listed E s (l₁ ++ l₂)) : cursor E l₂ ≠ E.head := by
  cases l₂ with
  | nil =>
      rw [cursor, List.headD_nil]
      exact entryOf_head_ne E
  | cons e l₂ =>
      rw [cursor, List.headD_cons]
      exact h.head_mem.1.ne_head

theorem Listed.next_null (h : Listed E s l) :
    (next E 0 savep).run s = .ok (s.dev (cursor E l), cursor E l) s := by
  have hl : Listed E s ([] ++ l) := h
  have hne : cursor E l ≠ E.head := hl.cursor_ne
  have hnext : entryOf (s.links.next E.head) = cursor E l := h.next_head
  rw [next, run_bind_ok (EStateM.run_get _), if_pos rfl, run_bind_ok (EStateM.run_pure _ _), hnext]
  simp only [if_neg hne]
  rfl

/-- A step from a cursor `c` with a device. -/
theorem Listed.next_from {c : Nat} (h : Listed E s (l₁ ++ l₂)) (hdev : s.dev c ≠ 0)
    (hc : entryOf (s.links.next (nodeOf c)) = cursor E l₂) :
    (next E (s.dev c) c).run s = .ok (s.dev (cursor E l₂), cursor E l₂) s := by
  rw [next, run_bind_ok (EStateM.run_get _), if_neg hdev, require, decide_eq_true rfl, hc]
  simp only [pure_bind, if_neg h.cursor_ne]
  rfl

theorem Listed.next_step (h : Listed E s (l₁ ++ e :: l₂)) :
    (next E (s.dev e) e).run s = .ok (s.dev (cursor E l₂), cursor E l₂) s := by
  have hnext : entryOf (s.links.next (nodeOf e)) = cursor E l₂ := h.next_entry
  have hdev := h.head_mem.2
  rw [List.append_cons] at h
  exact h.next_from hdev hnext

/-- From the entry of `__head` the iteration goes on with the first entry. -/
theorem Listed.next_again (h : Listed E s l) (hword : s.dev (entryOf E.head) ≠ 0) :
    (next E (s.dev (entryOf E.head)) (entryOf E.head)).run s =
      .ok (s.dev (cursor E l), cursor E l) s := by
  have hnext : entryOf (s.links.next (nodeOf (entryOf E.head))) = cursor E l := by
    rw [nodeOf_entryOf_head]
    exact h.next_head
  have hl : Listed E s ([] ++ l) := h
  exact hl.next_from hword hnext

/-! ## Whole iterations -/

theorem Listed.deviceLoop_ends (h : Listed E s (l₁ ++ l₂)) (hword : s.dev (entryOf E.head) = 0)
    {fuel : Nat} (hfuel : l₂.length < fuel) :
    (deviceLoop E fuel (s.dev (cursor E l₂)) (cursor E l₂)).run s =
      .ok (l₂.map fun e => (e, s.dev e)) s := by
  induction l₂ generalizing l₁ fuel with
  | nil =>
      obtain ⟨fuel, rfl⟩ : ∃ k, fuel = k + 1 := ⟨fuel - 1, by simp at hfuel; omega⟩
      rw [cursor, List.headD_nil, deviceLoop, if_pos hword]
      rfl
  | cons e l ih =>
      obtain ⟨fuel, rfl⟩ : ∃ k, fuel = k + 1 := ⟨fuel - 1, by simp at hfuel; omega⟩
      rw [List.length_cons] at hfuel
      have hstep := h.next_step
      have hdev := h.head_mem.2
      rw [List.append_cons] at h
      rw [cursor, List.headD_cons, deviceLoop, if_neg hdev, run_bind_ok hstep,
        run_bind_ok (ih h (Nat.lt_of_succ_lt_succ hfuel))]
      rfl

/-- With something in front of `__head` the iteration goes round and round. -/
theorem Listed.deviceLoop_runs (h : Listed E s l) (hword : s.dev (entryOf E.head) ≠ 0)
    {fuel : Nat} (hl : l = l₁ ++ l₂) :
    (deviceLoop E fuel (s.dev (cursor E l₂)) (cursor E l₂)).run s = .error .fuel s := by
  induction fuel generalizing l₁ l₂ with
  | zero => rfl
  | succ fuel ih =>
      cases l₂ with
      | nil =>
          rw [cursor, List.headD_nil, deviceLoop, if_neg hword, run_bind_ok (h.next_again hword)]
          exact run_bind_error (ih (List.nil_append l).symm)
      | cons e l₂ =>
          have hl' := hl
          rw [hl] at h
          have hstep := h.next_step
          have hdev := h.head_mem.2
          rw [cursor, List.headD_cons, deviceLoop, if_neg hdev, run_bind_ok hstep]
          rw [List.append_cons] at hl'
          exact run_bind_error (ih hl')

/-- Only the fuel can stop the iteration. -/
theorem Listed.deviceLoop_stops (h : Listed E s l) {fuel : Nat} {err : Stop} {s' : Devlist σ}
    (hl : l = l₁ ++ l₂)
    (hrun : (deviceLoop E fuel (s.dev (cursor E l₂)) (cursor E l₂)).run s = .error err s') :
    err = .fuel := by
  by_cases hword : s.dev (entryOf E.head) = 0
  · induction fuel generalizing l₁ l₂ s' with
    | zero =>
        injection hrun with herr
        exact herr.symm
    | succ fuel ih =>
        have h' := h
        rw [hl] at h'
        by_cases hfuel : l₂.length < fuel + 1
        · rw [h'.deviceLoop_ends hword hfuel] at hrun
          cases hrun
        · cases l₂ with
          | nil => exact absurd (Nat.succ_pos fuel) hfuel
          | cons e l =>
              rw [cursor, List.headD_cons, deviceLoop, if_neg h'.head_mem.2,
                run_bind_ok h'.next_step, EStateM.run_bind] at hrun
              cases hrest : (deviceLoop E fuel (s.dev (cursor E l)) (cursor E l)).run s with
              | ok rest s₁ =>
                  rw [hrest] at hrun
                  cases hrun
              | error err' s₁ =>
                  rw [hrest] at hrun
                  injection hrun with herr _
                  exact ih (hl.trans (List.append_cons _ e l)) (herr ▸ hrest)
  · rw [h.deviceLoop_runs hword hl] at hrun
    injection hrun with herr
    exact herr.symm

theorem Listed.enumerates_iff (h : Listed E s l) :
    Enumerates E s l ↔ s.dev (entryOf E.head) = 0 := by
  have hstart : ∀ fuel savep, (forEachDevice E fuel savep).run s =
      (deviceLoop E fuel (s.dev (cursor E l)) (cursor E l)).run s := by
    intro fuel savep
    rw [forEachDevice, run_bind_ok h.next_null]
  have hl : l = [] ++ l := (List.nil_append l).symm
  constructor
  · intro hen
    by_contra hword
    obtain ⟨fuel, hrun⟩ := hen.visits 0
    rw [hstart, h.deviceLoop_runs hword hl] at hrun
    cases hrun
  · intro hword
    have hends : ∀ fuel, l.length < fuel → (deviceLoop E fuel (s.dev (cursor E l))
        (cursor E l)).run s = .ok (l.map fun e => (e, s.dev e)) s :=
      fun fuel hfuel => (show Listed E s ([] ++ l) from h).deviceLoop_ends hword hfuel
    refine ⟨fun savep => ⟨l.length + 1, ?_⟩, ?_⟩
    · rw [hstart]
      exact hends _ (Nat.lt_succ_self _)
    · intro savep fuel fmt args s' hrun
      rw [hstart] at hrun
      cases h.deviceLoop_stops hl hrun

/-- In every state of the index the iteration enumerates the list exactly when
the word in front of `__head` is `NULL`. -/
theorem forEachDevice_iff {E : DevEnv σ} {s : Devlist (DevHeap σ)}
    (h : (devCalls E).Reachable s) :
    ∃ l, Links.Ring s.links E.head (l.map nodeOf) ∧
      (Enumerates E.recorded s l ↔ s.dev (entryOf E.head) = 0) := by
  obtain ⟨l, hok⟩ := Machine.reachable_of_inv (index_invariant E) h
  exact ⟨l, hok.listed.ring, hok.listed.enumerates_iff⟩

/-- A bus and a device on it, with `NULL` in front of `__head`. -/
theorem forEachDevice_iff_bus : ∃ s, (devCalls bumpDevEnv).Reachable s ∧
    s.env.held = [0x2000, 0x2010] ∧
    ∃ l, Links.Ring s.links bumpDevEnv.head (l.map nodeOf) ∧
      (Enumerates bumpDevEnv.recorded s l ↔ s.dev (entryOf bumpDevEnv.head) = 0) := by
  obtain ⟨s, hreach, hsh⟩ := noDevices_reachable.sees [.add 1, .add 2] (fun s => s.env.held)
    [0x2000, 0x2010] (by decide +kernel) (by decide +kernel)
  exact ⟨s, hreach, hsh, forEachDevice_iff hreach⟩

/-- The empty list, with `1` in front of `__head`. -/
def strayWord : Devlist (DevHeap Nat) := { noDevices with dev := fun _ => 1 }

/-- On the empty list the iteration does not answer `NULL` but the word in
front of `__head`, and it never ends. -/
theorem forEachDevice_astray : (devCalls bumpDevEnv).Reachable strayWord ∧
    Links.Ring strayWord.links bumpDevEnv.head [] ∧
    (next bumpDevEnv.recorded 0 0).run strayWord = .ok (1, 0xffc) strayWord ∧
    ∀ fuel, (forEachDevice bumpDevEnv.recorded fuel 0).run strayWord =
      .error .fuel strayWord := by
  have hinit : (devCalls bumpDevEnv).init strayWord := ⟨rfl, rfl, rfl⟩
  have h := (IndexOk.init hinit).listed
  have hnext : (next bumpDevEnv.recorded 0 0).run strayWord = _ := h.next_null
  refine ⟨.init hinit, h.ring, hnext, ?_⟩
  intro fuel
  rw [forEachDevice, run_bind_ok hnext]
  exact h.deviceLoop_runs (by decide) (List.nil_append []).symm

end Aim.Kern
