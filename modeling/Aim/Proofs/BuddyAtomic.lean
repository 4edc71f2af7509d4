import Aim.Proofs.BuddyAlloc

/-!
# A request that fails leaves the array alone

`buddy_alloc` cuts unused nodes while it is still looking for a block. Whether
it will find one is decided before it cuts the first: below an unused node
there is room for every smaller block, so that the walk never comes back from a
node it has cut. `search_pass` is the one half of this, a node without room
that is left as it was found; `search_found` is the other, a node with room
where the walk ends with a block.

Nothing is assumed of the marks. In particular they need not store a tree, and
the marks that `_mark_parent` writes on the way up are whatever they are.
-/

namespace Aim.Kern

open Aim.Lib

theorem OnLevel.exists_child {d : Nat} {i : Int} (h : OnLevel (d + 1) i) :
    ∃ s p, OnLevel d p ∧ i = Side.child s p := by
  obtain ⟨hlo, hhi⟩ := h
  have hpos : (0 : Int) < 2 ^ d := by positivity
  rw [pow_succ (2 : Int) (d + 1)] at hhi
  rw [pow_succ (2 : Int) d] at hlo hhi
  have hp : OnLevel d ((i - 1) / 2) := by
    unfold OnLevel
    rw [pow_succ (2 : Int) d]
    omega
  rcases Int.emod_two_eq_zero_or_one i with heven | hodd
  · exact ⟨.right, (i - 1) / 2, hp, by simp only [Side.child]; omega⟩
  · exact ⟨.left, (i - 1) / 2, hp, by simp only [Side.child]; omega⟩

theorem OnLevel.depth_lt {d : Nat} {i : Int} (h : OnLevel d i) : d < i.toNat + 1 := by
  have hlt : (d : Int) < 2 ^ d := by exact_mod_cast Nat.lt_two_pow_self (n := d)
  have hlo := h.1
  omega

section Search

variable {L : Nat}

/-- `_mark_parent` gets to the root at the latest. -/
theorem markParentLoop_returns {d n : Nat} {i : Int} {t : Int → Node} (hi : OnLevel d i)
    (hd : d ≤ L) (hn : d < n) :
    ∃ t', (markParentLoop n i).run (ofTree L t) = .ok () (ofTree L t') := by
  induction d generalizing n i t with
  | zero =>
      obtain ⟨m, rfl⟩ : ∃ m, n = m + 1 := ⟨n - 1, by omega⟩
      obtain rfl : i = 0 := by
        obtain ⟨hlo, hhi⟩ := hi
        simp only [pow_zero, zero_add, pow_one] at hlo hhi
        omega
      exact ⟨t, rfl⟩
  | succ d ih =>
      obtain ⟨m, rfl⟩ : ∃ m, n = m + 1 := ⟨n - 1, by omega⟩
      obtain ⟨s, p, hp, rfl⟩ := hi.exists_child
      rw [markParentLoop_step s t hp hd]
      split
      · exact ih hp (by omega) (by omega)
      · exact ⟨t, rfl⟩

theorem indexOffset_nonneg {d : Nat} {i : Int} (hi : OnLevel d i) : 0 ≤ indexOffset i d L := by
  have hlo := hi.1
  rw [indexOffset, Int.toNat_natCast]
  exact mul_nonneg (by omega) (by positivity)

/-- An unused node of the right size is taken. -/
theorem search_found_self {k d : Nat} {i : Int} {t : Int → Node} (hi : OnLevel d i)
    (hd : d ≤ L) (hm : t i = .unused) :
    ∃ o t', 0 ≤ o ∧ ∀ fuel, (buddySearch (2 ^ k) (fuel + 1) i d (2 ^ k)).run (ofTree L t) =
      .ok o (ofTree L t') := by
  have hv : (buddyVisit (2 ^ k) i (2 ^ k)).run (ofTree L t) =
      .ok .take (ofTree L (Function.update t i .used)) := by
    rw [buddyVisit, run_bind_ok (treeGet_ofTree t hi hd), if_pos rfl, if_pos hm,
      run_bind_ok (treeSet_ofTree t _ hi hd)]
    rfl
  obtain ⟨t', hmark⟩ := markParentLoop_returns (t := Function.update t i .used) hi hd hi.depth_lt
  refine ⟨indexOffset i d L, t', indexOffset_nonneg hi, fun fuel => ?_⟩
  have h0 := hi.nonneg
  rw [buddySearch, if_neg (by omega), run_bind_ok hv]
  simp only []
  rw [markParent, run_bind_ok hmark]
  rfl

/-- A node with room: the walk ends with a block of it. -/
theorem search_found {k : Nat} : ∀ {h d : Nat} {i : Int} {t : Int → Node},
    k ≤ h → OnLevel d i → d + h = L → avail t k h i = true →
    ∃ cost o t', cost + 1 ≤ 2 ^ (h + 1) ∧ 0 ≤ o ∧ ∀ fuel,
      (buddySearch (2 ^ k) (fuel + cost) i d (2 ^ h)).run (ofTree L t) =
        .ok o (ofTree L t') := by
  intro h
  induction h with
  | zero =>
      intro d i t hk hi hL ha
      obtain rfl : k = 0 := by omega
      rw [avail_self, decide_eq_true_eq] at ha
      obtain ⟨o, t', ho, hrun⟩ := search_found_self (L := L) hi (by omega) ha
      exact ⟨1, o, t', by omega, ho, hrun⟩
  | succ h ih =>
      intro d i t hk hi hL ha
      have hpos : 1 ≤ 2 ^ (h + 1) := Nat.pow_pos (by omega)
      have hhalf : (2 : Int) ^ (h + 1) / 2 = 2 ^ h := by rw [pow_succ]; omega
      by_cases hkh : k = h + 1
      · subst hkh
        rw [avail_self, decide_eq_true_eq] at ha
        obtain ⟨o, t', ho, hrun⟩ := search_found_self (L := L) hi (by omega) ha
        exact ⟨1, o, t', by rw [Nat.pow_succ]; omega, ho, hrun⟩
      · have hk' : k ≤ h := by omega
        -- One round down, into a left half with room.
        have hdown : ∀ {t₁ : Int → Node},
            (buddyVisit (2 ^ k) i (2 ^ (h + 1))).run (ofTree L t) = .ok .down (ofTree L t₁) →
            avail t₁ k h (i * 2 + 1) = true →
            ∃ cost o t', cost + 1 ≤ 2 ^ (h + 1 + 1) ∧ 0 ≤ o ∧ ∀ fuel,
              (buddySearch (2 ^ k) (fuel + cost) i d (2 ^ (h + 1))).run (ofTree L t) =
                .ok o (ofTree L t') := by
          intro t₁ hv ha₁
          obtain ⟨cost, o, t', hcost, ho, hrun⟩ := ih hk' hi.left (by omega) ha₁
          refine ⟨cost + 1, o, t', by rw [Nat.pow_succ]; omega, ho, fun fuel => ?_⟩
          rw [← Nat.add_assoc, buddySearch_down hi.nonneg hv, hhalf]
          exact hrun fuel
        rw [avail, if_neg hkh] at ha
        cases hm : t i with
        | unused =>
            refine hdown (buddyVisit_unused (two_pow_ne hkh) hi (by omega) hm) ?_
            exact avail_unused hk' (cutAt_left t i)
        | split =>
            simp only [hm, Bool.or_eq_true] at ha
            have hv := buddyVisit_split (L := L) hk' hi (by omega) hm
            cases hl : avail t k h (i * 2 + 1) with
            | true => exact hdown hv hl
            | false =>
                -- The left half is searched in vain first.
                have hr := ha.resolve_left (by rw [hl]; decide)
                obtain ⟨cl, hcl, hpass⟩ := search_pass (L := L) hk' hi.left (by omega) hl
                obtain ⟨cr, o, t', hcr, ho, hrun⟩ := ih hk' hi.right (by omega) hr
                refine ⟨cl + cr + 1, o, t', by rw [Nat.pow_succ]; omega, ho, fun fuel => ?_⟩
                have hleft := hpass (fuel + cr)
                rw [searchNext_left] at hleft
                push_cast at hleft
                rw [show fuel + (cl + cr + 1) = fuel + cr + cl + 1 by omega,
                  buddySearch_down hi.nonneg hv, hhalf, hleft]
                exact hrun fuel
        | used => simp [hm] at ha
        | full => simp [hm] at ha

end Search

/-- Whatever is in the array, a `buddy_alloc` of up to `2 ^ 30` pages returns,
and an answer that is no offset leaves every entry as it was. -/
theorem buddyAlloc_failed_unchanged (self : Buddy) (hsz : self.size = 2 ^ (self.level + 1) - 1)
    {s : Int} (h0 : 0 ≤ s) (hs : s ≤ 2 ^ 30) :
    ∃ o self', (buddyAlloc s).run self = .ok o self' ∧ (o = -1 ∨ o = -2 → self' = self) := by
  obtain ⟨L, size, t⟩ := self
  obtain rfl : size = 2 ^ (L + 1) - 1 := hsz
  have hsize := blockSize_eq h0 hs
  show ∃ o self', (buddyAlloc s).run (ofTree L t) = .ok o self' ∧ _
  rcases Nat.lt_or_ge L (Nat.clog 2 s.toNat) with hlt | hle
  · exact ⟨_, _, buddyAlloc_large hsize hlt, fun _ => rfl⟩
  · cases ha : avail t (Nat.clog 2 s.toNat) L 0 with
    | false => exact ⟨_, _, buddyAlloc_none hsize hle ha, fun _ => rfl⟩
    | true =>
        obtain ⟨cost, o, t', hcost, ho, hrun⟩ := search_found (L := L) (d := 0) hle
          Ctx.root.onLevel (by omega) ha
        have hfuel : 2 ^ (L + 2) = (2 ^ (L + 2) - cost) + cost := by
          rw [Nat.pow_succ]; omega
        refine ⟨o, ofTree L t', ?_, fun hno => by omega⟩
        rw [buddyAlloc_search hsize hle, hfuel]
        exact hrun _

/-- Four pages whose marks store no tree: the root is full over three unused
pages. -/
def mixedMarks : Buddy :=
  ⟨2, 7, fun i => if i = 0 then .full else if i = 3 then .used else .unused⟩

theorem buddyAlloc_failed_unchanged_mixedMarks :
    (buddyAlloc 1).run mixedMarks = .ok (-1) mixedMarks := by
  obtain ⟨o, self, hrun, hsame⟩ := buddyAlloc_failed_unchanged mixedMarks rfl
    (s := 1) (by decide) (by decide)
  have ho : returned (buddyAlloc 1) mixedMarks (fun o _ => o) = some (-1) := by decide +kernel
  rw [returned, hrun, Option.some.injEq] at ho
  rw [hrun, ho, hsame (Or.inl ho)]

end Aim.Kern
