import Aim.Lib.Run

/-!
# Null-terminated chains

`Chain null next p l` says that following `next` from `p` runs through `l`
and then meets `null`. A chain determines its list, so whatever is known of
the list (its length, that nothing occurs in it twice) is known of the memory
that stores it. The update rules take the new link function as it is and ask
only what it does on the elements of the chain: callers change many words at
a time, and most of them are none of the chain's business.
-/

namespace Aim.Lib

variable {α : Type} {null p a : α} {next next' : α → α} {l l₁ l₂ : List α}

def Chain (null : α) (next : α → α) : α → List α → Prop
  | p, [] => p = null
  | p, a :: l => p = a ∧ a ≠ null ∧ Chain null next (next a) l

namespace Chain

/-- A chain starts with `null` or with one of its elements. -/
theorem start (h : Chain null next p l) : p = null ∨ p ∈ l := by
  cases l with
  | nil => exact Or.inl h
  | cons a l =>
      rw [h.1]
      exact Or.inr List.mem_cons_self

/-- Only the links of the elements matter. -/
theorem congr (h : Chain null next p l) (heq : ∀ a ∈ l, next' a = next a) :
    Chain null next' p l := by
  induction l generalizing p with
  | nil => exact h
  | cons a l ih =>
      obtain ⟨hp, hne, hrest⟩ := h
      refine ⟨hp, hne, ?_⟩
      rw [heq a List.mem_cons_self]
      exact ih hrest fun b hb => heq b (List.mem_cons_of_mem _ hb)

/-- A new head. -/
theorem push (h : Chain null next p l) (ha : a ≠ null) (hnext : next' a = p)
    (heq : ∀ b ∈ l, next' b = next b) : Chain null next' a (a :: l) := by
  refine ⟨rfl, ha, ?_⟩
  rw [hnext]
  exact h.congr heq

/-- The link of an element in the middle. -/
theorem next_eq (h : Chain null next p (l₁ ++ a :: l₂)) : Chain null next (next a) l₂ := by
  induction l₁ generalizing p with
  | nil => exact h.2.2
  | cons b l₁ ih => exact ih h.2.2

/-- The element after `a` is cut out by a new link of `a`. -/
theorem unlink {b : α} (h : Chain null next p (l₁ ++ a :: b :: l₂))
    (hnext : next' a = next b) (heq : ∀ c ∈ l₁ ++ l₂, next' c = next c) :
    Chain null next' p (l₁ ++ a :: l₂) := by
  induction l₁ generalizing p with
  | nil =>
      obtain ⟨hp, hne, hrest⟩ := h
      refine ⟨hp, hne, ?_⟩
      rw [hnext]
      exact hrest.2.2.congr heq
  | cons c l₁ ih =>
      obtain ⟨hp, hne, hrest⟩ := h
      refine ⟨hp, hne, ?_⟩
      rw [heq c List.mem_cons_self]
      exact ih hrest fun d hd => heq d (List.mem_cons_of_mem _ hd)

/-- A chain through numbered elements. -/
theorem of_range' {f : Nat → α} {k j : Nat} (hne : ∀ i, f i ≠ null)
    (hnext : ∀ i, k ≤ i → i < k + j → next (f i) = f (i + 1))
    (hlast : next (f (k + j)) = null) :
    Chain null next (f k) ((List.range' k (j + 1)).map f) := by
  induction j generalizing k with
  | zero => exact ⟨rfl, hne k, hlast⟩
  | succ j ih =>
      rw [List.range'_succ, List.map_cons]
      refine ⟨rfl, hne k, ?_⟩
      rw [hnext k (Nat.le_refl k) (by omega)]
      refine ih (fun i hlo hhi => hnext i (by omega) (by omega)) ?_
      rw [show k + 1 + j = k + (j + 1) by omega]
      exact hlast

end Chain

end Aim.Lib
