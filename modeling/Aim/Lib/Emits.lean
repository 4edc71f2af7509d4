import Mathlib.Tactic.Basic

/-!
# Computations that write to a sink

A computation may write its output an element at a time, by an operation `put`
that can fail or leave the computation whenever it is called. `Emits put x l a`
says that this is all there is to `x`: it puts the elements of `l`, one after
the other, and answers `a`. What happens where the sink is full is then a matter
of `put` alone, and is settled once for every computation.
-/

namespace Aim.Lib

variable {m : Type → Type} [Monad m] {α β γ : Type} {put : γ → m PUnit}

def Emits (put : γ → m PUnit) (x : m α) (l : List γ) (a : α) : Prop :=
  x = (l.forM put >>= fun _ => pure a)

variable [LawfulMonad m]

theorem emits_pure (a : α) : Emits put (pure a) [] a := by
  simp [Emits]

theorem emits_forM (l : List γ) : Emits put (l.forM put) l ⟨⟩ := by
  simp [Emits]

theorem emits_put (c : γ) : Emits put (put c) [c] ⟨⟩ := by
  simp [Emits]

theorem Emits.bind {x : m α} {f : α → m β} {l l' : List γ} {a : α} {b : β}
    (hx : Emits put x l a) (hf : Emits put (f a) l' b) : Emits put (x >>= f) (l ++ l') b := by
  rw [Emits] at hx hf ⊢
  simp [hx, hf, List.forM_append]

/-- What comes after it. -/
theorem Emits.bind_eq {x : m α} {l : List γ} {a : α} (hx : Emits put x l a) (f : α → m β) :
    x >>= f = (l.forM put >>= fun _ => f a) := by
  rw [Emits] at hx
  simp [hx]

end Aim.Lib
