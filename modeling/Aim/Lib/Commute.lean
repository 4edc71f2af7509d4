import Aim.Lib.Run

/-!
# Calls that do not see a change of state

`Commutes g x s` says that the call `x` does in `g s` what it does in `s`: it
answers the same, and ends in what `g` makes of the state it ends in
otherwise. A part of the state that a call neither reads nor writes is one
that can be changed by such a `g`, and a result about the call in `s` is then
one about the call in `g s`.
-/

namespace Aim.Lib

variable {ε σ τ α β : Type} {g : σ → σ} {s s' : σ} {x : EStateM ε σ α} {f : α → EStateM ε σ β}

def Commutes (g : σ → σ) (x : EStateM ε σ α) (s : σ) : Prop :=
  x.run (g s) =
    match x.run s with
    | .ok a s' => .ok a (g s')
    | .error e s' => .error e (g s')

theorem Commutes.ok {a : α} (h : Commutes g x s) (hx : x.run s = .ok a s') :
    x.run (g s) = .ok a (g s') := by
  rw [Commutes, hx] at h
  exact h

theorem commutes_of_ok {a : α} (h : x.run s = .ok a s') (h' : x.run (g s) = .ok a (g s')) :
    Commutes g x s := by
  rw [Commutes, h]
  exact h'

theorem commutes_pure (a : α) : Commutes g (pure a : EStateM ε σ α) s := rfl

theorem commutes_throw (e : ε) : Commutes g (throw e : EStateM ε σ α) s := rfl

theorem Commutes.bind (hx : Commutes g x s)
    (hf : ∀ a s', x.run s = .ok a s' → Commutes g (f a) s') : Commutes g (x >>= f) s := by
  cases hrun : x.run s with
  | ok a s' =>
      have hfa := hf a s' hrun
      rw [Commutes] at hfa ⊢
      rw [run_bind_ok (hx.ok hrun), run_bind_ok hrun]
      exact hfa
  | error e s' =>
      rw [Commutes, hrun] at hx
      rw [Commutes, run_bind_error hx, run_bind_error hrun]

/-- What is read must be the same for the rest of the call. -/
theorem commutes_get_bind {k : σ → EStateM ε σ β} (hk : k (g s) = k s)
    (h : Commutes g (k s) s) : Commutes g (get >>= k) s := by
  rw [Commutes, run_bind_ok (EStateM.run_get (g s)), run_bind_ok (EStateM.run_get s), hk]
  exact h

theorem commutes_modify {k : σ → σ} (hk : k (g s) = g (k s)) :
    Commutes g (modify k : EStateM ε σ PUnit) s := by
  refine commutes_of_ok (EStateM.run_modify k s) ?_
  rw [EStateM.run_modify, hk]

theorem commutes_ite {c : Prop} [Decidable c] {y : EStateM ε σ α} (hx : c → Commutes g x s)
    (hy : ¬ c → Commutes g y s) : Commutes g (if c then x else y) s := by
  by_cases hc : c
  · rw [if_pos hc]
    exact hx hc
  · rw [if_neg hc]
    exact hy hc

/-- A call on a part of the state that `g` leaves alone. -/
theorem commutes_zoom {view : σ → τ} {put : τ → σ → σ} {y : EStateM ε τ α}
    (hview : view (g s) = view s) (hput : ∀ t, put t (g s) = g (put t s)) :
    Commutes g (zoom view put y) s := by
  rw [Commutes]
  cases hrun : y.run (view s) with
  | ok a t =>
      rw [run_zoom_ok hrun, run_zoom_ok (by rw [hview]; exact hrun), hput]
  | error e t =>
      rw [run_zoom_error hrun, run_zoom_error (by rw [hview]; exact hrun), hput]

end Aim.Lib
