import Aim.Lib.Run

/-!
# Postconditions of calls

`Ends total x s Q` says what the call `x` does from `s`: it returns, and its
answer and the state it leaves satisfy `Q`. Where `total` is false, the call
may stop as well, and nothing is said about it then; so one proof about a
caller serves both for callees that always return and for callees that may
not. The rules follow the shape of the program, one bind after the other, and
every function gets one `Ends` lemma, which is all its callers use.

A call that depends on a finite supply can only return while the supply lasts.
That it does is an assumption about the environment, and a call that finds it
broken ends in a stop that is `excused`.
-/

namespace Aim.Lib

/-- The stops that are put down to the environment. -/
class Excuse (ε : Type) where
  excused : ε → Prop

/-- What stands for the end of a supply that is assumed to last. -/
def Stop.starved : Stop := .panic "starved" []

instance : Excuse Stop := ⟨fun e => e = .starved⟩

variable {ε σ τ α β : Type} [Excuse ε] {total : Prop} {Q : α → σ → Prop} {x : EStateM ε σ α}
  {s s' : σ} {a : α} {e : ε} {f : α → EStateM ε σ β} {g : σ → σ}

def Ends (total : Prop) (x : EStateM ε σ α) (s : σ) (Q : α → σ → Prop) : Prop :=
  match x.run s with
  | .ok a s' => Q a s'
  | .error e _ => total → Excuse.excused e

theorem ends_of_ok (h : x.run s = .ok a s') (hQ : Q a s') : Ends total x s Q := by
  rw [Ends, h]
  exact hQ

theorem ends_of_stop (h : x.run s = .error e s') (ht : ¬ total) : Ends total x s Q := by
  rw [Ends, h]
  exact fun h' => absurd h' ht

theorem ends_of_excused (h : x.run s = .error e s') (he : Excuse.excused e) : Ends total x s Q := by
  rw [Ends, h]
  exact fun _ => he

/-- Two calls that run alike end alike. -/
theorem Ends.of_eq {x y : EStateM ε σ α} (h : x.run s = y.run s') (hy : Ends total y s' Q) :
    Ends total x s Q := by
  rw [Ends, h]
  exact hy

/-- What is known of a call that returned. -/
theorem Ends.of_run (h : Ends total x s Q) (hrun : x.run s = .ok a s') : Q a s' := by
  rw [Ends, hrun] at h
  exact h

/-- A call that has to return only stops for want of a supply. -/
theorem Ends.excused (h : Ends total x s Q) (ht : total) (hrun : x.run s = .error e s') :
    Excuse.excused e := by
  rw [Ends, hrun] at h
  exact h ht

theorem Ends.weaken (h : Ends True x s Q) : Ends total x s Q := by
  rw [Ends] at h ⊢
  cases hrun : x.run s with
  | ok a s' =>
      rw [hrun] at h
      exact h
  | error e s' =>
      rw [hrun] at h
      exact fun _ => h trivial

theorem Ends.imp {Q Q' : α → σ → Prop} (h : Ends total x s Q) (hQ : ∀ a s', Q a s' → Q' a s') :
    Ends total x s Q' := by
  rw [Ends] at h ⊢
  cases hrun : x.run s with
  | ok a s' =>
      rw [hrun] at h
      exact hQ a s' h
  | error e s' =>
      rw [hrun] at h
      exact h

theorem Ends.bind {Q' : β → σ → Prop} (h : Ends total x s Q)
    (hf : ∀ a s', Q a s' → Ends total (f a) s' Q') : Ends total (x >>= f) s Q' := by
  rw [Ends] at h
  cases hrun : x.run s with
  | ok a s' =>
      rw [hrun] at h
      rw [Ends, run_bind_ok hrun]
      exact hf a s' h
  | error e s' =>
      rw [hrun] at h
      rw [Ends, run_bind_error hrun]
      exact h

/-- What is known of a call in two ways. -/
theorem Ends.and {Q Q' : α → σ → Prop} (h : Ends total x s Q) (h' : Ends False x s Q') :
    Ends total x s fun a s' => Q a s' ∧ Q' a s' := by
  rw [Ends] at h h' ⊢
  cases hrun : x.run s with
  | ok a s' =>
      rw [hrun] at h h'
      exact ⟨h, h'⟩
  | error e s' =>
      rw [hrun] at h
      exact h

/-- Of a call that need not return nothing has to be known. -/
theorem ends_any (x : EStateM ε σ α) (s : σ) : Ends False x s fun _ _ => True := by
  rw [Ends]
  cases x.run s with
  | ok a s' => trivial
  | error e s' => exact False.elim

theorem ends_pure (h : Q a s) :
    Ends total (pure a : EStateM ε σ α) s Q := ends_of_ok rfl h

theorem ends_throw (ht : ¬ total) :
    Ends total (throw e : EStateM ε σ α) s Q := ends_of_stop rfl ht

theorem ends_bind_ok {Q : β → σ → Prop} (h : x.run s = .ok a s') (hf : Ends total (f a) s' Q) :
    Ends total (x >>= f) s Q := by
  rw [Ends, run_bind_ok h]
  exact hf

/-- A read of the state, and what follows. -/
theorem ends_get_bind {f : σ → EStateM ε σ β} {Q : β → σ → Prop} (h : Ends total (f s) s Q) :
    Ends total (get >>= f) s Q := h

/-- A write to the state, and what follows. -/
theorem ends_modify_bind {f : PUnit → EStateM ε σ β} {Q : β → σ → Prop}
    (h : Ends total (f ⟨⟩) (g s) Q) :
    Ends total (modify g >>= f) s Q := h

theorem ends_modify {Q : PUnit → σ → Prop} (h : Q ⟨⟩ (g s)) :
    Ends total (modify g : EStateM ε σ PUnit) s Q := h

theorem ends_discard {Q : σ → Prop} (h : Ends total x s fun _ s' => Q s') :
    Ends total (discard x) s fun _ s' => Q s' :=
  h.bind fun _ _ hq => ends_pure hq

theorem ends_zoom {get : σ → τ} {put : τ → σ → σ} {x : EStateM ε τ α} {Q : α → τ → Prop}
    {Q' : α → σ → Prop} (h : Ends total x (get s) Q) (hQ : ∀ a t, Q a t → Q' a (put t s)) :
    Ends total (zoom get put x) s Q' := by
  rw [Ends] at h
  cases hrun : x.run (get s) with
  | ok a t =>
      rw [hrun] at h
      exact ends_of_ok (run_zoom_ok hrun) (hQ a t h)
  | error e t =>
      rw [hrun] at h
      rw [Ends, run_zoom_error hrun]
      exact h

/-! ## What a call leaves -/

section StateLeft

omit [Excuse ε]

/-- The state a call leaves, whichever way it ended. -/
def stateLeft (x : EStateM ε σ α) (s : σ) : σ :=
  match x.run s with
  | .ok _ s' => s'
  | .error _ s' => s'

variable {x : EStateM ε σ α} {s s' : σ} {f : α → EStateM ε σ β}

theorem stateLeft_ok (h : x.run s = .ok a s') : stateLeft x s = s' := by
  rw [stateLeft, h]

theorem stateLeft_error (h : x.run s = .error e s') : stateLeft x s = s' := by
  rw [stateLeft, h]

theorem stateLeft_bind_ok (h : x.run s = .ok a s') :
    stateLeft (x >>= f) s = stateLeft (f a) s' := by
  rw [stateLeft, run_bind_ok h]
  rfl

theorem stateLeft_bind {Q : σ → Prop} (h : Q (stateLeft x s))
    (hf : ∀ a, Q (stateLeft (f a) (stateLeft x s))) :
    Q (stateLeft (x >>= f) s) := by
  cases hrun : x.run s with
  | ok a s' =>
      rw [stateLeft_bind_ok hrun, ← stateLeft_ok hrun]
      exact hf a
  | error e s' =>
      rw [stateLeft_error (run_bind_error hrun), ← stateLeft_error hrun]
      exact h

theorem stateLeft_zoom {get : σ → τ} {put : τ → σ → σ} (x : EStateM ε τ α) (s : σ) :
    stateLeft (zoom get put x) s = put (stateLeft x (get s)) s := by
  cases hrun : x.run (get s) with
  | ok a t => rw [stateLeft_ok hrun, stateLeft_ok (run_zoom_ok hrun)]
  | error e t => rw [stateLeft_error hrun, stateLeft_error (run_zoom_error hrun)]

end StateLeft

/-! ## Calls that may stop for given reasons -/

section EndsOr

variable {E : ε → Prop} {x : EStateM ε σ α} {Q : α → σ → Prop} {s s' : σ} {a : α}
  {f : α → EStateM ε σ β}

omit [Excuse ε]

/-- The call returns with `Q`, or stops for a reason in `E`. -/
def EndsOr (E : ε → Prop) (x : EStateM ε σ α) (s : σ) (Q : α → σ → Prop) : Prop :=
  match x.run s with
  | .ok a s' => Q a s'
  | .error e _ => E e

theorem endsOr_of_ok (h : x.run s = .ok a s') (hQ : Q a s') : EndsOr E x s Q := by
  rw [EndsOr, h]
  exact hQ

theorem endsOr_of_error (h : x.run s = .error e s') (he : E e) : EndsOr E x s Q := by
  rw [EndsOr, h]
  exact he

theorem EndsOr.of_ok (h : EndsOr E x s Q) (hrun : x.run s = .ok a s') : Q a s' := by
  rw [EndsOr, hrun] at h
  exact h

theorem EndsOr.of_error (h : EndsOr E x s Q) (hrun : x.run s = .error e s') : E e := by
  rw [EndsOr, hrun] at h
  exact h

theorem EndsOr.bind {Q' : β → σ → Prop} (h : EndsOr E x s Q)
    (hf : ∀ a s', Q a s' → EndsOr E (f a) s' Q') : EndsOr E (x >>= f) s Q' := by
  cases hrun : x.run s with
  | ok a s' =>
      have hnext := hf a s' (h.of_ok hrun)
      rw [EndsOr, run_bind_ok hrun]
      exact hnext
  | error e s' => exact endsOr_of_error (run_bind_error hrun) (h.of_error hrun)

/-- A call whose run is known, and what follows. -/
theorem endsOr_bind_ok {Q : β → σ → Prop} (h : x.run s = .ok a s') (hf : EndsOr E (f a) s' Q) :
    EndsOr E (x >>= f) s Q := by
  rw [EndsOr, run_bind_ok h]
  exact hf

theorem endsOr_get_bind {f : σ → EStateM ε σ β} {Q : β → σ → Prop} (h : EndsOr E (f s) s Q) :
    EndsOr E (get >>= f) s Q := h

theorem endsOr_pure (h : Q a s) :
    EndsOr E (pure a : EStateM ε σ α) s Q := endsOr_of_ok rfl h

theorem endsOr_modify_bind {g : σ → σ} {f : PUnit → EStateM ε σ β} {Q : β → σ → Prop}
    (h : EndsOr E (f ⟨⟩) (g s) Q) :
    EndsOr E (modify g >>= f) s Q := h

theorem endsOr_discard {Q : σ → Prop} (h : EndsOr E x s fun _ s' => Q s') :
    EndsOr E (discard x) s fun _ s' => Q s' :=
  h.bind fun _ _ hq => endsOr_pure hq

theorem endsOr_zoom {get : σ → τ} {put : τ → σ → σ} {x : EStateM ε τ α} {Q : α → τ → Prop}
    {Q' : α → σ → Prop} (h : EndsOr E x (get s) Q) (hQ : ∀ a t, Q a t → Q' a (put t s)) :
    EndsOr E (zoom get put x) s Q' := by
  cases hrun : x.run (get s) with
  | ok a t => exact endsOr_of_ok (run_zoom_ok hrun) (hQ a t (h.of_ok hrun))
  | error e t => exact endsOr_of_error (run_zoom_error hrun) (h.of_error hrun)

/-- A loop over a list, whose rounds keep an invariant. -/
theorem endsOr_forM {f : β → EStateM ε σ PUnit} {I : σ → Prop} {l : List β} (hs : I s)
    (h : ∀ b ∈ l, ∀ s, I s → EndsOr E (f b) s fun _ => I) :
    EndsOr E (l.forM f) s fun _ => I := by
  induction l generalizing s with
  | nil => exact endsOr_of_ok rfl hs
  | cons b l ih =>
      refine (h b List.mem_cons_self s hs).bind ?_
      intro _ s' hs'
      exact ih hs' fun c hc => h c (List.mem_cons_of_mem _ hc)

end EndsOr

end Aim.Lib
