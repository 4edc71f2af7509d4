import Mathlib.Algebra.Order.Ring.Int

/-!
# Calls that may stop, and the components they drive

A C function that works on a piece of state is an `EStateM` computation over
that state: it either returns, or it stops for one of the reasons of `Stop`,
and in both cases the state it left behind is there to be looked at. A loop
runs on fuel, and running dry is a reason of its own, so a statement that a
call returns is a statement that its loops come to an end.

A component is then a `Machine`: which states it may start in, which calls
its clients may make in a state, and what a call does. `Reachable` collects
the states after any finite sequence of such calls, and `reachable_of_inv` is
the one induction every safety result of the development goes through: an
invariant that holds at the start, and from which every permitted call
returns and re-establishes it, holds everywhere, and no permitted call ever
stops.
-/

namespace Aim.Lib

/-- Why a call did not return: a panic with its format string and arguments,
an array access outside the declared entries, or a loop that used up its
fuel. -/
inductive Stop where
  | panic (fmt : String) (args : List Int)
  | oob (index : Int)
  | fuel
  deriving DecidableEq, Repr

/-- What a signed word of 32 bits holds for a number. -/
def asInt (x : Int) : Int := x.bmod (2 ^ 32)

theorem asInt_of_small {x : Int} (h₀ : 0 ≤ x) (h : x < 2 ^ 31) : asInt x = x := by
  rw [asInt, Int.bmod_def]
  omega

theorem asInt_of_large {x : Int} (h : 2 ^ 31 ≤ x) (hlt : x < 2 ^ 32) : asInt x = x - 2 ^ 32 := by
  rw [asInt, Int.bmod_def]
  omega

variable {ε σ τ α β : Type} {x : EStateM ε σ α} {s s' : σ} {a : α} {e : ε}

/-- Stop for the reason `e` unless the condition holds. -/
def require (e : ε) (holds : Bool) : EStateM ε σ Unit := do
  if !holds then throw e

theorem run_require {holds : Bool} (h : holds = true) : (require e holds).run s = .ok () s := by
  subst h
  rfl

/-- The bind of two computations, from what the first one answered. -/
theorem run_bind_ok {f : α → EStateM ε σ β} (h : x.run s = .ok a s') :
    (x >>= f).run s = (f a).run s' := by
  rw [EStateM.run_bind, h]

theorem run_discard_ok (h : x.run s = .ok a s') : (discard x).run s = .ok () s' :=
  run_bind_ok h

theorem run_bind_error {f : α → EStateM ε σ β} (h : x.run s = .error e s') :
    (x >>= f).run s = .error e s' := by
  rw [EStateM.run_bind, h]

/-- A call on one part of a larger state, which is what a function does that
was handed a pointer to that part. -/
def zoom (get : σ → τ) (put : τ → σ → σ)
    (x : EStateM ε τ α) : EStateM ε σ α := fun s =>
  match x.run (get s) with
  | .ok a t => .ok a (put t s)
  | .error e t => .error e (put t s)

theorem run_zoom_ok {get : σ → τ} {put : τ → σ → σ} {x : EStateM ε τ α} {t : τ}
    (h : x.run (get s) = .ok a t) :
    (zoom get put x).run s = .ok a (put t s) := by
  show (match x.run (get s) with
    | .ok a t => .ok a (put t s)
    | .error e t => .error e (put t s) : EStateM.Result ε σ α) = _
  rw [h]

theorem run_zoom_error {get : σ → τ} {put : τ → σ → σ} {x : EStateM ε τ α} {t : τ}
    (h : x.run (get s) = .error e t) :
    (zoom get put x).run s = .error e (put t s) := by
  show (match x.run (get s) with
    | .ok a t => .ok a (put t s)
    | .error e t => .error e (put t s) : EStateM.Result ε σ α) = _
  rw [h]

/-- What can be seen of a call that returns. -/
def returned (x : EStateM ε σ α) (s : σ) (see : α → σ → β) : Option β :=
  match x.run s with
  | .ok a s' => some (see a s')
  | .error _ _ => none

theorem returned_eq_some {see : α → σ → β} {b : β} (h : returned x s see = some b) :
    ∃ a s', x.run s = .ok a s' ∧ see a s' = b := by
  rw [returned] at h
  cases hrun : x.run s with
  | ok a s' =>
      rw [hrun] at h
      exact ⟨a, s', rfl, Option.some.inj h⟩
  | error e s' =>
      rw [hrun] at h
      cases h

/-- Why a call stops. -/
def stopped (x : EStateM ε σ α) (s : σ) : Option ε :=
  match x.run s with
  | .ok _ _ => none
  | .error e _ => some e

theorem stopped_eq_some (h : stopped x s = some e) : ∃ s', x.run s = .error e s' := by
  rw [stopped] at h
  cases hrun : x.run s with
  | ok a s' =>
      rw [hrun] at h
      cases h
  | error e' s' =>
      rw [hrun] at h
      obtain rfl : e' = e := Option.some.inj h
      exact ⟨s', rfl⟩

/-- The loop `do {} while (body)`, with at most `fuel` rounds. -/
def doWhile (body : EStateM Stop σ Bool) : Nat → EStateM Stop σ Unit
  | 0 => throw .fuel
  | fuel + 1 => do
      if ← body then doWhile body fuel

/-- The rule for such a loop: where every round that asks for another one lowers
a measure, the loop ends, and it ends as one of its rounds does. -/
theorem doWhile_ends [Preorder β] [WellFoundedLT β] {body : EStateM Stop σ Bool}
    {I : σ → Prop} {μ : σ → β}
    (hround : ∀ s s', I s → body.run s = .ok true s' → I s' ∧ μ s' < μ s) (s : σ) (hs : I s) :
    ∃ fuel, (∃ s', (doWhile body fuel).run s = .ok () s') ∨
      ∃ e s₁ s', I s₁ ∧ body.run s₁ = .error e s' ∧ (doWhile body fuel).run s = .error e s' := by
  induction hμ : μ s using WellFoundedLT.induction generalizing s with
  | ind m ih =>
      cases hrun : body.run s with
      | error e s' =>
          exact ⟨1, .inr ⟨e, s, s', hs, hrun, run_bind_error hrun⟩⟩
      | ok again s' =>
          cases again with
          | false => exact ⟨1, .inl ⟨s', run_bind_ok hrun⟩⟩
          | true =>
              obtain ⟨hs', hlt⟩ := hround s s' hs hrun
              obtain ⟨fuel, hend⟩ := ih (μ s') (hμ ▸ hlt) s' hs' rfl
              have hnext : (doWhile body (fuel + 1)).run s = (doWhile body fuel).run s' :=
                run_bind_ok hrun
              refine ⟨fuel + 1, ?_⟩
              rw [hnext]
              exact hend

/-- The states and the calls of a component. -/
structure Machine (ε σ ι : Type) where
  init : σ → Prop
  legal : σ → ι → Prop
  step : ι → EStateM ε σ Unit

namespace Machine

variable {ι : Type} {M : Machine ε σ ι} {P I : σ → Prop} {C : σ → ι → Prop} {is : List ι} {i : ι}

/-- The states after some finite sequence of permitted calls, all of which
returned. -/
inductive Reachable (M : Machine ε σ ι) : σ → Prop where
  | init {s : σ} (h : M.init s) : Reachable M s
  | step {s s' : σ} {i : ι} (h : Reachable M s) (hl : M.legal s i)
      (hs : (M.step i).run s = .ok () s') : Reachable M s'

/-- Every call permitted in `s` returns. -/
def Returns (M : Machine ε σ ι) (s : σ) : Prop :=
  ∀ i, M.legal s i → ∃ s', (M.step i).run s = .ok () s'

/-- What an invariant has to do for the rule below. -/
structure Invariant (M : Machine ε σ ι) (I : σ → Prop) : Prop where
  init : ∀ s, M.init s → I s
  step : ∀ s i, I s → M.legal s i → ∃ s', (M.step i).run s = .ok () s' ∧ I s'

theorem Invariant.returns (h : M.Invariant I) (hs : I s) : M.Returns s := by
  intro i hl
  obtain ⟨s', hrun, _⟩ := h.step s i hs hl
  exact ⟨s', hrun⟩

/-- The invariant rule: the invariant holds in every reachable state. -/
theorem reachable_of_inv (h : M.Invariant I) (hr : M.Reachable s) : I s := by
  induction hr with
  | init hi => exact h.init _ hi
  | step _ hl hs ih =>
      obtain ⟨s₂, hrun, hI⟩ := h.step _ _ ih hl
      rw [hrun] at hs
      injection hs with _ hs
      exact hs ▸ hI

/-- The same for a component whose calls may stop: what every call that
returns keeps holds in every reachable state. -/
theorem reachable_of_kept (hinit : ∀ s, M.init s → I s)
    (hstep : ∀ s i s', I s → M.legal s i → (M.step i).run s = .ok () s' → I s')
    (hr : M.Reachable s) : I s := by
  induction hr with
  | init hi => exact hinit _ hi
  | step _ hl hs ih => exact hstep _ _ _ ih hl hs

/-- The same component for clients that only make calls under `C`. -/
def restrict (M : Machine ε σ ι) (C : σ → ι → Prop) : Machine ε σ ι :=
  { M with legal := fun s i => M.legal s i ∧ C s i }

instance (M : Machine ε σ ι) (C : σ → ι → Prop) [∀ s i, Decidable (M.legal s i)]
    [∀ s i, Decidable (C s i)] (s : σ) (i : ι) : Decidable ((M.restrict C).legal s i) :=
  inferInstanceAs (Decidable (_ ∧ _))

/-! ## Runs that are written out -/

/-- The state after a sequence of calls, if all of them return. -/
def after (M : Machine ε σ ι) : List ι → σ → Option σ
  | [], s => some s
  | i :: is, s =>
      match (M.step i).run s with
      | .ok _ s' => M.after is s'
      | .error _ _ => none

/-- Every call of the sequence is permitted where it is made. -/
def Permits (M : Machine ε σ ι) : List ι → σ → Prop
  | [], _ => True
  | i :: is, s =>
      M.legal s i ∧
        match (M.step i).run s with
        | .ok _ s' => M.Permits is s'
        | .error _ _ => True

instance decidablePermits (M : Machine ε σ ι) [∀ s i, Decidable (M.legal s i)] :
    ∀ is s, Decidable (M.Permits is s)
  | [], _ => inferInstanceAs (Decidable True)
  | i :: is, s =>
      have : Decidable (match (M.step i).run s with
          | .ok _ s' => M.Permits is s'
          | .error _ _ => True) :=
        match (M.step i).run s with
        | .ok _ s' => decidablePermits M is s'
        | .error _ _ => inferInstanceAs (Decidable True)
      inferInstanceAs (Decidable (_ ∧ _))

theorem Reachable.after (hr : M.Reachable s) (hp : M.Permits is s)
    (h : M.after is s = some s') : M.Reachable s' := by
  induction is generalizing s with
  | nil =>
      obtain rfl := Option.some.inj h
      exact hr
  | cons i is ih =>
      rw [Machine.after] at h
      rw [Permits] at hp
      cases hrun : (M.step i).run s with
      | ok a s₁ =>
          rw [hrun] at h hp
          exact ih (hr.step hp.1 hrun) hp.2 h
      | error e s₁ => rw [hrun] at h; cases h

/-- A state that the calls reach, and what `see` sees of it. -/
theorem Reachable.sees (hr : M.Reachable s) (is : List ι) (see : σ → β) (x : β)
    (hp : M.Permits is s) (hsee : (M.after is s).map see = some x) :
    ∃ s', M.Reachable s' ∧ see s' = x := by
  obtain ⟨s', hs', hx⟩ := Option.map_eq_some_iff.mp hsee
  exact ⟨s', hr.after hp hs', hx⟩

/-! ## Properties of a whole run

Where a component can fail, the interesting statement is about one run: a
property holds in every state the run passes through, the one a stopped call
left behind included (`Always`), and every call of it is made under some
condition (`EachStep`). `always_iff` proves the two the same, call by call. -/

/-- The state a call leaves behind, whether it returned or not. -/
def left (M : Machine ε σ ι) (i : ι) (s : σ) : σ :=
  match (M.step i).run s with
  | .ok _ s' => s'
  | .error _ s' => s'

theorem left_of_ok (h : (M.step i).run s = .ok () s') : M.left i s = s' := by
  rw [left, h]

theorem left_of_error (h : (M.step i).run s = .error e s') : M.left i s = s' := by
  rw [left, h]

/-- `P` holds in every state of the run. -/
def Always (M : Machine ε σ ι) (P : σ → Prop) : List ι → σ → Prop
  | [], s => P s
  | i :: is, s => P s ∧
      match (M.step i).run s with
      | .ok _ s' => M.Always P is s'
      | .error _ s' => P s'

/-- Every call of the run that is made is made under `C`. -/
def EachStep (M : Machine ε σ ι) (C : σ → ι → Prop) : List ι → σ → Prop
  | [], _ => True
  | i :: is, s => C s i ∧
      match (M.step i).run s with
      | .ok _ s' => M.EachStep C is s'
      | .error _ _ => True

theorem Always.head (h : M.Always P is s) : P s := by
  cases is with
  | nil => exact h
  | cons i is => exact h.1

/-- An invariant that every permitted call re-establishes, returning and doing
what `C` says of it. -/
theorem always_of_inv (hP : ∀ s, I s → P s)
    (hstep : ∀ s i, I s → M.legal s i →
      ∃ s', (M.step i).run s = .ok () s' ∧ I s' ∧ C s i)
    (hI : I s) (hp : M.Permits is s) :
    M.Always P is s ∧ M.EachStep C is s := by
  induction is generalizing s with
  | nil => exact ⟨hP s hI, trivial⟩
  | cons i is ih =>
      obtain ⟨hl, hrest⟩ := hp
      obtain ⟨s', hrun, hI', hC⟩ := hstep s i hI hl
      rw [hrun] at hrest
      obtain ⟨hA, hE⟩ := ih hI' hrest
      rw [Always, EachStep, hrun]
      exact ⟨⟨hP s hI, hA⟩, hC, hE⟩

/-- The state left by the last call of a run. -/
theorem Always.last (is : List ι) (h : M.Always P (is ++ [i]) s) (hs : M.after is s = some s') :
    P (M.left i s') := by
  induction is generalizing s with
  | nil =>
      obtain rfl := Option.some.inj hs
      obtain ⟨_, hlast⟩ := h
      rw [left]
      cases hrun : (M.step i).run s with
      | ok a s₁ => rw [hrun] at hlast; exact hlast
      | error e s₁ => rw [hrun] at hlast; exact hlast
  | cons j is ih =>
      obtain ⟨_, hrest⟩ := h
      rw [Machine.after] at hs
      cases hrun : (M.step j).run s with
      | ok a s₁ =>
          rw [hrun] at hs hrest
          exact ih hrest hs
      | error e s₁ => rw [hrun] at hs; cases hs

theorem always_iff (hP : ∀ s, I s → P s)
    (hgood : ∀ s i, I s → M.legal s i → C s i →
      (∃ s', (M.step i).run s = .ok () s' ∧ I s') ∨
      ∃ e s', (M.step i).run s = .error e s' ∧ P s')
    (hbad : ∀ s i, I s → M.legal s i → ¬ C s i → ¬ P (M.left i s))
    (hI : I s) (hp : M.Permits is s) :
    M.Always P is s ↔ M.EachStep C is s := by
  induction is generalizing s with
  | nil =>
      constructor
      · intro _; trivial
      · intro _; exact hP s hI
  | cons i is ih =>
      obtain ⟨hl, hrest⟩ := hp
      rw [Always, EachStep]
      by_cases hC : C s i
      · rcases hgood s i hI hl hC with ⟨s', hrun, hI'⟩ | ⟨e, s', hrun, hPs'⟩
        · rw [hrun] at hrest
          rw [hrun]
          simp only [hP s hI, hC, true_and]
          exact ih hI' hrest
        · rw [hrun]
          simp only [hP s hI, hC, hPs', and_self]
      · -- The property is lost right after this call.
        have hlost := hbad s i hI hl hC
        rw [left] at hlost
        constructor
        · intro hA
          cases hrun : (M.step i).run s with
          | ok a s' =>
              rw [hrun] at hA hlost
              exact absurd hA.2.head hlost
          | error e s' =>
              rw [hrun] at hA hlost
              exact absurd hA.2 hlost
        · intro hE
          exact absurd hE.1 hC

end Machine

end Aim.Lib
