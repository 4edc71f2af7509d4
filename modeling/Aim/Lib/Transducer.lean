import Aim.Lib.Emits

/-!
# Transducers

A machine that reads its input an element at a time and has, for each, some
outputs and a next state. What it writes for `is ++ js` is what it writes for
`is`, and then what it writes for `js` from the state it has come to.

`Runs` ties a program to such a machine: a loop over the input that puts the
outputs of each element into a sink, whatever that does with them.
-/

namespace Aim.Lib

structure Transducer (σ ι γ : Type) where
  out : σ → ι → List γ
  next : σ → ι → σ

namespace Transducer

variable {σ τ ι γ α : Type} (T : Transducer σ ι γ)

def final (s : σ) (is : List ι) : σ := is.foldl T.next s

def output (s : σ) : List ι → List γ
  | [] => []
  | i :: is => T.out s i ++ output (T.next s i) is

@[simp] theorem final_nil (s : σ) : T.final s [] = s := rfl

@[simp] theorem final_cons (s : σ) (i : ι) (is : List ι) :
    T.final s (i :: is) = T.final (T.next s i) is := rfl

theorem final_append (s : σ) (is js : List ι) :
    T.final s (is ++ js) = T.final (T.final s is) js := List.foldl_append

theorem output_append (s : σ) (is js : List ι) :
    T.output s (is ++ js) = T.output s is ++ T.output (T.final s is) js := by
  induction is generalizing s with
  | nil => rfl
  | cons i is ih => rw [List.cons_append, output, output, ih, List.append_assoc, final_cons]

variable {T}

/-- What every step keeps, every run keeps. -/
theorem final_of_kept {P : σ → Prop} (hnext : ∀ s i, P s → P (T.next s i)) {s : σ} (h : P s)
    (is : List ι) : P (T.final s is) := by
  induction is generalizing s with
  | nil => exact h
  | cons i is ih => exact ih (hnext s i h)

/-- Two machines in related states, whose steps write the same and keep the
relation, write the same. -/
theorem output_eq_of_related {U : Transducer τ ι γ} {R : σ → τ → Prop}
    (hout : ∀ s t i, R s t → T.out s i = U.out t i)
    (hnext : ∀ s t i, R s t → R (T.next s i) (U.next t i)) {s : σ} {t : τ} (h : R s t)
    (is : List ι) : T.output s is = U.output t is ∧ R (T.final s is) (U.final t is) := by
  induction is generalizing s t with
  | nil => exact ⟨rfl, h⟩
  | cons i is ih =>
      obtain ⟨htext, hfinal⟩ := ih (hnext s t i h)
      exact ⟨by rw [output, output, hout s t i h, htext], hfinal⟩

section Runs

variable {m : Type → Type} [Monad m] {put : γ → m PUnit} {loop : List ι → σ → m α}

/-- The loop puts the outputs of the first element and goes on from the next
state. -/
def Runs (T : Transducer σ ι γ) (put : γ → m PUnit) (loop : List ι → σ → m α) : Prop :=
  ∀ i is s, loop (i :: is) s = ((T.out s i).forM put >>= fun _ => loop is (T.next s i))

/-- So it does with any part of its input. -/
theorem Runs.append [LawfulMonad m] (h : T.Runs put loop) (s : σ) (is js : List ι) :
    loop (is ++ js) s = ((T.output s is).forM put >>= fun _ => loop js (T.final s is)) := by
  induction is generalizing s with
  | nil => simp [output]
  | cons i is ih =>
      rw [List.cons_append, h, ih]
      simp [output]

end Runs

end Transducer

end Aim.Lib
