import Aim.Kern.Uvm
import Aim.Lib.Ends

/-!
# What an address space stands on

`EnvSpec` is the contract between `uvm.c` and what it calls. It is stated over
an abstract account `Res` of what has been handed out: the objects of
`kmalloc`, the physical frames of user pages, the page indexes with the frames
they are made of, and what each page index translates. `Rep s R` says that `R`
is what the state `s` accounts for, and each law says how a call changes the
account.

There are two switches. The account of page indexes is only kept when `paged`
holds, and calls may only stop when `total` does not. So with neither, the
contract asks for the object and frame allocators alone, and lets `map_pages`
and the others do what they like to the page index. With `paged` alone,
`map_pages` may refuse a page that is present by stopping. With both, it has
to be asked for pages that are not.
-/

namespace Aim.Kern

open Aim.Lib Function

/-- What is out. `maps g va` is the frame and the flags that the page index `g`
has for the page at `va`, if that page is present, and `inner g` are the frames
that `g` is made of. -/
structure Res where
  objs : Set Nat
  frames : Set Nat
  indexes : Set Nat
  inner : Nat → Set Nat
  maps : Nat → Nat → Option (Nat × Nat)

namespace Res

def addObj (R : Res) (p : Nat) : Res := { R with objs := insert p R.objs }

def dropObj (R : Res) (p : Nat) : Res := { R with objs := R.objs \ {p} }

def addFrame (R : Res) (a : Nat) : Res := { R with frames := insert a R.frames }

def dropFrame (R : Res) (a : Nat) : Res := { R with frames := R.frames \ {a} }

/-- A new page index, made of the frames `X`, translates nothing. -/
def addIndex (R : Res) (g : Nat) (X : Set Nat) : Res :=
  { R with
    indexes := insert g R.indexes
    inner := update R.inner g X
    maps := update R.maps g fun _ => none }

def dropIndex (R : Res) (g : Nat) : Res :=
  { R with
    indexes := R.indexes \ {g}
    inner := update R.inner g ∅ }

def setInner (R : Res) (g : Nat) (X : Set Nat) : Res :=
  { R with inner := update R.inner g X }

def setMap (R : Res) (g va : Nat) (e : Option (Nat × Nat)) : Res :=
  { R with maps := update R.maps g (update (R.maps g) va e) }

variable {R : Res} {p a : Nat}

theorem dropObj_addObj (h : p ∉ R.objs) : (R.addObj p).dropObj p = R := by
  show { R with objs := insert p R.objs \ {p} } = R
  rw [Set.insert_sdiff_self_of_notMem h]

theorem dropFrame_addFrame (h : a ∉ R.frames) : (R.addFrame a).dropFrame a = R := by
  show { R with frames := insert a R.frames \ {a} } = R
  rw [Set.insert_sdiff_self_of_notMem h]

theorem setMap_self {g va : Nat} {e : Option (Nat × Nat)} : (R.setMap g va e).maps g va = e := by
  simp [setMap]

theorem setMap_of_ne {g g' va va' : Nat} {e : Option (Nat × Nat)} (h : g' ≠ g ∨ va' ≠ va) :
    (R.setMap g va e).maps g' va' = R.maps g' va' := by
  by_cases hg : g' = g
  · subst hg
    have hva : va' ≠ va := by simpa using h
    simp [setMap, hva]
  · simp [setMap, hg]

end Res

/-- The contract. The laws are about pages of the size `uvm.c` asks for. -/
structure EnvSpec {σ : Type} (E : Env σ) (paged total : Prop) where
  Rep : σ → Res → Prop
  kmalloc : ∀ s R n, Rep s R → Ends total (E.kmalloc n) s fun p s' =>
    (p = 0 ∧ Rep s' R) ∨ (p ≠ 0 ∧ p ∉ R.objs ∧ Rep s' (R.addObj p))
  kfree : ∀ s R p, Rep s R → p ∈ R.objs →
    Ends total (E.kfree p) s fun _ s' => Rep s' (R.dropObj p)
  allocPages : ∀ s R, Rep s R → Ends total (E.allocPages ⟨0, pgSize, 0⟩) s fun r s' =>
    (r.1 < 0 ∧ Rep s' R) ∨
      (0 ≤ r.1 ∧ r.2.size = pgSize ∧ r.2.flags = 0 ∧ r.2.paddr ∉ R.frames ∧
        Rep s' (R.addFrame r.2.paddr))
  freePages : ∀ s R a, Rep s R → a ∈ R.frames →
    Ends total (E.freePages ⟨a, pgSize, 0⟩) s fun _ s' => Rep s' (R.dropFrame a)
  initPgindex : ∀ s R, Rep s R → Ends total E.initPgindex s fun g s' =>
    (g = 0 ∧ Rep s' R) ∨
      (g ≠ 0 ∧ (paged → g ∉ R.indexes) ∧ ∃ X, Rep s' (R.addIndex g X))
  mapPages : ∀ s R g va a flags, Rep s R → va % pgSize = 0 → va < 2 ^ 32 → a ∈ R.frames →
    flags < 2 ^ 32 → (paged → g ∈ R.indexes) →
    (total → R.maps g va = none ∧ flags < pgSize) →
    Ends total (E.mapPages g va a pgSize flags) s fun r s' => ∃ X,
      (r < 0 ∧ Rep s' (R.setInner g X)) ∨
        (0 ≤ r ∧ (paged → R.maps g va = none) ∧
          Rep s' ((R.setInner g X).setMap g va (some (a, flags))))
  unmapPages : ∀ s R g va, Rep s R → va % pgSize = 0 → va < 2 ^ 32 →
    (paged → g ∈ R.indexes ∧ R.maps g va ≠ none) →
    Ends total (E.unmapPages g va pgSize) s fun r s' =>
      (total → r.1 = pgSize ∧ ∀ e, R.maps g va = some e → r.2 = e.1) ∧
        Rep s' (R.setMap g va none)
  destroyPgindex : ∀ s R g, Rep s R →
    (paged → g ∈ R.indexes ∧ ∀ va, R.maps g va = none) →
    Ends total (E.destroyPgindex g) s fun _ s' => Rep s' (R.dropIndex g)
  memmove : ∀ s R a b, Rep s R → a ∈ R.frames → b ∈ R.frames →
    Ends total (E.memmove (pa2kva a) (pa2kva b) pgSize) s fun _ s' => Rep s' R

/-- What is promised of the object and frame allocators alone: `Out s O F` says
that in `s` the objects `O` and the frames `F` are out, and what is out is not
handed out again. The calls may stop, and the other ones do anything else. -/
structure AllocSpec {σ : Type} (E : Env σ) where
  Out : σ → Set Nat → Set Nat → Prop
  kmalloc : ∀ s O F n, Out s O F → Ends False (E.kmalloc n) s fun p s' =>
    (p = 0 ∧ Out s' O F) ∨ (p ≠ 0 ∧ p ∉ O ∧ Out s' (insert p O) F)
  kfree : ∀ s O F p, Out s O F → p ∈ O →
    Ends False (E.kfree p) s fun _ s' => Out s' (O \ {p}) F
  allocPages : ∀ s O F, Out s O F → Ends False (E.allocPages ⟨0, pgSize, 0⟩) s fun r s' =>
    (r.1 < 0 ∧ Out s' O F) ∨
      (0 ≤ r.1 ∧ r.2.size = pgSize ∧ r.2.flags = 0 ∧ r.2.paddr ∉ F ∧
        Out s' O (insert r.2.paddr F))
  freePages : ∀ s O F a, Out s O F → a ∈ F →
    Ends False (E.freePages ⟨a, pgSize, 0⟩) s fun _ s' => Out s' O (F \ {a})
  initPgindex : ∀ s O F, Out s O F → Ends False E.initPgindex s fun _ s' => Out s' O F
  mapPages : ∀ s O F g va a flags, Out s O F → a ∈ F →
    Ends False (E.mapPages g va a pgSize flags) s fun _ s' => Out s' O F
  unmapPages : ∀ s O F g va, Out s O F →
    Ends False (E.unmapPages g va pgSize) s fun _ s' => Out s' O F
  destroyPgindex : ∀ s O F g, Out s O F →
    Ends False (E.destroyPgindex g) s fun _ s' => Out s' O F
  memmove : ∀ s O F a b, Out s O F → a ∈ F → b ∈ F →
    Ends False (E.memmove (pa2kva a) (pa2kva b) pgSize) s fun _ s' => Out s' O F

/-- The contract without page indexes. -/
def AllocSpec.toEnvSpec {σ : Type} {E : Env σ} (A : AllocSpec E) : EnvSpec E False False where
  Rep s R := A.Out s R.objs R.frames
  kmalloc s R n h := A.kmalloc s R.objs R.frames n h
  kfree s R p h hp := A.kfree s R.objs R.frames p h hp
  allocPages s R h := A.allocPages s R.objs R.frames h
  freePages s R a h ha := A.freePages s R.objs R.frames a h ha
  initPgindex s R h := by
    refine (A.initPgindex s R.objs R.frames h).imp ?_
    intro g s' h'
    by_cases hg : g = 0
    · exact .inl ⟨hg, h'⟩
    · exact .inr ⟨hg, fun hf => hf.elim, ∅, h'⟩
  mapPages s R g va a flags h _ _ ha _ _ _ := by
    refine (A.mapPages s R.objs R.frames g va a flags h ha).imp ?_
    intro r s' h'
    refine ⟨∅, ?_⟩
    by_cases hr : r < 0
    · exact .inl ⟨hr, h'⟩
    · exact .inr ⟨not_lt.mp hr, fun hf => hf.elim, h'⟩
  unmapPages s R g va h _ _ _ := by
    refine (A.unmapPages s R.objs R.frames g va h).imp ?_
    intro r s' h'
    exact ⟨fun hf => hf.elim, h'⟩
  destroyPgindex s R g h _ := A.destroyPgindex s R.objs R.frames g h
  memmove s R a b h ha hb := A.memmove s R.objs R.frames a b h ha hb

end Aim.Kern
