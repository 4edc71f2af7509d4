import Aim.Proofs.UvmEnv

/-!
# The invariant of address spaces

What holds of all address spaces at once, between two calls of `uvm.c`. The
address spaces are `mms`, and `vmas m` are the areas of `m` in the order of its
list. The invariant has these parts.

* `Spaces`: every list is a ring through its sentry, and every area is one page
  that knows its `mm`. Whether the areas ascend is not part of it; that is
  `Sorted`.
* `Owned`: every area has its `struct vma`, its `struct upages` and its frame
  for itself, and these, with the `struct mm`s, are what has been taken out,
  apart from objects `O` and frames `F` that are somebody else's.
* `Indexed`: a page is present in the page index of an `mm` if it is an area of
  it, with its frame and its flags. The page indexes `I` are somebody else's.

An area comes and goes in one step, which is one `add` and one `remove` lemma
for each part.
-/

namespace Aim.Kern

open Aim.Lib Function

variable {σ : Type}

def Uvm.frameOf (u : Uvm σ) (v : Nat) : Nat := (u.upages (u.vma v).pages).pages.paddr

/-- What the page index has for an area. -/
def Uvm.entryOf (u : Uvm σ) (v : Nat) : Nat × Nat := (u.frameOf v, (u.vma v).flags)

/-- Where the areas of a list start. -/
def Uvm.starts (u : Uvm σ) (l : List Nat) : List Nat := l.map fun v => (u.vma v).start

/-- `v` is an area of one of the address spaces. -/
def Live (mms : List Nat) (vmas : Nat → List Nat) (v : Nat) : Prop := ∃ m ∈ mms, v ∈ vmas m

/-- The nodes of a list of areas. -/
def nodes (l : List Nat) : List VmaNode := l.map .vma

structure AreaOk (u : Uvm σ) (m v : Nat) : Prop where
  aligned : (u.vma v).start % pgSize = 0
  lt : (u.vma v).start < 2 ^ 32
  size : (u.vma v).size = pgSize
  flags : (u.vma v).flags < 2 ^ 32
  mm : (u.vma v).mm = m
  psize : (u.upages (u.vma v).pages).pages.size = pgSize
  pflags : (u.upages (u.vma v).pages).pages.flags = 0
  refs : (u.upages (u.vma v).pages).refs = 0

structure Spaces (u : Uvm σ) (mms : List Nat) (vmas : Nat → List Nat) : Prop where
  ring : ∀ m ∈ mms, Links.Ring u.links (.sentry m) (nodes (vmas m))
  share : ∀ v, Live mms vmas v → Links.Ring u.share (.sentry (u.vma v).pages) [.vma v]
  area : ∀ m ∈ mms, ∀ v ∈ vmas m, AreaOk u m v

/-- The areas of every address space ascend and do not overlap. -/
def Sorted (u : Uvm σ) (mms : List Nat) (vmas : Nat → List Nat) : Prop :=
  ∀ m ∈ mms, (u.starts (vmas m)).Pairwise fun a b => a + pgSize ≤ b

/-- The objects that the address spaces are made of. -/
def ObjOf (u : Uvm σ) (mms : List Nat) (vmas : Nat → List Nat) (x : Nat) : Prop :=
  x ∈ mms ∨ ∃ v, Live mms vmas v ∧ (x = v ∨ x = (u.vma v).pages)

structure Owned (u : Uvm σ) (mms : List Nat) (vmas : Nat → List Nat) (O F : Set Nat)
    (R : Res) : Prop where
  pagesInj : ∀ v w, Live mms vmas v → Live mms vmas w →
    (u.vma v).pages = (u.vma w).pages → v = w
  frameInj : ∀ v w, Live mms vmas v → Live mms vmas w → u.frameOf v = u.frameOf w → v = w
  nePages : ∀ v w, Live mms vmas v → Live mms vmas w → v ≠ (u.vma w).pages
  mmNe : ∀ m ∈ mms, ∀ v, Live mms vmas v → m ≠ v ∧ m ≠ (u.vma v).pages
  objs : ∀ x, x ∈ R.objs ↔ x ∈ O ∨ ObjOf u mms vmas x
  objsApart : ∀ x ∈ O, ¬ ObjOf u mms vmas x
  frames : ∀ a, a ∈ R.frames ↔ a ∈ F ∨ ∃ v, Live mms vmas v ∧ a = u.frameOf v
  framesApart : ∀ v, Live mms vmas v → u.frameOf v ∉ F

structure Indexed (u : Uvm σ) (mms : List Nat) (vmas : Nat → List Nat) (I : Set Nat)
    (R : Res) : Prop where
  inj : ∀ m ∈ mms, ∀ m' ∈ mms, u.pgindex m = u.pgindex m' → m = m'
  indexes : ∀ g, g ∈ R.indexes ↔ g ∈ I ∨ ∃ m ∈ mms, g = u.pgindex m
  apart : ∀ m ∈ mms, u.pgindex m ∉ I
  distinct : ∀ m ∈ mms, ∀ v ∈ vmas m, ∀ w ∈ vmas m, (u.vma v).start = (u.vma w).start → v = w
  maps : ∀ m ∈ mms, ∀ va e, R.maps (u.pgindex m) va = some e ↔
    ∃ v ∈ vmas m, (u.vma v).start = va ∧ u.entryOf v = e

/-- What is somebody else's. -/
structure Others where
  objs : Set Nat
  frames : Set Nat
  indexes : Set Nat

/-- The invariant, over an environment that keeps its contract. -/
structure UvmInv {E : Env σ} {paged total : Prop} (S : EnvSpec E paged total) (H : Others)
    (u : Uvm σ) (mms : List Nat) (vmas : Nat → List Nat) (R : Res) : Prop where
  rep : S.Rep u.env R
  live : ∀ x, u.live x = true ↔ x ∈ R.objs
  nodup : mms.Nodup
  spaces : Spaces u mms vmas
  owned : Owned u mms vmas H.objs H.frames R
  indexed : paged → Indexed u mms vmas H.indexes R
  low : total → ∀ v, Live mms vmas v → (u.vma v).flags < pgSize

/-- The data of the areas is the same. -/
structure SameData (mms : List Nat) (vmas : Nat → List Nat) (u u' : Uvm σ) : Prop where
  before : u'.before = u.before
  kernelMm : u'.kernelMm = u.kernelMm
  pgindex : ∀ m ∈ mms, u'.pgindex m = u.pgindex m
  vma : ∀ v, Live mms vmas v → u'.vma v = u.vma v
  upages : ∀ v, Live mms vmas v → u'.upages (u.vma v).pages = u.upages (u.vma v).pages

variable {u u' u'' : Uvm σ} {mms l₁ l₂ : List Nat} {vmas vmas' : Nat → List Nat} {H : Others}
  {O F I : Set Nat} {R R' : Res} {m v p a : Nat}

namespace SameData

theorem refl (u : Uvm σ) : SameData mms vmas u u :=
  ⟨rfl, rfl, fun _ _ => rfl, fun _ _ => rfl, fun _ _ => rfl⟩

variable (h : SameData mms vmas u u')

include h

theorem trans (h' : SameData mms vmas u' u'') :
    SameData mms vmas u u'' where
  before := h'.before.trans h.before
  kernelMm := h'.kernelMm.trans h.kernelMm
  pgindex m hm := (h'.pgindex m hm).trans (h.pgindex m hm)
  vma v hv := (h'.vma v hv).trans (h.vma v hv)
  upages v hv := by
    have hup := h'.upages v hv
    rw [h.vma v hv] at hup
    exact hup.trans (h.upages v hv)

theorem mono (hl : ∀ v, Live mms vmas' v → Live mms vmas v) : SameData mms vmas' u u' :=
  ⟨h.before, h.kernelMm, h.pgindex, fun v hv => h.vma v (hl v hv), fun v hv => h.upages v (hl v hv)⟩

theorem frameOf (hv : Live mms vmas v) : u'.frameOf v = u.frameOf v := by
  rw [Uvm.frameOf, Uvm.frameOf, h.vma v hv, h.upages v hv]

theorem entryOf (hv : Live mms vmas v) : u'.entryOf v = u.entryOf v := by
  rw [Uvm.entryOf, Uvm.entryOf, h.frameOf hv, h.vma v hv]

theorem starts {l : List Nat} (hl : ∀ v ∈ l, Live mms vmas v) : u'.starts l = u.starts l :=
  List.map_congr_left fun v hv => by rw [h.vma v (hl v hv)]

theorem areaOk (hv : Live mms vmas v) (ha : AreaOk u m v) : AreaOk u' m v := by
  obtain ⟨h1, h2, h3, h4, h5, h6, h7, h8⟩ := ha
  constructor <;> rw [h.vma v hv] <;> try rw [h.upages v hv]
  all_goals assumption

theorem objOf (x : Nat) : ObjOf u' mms vmas x ↔ ObjOf u mms vmas x := by
  have hiff : ∀ v, Live mms vmas v ∧ (x = v ∨ x = (u'.vma v).pages) ↔
      Live mms vmas v ∧ (x = v ∨ x = (u.vma v).pages) := by
    intro v
    refine and_congr_right fun hv => ?_
    rw [h.vma v hv]
  rw [ObjOf, ObjOf, exists_congr hiff]

end SameData

theorem Live.of_mem (hm : m ∈ mms) (hv : v ∈ vmas m) : Live mms vmas v := ⟨m, hm, hv⟩

/-! ## No area comes or goes -/

theorem Spaces.keep (h : Spaces u mms vmas) (hd : SameData mms vmas u u')
    (hring : ∀ m ∈ mms, Links.Ring u'.links (.sentry m) (nodes (vmas m)))
    (hshare : ∀ v, Live mms vmas v → Links.Ring u'.share (.sentry (u.vma v).pages) [.vma v]) :
    Spaces u' mms vmas where
  ring := hring
  share v hv := by rw [hd.vma v hv]; exact hshare v hv
  area m hm v hv := hd.areaOk (.of_mem hm hv) (h.area m hm v hv)

theorem Sorted.keep (h : Sorted u mms vmas) (hd : SameData mms vmas u u') : Sorted u' mms vmas := by
  intro m hm
  rw [hd.starts fun _ hv => .of_mem hm hv]
  exact h m hm

theorem Owned.keep (h : Owned u mms vmas O F R) (hd : SameData mms vmas u u') :
    Owned u' mms vmas O F R where
  pagesInj v w hv hw := by
    rw [hd.vma v hv, hd.vma w hw]
    exact h.pagesInj v w hv hw
  frameInj v w hv hw := by
    rw [hd.frameOf hv, hd.frameOf hw]
    exact h.frameInj v w hv hw
  nePages v w hv hw := by
    rw [hd.vma w hw]
    exact h.nePages v w hv hw
  mmNe m hm v hv := by
    rw [hd.vma v hv]
    exact h.mmNe m hm v hv
  objs x := by rw [hd.objOf x]; exact h.objs x
  objsApart x hx := by rw [hd.objOf x]; exact h.objsApart x hx
  frames a := by
    rw [h.frames a]
    refine or_congr_right (exists_congr fun v => and_congr_right fun hv => ?_)
    rw [hd.frameOf hv]
  framesApart v hv := by rw [hd.frameOf hv]; exact h.framesApart v hv

theorem Indexed.keep (h : Indexed u mms vmas I R) (hd : SameData mms vmas u u') :
    Indexed u' mms vmas I R where
  inj m hm m' hm' := by
    rw [hd.pgindex m hm, hd.pgindex m' hm']
    exact h.inj m hm m' hm'
  indexes g := by
    rw [h.indexes g]
    refine or_congr_right (exists_congr fun m => and_congr_right fun hm => ?_)
    rw [hd.pgindex m hm]
  apart m hm := by rw [hd.pgindex m hm]; exact h.apart m hm
  distinct m hm v hv w hw := by
    rw [hd.vma v (.of_mem hm hv), hd.vma w (.of_mem hm hw)]
    exact h.distinct m hm v hv w hw
  maps m hm va e := by
    rw [hd.pgindex m hm, h.maps m hm va e]
    refine exists_congr fun v => and_congr_right fun hv => ?_
    rw [hd.vma v (.of_mem hm hv), hd.entryOf (.of_mem hm hv)]

/-- Which frames a page index is made of is not part of this. -/
theorem Indexed.inner {X : Set Nat} {g : Nat} (h : Indexed u mms vmas I R) :
    Indexed u mms vmas I (R.setInner g X) := ⟨h.inj, h.indexes, h.apart, h.distinct, h.maps⟩

theorem Owned.inner {X : Set Nat} {g : Nat} (h : Owned u mms vmas O F R) :
    Owned u mms vmas O F (R.setInner g X) :=
  ⟨h.pagesInj, h.frameInj, h.nePages, h.mmNe, h.objs, h.objsApart, h.frames, h.framesApart⟩

/-! ## An area comes -/

theorem mem_add (hl : vmas m = l₁ ++ l₂) (m' w : Nat) :
    w ∈ update vmas m (l₁ ++ v :: l₂) m' ↔ w ∈ vmas m' ∨ (m' = m ∧ w = v) := by
  by_cases hmm : m' = m
  · subst hmm
    rw [update_self, hl]
    simp only [List.mem_append, List.mem_cons, true_and]
    tauto
  · rw [update_of_ne hmm]
    simp only [hmm, false_and, or_false]

theorem live_add (hm : m ∈ mms) (hl : vmas m = l₁ ++ l₂) (w : Nat) :
    Live mms (update vmas m (l₁ ++ v :: l₂)) w ↔ Live mms vmas w ∨ w = v := by
  simp only [Live, mem_add hl]
  constructor
  · intro hw
    obtain ⟨m', hm', hw | hw⟩ := hw
    · exact .inl ⟨m', hm', hw⟩
    · exact .inr hw.2
  · intro hw
    rcases hw with ⟨m', hm', hw⟩ | hw
    · exact ⟨m', hm', .inl hw⟩
    · exact ⟨m, hm, .inr ⟨rfl, hw⟩⟩

theorem Spaces.add (h : Spaces u mms vmas) (hd : SameData mms vmas u u') (hm : m ∈ mms)
    (hl : vmas m = l₁ ++ l₂) (hv : AreaOk u' m v)
    (hring : ∀ m' ∈ mms, Links.Ring u'.links (.sentry m')
      (nodes (update vmas m (l₁ ++ v :: l₂) m')))
    (hshare : ∀ w, Live mms vmas w → Links.Ring u'.share (.sentry (u.vma w).pages) [.vma w])
    (hsharev : Links.Ring u'.share (.sentry (u'.vma v).pages) [.vma v]) :
    Spaces u' mms (update vmas m (l₁ ++ v :: l₂)) where
  ring := hring
  share w hw := by
    rcases (live_add hm hl w).mp hw with hw | rfl
    · rw [hd.vma w hw]
      exact hshare w hw
    · exact hsharev
  area m' hm' w hw := by
    rcases (mem_add hl m' w).mp hw with hw | ⟨rfl, rfl⟩
    · exact hd.areaOk (.of_mem hm' hw) (h.area m' hm' w hw)
    · exact hv

theorem exists_live_add (hm : m ∈ mms) (hl : vmas m = l₁ ++ l₂) (P : Nat → Prop) :
    (∃ w, Live mms (update vmas m (l₁ ++ v :: l₂)) w ∧ P w) ↔
      (∃ w, Live mms vmas w ∧ P w) ∨ P v := by
  simp only [live_add hm hl]
  constructor
  · rintro ⟨w, hw | rfl, hP⟩
    · exact .inl ⟨w, hw, hP⟩
    · exact .inr hP
  · rintro (⟨w, hw, hP⟩ | hP)
    · exact ⟨w, .inl hw, hP⟩
    · exact ⟨v, .inr rfl, hP⟩

theorem objOf_add (hd : SameData mms vmas u u') (hm : m ∈ mms) (hl : vmas m = l₁ ++ l₂)
    (x : Nat) : ObjOf u' mms (update vmas m (l₁ ++ v :: l₂)) x ↔
      ObjOf u mms vmas x ∨ x = v ∨ x = (u'.vma v).pages := by
  rw [← hd.objOf x, ObjOf, ObjOf, exists_live_add hm hl, or_assoc]

/-- The new area's objects and frame are fresh, so they are told from all the
others by being out now and not before. -/
theorem Owned.add (h : Owned u mms vmas O F R) (hd : SameData mms vmas u u') (hm : m ∈ mms)
    (hl : vmas m = l₁ ++ l₂) (hv : v ∉ R.objs) (hp : (u'.vma v).pages ∉ R.objs)
    (hvp : v ≠ (u'.vma v).pages) (ha : u'.frameOf v ∉ R.frames)
    (hobjs : ∀ x, x ∈ R'.objs ↔ x ∈ R.objs ∨ x = v ∨ x = (u'.vma v).pages)
    (hframes : ∀ x, x ∈ R'.frames ↔ x ∈ R.frames ∨ x = u'.frameOf v) :
    Owned u' mms (update vmas m (l₁ ++ v :: l₂)) O F R' := by
  have hk := h.keep hd
  have hout : ∀ w, Live mms vmas w → w ∈ R.objs ∧ (u'.vma w).pages ∈ R.objs := by
    intro w hw
    exact ⟨(hk.objs w).mpr (.inr (.inr ⟨w, hw, .inl rfl⟩)),
      (hk.objs _).mpr (.inr (.inr ⟨w, hw, .inr rfl⟩))⟩
  have hmm : ∀ m ∈ mms, m ∈ R.objs := fun m hm => (hk.objs m).mpr (.inr (.inl hm))
  have hfr : ∀ w, Live mms vmas w → u'.frameOf w ∈ R.frames := fun w hw =>
    (hk.frames _).mpr (.inr ⟨w, hw, rfl⟩)
  constructor
  · intro x y hx hy hxy
    rw [live_add hm hl] at hx hy
    rcases hx with hx | rfl
    · rcases hy with hy | rfl
      · exact hk.pagesInj x y hx hy hxy
      · exact absurd (hxy ▸ (hout x hx).2) hp
    · rcases hy with hy | rfl
      · exact absurd (hxy ▸ (hout y hy).2) hp
      · rfl
  · intro x y hx hy hxy
    rw [live_add hm hl] at hx hy
    rcases hx with hx | rfl
    · rcases hy with hy | rfl
      · exact hk.frameInj x y hx hy hxy
      · exact absurd (hxy ▸ hfr x hx) ha
    · rcases hy with hy | rfl
      · exact absurd (hxy ▸ hfr y hy) ha
      · rfl
  · intro x y hx hy
    rw [live_add hm hl] at hx hy
    rcases hx with hx | rfl
    · rcases hy with hy | rfl
      · exact hk.nePages x y hx hy
      · exact fun hxy => hp (hxy ▸ (hout x hx).1)
    · rcases hy with hy | rfl
      · exact fun hxy => hv (hxy ▸ (hout y hy).2)
      · exact hvp
  · intro m' hm' x hx
    rw [live_add hm hl] at hx
    rcases hx with hx | rfl
    · exact hk.mmNe m' hm' x hx
    · exact ⟨fun hmx => hv (hmx ▸ hmm m' hm'), fun hmx => hp (hmx ▸ hmm m' hm')⟩
  · intro x
    rw [hobjs x, h.objs x, objOf_add hd hm hl x, or_assoc]
  · intro x hx
    rw [objOf_add hd hm hl x]
    have hxR : x ∈ R.objs := (h.objs x).mpr (.inl hx)
    intro hox
    rcases hox with hox | rfl | hxp
    · exact h.objsApart x hx hox
    · exact hv hxR
    · exact hp (hxp ▸ hxR)
  · intro x
    rw [hframes x, hk.frames x, exists_live_add hm hl, or_assoc]
  · intro x hx
    rw [live_add hm hl] at hx
    rcases hx with hx | rfl
    · exact hk.framesApart x hx
    · exact fun hxF => ha ((hk.frames _).mpr (.inl hxF))

theorem Indexed.add (h : Indexed u mms vmas I R) (hd : SameData mms vmas u u') (hm : m ∈ mms)
    (hl : vmas m = l₁ ++ l₂) (hfree : R.maps (u.pgindex m) (u'.vma v).start = none)
    (hindexes : R'.indexes = R.indexes)
    (hmaps : R'.maps =
      (R.setMap (u.pgindex m) (u'.vma v).start (some (u'.entryOf v))).maps) :
    Indexed u' mms (update vmas m (l₁ ++ v :: l₂)) I R' := by
  have hk := h.keep hd
  rw [← hd.pgindex m hm] at hfree hmaps
  -- No other area of `m` is at this page.
  have hother : ∀ w ∈ vmas m, (u'.vma w).start ≠ (u'.vma v).start := by
    intro w hw hstart
    have hpresent := (hk.maps m hm _ _).mpr ⟨w, hw, hstart, rfl⟩
    rw [hfree] at hpresent
    cases hpresent
  refine ⟨hk.inj, ?_, hk.apart, ?_, ?_⟩
  · rw [hindexes]
    exact hk.indexes
  · intro m' hm' x hx y hy hxy
    rw [mem_add hl] at hx hy
    rcases hx with hx | ⟨hmm, hxv⟩
    · rcases hy with hy | ⟨hmm, hyv⟩
      · exact hk.distinct m' hm' x hx y hy hxy
      · exact absurd (hyv ▸ hxy) (hother x (hmm ▸ hx))
    · rcases hy with hy | ⟨-, hyv⟩
      · exact absurd (hxv ▸ hxy.symm) (hother y (hmm ▸ hy))
      · exact hxv.trans hyv.symm
  · intro m' hm' va e
    simp only [mem_add hl]
    rw [hmaps]
    by_cases hat : u'.pgindex m' = u'.pgindex m ∧ va = (u'.vma v).start
    · obtain ⟨hg, rfl⟩ := hat
      have hmm : m' = m := hk.inj m' hm' m hm hg
      subst hmm
      rw [Res.setMap_self]
      constructor
      · intro he
        exact ⟨v, .inr ⟨rfl, rfl⟩, rfl, Option.some.inj he⟩
      · intro hw
        obtain ⟨w, hw | ⟨-, rfl⟩, hstart, he⟩ := hw
        · exact absurd hstart (hother w hw)
        · rw [he]
    · have hne : u'.pgindex m' ≠ u'.pgindex m ∨ va ≠ (u'.vma v).start := by
        by_contra hno
        simp only [not_or, not_not] at hno
        exact hat hno
      rw [Res.setMap_of_ne hne, hk.maps m' hm' va e]
      constructor
      · intro hw
        obtain ⟨w, hw, hrest⟩ := hw
        exact ⟨w, .inl hw, hrest⟩
      · intro hw
        obtain ⟨w, hw | ⟨rfl, rfl⟩, hstart, he⟩ := hw
        · exact ⟨w, hw, hstart, he⟩
        · exact absurd ⟨rfl, hstart.symm⟩ hat

/-! ## An area goes -/

theorem Spaces.nodup (h : Spaces u mms vmas) (hm : m ∈ mms) : (vmas m).Nodup :=
  (List.nodup_cons.mp (h.ring m hm).nodup).2.of_map

/-- An area is in one list only. -/
theorem Spaces.unique {m' : Nat} (h : Spaces u mms vmas) (hm : m ∈ mms) (hm' : m' ∈ mms)
    (hv : v ∈ vmas m) (hv' : v ∈ vmas m') : m' = m :=
  (h.area m' hm' v hv').mm.symm.trans (h.area m hm v hv).mm

theorem Spaces.mem_remove (h : Spaces u mms vmas) (hm : m ∈ mms) (hl : vmas m = l₁ ++ v :: l₂)
    {m' : Nat} (hm' : m' ∈ mms) (w : Nat) :
    w ∈ update vmas m (l₁ ++ l₂) m' ↔ w ∈ vmas m' ∧ w ≠ v := by
  by_cases hmm : m' = m
  · subst hmm
    have hnd := h.nodup hm
    rw [hl, List.nodup_middle, List.nodup_cons] at hnd
    rw [update_self, hl, List.mem_append, List.mem_append, List.mem_cons]
    constructor
    · intro hw
      refine ⟨hw.imp_right .inr, fun hwv => hnd.1 ?_⟩
      rw [List.mem_append, ← hwv]
      exact hw
    · intro hw
      exact hw.1.imp_right (fun h => h.resolve_left hw.2)
  · rw [update_of_ne hmm]
    refine (and_iff_left_of_imp fun hw hwv => hmm ?_).symm
    have hv : v ∈ vmas m := by
      rw [hl]
      exact List.mem_append_right _ List.mem_cons_self
    exact h.unique hm hm' hv (hwv ▸ hw)

theorem Spaces.live_remove (h : Spaces u mms vmas) (hm : m ∈ mms)
    (hl : vmas m = l₁ ++ v :: l₂) (w : Nat) :
    Live mms (update vmas m (l₁ ++ l₂)) w ↔ Live mms vmas w ∧ w ≠ v := by
  constructor
  · intro hw
    obtain ⟨m', hm', hw⟩ := hw
    rw [h.mem_remove hm hl hm'] at hw
    exact ⟨⟨m', hm', hw.1⟩, hw.2⟩
  · intro hw
    obtain ⟨⟨m', hm', hw⟩, hwv⟩ := hw
    exact ⟨m', hm', (h.mem_remove hm hl hm' w).mpr ⟨hw, hwv⟩⟩

theorem Spaces.remove (h : Spaces u mms vmas) (hm : m ∈ mms) (hl : vmas m = l₁ ++ v :: l₂)
    (hd : SameData mms (update vmas m (l₁ ++ l₂)) u u')
    (hring : ∀ m' ∈ mms, Links.Ring u'.links (.sentry m')
      (nodes (update vmas m (l₁ ++ l₂) m')))
    (hshare : ∀ w, Live mms (update vmas m (l₁ ++ l₂)) w →
      Links.Ring u'.share (.sentry (u.vma w).pages) [.vma w]) :
    Spaces u' mms (update vmas m (l₁ ++ l₂)) where
  ring := hring
  share w hw := by rw [hd.vma w hw]; exact hshare w hw
  area m' hm' w hw := by
    refine hd.areaOk (.of_mem hm' hw) (h.area m' hm' w ?_)
    exact ((h.mem_remove hm hl hm' w).mp hw).1

theorem Owned.remove (h : Owned u mms vmas O F R) (hs : Spaces u mms vmas) (hm : m ∈ mms)
    (hl : vmas m = l₁ ++ v :: l₂)
    (hobjs : ∀ x, x ∈ R'.objs ↔ x ∈ R.objs ∧ x ≠ v ∧ x ≠ (u.vma v).pages)
    (hframes : ∀ x, x ∈ R'.frames ↔ x ∈ R.frames ∧ x ≠ u.frameOf v) :
    Owned u mms (update vmas m (l₁ ++ l₂)) O F R' := by
  have hlive := hs.live_remove hm hl
  have hv : Live mms vmas v := .of_mem hm (hl ▸ List.mem_append_right _ List.mem_cons_self)
  have hold : ∀ w, Live mms (update vmas m (l₁ ++ l₂)) w → Live mms vmas w :=
    fun w hw => ((hlive w).mp hw).1
  have hobjOf : ∀ x, ObjOf u mms (update vmas m (l₁ ++ l₂)) x ↔
      ObjOf u mms vmas x ∧ x ≠ v ∧ x ≠ (u.vma v).pages := by
    intro x
    constructor
    · intro hx
      rcases hx with hx | ⟨w, hw, hx⟩
      · exact ⟨.inl hx, h.mmNe x hx v hv⟩
      · obtain ⟨hw, hwv⟩ := (hlive w).mp hw
        refine ⟨.inr ⟨w, hw, hx⟩, ?_⟩
        rcases hx with rfl | rfl
        · exact ⟨hwv, h.nePages x v hw hv⟩
        · exact ⟨(h.nePages v w hv hw).symm, fun hp => hwv (h.pagesInj w v hw hv hp)⟩
    · intro hx
      obtain ⟨hx | ⟨w, hw, hx⟩, hxv, hxp⟩ := hx
      · exact .inl hx
      · refine .inr ⟨w, (hlive w).mpr ⟨hw, ?_⟩, hx⟩
        rintro rfl
        exact hx.elim hxv hxp
  constructor
  · exact fun x y hx hy => h.pagesInj x y (hold x hx) (hold y hy)
  · exact fun x y hx hy => h.frameInj x y (hold x hx) (hold y hy)
  · exact fun x y hx hy => h.nePages x y (hold x hx) (hold y hy)
  · exact fun m' hm' x hx => h.mmNe m' hm' x (hold x hx)
  · intro x
    rw [hobjs x, h.objs x, hobjOf x, or_and_right]
    refine or_congr_left (and_iff_left_of_imp fun hx => ?_)
    exact ⟨fun hxv => h.objsApart x hx (.inr ⟨v, hv, .inl hxv⟩),
      fun hxp => h.objsApart x hx (.inr ⟨v, hv, .inr hxp⟩)⟩
  · exact fun x hx hox => h.objsApart x hx ((hobjOf x).mp hox).1
  · intro x
    rw [hframes x, h.frames x, or_and_right]
    refine or_congr (and_iff_left_of_imp fun hx hxa => h.framesApart v hv (hxa ▸ hx)) ?_
    constructor
    · intro hx
      obtain ⟨⟨w, hw, rfl⟩, hne⟩ := hx
      exact ⟨w, (hlive w).mpr ⟨hw, fun hwv => hne (hwv ▸ rfl)⟩, rfl⟩
    · intro hx
      obtain ⟨w, hw, rfl⟩ := hx
      obtain ⟨hw, hwv⟩ := (hlive w).mp hw
      exact ⟨⟨w, hw, rfl⟩, fun ha => hwv (h.frameInj w v hw hv ha)⟩
  · exact fun x hx => h.framesApart x (hold x hx)

theorem Indexed.remove (h : Indexed u mms vmas I R) (hs : Spaces u mms vmas) (hm : m ∈ mms)
    (hl : vmas m = l₁ ++ v :: l₂) (hindexes : R'.indexes = R.indexes)
    (hmaps : R'.maps = (R.setMap (u.pgindex m) (u.vma v).start none).maps) :
    Indexed u mms (update vmas m (l₁ ++ l₂)) I R' := by
  have hv : v ∈ vmas m := hl ▸ List.mem_append_right _ List.mem_cons_self
  refine ⟨h.inj, ?_, h.apart, ?_, ?_⟩
  · rw [hindexes]
    exact h.indexes
  · intro m' hm' x hx y hy
    rw [hs.mem_remove hm hl hm'] at hx hy
    exact h.distinct m' hm' x hx.1 y hy.1
  · intro m' hm' va e
    simp only [hs.mem_remove hm hl hm']
    rw [hmaps]
    by_cases hat : u.pgindex m' = u.pgindex m ∧ va = (u.vma v).start
    · obtain ⟨hg, rfl⟩ := hat
      have hmm : m' = m := h.inj m' hm' m hm hg
      subst hmm
      rw [Res.setMap_self]
      constructor
      · intro he
        cases he
      · intro hw
        obtain ⟨w, ⟨hw, hwv⟩, hstart, -⟩ := hw
        exact absurd (h.distinct m' hm' w hw v hv hstart) hwv
    · have hne : u.pgindex m' ≠ u.pgindex m ∨ va ≠ (u.vma v).start := by
        by_contra hno
        simp only [not_or, not_not] at hno
        exact hat hno
      rw [Res.setMap_of_ne hne, h.maps m' hm' va e]
      refine exists_congr fun w => ?_
      refine and_congr_left fun hrest => (and_iff_left_of_imp fun hw hwv => hat ?_).symm
      rw [hwv] at hw hrest
      exact ⟨congrArg u.pgindex (hs.unique hm hm' hv hw), hrest.1.symm⟩

end Aim.Kern
