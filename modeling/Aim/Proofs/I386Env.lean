import Aim.Proofs.UvmEnv
import Aim.Proofs.PageIndex

/-!
# The environment of `uvm.c` on i386 keeps its contract

`BaseSpec` is what is assumed of the allocators and of `unmap_pages`, which has
no body on i386: pages and objects that are out are not handed out again, pages
are frames below `KERN_BASE`, and nobody writes to pages that are out but those
who hold them. `pgalloc` has to answer a page. Frames below `KERN_BASE` are a
finite supply, so it may be `starved`, but it may not answer anything else.

From that, `i386Spec` is the contract of `UvmEnv`: `init_pgindex`, `map_pages`
and `destroy_pgindex` of `arch_mmu.c` keep an account of page indexes, in which
every index is represented in memory as `IndexAt` says, on frames of its own.
Frame zero is special. `walkpgdir` takes a page table there for a failure, and
does not give it back; so it may be out and be nobody's.
-/

namespace Aim.Kern

open Aim.Lib Mem Function

variable {σ : Type} {B : Base σ}

/-- Nothing was written outside the frames `F`. -/
def SameOutside (F : Set Nat) (m m' : Mem) : Prop :=
  ∀ x, (∀ f ∈ F, x < f ∨ f + pgSize ≤ x) → m' x = m x

section SameOutside

variable {F : Set Nat} {m : Mem} {a f i v : Nat}

theorem SameOutside.mono {F' : Set Nat} {m' : Mem} (h : SameOutside F m m') (hF : F ⊆ F') :
    SameOutside F' m m' := fun x hx => h x fun f hf => hx f (hF hf)

theorem sameOutside_kstore32 (hf : f ∈ F) (hframe : IsFrame f) (hi : i < 1024)
    (ha : Sees a (f + 4 * i)) : SameOutside F m (kstore32 m a v) := by
  intro x hx
  refine kstore32_of_outside ha (hframe.word_le hi) ?_
  have hxf := hx f hf
  rw [pgSize] at hxf
  omega

theorem sameOutside_kfill {b : UInt8} (hf : f ∈ F) (hframe : IsFrame f) (ha : Sees a f) :
    SameOutside F m (kfill m a b pgSize) := fun _ hx =>
  kfill_of_outside ha hframe.le (hx f hf)

end SameOutside

/-- The contract of what `arch_mmu.c` and `uvm.c` are built on: `Out s O U P` says
that it is the objects `O` that are out, the frames `U` from `alloc_pages` and
the frames `P` from `pgalloc`. The frames `P` are left alone by everybody here. -/
structure BaseSpec (B : Base σ) where
  Out : Phys σ → Set Nat → Set Nat → Set Nat → Prop
  frame : ∀ s O U P, Out s O U P → ∀ a ∈ U ∪ P, IsFrame a
  apart : ∀ s O U P, Out s O U P → ∀ a ∈ U, a ∉ P
  unique : ∀ s O U P O' U' P', Out s O U P → Out s O' U' P' → O' = O ∧ U' = U ∧ P' = P
  write : ∀ s O U P m, Out s O U P → SameOutside (U ∪ P) s.mem m →
    Out { s with mem := m } O U P
  kmalloc : ∀ s O U P n, Out s O U P → Ends True (B.kmalloc n) s fun p s' =>
    SameWords P s.mem s'.mem ∧
      ((p = 0 ∧ Out s' O U P) ∨ (p ≠ 0 ∧ p ∉ O ∧ Out s' (insert p O) U P))
  kfree : ∀ s O U P p, Out s O U P → p ∈ O → Ends True (B.kfree p) s fun _ s' =>
    SameWords P s.mem s'.mem ∧ Out s' (O \ {p}) U P
  allocPages : ∀ s O U P, Out s O U P →
    Ends True (B.allocPages ⟨0, pgSize, 0⟩) s fun r s' =>
      SameWords P s.mem s'.mem ∧
        ((r.1 < 0 ∧ Out s' O U P) ∨
          (0 ≤ r.1 ∧ r.2.size = pgSize ∧ r.2.flags = 0 ∧ r.2.paddr ∉ U ∧
            Out s' O (insert r.2.paddr U) P))
  freePages : ∀ s O U P a, Out s O U P → a ∈ U →
    Ends True (B.freePages ⟨a, pgSize, 0⟩) s fun _ s' =>
      SameWords P s.mem s'.mem ∧ Out s' O (U \ {a}) P
  pgalloc : ∀ s O U P, Out s O U P → Ends True B.pager.pgalloc s fun a s' =>
    SameWords P s.mem s'.mem ∧ a ∉ P ∧ Out s' O U (insert a P)
  pgfree : ∀ s O U P a, Out s O U P → a ∈ P → Ends True (B.pager.pgfree a) s fun _ s' =>
    SameWords (P \ {a}) s.mem s'.mem ∧ Out s' O U (P \ {a})
  /-- The page at `va` is present, in the table `t` of the directory `d`. -/
  unmapPages : ∀ s O U P d t va, Out s O U P → IsPage va → d ∈ P → t ∈ P →
    word s.mem d (pdx va) = t + 7 → word s.mem t (ptx va) &&& pteP ≠ 0 →
    Ends True (B.unmapPages (d + kernBase) va pgSize) s fun r s' =>
      r.1 = pgSize ∧ r.2 = pgRoundDown (word s.mem t (ptx va)) ∧ Out s' O U P ∧
        word s'.mem t (ptx va) &&& pteP = 0 ∧
        ∀ f ∈ P, ∀ j < 1024, f ≠ t ∨ j ≠ ptx va → word s'.mem f j = word s.mem f j

/-! ## Accesses -/

section Access

variable {total : Prop} {α : Type} {s : Phys σ} {Q : α → Phys σ → Prop}
  {f : Unit → EStateM Stop (Phys σ) α}

theorem ends_kload_bind {a : Nat} {f : Nat → EStateM Stop (Phys σ) α}
    (h : Ends total (f (kload32 s.mem a)) s Q) : Ends total (kload a >>= f) s Q := h

theorem ends_kstore_bind {a v : Nat}
    (h : Ends total (f ()) { s with mem := kstore32 s.mem a v } Q) :
    Ends total (kstore a v >>= f) s Q := h

theorem ends_kmemset_bind {a n : Nat} {b : UInt8}
    (h : Ends total (f ()) { s with mem := kfill s.mem a b n } Q) :
    Ends total (kmemset a b n >>= f) s Q := h

end Access

namespace BaseSpec

variable {S : BaseSpec B} {s : Phys σ} {O U P : Set Nat} {a f v i : Nat} (hout : S.Out s O U P)

include hout

theorem user (hf : f ∈ U) : IsFrame f := S.frame s O U P hout f (.inl hf)

theorem page (hf : f ∈ P) : IsFrame f := S.frame s O U P hout f (.inr hf)

/-- A word of a frame that is out may be written. -/
theorem kstore (hf : f ∈ P) (hi : i < 1024) (ha : Sees a (f + 4 * i)) :
    S.Out { s with mem := kstore32 s.mem a v } O U P :=
  S.write s O U P _ hout (sameOutside_kstore32 (.inr hf) (page hout hf) hi ha)

theorem kfill (hf : f ∈ P) (ha : Sees a f) {b : UInt8} :
    S.Out { s with mem := kfill s.mem a b pgSize } O U P :=
  S.write s O U P _ hout (sameOutside_kfill (.inr hf) (page hout hf) ha)

theorem kcopy (hf : f ∈ U) (ha : Sees a f) {src : Nat} :
    S.Out { s with mem := kcopy s.mem a src pgSize } O U P :=
  S.write s O U P _ hout fun _ hx => kcopy_of_outside ha (user hout hf).le (hx f (.inl hf))

end BaseSpec

/-! ## The account -/

/-- The page index `g` is made of the frames `X` and translates `maps`. -/
def Res.setIndex (R : Res) (g : Nat) (X : Set Nat) (maps : Nat → Option (Nat × Nat)) : Res :=
  { R with
    inner := update R.inner g X
    maps := update R.maps g maps }

section SetIndex

variable {R : Res} {g g' : Nat} {X : Set Nat} {maps : Nat → Option (Nat × Nat)}

theorem Res.setIndex_inner : (R.setIndex g X maps).inner g = X := update_self _ _ _

theorem Res.setIndex_maps : (R.setIndex g X maps).maps g = maps := update_self _ _ _

theorem Res.setIndex_inner_of_ne (h : g' ≠ g) : (R.setIndex g X maps).inner g' = R.inner g' :=
  update_of_ne h _ _

theorem Res.setIndex_maps_of_ne (h : g' ≠ g) : (R.setIndex g X maps).maps g' = R.maps g' :=
  update_of_ne h _ _

theorem Res.setIndex_self : R.setIndex g X (R.maps g) = R.setInner g X := by
  rw [setIndex, update_eq_self]
  rfl

theorem Res.setIndex_setMap {va : Nat} {e : Option (Nat × Nat)} :
    R.setIndex g (R.inner g) (update (R.maps g) va e) = R.setMap g va e := by
  rw [setIndex, update_eq_self]
  rfl

end SetIndex

/-- The state `s` accounts for `R`: the frames `P` from `pgalloc` are those of page
indexes, and the frames `K`, which are somebody else's. -/
structure Accounts (S : BaseSpec B) (low : Prop) (K : Set Nat) (s : Phys σ) (R : Res)
    (P : Set Nat) : Prop where
  out : S.Out s R.objs R.frames P
  others : ∀ a ∈ K, a ∈ P
  inner : ∀ g ∈ R.indexes, ∀ a ∈ R.inner g, a ∈ P
  only : ∀ a ∈ P, a = 0 ∨ a ∈ K ∨ ∃ g ∈ R.indexes, a ∈ R.inner g
  notOther : ∀ g ∈ R.indexes, ∀ a ∈ R.inner g, a ∉ K
  apart : ∀ g ∈ R.indexes, ∀ g' ∈ R.indexes, ∀ a ∈ R.inner g, a ∈ R.inner g' → g = g'
  index : ∀ g ∈ R.indexes, ∃ d, g = d + kernBase ∧
    IndexAt low s.mem d (R.inner g) (R.maps g)

namespace Accounts

variable {S : BaseSpec B} {low : Prop} {K P : Set Nat} {s s' : Phys σ} {R : Res} {a d g : Nat}
  (h : Accounts S low K s R P)

include h

/-- Only objects and user frames came or went. -/
theorem keep {O U : Set Nat} (hout : S.Out s' O U P) (hs : SameWords P s.mem s'.mem) :
    Accounts S low K s' { R with objs := O, frames := U } P := by
  refine ⟨hout, h.others, h.inner, h.only, h.notOther, h.apart, ?_⟩
  intro g hg
  obtain ⟨d, hd, hidx⟩ := h.index g hg
  exact ⟨d, hd, hidx.keep (hs.mono (h.inner g hg))⟩

/-- Frame zero has been taken, and forgotten. -/
theorem forget (hout : S.Out s' R.objs R.frames (insert 0 P)) (hs : SameWords P s.mem s'.mem) :
    Accounts S low K s' R (insert 0 P) := by
  refine ⟨hout, fun x hx => .inr (h.others x hx), fun g hg x hx => .inr (h.inner g hg x hx), ?_,
    h.notOther, h.apart, ?_⟩
  · intro x hx
    rcases hx with rfl | hx
    · exact .inl rfl
    · exact h.only x hx
  · intro g hg
    obtain ⟨d, hd, hidx⟩ := h.index g hg
    exact ⟨d, hd, hidx.keep (hs.mono (h.inner g hg))⟩

theorem addIndex (hg : g = d + kernBase) (hd : d ∉ P) (hout : S.Out s' R.objs R.frames (insert d P))
    (hs : SameWords P s.mem s'.mem) (hzero : ∀ i < 1024, word s'.mem d i = 0) :
    g ∉ R.indexes ∧ Accounts S low K s' (R.addIndex g {d}) (insert d P) := by
  have hnew : g ∉ R.indexes := by
    intro hmem
    obtain ⟨d', hd', hidx⟩ := h.index _ hmem
    have heq : d' = d := by omega
    exact hd (h.inner _ hmem d (heq ▸ hidx.dir))
  -- What the new account has for the new index and for the old ones.
  have hself : (R.addIndex g {d}).inner g = {d} := update_self _ _ _
  have hold : ∀ g' ∈ R.indexes, (R.addIndex g {d}).inner g' = R.inner g' ∧
      (R.addIndex g {d}).maps g' = R.maps g' := by
    intro g' hg'
    have hne : g' ≠ g := fun he => hnew (he ▸ hg')
    exact ⟨update_of_ne hne _ _, update_of_ne hne _ _⟩
  refine ⟨hnew, hout, fun x hx => .inr (h.others x hx), ?_, ?_, ?_, ?_, ?_⟩
  · intro g' hg' x hx
    rcases hg' with rfl | hg'
    · rw [hself] at hx
      exact .inl hx
    · rw [(hold g' hg').1] at hx
      exact .inr (h.inner g' hg' x hx)
  · intro x hx
    rcases hx with rfl | hx
    · exact .inr (.inr ⟨g, .inl rfl, by rw [hself]; rfl⟩)
    · refine (h.only x hx).imp_right (Or.imp_right fun hex => ?_)
      obtain ⟨g', hg', hmem⟩ := hex
      exact ⟨g', .inr hg', by rw [(hold g' hg').1]; exact hmem⟩
  · intro g' hg' x hx hmem
    rcases hg' with rfl | hg'
    · rw [hself] at hx
      rw [Set.mem_singleton_iff.mp hx] at hmem
      exact hd (h.others d hmem)
    · rw [(hold g' hg').1] at hx
      exact h.notOther g' hg' x hx hmem
  · intro g₁ hg₁ g₂ hg₂ x hx₁ hx₂
    rcases hg₁ with rfl | hg₁
    · rcases hg₂ with rfl | hg₂
      · rfl
      · rw [hself] at hx₁
        rw [(hold g₂ hg₂).1, Set.mem_singleton_iff.mp hx₁] at hx₂
        exact absurd (h.inner g₂ hg₂ d hx₂) hd
    · rw [(hold g₁ hg₁).1] at hx₁
      rcases hg₂ with rfl | hg₂
      · rw [hself] at hx₂
        rw [Set.mem_singleton_iff.mp hx₂] at hx₁
        exact absurd (h.inner g₁ hg₁ d hx₁) hd
      · rw [(hold g₂ hg₂).1] at hx₂
        exact h.apart g₁ hg₁ g₂ hg₂ x hx₁ hx₂
  · intro g' hg'
    rcases hg' with rfl | hg'
    · refine ⟨d, hg, ?_⟩
      rw [hself, show (R.addIndex g' {d}).maps g' = fun _ => none from
        update_self _ _ _]
      exact .new (BaseSpec.page hout (Set.mem_insert d _)) hzero
    · obtain ⟨d', hd', hidx⟩ := h.index g' hg'
      rw [(hold g' hg').1, (hold g' hg').2]
      exact ⟨d', hd', hidx.keep (hs.mono (h.inner g' hg'))⟩

/-- The index `g` changed, on its own frames and frames that were not out. -/
theorem setIndex {X P' : Set Nat} {maps : Nat → Option (Nat × Nat)} (hg : g ∈ R.indexes)
    (hgd : g = d + kernBase) (hidx : IndexAt low s'.mem d X maps)
    (hout : S.Out s' R.objs R.frames P') (hX : ∀ x, x ∈ X ↔ x ∈ R.inner g ∨ x ∈ P' ∧ x ∉ P)
    (hP : P ⊆ P') (hs : ∀ x ∈ P, x ∉ R.inner g → ∀ i < 1024, word s'.mem x i = word s.mem x i) :
    Accounts S low K s' (R.setIndex g X maps) P' := by
  refine ⟨hout, fun x hx => hP (h.others x hx), ?_, ?_, ?_, ?_, ?_⟩
  · intro g' hg' x hx
    by_cases heq : g' = g
    · rw [heq, Res.setIndex_inner] at hx
      exact ((hX x).mp hx).elim (fun hx => hP (h.inner g hg x hx)) And.left
    · rw [Res.setIndex_inner_of_ne heq] at hx
      exact hP (h.inner g' hg' x hx)
  · intro x hx
    by_cases hxP : x ∈ P
    · refine (h.only x hxP).imp_right (Or.imp_right fun hex => ?_)
      obtain ⟨g', hg', hmem⟩ := hex
      refine ⟨g', hg', ?_⟩
      by_cases heq : g' = g
      · rw [heq] at hmem
        rw [heq, Res.setIndex_inner]
        exact (hX x).mpr (.inl hmem)
      · rw [Res.setIndex_inner_of_ne heq]
        exact hmem
    · refine .inr (.inr ⟨g, hg, ?_⟩)
      rw [Res.setIndex_inner]
      exact (hX x).mpr (.inr ⟨hx, hxP⟩)
  · intro g' hg' x hx hmem
    by_cases heq : g' = g
    · rw [heq, Res.setIndex_inner] at hx
      rcases (hX x).mp hx with hx | hx
      · exact h.notOther g hg x hx hmem
      · exact hx.2 (h.others x hmem)
    · rw [Res.setIndex_inner_of_ne heq] at hx
      exact h.notOther g' hg' x hx hmem
  · -- A frame of the changed index is one of its old frames, or was nobody's.
    have hapart : ∀ g' ∈ R.indexes, g' ≠ g → ∀ x ∈ X, x ∉ R.inner g' := by
      intro g' hg' hne x hx hmem
      rcases (hX x).mp hx with hx | hx
      · exact hne (h.apart g' hg' g hg x hmem hx)
      · exact hx.2 (h.inner g' hg' x hmem)
    intro g₁ hg₁ g₂ hg₂ x hx₁ hx₂
    by_cases heq₁ : g₁ = g
    · by_cases heq₂ : g₂ = g
      · rw [heq₁, heq₂]
      · rw [heq₁, Res.setIndex_inner] at hx₁
        rw [Res.setIndex_inner_of_ne heq₂] at hx₂
        exact absurd hx₂ (hapart g₂ hg₂ heq₂ x hx₁)
    · rw [Res.setIndex_inner_of_ne heq₁] at hx₁
      by_cases heq₂ : g₂ = g
      · rw [heq₂, Res.setIndex_inner] at hx₂
        exact absurd hx₁ (hapart g₁ hg₁ heq₁ x hx₂)
      · rw [Res.setIndex_inner_of_ne heq₂] at hx₂
        exact h.apart g₁ hg₁ g₂ hg₂ x hx₁ hx₂
  · intro g' hg'
    by_cases heq : g' = g
    · refine ⟨d, heq.trans hgd, ?_⟩
      rw [heq, Res.setIndex_inner, Res.setIndex_maps]
      exact hidx
    · obtain ⟨d', hd', hidx'⟩ := h.index g' hg'
      refine ⟨d', hd', ?_⟩
      rw [Res.setIndex_inner_of_ne heq, Res.setIndex_maps_of_ne heq]
      refine hidx'.keep fun x hx => hs x (h.inner g' hg' x hx) fun hmem => ?_
      exact heq (h.apart g' hg' g hg x hx hmem)

/-- The index `g` is gone, and its frames with it. -/
theorem dropIndex {P' : Set Nat} (hg : g ∈ R.indexes) (hout : S.Out s' R.objs R.frames P')
    (hP : ∀ a, a ∈ P' ↔ a ∈ P ∧ a ∉ R.inner g) (hs : SameWords P' s.mem s'.mem) :
    Accounts S low K s' (R.dropIndex g) P' := by
  have hold : ∀ g' ∈ (R.dropIndex g).indexes, g' ∈ R.indexes ∧
      (R.dropIndex g).inner g' = R.inner g' ∧ ∀ a ∈ R.inner g', a ∉ R.inner g := by
    intro g' hg'
    refine ⟨hg'.1, update_of_ne hg'.2 _ _, fun a ha hmem => ?_⟩
    exact hg'.2 (h.apart g' hg'.1 g hg a ha hmem)
  refine ⟨hout, ?_, ?_, ?_, ?_, ?_, ?_⟩
  · intro a ha
    exact (hP a).mpr ⟨h.others a ha, fun hmem => h.notOther g hg a hmem ha⟩
  · intro g' hg' a ha
    obtain ⟨hg'', hinner, hnot⟩ := hold g' hg'
    rw [hinner] at ha
    exact (hP a).mpr ⟨h.inner g' hg'' a ha, hnot a ha⟩
  · intro a ha
    obtain ⟨haP, hnot⟩ := (hP a).mp ha
    refine (h.only a haP).imp_right (Or.imp_right fun hex => ?_)
    obtain ⟨g', hg', hmem⟩ := hex
    have hne : g' ≠ g := fun he => hnot (he ▸ hmem)
    refine ⟨g', ⟨hg', hne⟩, ?_⟩
    rw [show (R.dropIndex g).inner g' = R.inner g' from update_of_ne hne _ _]
    exact hmem
  · intro g' hg' a ha
    obtain ⟨hg'', hinner, -⟩ := hold g' hg'
    rw [hinner] at ha
    exact h.notOther g' hg'' a ha
  · intro g₁ hg₁ g₂ hg₂ a ha₁ ha₂
    obtain ⟨hg₁', hinner₁, -⟩ := hold g₁ hg₁
    obtain ⟨hg₂', hinner₂, -⟩ := hold g₂ hg₂
    rw [hinner₁] at ha₁
    rw [hinner₂] at ha₂
    exact h.apart g₁ hg₁' g₂ hg₂' a ha₁ ha₂
  · intro g' hg'
    obtain ⟨hg'', hinner, hnot⟩ := hold g' hg'
    obtain ⟨d', hd', hidx'⟩ := h.index g' hg''
    refine ⟨d', hd', ?_⟩
    rw [hinner]
    exact hidx'.keep (hs.mono fun a ha => (hP a).mpr ⟨h.inner g' hg'' a ha, hnot a ha⟩)

/-- The entry of one page changed, in the table `t` of the index. -/
theorem setEntry {t va : Nat} {e : Option (Nat × Nat)} (hg : g ∈ R.indexes) (hgd : g = d + kernBase)
    (hidx : IndexAt low s.mem d (R.inner g) (R.maps g)) (hva : IsPage va)
    (hw : word s.mem d (pdx va) = t + 7) (hout : S.Out s' R.objs R.frames P)
    (he : EntryOk low (word s'.mem t (ptx va)) e)
    (hother : ∀ x ∈ P, ∀ j < 1024, x ≠ t ∨ j ≠ ptx va → word s'.mem x j = word s.mem x j) :
    Accounts S low K s' (R.setMap g va e) P := by
  obtain ⟨ht, -⟩ := hidx.table_mem (pdx_lt va) hw
  have hidx' : IndexAt low s'.mem d (R.inner g) (update (R.maps g) va e) :=
    hidx.setEntry hva hw he fun x hx => hother x (h.inner g hg x hx)
  rw [← Res.setIndex_setMap]
  refine h.setIndex hg hgd hidx' hout ?_ (le_refl P) ?_
  · intro x
    exact ⟨.inl, fun hx => hx.elim id fun hx => absurd hx.1 hx.2⟩
  · intro x hx hxg j hj
    exact hother x hx j hj (.inl fun hxt => hxg (hxt ▸ ht))

end Accounts

/-! ## `init_pgindex` and `map_pages` -/

section Calls

variable {S : BaseSpec B} {low total : Prop} {s : Phys σ} {R : Res} {K P O U : Set Nat}
  {d g va t : Nat}

/-- A new page index is a frame that was not in use, cleared. -/
theorem initPgindex_out (h : S.Out s O U P) :
    Ends True (initPgindex B.pager) s fun g s' => ∃ d, g = d + kernBase ∧ d ∉ P ∧
      S.Out s' O U (insert d P) ∧ SameWords P s.mem s'.mem ∧ ∀ i < 1024, word s'.mem d i = 0 := by
  refine (S.pgalloc s O U P h).bind ?_
  intro d s₁ hd
  obtain ⟨hs, hdP, hout⟩ := hd
  have hframe := BaseSpec.page hout (Set.mem_insert d _)
  have hg : (d + kernBase) % 2 ^ 32 = d + kernBase := by
    obtain ⟨-, hlt⟩ := hframe
    rw [kernBase] at *
    omega
  have hsees : Sees (d + kernBase) d := sees_high hframe.2
  refine ends_kmemset_bind (ends_pure ?_)
  rw [hg]
  refine ⟨d, rfl, hdP, BaseSpec.kfill hout (.inl rfl) hsees, ?_, fun i hi => ?_⟩
  · intro x hx i hi
    have hxd : x ≠ d := fun he => hdP (he ▸ hx)
    exact (word_kfill_ne hsees hframe (BaseSpec.page h hx) hxd hi).trans (hs x hx i hi)
  · exact word_kfill hsees hframe hi

theorem initPgindex_ends (h : Accounts S low K s R P) :
    Ends True (initPgindex B.pager) s fun g s' => g ≠ 0 ∧ g ∉ R.indexes ∧
      ∃ X P', Accounts S low K s' (R.addIndex g X) P' := by
  refine (initPgindex_out h.out).imp fun g s' hg => ?_
  obtain ⟨d, hgd, hdP, hout, hsame, hzero⟩ := hg
  obtain ⟨hnew, hacc⟩ := h.addIndex hgd hdP hout hsame hzero
  refine ⟨?_, hnew, _, _, hacc⟩
  rw [hgd, kernBase]
  omega

/-- The page table `t` of `walkpgdir`, cleared and entered for `va`. -/
def newTable (m : Mem) (g va t : Nat) : Mem :=
  kstore32 (kfill m t 0 pgSize) ((g + 4 * pdx va) % 2 ^ 32) (t + 7)

/-- The new table is cleared, and the only other word written is its entry. -/
theorem newTable_words (m : Mem) (va : Nat) (hg : Sees g d) (hd : IsFrame d) (ht : IsFrame t)
    (hdt : d ≠ t) :
    word (newTable m g va t) d (pdx va) = t + 7 ∧
      (∀ j < 1024, word (newTable m g va t) t j = 0) ∧
      ∀ x, IsFrame x → x ≠ t → ∀ j < 1024, x ≠ d ∨ j ≠ pdx va →
        word (newTable m g va t) x j = word m x j := by
  have hpde : Sees ((g + 4 * pdx va) % 2 ^ 32) (d + 4 * pdx va) := sees_word hg hd (pdx_lt va)
  have hsees : Sees t t := sees_low ht.2
  refine ⟨?_, fun j hj => ?_, fun x hx hxt j hj hne => ?_⟩
  · rw [newTable, word_kstore32_self hpde hd (pdx_lt va), Nat.mod_eq_of_lt]
    obtain ⟨-, hlt⟩ := ht
    rw [kernBase] at hlt
    omega
  · rw [newTable, word_kstore32_ne hpde hd (pdx_lt va) ht hj (.inl hdt.symm)]
    exact word_kfill hsees ht hj
  · rw [newTable, word_kstore32_ne hpde hd (pdx_lt va) hx hj hne]
    exact word_kfill_ne hsees ht hx hxt hj

/-- A directory without a table for `va` is given one. -/
theorem Accounts.addTable {s₁ : Phys σ} (h : Accounts S low K s R P) (hg : g ∈ R.indexes)
    (hgd : g = d + kernBase) (hidx : IndexAt low s.mem d (R.inner g) (R.maps g))
    (h0 : word s.mem d (pdx va) = 0) (hs : SameWords P s.mem s₁.mem) (htP : t ∉ P)
    (hout : S.Out s₁ R.objs R.frames (insert t P)) :
    Accounts S low K { s₁ with mem := newTable s₁.mem g va t }
        (R.setInner g (insert t (R.inner g))) (insert t P) ∧
      IndexAt low (newTable s₁.mem g va t) d (insert t (R.inner g)) (R.maps g) ∧
      word (newTable s₁.mem g va t) d (pdx va) = t + 7 := by
  have hdP := h.inner g hg d hidx.dir
  have hdf := BaseSpec.page h.out hdP
  have htf := BaseSpec.page hout (Set.mem_insert t _)
  have hsees : Sees g d := hgd ▸ sees_high hdf.2
  have hpde : Sees ((g + 4 * pdx va) % 2 ^ 32) (d + 4 * pdx va) :=
    sees_word hsees hdf (pdx_lt va)
  obtain ⟨hself, hzero, hrest⟩ := newTable_words s₁.mem va hsees hdf htf
    fun he => htP (he ▸ hdP)
  have hother : ∀ x ∈ P, ∀ j < 1024, x ≠ d ∨ j ≠ pdx va →
      word (newTable s₁.mem g va t) x j = word s.mem x j := by
    intro x hx j hj hne
    have hxt : x ≠ t := fun he => htP (he ▸ hx)
    exact (hrest x (BaseSpec.page h.out hx) hxt j hj hne).trans (hs x hx j hj)
  have hout' := BaseSpec.kfill (b := 0) hout (.inl rfl) (sees_low htf.2)
  have hidx' := hidx.addTable htf (fun hmem => htP (h.inner g hg t hmem)) (pdx_lt va) h0
    hself hzero fun x hx => hother x (h.inner g hg x hx)
  have hacc := h.setIndex hg hgd hidx' (BaseSpec.kstore hout' (.inr hdP) (pdx_lt va) hpde) ?_
    (Set.subset_insert t P) fun x hx hxg j hj => hother x hx j hj (.inl fun he =>
      hxg (he ▸ hidx.dir))
  · rw [Res.setIndex_self] at hacc
    exact ⟨hacc, hidx', hself⟩
  · intro x
    rw [Set.mem_insert_iff, Set.mem_insert_iff]
    refine ⟨fun hx => ?_, fun hx => ?_⟩
    · exact hx.elim (fun hx => .inr ⟨.inl hx, hx ▸ htP⟩) .inl
    · exact hx.elim .inr fun hx => .inl (hx.1.resolve_right hx.2)

/-- The walk finds the table of `va`, or adds one, or is answered frame zero. -/
theorem walkpgdir_ends (h : Accounts S low K s R P) (hg : g ∈ R.indexes) (hgd : g = d + kernBase)
    (hidx : IndexAt low s.mem d (R.inner g) (R.maps g)) :
    Ends True (walkpgdir B.pager g va true) s fun pte s' =>
      (pte = 0 ∧ ∃ P', Accounts S low K s' R P') ∨
        (pte ≠ 0 ∧ ∃ X P' t, Accounts S low K s' (R.setInner g X) P' ∧
          IndexAt low s'.mem d X (R.maps g) ∧ X ⊆ P' ∧
          word s'.mem d (pdx va) = t + 7 ∧ Sees pte (t + 4 * ptx va)) := by
  have hdP := h.inner g hg d hidx.dir
  have hdf := BaseSpec.page h.out hdP
  have hsees : Sees g d := hgd ▸ sees_high hdf.2
  have hpde : Sees ((g + 4 * pdx va) % 2 ^ 32) (d + 4 * pdx va) :=
    sees_word hsees hdf (pdx_lt va)
  rw [walkpgdir]
  refine ends_kload_bind ?_
  rw [kload32_word hpde hdf (pdx_lt va)]
  rcases hidx.entry _ (pdx_lt va) with h0 | ⟨t, ht, -, hw⟩
  · rw [h0, if_neg (not_not.mpr (Nat.zero_and _)), if_neg (by decide)]
    refine (S.pgalloc s R.objs R.frames P h.out).bind ?_
    intro t s₁ ht
    obtain ⟨hs, htP, hout⟩ := ht
    have htf := BaseSpec.page hout (Set.mem_insert t _)
    have hmod : t % 2 ^ 32 = t := by
      obtain ⟨-, hlt⟩ := htf
      rw [kernBase] at hlt
      omega
    rw [hmod]
    by_cases ht0 : t = 0
    · rw [if_pos ht0]
      rw [ht0] at hout
      exact ends_pure (.inl ⟨rfl, _, h.forget hout hs⟩)
    · rw [if_neg ht0]
      refine ends_kmemset_bind (ends_kstore_bind (ends_pure (.inr ?_)))
      rw [table_entry htf]
      obtain ⟨hacc, hidx', hself⟩ := h.addTable hg hgd hidx h0 hs htP hout
      refine ⟨?_, insert t (R.inner g), insert t P, t, hacc, hidx',
        Set.insert_subset_insert (h.inner g hg), hself,
        sees_word (sees_low htf.2) htf (ptx_lt va)⟩
      have hlast := htf.word_le (ptx_lt va)
      rw [kernBase] at hlast
      omega
  · have htf := BaseSpec.page h.out (h.inner g hg t ht)
    have hpost : postmapAddr t = t + kernBase := if_neg (not_le.mpr htf.2)
    rw [hw, if_pos (table_present htf), table_addr htf, hpost]
    refine ends_pure (.inr ⟨?_, R.inner g, P, t, ?_, hidx, h.inner g hg, hw,
      sees_word (sees_high htf.2) htf (ptx_lt va)⟩)
    · have hlast := htf.word_le (ptx_lt va)
      rw [kernBase] at *
      omega
    · rw [← Res.setIndex_self, Res.setIndex, update_eq_self, update_eq_self]
      exact h

/-- A range of one page ends where it starts. -/
theorem lastPage_one (h : IsPage va) :
    pgRoundDown ((va + pgSize + 2 ^ 32 - 1) % 2 ^ 32) = va ∧ pgRoundDown va = va := by
  obtain ⟨hal, hlt⟩ := h
  unfold pgRoundDown
  rw [pgSize] at *
  omega

theorem mapPages_ends {a flags : Nat} (h : Accounts S low K s R P) (hg : g ∈ R.indexes)
    (hva : IsPage va) (ha : IsFrame a) (hlow : low → flags < pgSize)
    (hnone : total → R.maps g va = none) :
    Ends total (mapPages B.pager g va a pgSize flags) s fun r s' => ∃ X P',
      (r < 0 ∧ Accounts S low K s' (R.setInner g X) P') ∨
        (0 ≤ r ∧ R.maps g va = none ∧
          Accounts S low K s' ((R.setInner g X).setMap g va (some (a, flags))) P') := by
  obtain ⟨d, hgd, hidx⟩ := h.index g hg
  obtain ⟨hlast, hfirst⟩ := lastPage_one hva
  rw [mapPages, hlast, hfirst, show 2 ^ 20 = 1048575 + 1 from rfl, mapLoop]
  refine (walkpgdir_ends h hg hgd hidx).weaken.bind ?_
  intro pte s₁ hpte
  rcases hpte with ⟨h0, P', hacc⟩ | ⟨h0, X, P', t, hacc, hidx', hXP, hw, hsees⟩
  · rw [if_pos h0]
    refine ends_pure ⟨R.inner g, P', .inl ⟨by decide, ?_⟩⟩
    rw [← Res.setIndex_self, Res.setIndex, update_eq_self, update_eq_self]
    exact hacc
  · rw [if_neg h0]
    obtain ⟨htX, -⟩ := hidx'.table_mem (pdx_lt va) hw
    have htf := hidx'.frame t htX
    have hentry := hidx'.table va t hva hw
    refine ends_kload_bind ?_
    rw [kload32_word hsees htf (ptx_lt va)]
    by_cases hpresent : word s₁.mem t (ptx va) &&& pteP ≠ 0
    · rw [if_pos hpresent]
      refine ends_throw fun ht => hpresent ?_
      rw [hnone ht] at hentry
      exact hentry
    · rw [if_neg hpresent]
      have hmaps : R.maps g va = none := by
        cases hm : R.maps g va with
        | none => rfl
        | some e =>
            rw [hm] at hentry
            rw [hentry.1] at hpresent
            exact absurd (page_present e.1 e.2) hpresent
      refine ends_kstore_bind ?_
      rw [if_pos rfl]
      have hout : S.Out { s₁ with mem := kstore32 s₁.mem pte ((a ||| flags ||| pteP) % 2 ^ 32) }
          R.objs R.frames P' := BaseSpec.kstore hacc.out (hXP htX) (ptx_lt va) hsees
      refine ends_pure ⟨X, P', .inr ⟨le_refl _, hmaps, ?_⟩⟩
      refine hacc.setEntry hg hgd ?_ hva hw hout ?_ ?_
      · rw [show (R.setInner g X).inner g = X from update_self _ _ _]
        exact hidx'
      · refine ⟨?_, ha, hlow⟩
        rw [word_kstore32_self hsees htf (ptx_lt va), Nat.mod_mod]
      · intro x hx j hj hne
        exact word_kstore32_ne hsees htf (ptx_lt va) (BaseSpec.page hacc.out hx) hj hne

theorem unmapPages_ends (h : Accounts S low K s R P) (hg : g ∈ R.indexes) (hva : IsPage va)
    (hsome : R.maps g va ≠ none) :
    Ends True (B.unmapPages g va pgSize) s fun r s' =>
      (low → r.1 = pgSize ∧ ∀ e, R.maps g va = some e → r.2 = e.1) ∧
        Accounts S low K s' (R.setMap g va none) P := by
  obtain ⟨d, hgd, hidx⟩ := h.index g hg
  rcases hidx.entry _ (pdx_lt va) with h0 | ⟨t, ht, -, hw⟩
  · exact absurd (hidx.absent va hva h0) hsome
  obtain ⟨e, he⟩ := Option.ne_none_iff_exists'.mp hsome
  have hentry := hidx.table va t hva hw
  rw [he] at hentry
  have hpresent : word s.mem t (ptx va) &&& pteP ≠ 0 := by
    rw [hentry.1]
    exact page_present e.1 e.2
  have hends := S.unmapPages s R.objs R.frames P d t va h.out hva (h.inner g hg d hidx.dir)
    (h.inner g hg t ht) hw hpresent
  rw [← hgd] at hends
  refine hends.imp ?_
  intro r s' hs'
  obtain ⟨hsize, haddr, hout, hnone, hother⟩ := hs'
  refine ⟨fun hl => ⟨hsize, fun e' he' => ?_⟩, h.setEntry hg hgd hidx hva hw hout hnone hother⟩
  rw [he] at he'
  injection he' with he'
  rw [haddr, hentry.1, page_addr hentry.2.1.isPage (hentry.2.2 hl), he']

/-! ## `destroy_pgindex` -/

/-- The tables from entry `i` on are given back. -/
theorem clearLoop_ends {fuel i : Nat} (hi : i + fuel = 1024)
    (hout : S.Out s O U P) (hdP : d ∈ P)
    (hentry : ∀ j, i ≤ j → j < 1024 → word s.mem d j = 0 ∨
      ∃ t ∈ P, t ≠ d ∧ word s.mem d j = t + 7)
    (hinj : ∀ j, i ≤ j → j < 1024 → ∀ k, i ≤ k → k < 1024 → ∀ t, word s.mem d j = t + 7 →
      word s.mem d k = t + 7 → j = k) :
    Ends True (clearLoop B.pager (d + kernBase) fuel i) s fun _ s' => ∃ P₂, S.Out s' O U P₂ ∧
      (∀ a, a ∈ P₂ ↔ a ∈ P ∧ ∀ j, i ≤ j → j < 1024 → word s.mem d j ≠ a + 7) ∧
      SameWords (P₂ \ {d}) s.mem s'.mem := by
  induction fuel generalizing s P i with
  | zero =>
      refine ends_pure ⟨P, hout, fun a => ?_, fun _ _ _ _ => rfl⟩
      exact ⟨fun ha => ⟨ha, fun j hij hj => by omega⟩, And.left⟩
  | succ fuel ih =>
      have hilt : i < 1024 := by omega
      have hdf := BaseSpec.page hout hdP
      have hsees : Sees ((d + kernBase + 4 * i) % 2 ^ 32) (d + 4 * i) :=
        sees_word (sees_high hdf.2) hdf hilt
      rw [clearLoop]
      refine ends_kload_bind ?_
      rw [kload32_word hsees hdf hilt]
      -- What is left to do once the table of the entry, if any, is given back.
      have hrest : ∀ (s₁ : Phys σ) (P₁ : Set Nat), S.Out s₁ O U P₁ → d ∈ P₁ →
          SameWords P₁ s.mem s₁.mem →
          (∀ a, a ∈ P₁ ↔ a ∈ P ∧ word s.mem d i ≠ a + 7) →
          Ends True (do
            kstore ((d + kernBase + 4 * i) % 2 ^ 32) 0
            clearLoop B.pager (d + kernBase) fuel (i + 1)) s₁ fun _ s' => ∃ P₂, S.Out s' O U P₂ ∧
              (∀ a, a ∈ P₂ ↔ a ∈ P ∧ ∀ j, i ≤ j → j < 1024 → word s.mem d j ≠ a + 7) ∧
              SameWords (P₂ \ {d}) s.mem s'.mem := by
        intro s₁ P₁ hout₁ hdP₁ hs₁ hP₁
        refine ends_kstore_bind ?_
        have hdir : ∀ j, i + 1 ≤ j → j < 1024 →
            word (kstore32 s₁.mem ((d + kernBase + 4 * i) % 2 ^ 32) 0) d j = word s.mem d j := by
          intro j hij hj
          rw [word_kstore32_ne hsees hdf hilt hdf hj (.inr (by omega))]
          exact hs₁ d hdP₁ j hj
        refine (ih (by omega) (BaseSpec.kstore hout₁ hdP₁ hilt hsees) hdP₁ ?_ ?_).imp ?_
        · intro j hij hj
          have hj' : i ≤ j := by omega
          rw [hdir j hij hj]
          refine (hentry j hj' hj).imp_right fun hex => ?_
          obtain ⟨t, htP, htd, hw⟩ := hex
          refine ⟨t, (hP₁ t).mpr ⟨htP, fun hwi => ?_⟩, htd, hw⟩
          have := hinj j hj' hj i (le_refl i) hilt t hw hwi
          omega
        · intro j hij hj k hik hk t hwj hwk
          rw [hdir j hij hj] at hwj
          rw [hdir k hik hk] at hwk
          exact hinj j (by omega) hj k (by omega) hk t hwj hwk
        · intro _ s' hs'
          obtain ⟨P₂, hout', hP₂, hsame⟩ := hs'
          refine ⟨P₂, hout', fun a => ?_, fun x hx j hj => ?_⟩
          · rw [hP₂ a, hP₁ a]
            refine ⟨fun ha => ⟨ha.1.1, fun j hij hj => ?_⟩, fun ha => ⟨⟨ha.1, ?_⟩, ?_⟩⟩
            · by_cases hji : j = i
              · rw [hji]
                exact ha.1.2
              · rw [← hdir j (by omega) hj]
                exact ha.2 j (by omega) hj
            · exact ha.2 i (le_refl i) hilt
            · intro j hij hj
              rw [hdir j hij hj]
              exact ha.2 j (by omega) hj
          · have hx₁ := ((hP₂ x).mp hx.1).1
            rw [hsame x hx j hj,
              word_kstore32_ne hsees hdf hilt (BaseSpec.page hout₁ hx₁) hj (.inl hx.2)]
            exact hs₁ x hx₁ j hj
      rcases hentry i (le_refl i) hilt with h0 | ⟨t, htP, htd, hw⟩
      · rw [h0, if_neg fun hboth => hboth.1 (Nat.zero_and _)]
        refine hrest s P hout hdP (fun _ _ _ _ => rfl) fun a => ?_
        rw [h0]
        exact ⟨fun ha => ⟨ha, by omega⟩, And.left⟩
      · have htf := BaseSpec.page hout htP
        rw [hw, if_pos ⟨table_present htf, table_small htf⟩, table_addr htf]
        refine (S.pgfree s O U P t hout htP).bind ?_
        intro _ s₁ hs₁
        refine hrest s₁ (P \ {t}) hs₁.2 ⟨hdP, fun he => htd he.symm⟩ hs₁.1 fun a => ?_
        rw [hw]
        refine and_congr_right fun _ => not_congr ?_
        exact ⟨fun he => by rw [Set.mem_singleton_iff.mp he], fun he => by
          rw [Set.mem_singleton_iff]; omega⟩

theorem destroyPgindex_ends (h : Accounts S low K s R P) (hg : g ∈ R.indexes) :
    Ends True (destroyPgindex B.pager g) s fun _ s' => ∃ P',
      Accounts S low K s' (R.dropIndex g) P' := by
  obtain ⟨d, hgd, hidx⟩ := h.index g hg
  have hdP := h.inner g hg d hidx.dir
  have hdf := BaseSpec.page h.out hdP
  rw [destroyPgindex, pageIndexClear, hgd]
  refine (clearLoop_ends (by omega) h.out hdP ?_ ?_).bind ?_
  · intro j _ hj
    refine (hidx.entry j hj).imp_right fun hex => ?_
    obtain ⟨t, ht, htd, hw⟩ := hex
    exact ⟨t, h.inner g hg t ht, htd, hw⟩
  · exact fun j _ hj k _ hk t => hidx.inj j hj k hk t
  intro _ s₁ hs₁
  obtain ⟨P₁, hout₁, hP₁, hsame₁⟩ := hs₁
  have hpa : (d + kernBase + 2 ^ 32 - kernBase) % 2 ^ 32 = d := by
    obtain ⟨-, hlt⟩ := hdf
    rw [kernBase] at *
    omega
  rw [hpa]
  have hdP₁ : d ∈ P₁ := by
    refine (hP₁ d).mpr ⟨hdP, fun j _ hj hw => ?_⟩
    exact (hidx.table_mem hj hw).2 rfl
  refine (S.pgfree s₁ R.objs R.frames P₁ d hout₁ hdP₁).imp ?_
  intro _ s' hs'
  obtain ⟨hsame', hout'⟩ := hs'
  -- What is still out is what was not of this index.
  have hP' : ∀ a, a ∈ P₁ \ {d} ↔ a ∈ P ∧ a ∉ R.inner g := by
    intro a
    refine ⟨fun ha => ?_, fun ha => ⟨(hP₁ a).mpr ⟨ha.1, fun j _ hj hw => ?_⟩, fun had => ?_⟩⟩
    · obtain ⟨haP, hno⟩ := (hP₁ a).mp ha.1
      refine ⟨haP, fun hmem => ?_⟩
      rcases hidx.only a hmem with had | ⟨j, hj, hw⟩
      · exact ha.2 had
      · exact hno j (Nat.zero_le j) hj hw
    · exact ha.2 (hidx.table_mem hj hw).1
    · rw [Set.mem_singleton_iff.mp had] at ha
      exact ha.2 hidx.dir
  rw [← hgd]
  exact ⟨P₁ \ {d}, h.dropIndex hg hout' hP' (hsame₁.trans hsame')⟩

end Calls

/-! ## The contract -/

/-- What `uvm.c` stands on on i386 keeps its contract, with an account of page
indexes. -/
def i386Spec (S : BaseSpec B) (total : Prop) (K : Set Nat) : EnvSpec (i386 B) True total where
  Rep s R := ∃ P, Accounts S total K s R P
  kmalloc s R n h := by
    obtain ⟨P, h⟩ := h
    refine (S.kmalloc s R.objs R.frames P n h.out).weaken.imp ?_
    intro p s' hs'
    obtain ⟨hsame, ⟨h0, hout⟩ | ⟨h0, hp, hout⟩⟩ := hs'
    · exact .inl ⟨h0, P, h.keep hout hsame⟩
    · exact .inr ⟨h0, hp, P, h.keep hout hsame⟩
  kfree s R p h hp := by
    obtain ⟨P, h⟩ := h
    refine (S.kfree s R.objs R.frames P p h.out hp).weaken.imp ?_
    intro _ s' hs'
    exact ⟨P, h.keep hs'.2 hs'.1⟩
  allocPages s R h := by
    obtain ⟨P, h⟩ := h
    refine (S.allocPages s R.objs R.frames P h.out).weaken.imp ?_
    intro r s' hs'
    obtain ⟨hsame, ⟨hr, hout⟩ | ⟨hr, hsize, hflags, ha, hout⟩⟩ := hs'
    · exact .inl ⟨hr, P, h.keep hout hsame⟩
    · exact .inr ⟨hr, hsize, hflags, ha, P, h.keep hout hsame⟩
  freePages s R a h ha := by
    obtain ⟨P, h⟩ := h
    refine (S.freePages s R.objs R.frames P a h.out ha).weaken.imp ?_
    intro _ s' hs'
    exact ⟨P, h.keep hs'.2 hs'.1⟩
  initPgindex s R h := by
    obtain ⟨P, h⟩ := h
    refine (initPgindex_ends h).weaken.imp ?_
    intro g s' hs'
    obtain ⟨h0, hg, X, P', hacc⟩ := hs'
    exact .inr ⟨h0, fun _ => hg, X, P', hacc⟩
  mapPages s R g va a flags h hva hlt ha _ hg hfree := by
    obtain ⟨P, h⟩ := h
    refine (mapPages_ends h (hg trivial) ⟨hva, hlt⟩ (BaseSpec.user h.out ha)
      (fun ht => (hfree ht).2) (fun ht => (hfree ht).1)).imp ?_
    intro r s' hs'
    obtain ⟨X, P', ⟨hr, hacc⟩ | ⟨hr, hnone, hacc⟩⟩ := hs'
    · exact ⟨X, .inl ⟨hr, P', hacc⟩⟩
    · exact ⟨X, .inr ⟨hr, fun _ => hnone, P', hacc⟩⟩
  unmapPages s R g va h hva hlt hmaps := by
    obtain ⟨P, h⟩ := h
    obtain ⟨hg, hsome⟩ := hmaps trivial
    refine (unmapPages_ends h hg ⟨hva, hlt⟩ hsome).weaken.imp ?_
    intro r s' hs'
    exact ⟨hs'.1, P, hs'.2⟩
  destroyPgindex s R g h hg := by
    obtain ⟨P, h⟩ := h
    exact (destroyPgindex_ends h (hg trivial).1).weaken
  memmove s R a b h ha _ := by
    obtain ⟨P, h⟩ := h
    have haf := BaseSpec.user h.out ha
    refine ends_modify ⟨P, h.keep (BaseSpec.kcopy h.out ha (sees_pa2kva haf.2)) ?_⟩
    intro x hx i hi
    have hxa : x ≠ a := fun he => S.apart _ _ _ _ h.out a ha (he ▸ hx)
    exact word_kcopy_ne (sees_pa2kva haf.2) haf (BaseSpec.page h.out hx) hxa hi

end Aim.Kern
