import Aim.Proofs.I386Env

/-!
# Page indexes, word by word

`IndexAt` follows the page indexes of address spaces, whose tables were all made
by `walkpgdir` and whose pages are frames of `alloc_pages`. The functions of
`arch_mmu.c` ask for less: a directory without entries of four megabytes, whose
tables are frames that the kernel sees, each in one entry only. That is
`TwoLevel`, and what such an index says of a page is one word, `rawEntry`.

Everything that a walk through the index does is said here in these words. The
walk to a page leaves all of them alone, even where it adds a table, and ends at
the place of the page's own (`AtEntry`); a store there changes that one and no
other. The loops over ranges of pages put such rounds one behind the other,
which is `Rewritten`.
-/

namespace Aim.Kern

open Aim.Lib Mem

variable {σ : Type}

/-! ## Entries -/

/-- The table in the entry `i` of the directory. -/
def tableAt (m : Mem) (d i : Nat) : Option Nat :=
  if word m d i &&& pteP = 0 then none else some (pgRoundDown (word m d i))

/-- The entry of the page of `va`, present or not. It is zero without a table. -/
def rawEntry (m : Mem) (d va : Nat) : Nat :=
  (tableAt m d (pdx va)).elim 0 fun t => word m t (ptx va)

/-- The directory in the frame `d` has its tables, and itself, among the frames
`P`. -/
structure TwoLevel (m : Mem) (d : Nat) (P : Set Nat) : Prop where
  dir : d ∈ P
  frame : ∀ x ∈ P, IsFrame x
  small : ∀ i < 1024, ∀ t, tableAt m d i = some t → word m d i &&& ptePS = 0
  table : ∀ i < 1024, ∀ t, tableAt m d i = some t → t ∈ P ∧ t ≠ d
  inj : ∀ i < 1024, ∀ j < 1024, ∀ t, tableAt m d i = some t → tableAt m d j = some t → i = j

/-- The kernel sees the entry of `va` at `pte`. -/
def AtEntry (m : Mem) (d va pte : Nat) : Prop :=
  ∃ t, tableAt m d (pdx va) = some t ∧ Sees pte (t + 4 * ptx va)

/-- The entries of the directory that had a table are as they were. -/
def KeepsTables (d : Nat) (m m' : Mem) : Prop :=
  ∀ i < 1024, tableAt m d i ≠ none → word m' d i = word m d i

section Entries

variable {m m₁ m' : Mem} {d t i va va' pte v e : Nat} {P : Set Nat}

theorem tableAt_some (h : tableAt m d i = some t) :
    word m d i &&& pteP ≠ 0 ∧ pgRoundDown (word m d i) = t := by
  rw [tableAt] at h
  split at h
  · cases h
  · next hp => exact ⟨hp, Option.some.inj h⟩

theorem tableAt_none (h : tableAt m d i = none) : word m d i &&& pteP = 0 := by
  rw [tableAt] at h
  split at h
  · next hp => exact hp
  · cases h

theorem tableAt_congr (h : word m' d i = word m d i) : tableAt m' d i = tableAt m d i := by
  rw [tableAt, h, tableAt]

theorem KeepsTables.trans (h : KeepsTables d m m₁) (h' : KeepsTables d m₁ m') :
    KeepsTables d m m' := fun i hi ht =>
  (h' i hi (by rwa [tableAt_congr (h i hi ht)])).trans (h i hi ht)

theorem rawEntry_none (h : tableAt m d (pdx va) = none) : rawEntry m d va = 0 := by
  rw [rawEntry, h]
  rfl

theorem rawEntry_some (h : tableAt m d (pdx va) = some t) :
    rawEntry m d va = word m t (ptx va) := by
  rw [rawEntry, h]
  rfl

theorem rawEntry_lt (m : Mem) (d va : Nat) : rawEntry m d va < 2 ^ 32 := by
  cases h : tableAt m d (pdx va) with
  | none =>
      rw [rawEntry_none h]
      decide
  | some t =>
      rw [rawEntry_some h]
      exact load32_lt _ _

namespace TwoLevel

variable (h : TwoLevel m d P)

include h

/-- What the MMU finds is the entry, if it is present. -/
theorem pageEntry_eq (va : Nat) : pageEntry m d va =
    if rawEntry m d va &&& pteP = 0 then none else some (rawEntry m d va) := by
  have hload : m.load32 (d + 4 * pdx va) = word m d (pdx va) := rfl
  rw [pageEntry, hload]
  cases ht : tableAt m d (pdx va) with
  | none =>
      rw [if_pos (tableAt_none ht), rawEntry_none ht, if_pos (Nat.zero_and _)]
  | some t =>
      obtain ⟨hp, htab⟩ := tableAt_some ht
      rw [if_neg hp, if_neg (not_not.mpr (h.small _ (pdx_lt va) t ht)), htab, rawEntry_some ht]
      rfl

theorem tableAt_of_pageEntry (he : pageEntry m d va = some e) :
    ∃ t, tableAt m d (pdx va) = some t ∧ word m t (ptx va) = e := by
  rw [h.pageEntry_eq] at he
  cases ht : tableAt m d (pdx va) with
  | none =>
      rw [rawEntry_none ht, if_pos (Nat.zero_and _)] at he
      cases he
  | some t =>
      rw [rawEntry_some ht] at he
      split at he
      · cases he
      · exact ⟨t, rfl, Option.some.inj he⟩

theorem translate_eq (va : Nat) : translate m d va =
    (pageEntry m d va).map fun e => pgRoundDown e + va % pgSize := by
  have hload : m.load32 (d + 4 * pdx va) = word m d (pdx va) := rfl
  rw [translate, hload]
  cases ht : tableAt m d (pdx va) with
  | none =>
      rw [h.pageEntry_eq, rawEntry_none ht, if_pos (Nat.zero_and _)]
      rfl
  | some t =>
      have hsmall := h.small _ (pdx_lt va) t ht
      simp only [if_neg (not_not.mpr hsmall)]

/-- The words of the directory and of the tables are all there is to it. -/
theorem keep (hdir : ∀ i < 1024, word m' d i = word m d i) : TwoLevel m' d P := by
  have htab : ∀ i < 1024, tableAt m' d i = tableAt m d i := fun i hi =>
    tableAt_congr (hdir i hi)
  refine ⟨h.dir, h.frame, ?_, ?_, ?_⟩
  · intro i hi t ht
    rw [htab i hi] at ht
    rw [hdir i hi]
    exact h.small i hi t ht
  · intro i hi t ht
    rw [htab i hi] at ht
    exact h.table i hi t ht
  · intro i hi j hj t hti htj
    rw [htab i hi] at hti
    rw [htab j hj] at htj
    exact h.inj i hi j hj t hti htj

theorem mono {P' : Set Nat} (hP : P ⊆ P') (hf : ∀ x ∈ P', IsFrame x) : TwoLevel m d P' :=
  ⟨hP h.dir, hf, h.small, fun i hi t ht => ⟨hP (h.table i hi t ht).1, (h.table i hi t ht).2⟩,
    h.inj⟩

theorem rawEntry_eq (hs : SameWords P m m') (va : Nat) : rawEntry m' d va = rawEntry m d va := by
  have htab := tableAt_congr (hs d h.dir _ (pdx_lt va))
  cases ht : tableAt m d (pdx va) with
  | none => rw [rawEntry_none ht, rawEntry_none (htab.trans ht)]
  | some t =>
      rw [rawEntry_some ht, rawEntry_some (htab.trans ht)]
      exact hs t (h.table _ (pdx_lt va) t ht).1 _ (ptx_lt va)

/-! ## Accesses -/

theorem kload32_eq (hat : AtEntry m d va pte) : kload32 m pte = rawEntry m d va := by
  obtain ⟨t, ht, hsees⟩ := hat
  rw [rawEntry_some ht]
  exact kload32_word hsees (h.frame t (h.table _ (pdx_lt va) t ht).1) (ptx_lt va)

/-- A store to an entry is not one to the directory. -/
theorem word_store (hat : AtEntry m d va pte) (hi : i < 1024) :
    word (kstore32 m pte v) d i = word m d i := by
  obtain ⟨t, ht, hsees⟩ := hat
  obtain ⟨htP, htd⟩ := h.table _ (pdx_lt va) t ht
  exact word_kstore32_ne hsees (h.frame t htP) (ptx_lt va) (h.frame d h.dir) hi (.inl htd.symm)

/-- A store to the entry of `va` changes this entry. -/
theorem store (hat : AtEntry m d va pte) :
    SameOutside P m (kstore32 m pte v) ∧ TwoLevel (kstore32 m pte v) d P ∧
      AtEntry (kstore32 m pte v) d va pte ∧
      ∀ va', rawEntry (kstore32 m pte v) d va' =
        if pdx va' = pdx va ∧ ptx va' = ptx va then v % 2 ^ 32 else rawEntry m d va' := by
  have hdir : ∀ i < 1024, word (kstore32 m pte v) d i = word m d i := fun i hi =>
    h.word_store hat hi
  obtain ⟨t, ht, hsees⟩ := hat
  obtain ⟨htP, -⟩ := h.table _ (pdx_lt va) t ht
  have htf := h.frame t htP
  refine ⟨sameOutside_kstore32 htP htf (ptx_lt va) hsees, h.keep hdir,
    ⟨t, (tableAt_congr (hdir _ (pdx_lt va))).trans ht, hsees⟩, fun va' => ?_⟩
  have htab := tableAt_congr (hdir _ (pdx_lt va'))
  cases ht' : tableAt m d (pdx va') with
  | none =>
      have hne : ¬ (pdx va' = pdx va ∧ ptx va' = ptx va) := by
        rintro ⟨hpdx, -⟩
        rw [hpdx, ht] at ht'
        cases ht'
      rw [if_neg hne, rawEntry_none ht', rawEntry_none (htab.trans ht')]
  | some t' =>
      rw [rawEntry_some (htab.trans ht'), rawEntry_some ht']
      by_cases hsame : pdx va' = pdx va ∧ ptx va' = ptx va
      · obtain ⟨hpdx, hptx⟩ := hsame
        rw [hpdx, ht] at ht'
        obtain rfl := Option.some.inj ht'
        rw [if_pos ⟨hpdx, hptx⟩, hptx]
        exact word_kstore32_self hsees htf (ptx_lt va)
      · rw [if_neg hsame]
        -- Another page in the same table has another place there.
        refine word_kstore32_ne hsees htf (ptx_lt va)
          (h.frame t' (h.table _ (pdx_lt va') t' ht').1) (ptx_lt va') ?_
        by_contra hboth
        rw [not_or, not_not, not_not] at hboth
        rw [hboth.1] at ht'
        exact hsame ⟨h.inj _ (pdx_lt va') _ (pdx_lt va) t ht' ht, hboth.2⟩

/-- A frame that is not one of `P` becomes the table of `va`, cleared. -/
theorem addTable {g : Nat} (hg : Sees g d) (ht : IsFrame t) (htP : t ∉ P)
    (hnone : tableAt m d (pdx va) = none) :
    SameOutside (insert t P) m (newTable m g va t) ∧
      TwoLevel (newTable m g va t) d (insert t P) ∧
      tableAt (newTable m g va t) d (pdx va) = some t ∧
      (∀ va', rawEntry (newTable m g va t) d va' = rawEntry m d va') ∧
      KeepsTables d m (newTable m g va t) := by
  have hdf := h.frame d h.dir
  have htd : d ≠ t := fun he => htP (he ▸ h.dir)
  have hpde : Sees ((g + 4 * pdx va) % 2 ^ 32) (d + 4 * pdx va) := sees_word hg hdf (pdx_lt va)
  obtain ⟨hself, hzero, hrest⟩ := newTable_words m va hg hdf ht htd
  have hother : ∀ x ∈ P, ∀ j < 1024, x ≠ d ∨ j ≠ pdx va →
      word (newTable m g va t) x j = word m x j := fun x hx =>
    hrest x (h.frame x hx) fun he => htP (he ▸ hx)
  have htab : tableAt (newTable m g va t) d (pdx va) = some t := by
    rw [tableAt, hself, if_neg (table_present ht), table_addr ht]
  have hold : ∀ j < 1024, j ≠ pdx va → tableAt (newTable m g va t) d j = tableAt m d j :=
    fun j hj hne => tableAt_congr (hother d h.dir j hj (.inr hne))
  refine ⟨fun x hx => ?_, ⟨.inr h.dir, ?_, ?_, ?_, ?_⟩, htab, fun va' => ?_,
    fun j hj hne => hother d h.dir j hj (.inr fun hjp => hne (hjp ▸ hnone))⟩
  · have hd := sameOutside_kstore32 (m := kfill m t 0 pgSize) (v := t + 7)
      (Set.mem_insert_of_mem t h.dir) hdf (pdx_lt va) hpde x hx
    exact hd.trans (sameOutside_kfill (Set.mem_insert t P) ht (sees_low ht.2) x hx)
  · intro x hx
    rcases hx with rfl | hx
    · exact ht
    · exact h.frame x hx
  · intro i hi t' ht'
    by_cases hip : i = pdx va
    · rw [hip, hself]
      exact table_small ht
    · rw [hold i hi hip] at ht'
      rw [hother d h.dir i hi (.inr hip)]
      exact h.small i hi t' ht'
  · intro i hi t' ht'
    by_cases hip : i = pdx va
    · rw [hip, htab] at ht'
      obtain rfl := Option.some.inj ht'
      exact ⟨.inl rfl, htd.symm⟩
    · rw [hold i hi hip] at ht'
      exact ⟨.inr (h.table i hi t' ht').1, (h.table i hi t' ht').2⟩
  · -- The new table is in no other entry, since it was not one of `P`.
    have hnew : ∀ i < 1024, i ≠ pdx va → tableAt (newTable m g va t) d i ≠ some t := by
      intro i hi hip hti
      rw [hold i hi hip] at hti
      exact htP (h.table i hi t hti).1
    intro i hi j hj t' hti htj
    by_cases hip : i = pdx va
    · by_cases hjp : j = pdx va
      · rw [hip, hjp]
      · rw [hip, htab] at hti
        exact absurd (htj.trans hti.symm) (hnew j hj hjp)
    · by_cases hjp : j = pdx va
      · rw [hjp, htab] at htj
        exact absurd (hti.trans htj.symm) (hnew i hi hip)
      · rw [hold i hi hip] at hti
        rw [hold j hj hjp] at htj
        exact h.inj i hi j hj t' hti htj
  · by_cases hip : pdx va' = pdx va
    · rw [rawEntry_some (hip ▸ htab), hzero _ (ptx_lt va'), rawEntry_none (hip ▸ hnone)]
    · have htab' := hold _ (pdx_lt va') hip
      cases ht' : tableAt m d (pdx va') with
      | none => rw [rawEntry_none ht', rawEntry_none (htab'.trans ht')]
      | some t' =>
          obtain ⟨hmem, hne⟩ := h.table _ (pdx_lt va') t' ht'
          rw [rawEntry_some ht', rawEntry_some (htab'.trans ht')]
          exact hother t' hmem _ (ptx_lt va') (.inl hne)

end TwoLevel

end Entries

/-! ## Walks -/

/-- What is assumed of `pgalloc`: `Out s P` says that it is the frames `P` that are
out, and `pgalloc` answers one that is not. What is out is left alone by it, and
may be written. -/
structure PagerSpec (G : Pager σ) where
  Out : Phys σ → Set Nat → Prop
  frame : ∀ s P, Out s P → ∀ a ∈ P, IsFrame a
  write : ∀ s P m, Out s P → SameOutside P s.mem m → Out { s with mem := m } P
  pgalloc : ∀ s P, Out s P → Ends True G.pgalloc s fun a s' =>
    SameWords P s.mem s'.mem ∧ a ∉ P ∧ Out s' (insert a P)

/-- Whoever else holds objects and frames. -/
def BaseSpec.pagerSpec {B : Base σ} (S : BaseSpec B) (O U : Set Nat) : PagerSpec B.pager where
  Out s P := S.Out s O U P
  frame s P h a ha := S.frame s O U P h a (.inr ha)
  write s P m h hm := S.write s O U P m h (hm.mono Set.subset_union_right)
  pgalloc s P h := S.pgalloc s O U P h

/-- The index in the frame `d` is made of frames that are out. -/
structure PagerSpec.Has {G : Pager σ} (S : PagerSpec G) (s : Phys σ) (d : Nat) (P : Set Nat) :
    Prop where
  out : S.Out s P
  index : TwoLevel s.mem d P

section Walks

variable {G : Pager σ} {S : PagerSpec G} {s : Phys σ} {P : Set Nat} {d g va pte v : Nat}

theorem PagerSpec.Has.store (h : S.Has s d P) (hat : AtEntry s.mem d va pte) :
    S.Has { s with mem := kstore32 s.mem pte v } d P :=
  ⟨S.write s P _ h.out (h.index.store hat).1, (h.index.store hat).2.1⟩

/-- Without `alloc` the walk changes nothing, and only ends at null if there is no
table. -/
theorem walkpgdir_finds (hdf : IsFrame d)
    (htf : ∀ t, tableAt s.mem d (pdx va) = some t → IsFrame t) (hg : Sees g d) :
    ∃ pte, (walkpgdir G g va false).run s = .ok pte s ∧
      ((pte = 0 ∧ tableAt s.mem d (pdx va) = none) ∨ (pte ≠ 0 ∧ AtEntry s.mem d va pte)) := by
  have hpde : Sees ((g + 4 * pdx va) % 2 ^ 32) (d + 4 * pdx va) := sees_word hg hdf (pdx_lt va)
  have hload : (kload ((g + 4 * pdx va) % 2 ^ 32)).run s = .ok (word s.mem d (pdx va)) s := by
    rw [← kload32_word hpde hdf (pdx_lt va)]
    rfl
  rw [walkpgdir, run_bind_ok hload]
  cases ht : tableAt s.mem d (pdx va) with
  | none =>
      rw [if_neg (not_not.mpr (tableAt_none ht)), if_pos (show (!false) = true from rfl)]
      exact ⟨0, rfl, .inl ⟨rfl, rfl⟩⟩
  | some t =>
      obtain ⟨hp, htab⟩ := tableAt_some ht
      have htf := htf t ht
      have hpost : postmapAddr t = t + kernBase := if_neg (not_le.mpr htf.2)
      rw [if_pos hp, htab, hpost]
      refine ⟨_, rfl, .inr ⟨?_, t, ht, sees_word (sees_high htf.2) htf (ptx_lt va)⟩⟩
      have hlast := htf.word_le (ptx_lt va)
      rw [kernBase] at *
      omega

/-- With `alloc` it ends at the entry of the page, in a table that was there or is
new. Frame zero it takes for no frame. -/
theorem walkpgdir_walks (h : S.Has s d P) (hg : Sees g d) :
    Ends True (walkpgdir G g va true) s fun pte s' => ∃ P', P ⊆ P' ∧ S.Has s' d P' ∧
      ((∀ va', rawEntry s'.mem d va' = rawEntry s.mem d va') ∧ KeepsTables d s.mem s'.mem) ∧
      ((pte ≠ 0 ∧ AtEntry s'.mem d va pte) ∨
        (pte = 0 ∧ rawEntry s.mem d va = 0 ∧ 0 ∉ P ∧ 0 ∈ P')) := by
  have hdf := h.index.frame d h.index.dir
  have hpde : Sees ((g + 4 * pdx va) % 2 ^ 32) (d + 4 * pdx va) := sees_word hg hdf (pdx_lt va)
  rw [walkpgdir]
  refine ends_kload_bind ?_
  rw [kload32_word hpde hdf (pdx_lt va)]
  cases ht : tableAt s.mem d (pdx va) with
  | some t =>
      obtain ⟨hp, htab⟩ := tableAt_some ht
      have htf := h.index.frame t (h.index.table _ (pdx_lt va) t ht).1
      have hpost : postmapAddr t = t + kernBase := if_neg (not_le.mpr htf.2)
      rw [if_pos hp, htab, hpost]
      refine ends_pure ⟨P, subset_rfl, h, ⟨fun _ => rfl, fun _ _ _ => rfl⟩, .inl ⟨?_, t, ht,
        sees_word (sees_high htf.2) htf (ptx_lt va)⟩⟩
      have hlast := htf.word_le (ptx_lt va)
      rw [kernBase] at *
      omega
  | none =>
      rw [if_neg (not_not.mpr (tableAt_none ht)), if_neg (by decide)]
      refine (S.pgalloc s P h.out).bind ?_
      intro t s₁ ht₁
      obtain ⟨hs, htP, hout⟩ := ht₁
      have htf := S.frame s₁ _ hout t (Set.mem_insert t P)
      have hmod : t % 2 ^ 32 = t := Nat.mod_eq_of_lt htf.isPage.2
      have hdir := fun i hi => hs d h.index.dir i hi
      have hnone : tableAt s₁.mem d (pdx va) = none :=
        (tableAt_congr (hdir _ (pdx_lt va))).trans ht
      have hraw := h.index.rawEntry_eq hs
      have hkept : KeepsTables d s.mem s₁.mem := fun i hi _ => hdir i hi
      have hidx : TwoLevel s₁.mem d P := h.index.keep hdir
      rw [hmod]
      by_cases ht0 : t = 0
      · rw [if_pos ht0]
        rw [ht0] at hout htP
        refine ends_pure ⟨insert 0 P, Set.subset_insert 0 P, ⟨hout, hidx.mono
          (Set.subset_insert 0 P) (S.frame s₁ _ hout)⟩, ⟨hraw, hkept⟩, .inr ⟨rfl, rawEntry_none ht, htP,
            Set.mem_insert 0 P⟩⟩
      · rw [if_neg ht0]
        refine ends_kmemset_bind (ends_kstore_bind (ends_pure ?_))
        rw [table_entry htf]
        obtain ⟨hsame, hidx', htab, hraw', hkept'⟩ := hidx.addTable hg htf htP hnone
        refine ⟨insert t P, Set.subset_insert t P, ⟨S.write s₁ _ _ hout hsame, hidx'⟩,
          ⟨fun va' => (hraw' va').trans (hraw va'), hkept.trans hkept'⟩, .inl ⟨?_, t, htab,
            sees_word (sees_low htf.2) htf (ptx_lt va)⟩⟩
        have hlast := htf.word_le (ptx_lt va)
        rw [kernBase] at hlast
        omega

end Walks

/-! ## Ranges of pages -/

/-- Between `m` and `m'` the entries of the `n` pages from `a` on were changed by
`f`, which is told the page. -/
def Rewritten (d a n : Nat) (f : Nat → Nat → Nat) (m m' : Mem) : Prop :=
  ∀ va < 2 ^ 32, rawEntry m' d va =
    if a ≤ va ∧ va < a + pgSize * n then f (pgRoundDown va) (rawEntry m d va)
    else rawEntry m d va

section Rewritten

variable {m m₁ m' : Mem} {d a n va : Nat} {f : Nat → Nat → Nat}

/-- Addresses of one page. -/
theorem samePage_iff (ha : IsPage a) (hva : va < 2 ^ 32) :
    (pdx va = pdx a ∧ ptx va = ptx a) ↔ a ≤ va ∧ va < a + pgSize := by
  obtain ⟨hal, halt⟩ := ha
  rw [pgSize] at *
  rw [pdx, pdx, ptx, ptx]
  omega

theorem rewritten_none : Rewritten d a 0 f m m := by
  intro va _
  rw [if_neg (by omega)]

/-- One page, and the others behind it. -/
theorem Rewritten.cons (ha : IsPage a)
    (hfirst : ∀ va, rawEntry m₁ d va =
      if pdx va = pdx a ∧ ptx va = ptx a then f a (rawEntry m d va) else rawEntry m d va)
    (hrest : Rewritten d (a + pgSize) n f m₁ m') : Rewritten d a (n + 1) f m m' := by
  intro va hva
  have hsame := samePage_iff ha hva
  rw [hrest va hva, hfirst va, Nat.mul_add, Nat.mul_one]
  by_cases hin : pdx va = pdx a ∧ ptx va = ptx a
  · obtain ⟨hlo, hhi⟩ := hsame.mp hin
    have hround : pgRoundDown va = a := by
      obtain ⟨hal, -⟩ := ha
      rw [pgRoundDown]
      rw [pgSize] at *
      omega
    rw [if_neg (by omega), if_pos hin, if_pos (by omega), hround]
  · have hout : va < a ∨ a + pgSize ≤ va := by
      by_contra hc
      exact hin (hsame.mpr (by omega))
    by_cases hr : a + pgSize ≤ va ∧ va < a + pgSize + pgSize * n
    · rw [if_pos hr, if_neg hin, if_pos (by omega)]
    · rw [if_neg hr, if_neg hin, if_neg (by omega)]

end Rewritten

end Aim.Kern
