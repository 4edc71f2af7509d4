import Aim.Kern.ArchMmu
import Aim.Proofs.Window

/-!
# Page indexes in memory

What a page directory and its page tables say, as words of the frames they are
in. `IndexAt low m d X maps` is the representation: the directory in the frame
`d` translates `maps`, and it and its tables are the frames `X`. An access to
one word of one frame leaves all other words of all frames alone, so every
change of a page index is one of three: a frame is cleared for a new directory,
a table is added, or an entry of a table is set.
-/

namespace Aim.Kern

open Aim.Lib Mem Function

/-! ## Words of frames -/

/-- A page frame that the kernel sees through the window. -/
def IsFrame (f : Nat) : Prop := f % pgSize = 0 ∧ f < kernBase

instance (a : Nat) : Decidable (IsFrame a) := inferInstanceAs (Decidable (_ ∧ _))

def word (m : Mem) (f i : Nat) : Nat := load32 m (f + 4 * i)

/-- The frames `F` have the same words. -/
def SameWords (F : Set Nat) (m m' : Mem) : Prop := ∀ f ∈ F, ∀ i < 1024, word m' f i = word m f i

variable {m m' : Mem} {a f x i j v : Nat} {F : Set Nat}

theorem SameWords.trans {m'' : Mem} (h : SameWords F m m') (h' : SameWords F m' m'') :
    SameWords F m m'' := fun f hf i hi => (h' f hf i hi).trans (h f hf i hi)

theorem SameWords.mono {F' : Set Nat} (h : SameWords F m m') (hF : F' ⊆ F) :
    SameWords F' m m' := fun f hf => h f (hF hf)

theorem IsFrame.le (h : IsFrame f) : f + pgSize ≤ kernBase := by
  obtain ⟨ha, hlt⟩ := h
  rw [pgSize] at *
  rw [kernBase] at *
  omega

theorem IsFrame.word_le (h : IsFrame f) (hi : i < 1024) : f + 4 * i + 4 ≤ kernBase := by
  have hle := h.le
  rw [pgSize] at hle
  omega

theorem IsFrame.disjoint (h : IsFrame f) (hx : IsFrame x) (hne : x ≠ f) :
    f + pgSize ≤ x ∨ x + pgSize ≤ f := by
  obtain ⟨hf, -⟩ := h
  obtain ⟨hx, -⟩ := hx
  rw [pgSize] at *
  omega

theorem sees_word (h : Sees a f) (hf : IsFrame f) (hi : i < 1024) :
    Sees ((a + 4 * i) % 2 ^ 32) (f + 4 * i) :=
  h.add (Nat.lt_of_lt_of_le (by omega) (hf.word_le hi))

theorem kload32_word (h : Sees a (f + 4 * i)) (hf : IsFrame f) (hi : i < 1024) :
    kload32 m a = word m f i := kload32_eq h (hf.word_le hi)

theorem word_kstore32_self (h : Sees a (f + 4 * i)) (hf : IsFrame f) (hi : i < 1024) :
    word (kstore32 m a v) f i = v % 2 ^ 32 := load32_kstore32_self h (hf.word_le hi)

theorem word_kstore32_ne (h : Sees a (f + 4 * i)) (hf : IsFrame f) (hi : i < 1024)
    (hx : IsFrame x) (hj : j < 1024) (hne : x ≠ f ∨ j ≠ i) :
    word (kstore32 m a v) x j = word m x j := by
  have hlast := hx.word_le hj
  refine load32_kstore32_ne h (hf.word_le hi) (by rw [kernBase] at hlast; omega) ?_
  by_cases hxf : x = f
  · subst hxf
    have hji := hne.resolve_left fun hn => hn rfl
    omega
  · have hdisj := hf.disjoint hx hxf
    rw [pgSize] at hdisj
    omega

theorem word_kfill (h : Sees a f) (hf : IsFrame f) (hi : i < 1024) :
    word (kfill m a 0 pgSize) f i = 0 := by
  refine load32_kfill_zero h hf.le (by omega) ?_
  rw [pgSize]
  omega

/-- The words of other frames, when bytes were only written in the frame `f`. -/
theorem word_of_outside (hf : IsFrame f) (hx : IsFrame x) (hne : x ≠ f) (hj : j < 1024)
    (h : ∀ y, y < f ∨ f + pgSize ≤ y → m' y = m y) : word m' x j = word m x j := by
  have hlast := hx.word_le hj
  have hdisj := hf.disjoint hx hne
  refine load32_congr (by rw [kernBase] at hlast; omega) fun y hlo hhi => h y ?_
  rw [pgSize] at hdisj ⊢
  omega

theorem word_kfill_ne {c : UInt8} (h : Sees a f) (hf : IsFrame f) (hx : IsFrame x)
    (hne : x ≠ f) (hj : j < 1024) : word (kfill m a c pgSize) x j = word m x j :=
  word_of_outside hf hx hne hj fun _ hy => kfill_of_outside h hf.le hy

theorem word_kcopy_ne {src : Nat} (h : Sees a f) (hf : IsFrame f) (hx : IsFrame x)
    (hne : x ≠ f) (hj : j < 1024) : word (kcopy m a src pgSize) x j = word m x j :=
  word_of_outside hf hx hne hj fun _ hy => kcopy_of_outside h hf.le hy

/-! ## Bits of entries -/

theorem aligned_or {t b : Nat} (ht : t % pgSize = 0) (hb : b < 2 ^ 12) : t ||| b = t + b := by
  have hdiv : t = 2 ^ 12 * (t / 2 ^ 12) := by
    rw [pgSize] at ht
    omega
  rw [hdiv, Nat.two_pow_add_eq_or_of_lt hb]

theorem aligned_and {t b : Nat} (ht : t % pgSize = 0) (hb : b < 2 ^ 12) : t &&& b = 0 := by
  have hlt : t &&& b < 2 ^ 12 := Nat.lt_of_le_of_lt Nat.and_le_right hb
  rw [pgSize] at ht
  rw [← Nat.mod_eq_of_lt hlt, Nat.and_mod_two_pow, show t % 2 ^ 12 = 0 from ht, Nat.zero_and]

/-- The directory entry of a page table. -/
theorem table_entry {t : Nat} (ht : IsFrame t) :
    premapAddr t ||| pteP ||| pteW ||| pteU = t + 7 := by
  have hpre : premapAddr t = t := if_neg (not_le.mpr ht.2)
  rw [hpre, Nat.or_assoc, Nat.or_assoc]
  exact aligned_or ht.1 (by decide)

theorem table_present {t : Nat} (ht : IsFrame t) : (t + 7) &&& pteP ≠ 0 := by
  obtain ⟨ha, -⟩ := ht
  rw [pteP, Nat.and_one_is_mod]
  rw [pgSize] at ha
  omega

theorem table_small {t : Nat} (ht : IsFrame t) : (t + 7) &&& ptePS = 0 := by
  rw [← aligned_or ht.1 (show 7 < 2 ^ 12 by decide), Nat.and_or_distrib_right,
    aligned_and ht.1 (by decide)]
  rfl

theorem pgRoundDown_le (a : Nat) : pgRoundDown a ≤ a := Nat.div_mul_le_self a pgSize

theorem table_addr {t : Nat} (ht : IsFrame t) : pgRoundDown (t + 7) = t := by
  obtain ⟨ha, -⟩ := ht
  rw [pgRoundDown]
  rw [pgSize] at *
  omega

theorem page_present (a f : Nat) : (a ||| f ||| pteP) % 2 ^ 32 &&& pteP ≠ 0 := by
  have hodd : (a ||| f ||| 1) % 2 = 1 := Nat.or_mod_two_eq_one.mpr (.inr rfl)
  rw [pteP, Nat.and_one_is_mod]
  omega

theorem pdx_lt (va : Nat) : pdx va < 1024 := Nat.mod_lt _ (by decide)

theorem ptx_lt (va : Nat) : ptx va < 1024 := Nat.mod_lt _ (by decide)

/-- The address of a page. -/
def IsPage (va : Nat) : Prop := va % pgSize = 0 ∧ va < 2 ^ 32

theorem page_addr {a f : Nat} (ha : IsPage a) (hf : f < pgSize) :
    pgRoundDown ((a ||| f ||| pteP) % 2 ^ 32) = a := by
  have hlow : f ||| pteP < 2 ^ 12 := Nat.or_lt_two_pow hf (by decide)
  obtain ⟨hal, hlt⟩ := ha
  rw [Nat.or_assoc, aligned_or hal hlow, pgRoundDown]
  rw [pgSize] at *
  omega

/-- An entry with low flags fits a word. -/
theorem page_entry_lt {a f : Nat} (ha : IsPage a) (hf : f < pgSize) :
    a ||| f ||| pteP < 2 ^ 32 := by
  obtain ⟨-, hlt⟩ := ha
  rw [pgSize] at hf
  exact Nat.or_lt_two_pow (Nat.or_lt_two_pow hlt (by omega)) (by decide)

theorem IsFrame.isPage (h : IsFrame f) : IsPage f := by
  obtain ⟨ha, hlt⟩ := h
  rw [kernBase] at hlt
  exact ⟨ha, by omega⟩

theorem IsPage.word_le (h : IsPage f) (hi : i < 1024) : f + 4 * i + 4 ≤ 2 ^ 32 := by
  obtain ⟨ha, hlt⟩ := h
  rw [pgSize] at ha
  omega

theorem IsPage.eq_of_indices {va va' : Nat} (h : IsPage va) (h' : IsPage va')
    (hpdx : pdx va' = pdx va) (hptx : ptx va' = ptx va) : va' = va := by
  obtain ⟨ha, hlt⟩ := h
  obtain ⟨ha', hlt'⟩ := h'
  rw [pgSize] at ha ha'
  rw [pdx, pdx] at hpdx
  rw [ptx, ptx] at hptx
  omega

/-! ## The representation -/

/-- What the word of a page table says of its page. With `low`, the flags are
below the address bits. -/
def EntryOk (low : Prop) (w : Nat) : Option (Nat × Nat) → Prop
  | none => w &&& pteP = 0
  | some (a, f) => w = (a ||| f ||| pteP) % 2 ^ 32 ∧ IsFrame a ∧ (low → f < pgSize)

structure IndexAt (low : Prop) (m : Mem) (d : Nat) (X : Set Nat)
    (maps : Nat → Option (Nat × Nat)) : Prop where
  dir : d ∈ X
  frame : ∀ x ∈ X, IsFrame x
  entry : ∀ i < 1024, word m d i = 0 ∨ ∃ t ∈ X, t ≠ d ∧ word m d i = t + 7
  only : ∀ x ∈ X, x = d ∨ ∃ i < 1024, word m d i = x + 7
  inj : ∀ i < 1024, ∀ j < 1024, ∀ t, word m d i = t + 7 → word m d j = t + 7 → i = j
  absent : ∀ va, IsPage va → word m d (pdx va) = 0 → maps va = none
  table : ∀ va t, IsPage va → word m d (pdx va) = t + 7 →
    EntryOk low (word m t (ptx va)) (maps va)

variable {low : Prop} {d t va : Nat} {X : Set Nat} {maps : Nat → Option (Nat × Nat)}

theorem IndexAt.table_mem (h : IndexAt low m d X maps) (hi : i < 1024)
    (ht : word m d i = t + 7) : t ∈ X ∧ t ≠ d := by
  rcases h.entry i hi with h0 | ⟨t', ht', hne, hw⟩
  · omega
  · have heq : t' = t := by omega
    exact ⟨heq ▸ ht', heq ▸ hne⟩

/-- The directory is as it was, and the entries are those of `maps'`. -/
theorem IndexAt.sameDir {maps' : Nat → Option (Nat × Nat)} (h : IndexAt low m d X maps)
    (hdir : ∀ i < 1024, word m' d i = word m d i)
    (habsent : ∀ va, IsPage va → word m d (pdx va) = 0 → maps' va = none)
    (htable : ∀ va t, IsPage va → word m d (pdx va) = t + 7 →
      EntryOk low (word m' t (ptx va)) (maps' va)) : IndexAt low m' d X maps' := by
  refine ⟨h.dir, h.frame, ?_, ?_, ?_, ?_, ?_⟩
  · intro i hi
    rw [hdir i hi]
    exact h.entry i hi
  · intro x hx
    refine (h.only x hx).imp_right fun hex => ?_
    obtain ⟨i, hi, hw⟩ := hex
    exact ⟨i, hi, (hdir i hi).trans hw⟩
  · intro i hi j hj t hti htj
    rw [hdir i hi] at hti
    rw [hdir j hj] at htj
    exact h.inj i hi j hj t hti htj
  · intro va hva h0
    rw [hdir _ (pdx_lt va)] at h0
    exact habsent va hva h0
  · intro va t hva ht
    rw [hdir _ (pdx_lt va)] at ht
    exact htable va t hva ht

theorem IndexAt.keep (h : IndexAt low m d X maps) (hs : SameWords X m m') :
    IndexAt low m' d X maps := by
  refine h.sameDir (hs d h.dir) h.absent fun va t hva ht => ?_
  rw [hs t (h.table_mem (pdx_lt va) ht).1 _ (ptx_lt va)]
  exact h.table va t hva ht

/-- A cleared frame is a directory without entries. -/
theorem IndexAt.new (hd : IsFrame d) (hzero : ∀ i < 1024, word m d i = 0) :
    IndexAt low m d {d} fun _ => none where
  dir := rfl
  frame x hx := by
    rw [Set.mem_singleton_iff.mp hx]
    exact hd
  entry i hi := .inl (hzero i hi)
  only x hx := .inl hx
  inj i hi j hj t hti _ := by
    rw [hzero i hi] at hti
    omega
  absent _ _ _ := rfl
  table va t _ ht := by
    rw [hzero _ (pdx_lt va)] at ht
    omega

/-- A cleared frame becomes a table of the directory. -/
theorem IndexAt.addTable (h : IndexAt low m d X maps) (ht : IsFrame t) (htX : t ∉ X)
    (hi : i < 1024) (hnone : word m d i = 0) (hself : word m' d i = t + 7)
    (hzero : ∀ j < 1024, word m' t j = 0)
    (hother : ∀ x ∈ X, ∀ j < 1024, x ≠ d ∨ j ≠ i → word m' x j = word m x j) :
    IndexAt low m' d (insert t X) maps := by
  have hdir : ∀ j < 1024, j ≠ i → word m' d j = word m d j := fun j hj hne =>
    hother d h.dir j hj (.inr hne)
  have htd : t ≠ d := fun he => htX (he ▸ h.dir)
  refine ⟨.inr h.dir, ?_, ?_, ?_, ?_, ?_, ?_⟩
  · intro x hx
    rcases hx with rfl | hx
    · exact ht
    · exact h.frame x hx
  · intro j hj
    by_cases hji : j = i
    · rw [hji]
      exact .inr ⟨t, .inl rfl, htd, hself⟩
    · rw [hdir j hj hji]
      refine (h.entry j hj).imp_right fun hex => ?_
      obtain ⟨t', ht', hne, hw⟩ := hex
      exact ⟨t', .inr ht', hne, hw⟩
  · intro x hx
    rcases hx with rfl | hx
    · exact .inr ⟨i, hi, hself⟩
    · refine (h.only x hx).imp_right fun hex => ?_
      obtain ⟨j, hj, hw⟩ := hex
      refine ⟨j, hj, ?_⟩
      rw [hdir j hj (fun hji => by rw [hji, hnone] at hw; omega)]
      exact hw
  · -- The new table is in no other entry, since it was not in the index.
    have hold : ∀ j < 1024, j ≠ i → word m' d j ≠ t + 7 := by
      intro j hj hji hw
      rw [hdir j hj hji] at hw
      exact htX (h.table_mem hj hw).1
    intro j hj k hk t' hwj hwk
    by_cases hji : j = i
    · by_cases hki : k = i
      · rw [hji, hki]
      · rw [hji, hself] at hwj
        exact absurd (hwk.trans hwj.symm) (hold k hk hki)
    · by_cases hki : k = i
      · rw [hki, hself] at hwk
        exact absurd (hwj.trans hwk.symm) (hold j hj hji)
      · rw [hdir j hj hji] at hwj
        rw [hdir k hk hki] at hwk
        exact h.inj j hj k hk t' hwj hwk
  · intro va hva h0
    by_cases hji : pdx va = i
    · rw [hji, hself] at h0
      omega
    · rw [hdir _ (pdx_lt va) hji] at h0
      exact h.absent va hva h0
  · intro va t' hva ht'
    by_cases hji : pdx va = i
    · rw [hji, hself] at ht'
      have htt : t' = t := by omega
      rw [htt, hzero _ (ptx_lt va), h.absent va hva (hji ▸ hnone)]
      exact Nat.zero_and _
    · rw [hdir _ (pdx_lt va) hji] at ht'
      obtain ⟨hmem, hne⟩ := h.table_mem (pdx_lt va) ht'
      rw [hother t' hmem _ (ptx_lt va) (.inl hne)]
      exact h.table va t' hva ht'

/-- The entry of one page is set. -/
theorem IndexAt.setEntry {e : Option (Nat × Nat)} (h : IndexAt low m d X maps) (hva : IsPage va)
    (ht : word m d (pdx va) = t + 7) (he : EntryOk low (word m' t (ptx va)) e)
    (hother : ∀ x ∈ X, ∀ j < 1024, x ≠ t ∨ j ≠ ptx va → word m' x j = word m x j) :
    IndexAt low m' d X (update maps va e) := by
  have htd : d ≠ t := (h.table_mem (pdx_lt va) ht).2.symm
  refine h.sameDir (fun i hi => hother d h.dir i hi (.inl htd)) ?_ ?_
  · intro va' hva' h0
    have hne : va' ≠ va := by
      intro heq
      rw [heq, ht] at h0
      omega
    rw [update_of_ne hne]
    exact h.absent va' hva' h0
  · intro va' t' hva' ht'
    by_cases heq : va' = va
    · subst heq
      have htt : t' = t := by omega
      rw [htt, update_self]
      exact he
    · rw [update_of_ne heq]
      -- Another page in the same table has another place there.
      have hplace : t' ≠ t ∨ ptx va' ≠ ptx va := by
        by_contra hboth
        obtain ⟨htt, hptx⟩ := not_or.mp hboth
        rw [not_not] at htt hptx
        rw [htt] at ht'
        have hpdx := h.inj _ (pdx_lt va') _ (pdx_lt va) t ht' ht
        exact heq (hva.eq_of_indices hva' hpdx hptx)
      rw [hother t' (h.table_mem (pdx_lt va') ht').1 _ (ptx_lt va') hplace]
      exact h.table va' t' hva' ht'

/-- What the MMU finds is what the index translates. -/
theorem IndexAt.pageEntry_eq (h : IndexAt low m d X maps) (hva : IsPage va) :
    pageEntry m d va = (maps va).map fun e => (e.1 ||| e.2 ||| pteP) % 2 ^ 32 := by
  rw [pageEntry]
  rcases h.entry _ (pdx_lt va) with h0 | ⟨t, htX, -, ht⟩
  · have h0' : load32 m (d + 4 * pdx va) = 0 := h0
    rw [h0', h.absent va hva h0]
    rfl
  · have hframe := h.frame t htX
    have ht' : load32 m (d + 4 * pdx va) = t + 7 := ht
    have hentry := h.table va t hva ht
    rw [ht', if_neg (table_present hframe), if_neg (not_not.mpr (table_small hframe)),
      table_addr hframe]
    show (if word m t (ptx va) &&& pteP = 0 then none else some (word m t (ptx va))) = _
    cases hm : maps va with
    | none =>
        rw [hm] at hentry
        exact if_pos hentry
    | some e =>
        rw [hm] at hentry
        rw [hentry.1, if_neg (page_present e.1 e.2)]
        rfl

end Aim.Kern
