import Aim.Proofs.TwoLevel
import Aim.Proofs.PageSupply

/-!
# `map_pages` and `set_pages_perm`

Both loops walk to one page after the other and write its entry. So each is a
`Rewritten` of its range, up to the page where `walkpgdir` answered null, and
what that means for the pages is read off the entries that are written.

`map_pages` writes entries that are right. `set_pages_perm` writes the flags it
is given where the flags of the hardware are, so `VMA_EXEC` decides whether a
page is present.
-/

namespace Aim.Kern

open Aim.Lib Mem

variable {σ : Type} {G : Pager σ} {S : PagerSpec G} {s : Phys σ} {P : Set Nat}
  {d g flags size vaddr paddr : Nat}

theorem rawEntry_samePage {m : Mem} {va va' : Nat} (hpdx : pdx va' = pdx va)
    (hptx : ptx va' = ptx va) : rawEntry m d va' = rawEntry m d va := by
  rw [rawEntry, hpdx, hptx, rawEntry]

/-- Where the loops end. -/
theorem lastPage_eq (hva : vaddr % pgSize = 0) (hsize : 0 < size) (hend : vaddr + size ≤ 2 ^ 32) :
    pgRoundDown ((vaddr + size + 2 ^ 32 - 1) % 2 ^ 32) =
        vaddr + pgSize * ((size - 1) / pgSize) ∧
      pgRoundDown vaddr = vaddr ∧ vaddr + pgSize * ((size - 1) / pgSize) < 2 ^ 32 := by
  unfold pgRoundDown
  rw [pgSize] at *
  omega

theorem IsPage.next {a : Nat} (h : IsPage a) (hlt : a + pgSize < 2 ^ 32) : IsPage (a + pgSize) :=
  ⟨(Nat.add_mod_right a pgSize).trans h.1, hlt⟩

/-- The pages of a range are those of its length in whole pages. -/
theorem mem_range_iff {va : Nat} (hva : vaddr % pgSize = 0) (hsize : 0 < size) :
    (vaddr ≤ va ∧ pgRoundDown va < vaddr + size) ↔
      vaddr ≤ va ∧ va < vaddr + pgSize * ((size - 1) / pgSize + 1) := by
  rw [pgRoundDown]
  rw [pgSize] at *
  omega

/-! ## `map_pages` -/

/-- The entries of a range that is mapped to `paddr`. -/
def mapEntry (vaddr paddr flags va : Nat) (_ : Nat) : Nat :=
  (paddr + (va - vaddr) ||| flags ||| pteP) % 2 ^ 32

/-- The loop is `n` pages before the last one, at the page `a`. -/
theorem mapLoop_maps (paddr flags : Nat) {fuel n a last : Nat} (h : S.Has s d P)
    (hg : Sees g d) (ha : IsPage a) (hfrom : vaddr ≤ a) (hlast : last = a + pgSize * n)
    (hlast32 : last < 2 ^ 32) (hpaddr : paddr + (last - vaddr) < 2 ^ 64) (hfuel : n < fuel)
    (hfree : ∀ va < 2 ^ 32, a ≤ va ∧ va < a + pgSize * (n + 1) →
      rawEntry s.mem d va &&& pteP = 0) :
    Ends True (mapLoop G g flags last fuel a (paddr + (a - vaddr))) s fun r s' =>
      ∃ P', P ⊆ P' ∧ S.Has s' d P' ∧
        ((r = 0 ∧ Rewritten d a (n + 1) (mapEntry vaddr paddr flags) s.mem s'.mem) ∨
          (r = -1 ∧ 0 ∉ P ∧ 0 ∈ P')) := by
  induction fuel generalizing s P a n with
  | zero => exact absurd hfuel (Nat.not_lt_zero n)
  | succ fuel ih =>
      have hpos : 0 < pgSize := by decide
      rw [mapLoop]
      refine (walkpgdir_walks h hg).bind ?_
      intro pte s₁ hs₁
      obtain ⟨P₁, hP, h₁, ⟨hraw, -⟩, ⟨hpte, hat⟩ | ⟨hpte, -, hzero, hzero'⟩⟩ := hs₁
      · rw [if_neg hpte]
        refine ends_kload_bind ?_
        have hself : rawEntry s₁.mem d a &&& pteP = 0 := by
          rw [hraw]
          refine hfree a ha.2 ⟨Nat.le_refl a, ?_⟩
          rw [Nat.mul_add, Nat.mul_one]
          omega
        rw [h₁.index.kload32_eq hat, if_neg (not_not.mpr hself)]
        refine ends_kstore_bind ?_
        have h₂ := h₁.store (v := (paddr + (a - vaddr) ||| flags ||| pteP) % 2 ^ 32) hat
        have hfirst : ∀ va, rawEntry (kstore32 s₁.mem pte
            ((paddr + (a - vaddr) ||| flags ||| pteP) % 2 ^ 32)) d va =
            if pdx va = pdx a ∧ ptx va = ptx a then
              mapEntry vaddr paddr flags a (rawEntry s.mem d va)
            else rawEntry s.mem d va := by
          intro va
          rw [(h₁.index.store hat).2.2.2 va, Nat.mod_mod, hraw va]
          rfl
        cases n with
        | zero =>
            rw [if_pos (by omega)]
            refine ends_pure ⟨P₁, hP, h₂, .inl ⟨rfl, ?_⟩⟩
            exact Rewritten.cons ha hfirst rewritten_none
        | succ n =>
            rw [Nat.mul_add, Nat.mul_one] at hlast
            have hnext : IsPage (a + pgSize) := ha.next (by omega)
            rw [if_neg (by omega), Nat.mod_eq_of_lt hnext.2,
              show (paddr + (a - vaddr) + pgSize) % 2 ^ 64 = paddr + (a + pgSize - vaddr) by omega]
            have hfree' : ∀ va < 2 ^ 32, a + pgSize ≤ va ∧ va < a + pgSize + pgSize * (n + 1) →
                rawEntry (kstore32 s₁.mem pte
                  ((paddr + (a - vaddr) ||| flags ||| pteP) % 2 ^ 32)) d va &&& pteP = 0 := by
              intro va hva hin
              rw [hfirst va, if_neg fun hsame => ?_]
              · refine hfree va hva ⟨by omega, ?_⟩
                rw [Nat.mul_add pgSize (n + 1), Nat.mul_one]
                omega
              · have := (samePage_iff ha hva).mp hsame
                omega
            refine (ih h₂ hnext (by omega) (by omega) (by omega) hfree').imp ?_
            intro r s' hr
            obtain ⟨P', hP', h', ⟨hr0, hrest⟩ | ⟨hr1, hzero, hzero'⟩⟩ := hr
            · exact ⟨P', hP.trans hP', h', .inl ⟨hr0, Rewritten.cons ha hfirst hrest⟩⟩
            · exact ⟨P', hP.trans hP', h', .inr ⟨hr1, fun h0 => hzero (hP h0), hzero'⟩⟩
      · rw [if_pos hpte]
        exact ends_pure ⟨P₁, hP, h₁, .inr ⟨rfl, hzero, hzero'⟩⟩

/-- Between `m` and `m'` the pages of a range were mapped to the memory from
`paddr` on, and no other page was touched. -/
structure RangeMapped (d vaddr paddr size flags : Nat) (m m' : Mem) : Prop where
  inside : ∀ va < 2 ^ 32, vaddr ≤ va ∧ pgRoundDown va < vaddr + size →
    pageEntry m' d va = some (paddr + (pgRoundDown va - vaddr) ||| flags ||| pteP) ∧
      translate m' d va = some (paddr + (va - vaddr))
  outside : ∀ va < 2 ^ 32, ¬ (vaddr ≤ va ∧ pgRoundDown va < vaddr + size) →
    pageEntry m' d va = pageEntry m d va ∧ translate m' d va = translate m d va

/-- A page that was not reached has the entry it had. -/
theorem Rewritten.pageEntry_eq {m m' : Mem} {P' : Set Nat} {k va : Nat} {f : Nat → Nat → Nat}
    (h : Rewritten d vaddr k f m m') (hm : TwoLevel m d P) (hm' : TwoLevel m' d P')
    (hlt : va < 2 ^ 32) (hout : ¬ (vaddr ≤ va ∧ va < vaddr + pgSize * k)) :
    pageEntry m' d va = pageEntry m d va := by
  rw [hm'.pageEntry_eq, h va hlt, if_neg hout, hm.pageEntry_eq]

theorem RangeMapped.of_rewritten {m m' : Mem} {P' : Set Nat} (hm : TwoLevel m d P)
    (hm' : TwoLevel m' d P') (hva : vaddr % pgSize = 0) (hpa : paddr % pgSize = 0)
    (hsize : 0 < size) (hpend : paddr + size ≤ 2 ^ 32) (hflags : flags < pgSize)
    (h : Rewritten d vaddr ((size - 1) / pgSize + 1) (mapEntry vaddr paddr flags) m m') :
    RangeMapped d vaddr paddr size flags m m' := by
  refine ⟨fun va hlt hin => ?_, fun va hlt hout => ?_⟩
  · have hraw := h va hlt
    rw [if_pos ((mem_range_iff hva hsize).mp hin)] at hraw
    have hpage : IsPage (paddr + (pgRoundDown va - vaddr)) := by
      obtain ⟨hlo, hhi⟩ := hin
      rw [pgRoundDown] at hhi ⊢
      rw [pgSize] at *
      constructor
      · rw [pgSize]
        omega
      · omega
    have hent : pageEntry m' d va =
        some (paddr + (pgRoundDown va - vaddr) ||| flags ||| pteP) := by
      rw [hm'.pageEntry_eq, hraw, mapEntry, if_neg (page_present _ _),
        Nat.mod_eq_of_lt (page_entry_lt hpage hflags)]
    refine ⟨hent, ?_⟩
    have haddr := page_addr hpage hflags
    rw [Nat.mod_eq_of_lt (page_entry_lt hpage hflags)] at haddr
    rw [hm'.translate_eq, hent, Option.map_some, haddr]
    obtain ⟨hlo, -⟩ := hin
    refine congrArg some ?_
    rw [pgRoundDown]
    rw [pgSize] at *
    omega
  · have hent := h.pageEntry_eq hm hm' hlt fun hin => hout ((mem_range_iff hva hsize).mpr hin)
    exact ⟨hent, by rw [hm'.translate_eq, hent, hm.translate_eq]⟩

/-- `map_pages` maps its range and nothing else, unless `pgalloc` answers frame zero
on the way, which `walkpgdir` takes for no frame. -/
theorem mapPages_exact (S : PagerSpec G) (h : S.Has s d P) (hg : Sees g d)
    (hva : vaddr % pgSize = 0) (hpa : paddr % pgSize = 0) (hsize : 0 < size)
    (hvend : vaddr + size ≤ 2 ^ 32) (hpend : paddr + size ≤ 2 ^ 32) (hflags : flags < 0x1000)
    (hfree : ∀ va < 2 ^ 32, vaddr ≤ va ∧ pgRoundDown va < vaddr + size →
      pageEntry s.mem d va = none) :
    Ends True (mapPages G g vaddr paddr size flags) s fun r s' => ∃ P', S.Has s' d P' ∧
      ((r = 0 ∧ RangeMapped d vaddr paddr size flags s.mem s'.mem) ∨
        (r = -1 ∧ 0 ∉ P ∧ 0 ∈ P')) := by
  obtain ⟨hlast, hfirst, hlast32⟩ := lastPage_eq hva hsize hvend
  have hfree' : ∀ va < 2 ^ 32, vaddr ≤ va ∧ va < vaddr + pgSize * ((size - 1) / pgSize + 1) →
      rawEntry s.mem d va &&& pteP = 0 := by
    intro va hlt hin
    have hnone := hfree va hlt ((mem_range_iff hva hsize).mpr hin)
    rw [h.index.pageEntry_eq] at hnone
    by_contra hp
    rw [if_neg hp] at hnone
    cases hnone
  have hfuel : (size - 1) / pgSize < 2 ^ 20 := by
    rw [pgSize]
    omega
  have hloop := mapLoop_maps paddr flags h hg ⟨hva, by omega⟩
    (Nat.le_refl vaddr) rfl hlast32 (by omega) hfuel hfree'
  rw [Nat.sub_self, Nat.add_zero] at hloop
  rw [mapPages, hlast, hfirst]
  refine hloop.imp ?_
  intro r s' hr
  obtain ⟨P', -, h', ⟨hr0, hrest⟩ | hr1⟩ := hr
  · exact ⟨P', h', .inl ⟨hr0, .of_rewritten h.index h'.index hva hpa hsize hpend hflags hrest⟩⟩
  · exact ⟨P', h', .inr hr1⟩

/-- A page index without tables, in the first frame from a megabyte on, and the
frames that `pgalloc` has. -/
def emptyIndex (free : List Nat) : Phys Supply :=
  ⟨fun _ => 0, ⟨0x1000, free, [], [], [0x100000]⟩⟩

theorem tableAt_empty (i : Nat) : tableAt (fun _ => 0) 0x100000 i = none :=
  if_pos (Nat.zero_and pteP)

theorem twoLevel_empty : TwoLevel (fun _ => 0) 0x100000 {0x100000} := by
  have hnone : ∀ i t, tableAt (fun _ => 0) 0x100000 i ≠ some t := by
    intro i t ht
    rw [tableAt_empty] at ht
    cases ht
  refine ⟨rfl, ?_, fun i _ t ht => absurd ht (hnone i t), fun i _ t ht => absurd ht (hnone i t),
    fun i _ _ _ t ht => absurd ht (hnone i t)⟩
  intro x hx
  rw [Set.mem_singleton_iff.mp hx]
  decide

theorem pageEntry_empty (va : Nat) : pageEntry (fun _ => 0) 0x100000 va = none := by
  rw [twoLevel_empty.pageEntry_eq, rawEntry_none (tableAt_empty _), if_pos (Nat.zero_and _)]

theorem emptyIndex_has {free : List Nat} (hframe : ∀ a ∈ 0x100000 :: free, IsFrame a)
    (hnodup : (0x100000 :: free).Nodup) :
    ((supplySpec 0).pagerSpec ∅ ∅).Has (emptyIndex free) 0x100000 {0x100000} := by
  have hperm : (emptyIndex free).pmm.frames.Perm (0x100000 :: free) := by
    rw [Supply.frames, emptyIndex, List.append_nil]
    exact List.perm_append_singleton _ _
  have hnone : ∀ x, x ∈ (∅ : Set Nat) ↔ x ∈ ([] : List Nat) := fun x =>
    ⟨fun hx => hx.elim, fun hx => (List.not_mem_nil hx).elim⟩
  refine ⟨⟨⟨Nat.succ_pos _, ?_, List.nodup_nil, ?_, fun _ _ => Nat.zero_le _, ?_⟩, hnone, hnone,
    ?_⟩, twoLevel_empty⟩
  · exact fun _ hx => (List.not_mem_nil hx).elim
  · exact fun a ha => hframe a (hperm.mem_iff.mp ha)
  · exact hperm.nodup_iff.mpr hnodup
  · intro x
    rw [Set.mem_singleton_iff]
    exact List.mem_singleton.symm

/-- Two pages with a table each. -/
theorem mapPages_exact_sample : ∃ s',
    (mapPages supplyBase.supplied.pager 0x80100000 0x3ff000 0x500000 0x1001 6).run
      (emptyIndex [0x101000, 0x102000]) = .ok 0 s' ∧
    RangeMapped 0x100000 0x3ff000 0x500000 0x1001 6 (fun _ => 0) s'.mem := by
  have hret : returned (mapPages supplyBase.supplied.pager 0x80100000 0x3ff000 0x500000 0x1001 6)
      (emptyIndex [0x101000, 0x102000]) (fun r _ => r) = some 0 := by decide +kernel
  obtain ⟨r, s', hrun, rfl⟩ := returned_eq_some hret
  obtain ⟨P', -, hmapped | hzero⟩ := Ends.of_run (mapPages_exact ((supplySpec 0).pagerSpec ∅ ∅)
    (emptyIndex_has (by decide) (by decide)) (sees_high (by decide)) (by decide) (by decide)
    (by decide) (by decide) (by decide) (by decide) (fun va _ _ => pageEntry_empty va)) hrun
  · exact ⟨s', hrun, hmapped.2⟩
  · exact absurd hzero.1 (by decide)

/-- With frame zero for the table nothing is mapped. -/
theorem mapPages_frame_zero :
    ((supplySpec 0).pagerSpec ∅ ∅).Has (emptyIndex [0]) 0x100000 {0x100000} ∧
      (∀ va, pageEntry (emptyIndex [0]).mem 0x100000 va = none) ∧
      ∃ s', (mapPages supplyBase.supplied.pager 0x80100000 0x400000 0x500000 0x1000 6).run
        (emptyIndex [0]) = .ok (-1) s' := by
  have hret : returned (mapPages supplyBase.supplied.pager 0x80100000 0x400000 0x500000 0x1000 6)
      (emptyIndex [0]) (fun r _ => r) = some (-1) := by decide +kernel
  obtain ⟨r, s', hrun, rfl⟩ := returned_eq_some hret
  exact ⟨emptyIndex_has (by decide) (by decide), pageEntry_empty, s', hrun⟩

/-! ## `set_pages_perm` -/

/-- The entries after `set_pages_perm`. -/
def permEntry (flags : Nat) (_ w : Nat) : Nat := pgRoundDown w ||| flags

theorem pgRoundDown_aligned (a : Nat) : pgRoundDown a % pgSize = 0 := Nat.mul_mod_left _ _

/-- The two accesses of a round put the flags in the place of the old ones. -/
theorem permRound {m : Mem} {va pte : Nat} (h : TwoLevel m d P) (hat : AtEntry m d va pte)
    (hflags : flags < pgSize) :
    kload32 (kstore32 m pte (pgRoundDown (rawEntry m d va))) pte = pgRoundDown (rawEntry m d va) ∧
      ∀ va', rawEntry (kstore32 (kstore32 m pte (pgRoundDown (rawEntry m d va))) pte
          (pgRoundDown (rawEntry m d va) ||| flags)) d va' =
        if pdx va' = pdx va ∧ ptx va' = ptx va then permEntry flags va (rawEntry m d va')
        else rawEntry m d va' := by
  have hlt : pgRoundDown (rawEntry m d va) < 2 ^ 32 :=
    lt_of_le_of_lt (pgRoundDown_le _) (rawEntry_lt m d va)
  have hlt' : pgRoundDown (rawEntry m d va) ||| flags < 2 ^ 32 := by
    rw [pgSize] at hflags
    exact Nat.or_lt_two_pow hlt (by omega)
  obtain ⟨-, h₁, hat₁, hraw₁⟩ := h.store (v := pgRoundDown (rawEntry m d va)) hat
  refine ⟨?_, fun va' => ?_⟩
  · rw [h₁.kload32_eq hat₁, hraw₁ va, if_pos ⟨rfl, rfl⟩, Nat.mod_eq_of_lt hlt]
  · rw [(h₁.store hat₁).2.2.2 va', Nat.mod_eq_of_lt hlt']
    by_cases hsame : pdx va' = pdx va ∧ ptx va' = ptx va
    · rw [if_pos hsame, if_pos hsame, rawEntry_samePage hsame.1 hsame.2]
      rfl
    · rw [if_neg hsame, if_neg hsame, hraw₁ va', if_neg hsame]

/-- The loop changes its pages one after the other, and stops early only at a page
without a table. What is written to the directory is new tables. -/
theorem setPermLoop_sets {fuel n a last : Nat} (h : S.Has s d P) (hg : Sees g d) (ha : IsPage a)
    (hlast : last = a + pgSize * n) (hlast32 : last < 2 ^ 32) (hflags : flags < pgSize)
    (hfuel : n < fuel) :
    Ends True (setPermLoop G g flags last fuel a) s fun r s' => ∃ P' k, S.Has s' d P' ∧
      KeepsTables d s.mem s'.mem ∧ Rewritten d a k (permEntry flags) s.mem s'.mem ∧
        ((r = 0 ∧ k = n + 1) ∨ (r = -1 ∧ k ≤ n ∧ rawEntry s.mem d (a + pgSize * k) = 0)) := by
  induction fuel generalizing s P a n with
  | zero => exact absurd hfuel (Nat.not_lt_zero n)
  | succ fuel ih =>
      have hpos : 0 < pgSize := by decide
      rw [setPermLoop]
      refine (walkpgdir_walks h hg).bind ?_
      intro pte s₁ hs₁
      obtain ⟨P₁, hP, h₁, ⟨hraw, hkept⟩, ⟨hpte, hat⟩ | ⟨hpte, hnone, -, -⟩⟩ := hs₁
      · rw [if_neg hpte]
        refine ends_kload_bind (ends_kstore_bind (ends_kload_bind (ends_kstore_bind ?_)))
        rw [h₁.index.kload32_eq hat]
        obtain ⟨hload, hround⟩ := permRound h₁.index hat hflags
        obtain ⟨-, hidx, hat', -⟩ :=
          h₁.index.store (v := pgRoundDown (rawEntry s₁.mem d a)) hat
        have h₂ := (h₁.store hat).store (v := pgRoundDown (rawEntry s₁.mem d a) ||| flags) hat'
        have hkept₂ := hkept.trans fun i hi _ =>
          (hidx.word_store (v := pgRoundDown (rawEntry s₁.mem d a) ||| flags) hat' hi).trans
            (h₁.index.word_store hat hi)
        simp only [hload]
        have hfirst : ∀ va, rawEntry (kstore32 (kstore32 s₁.mem pte
            (pgRoundDown (rawEntry s₁.mem d a))) pte
            (pgRoundDown (rawEntry s₁.mem d a) ||| flags)) d va =
            if pdx va = pdx a ∧ ptx va = ptx a then permEntry flags a (rawEntry s.mem d va)
            else rawEntry s.mem d va := by
          intro va
          rw [hround va, hraw va]
        cases n with
        | zero =>
            rw [if_pos (by omega)]
            exact ends_pure
              ⟨P₁, 1, h₂, hkept₂, Rewritten.cons ha hfirst rewritten_none, .inl ⟨rfl, rfl⟩⟩
        | succ n =>
            rw [Nat.mul_add, Nat.mul_one] at hlast
            have hnext : IsPage (a + pgSize) := ha.next (by omega)
            rw [if_neg (by omega), Nat.mod_eq_of_lt hnext.2]
            refine (ih (n := n) h₂ hnext (by omega) (by omega)).imp ?_
            intro r s' hr
            obtain ⟨P', k, h', hkept', hrest, hr⟩ := hr
            refine ⟨P', k + 1, h', hkept₂.trans hkept', Rewritten.cons ha hfirst hrest, ?_⟩
            refine hr.imp (fun h0 => ⟨h0.1, by omega⟩) fun h1 => ⟨h1.1, by omega, ?_⟩
            -- The page where it stopped was not reached by this round.
            obtain ⟨-, hk, hnone⟩ := h1
            have hle := Nat.mul_le_mul_left pgSize hk
            rw [Nat.mul_add, Nat.mul_one, Nat.add_comm (pgSize * k), ← Nat.add_assoc]
            rw [hfirst, if_neg fun hsame => ?_] at hnone
            · exact hnone
            · have := (samePage_iff ha (by omega)).mp hsame
              omega
      · rw [if_pos hpte]
        refine ends_pure ⟨P₁, 0, h₁, hkept, ?_, .inr ⟨rfl, Nat.zero_le n, ?_⟩⟩
        · intro va _
          rw [if_neg (by omega)]
          exact hraw va
        · rw [Nat.mul_zero, Nat.add_zero]
          exact hnone

/-- Flags of areas, one by one. -/
def vmaFlags (exec write read : Bool) : Nat :=
  (if exec then vmaExec else 0) ||| (if write then vmaWrite else 0) |||
    (if read then vmaRead else 0)

/-- The MMU lets an access through that needs `bit`: both levels have it. -/
def Allows (m : Mem) (d va bit : Nat) : Prop :=
  ∃ e, pageEntry m d va = some e ∧ e &&& bit ≠ 0 ∧ word m d (pdx va) &&& bit ≠ 0

/-- Between `m` and `m'` the pages of a range that were present got these
permissions, and nothing else happened. -/
structure PermSet (d vaddr size : Nat) (write read : Bool) (m m' : Mem) : Prop where
  present : ∀ va < 2 ^ 32, vaddr ≤ va ∧ pgRoundDown va < vaddr + size →
    ∀ e, pageEntry m d va = some e →
      (∃ e', pageEntry m' d va = some e' ∧ pgRoundDown e' = pgRoundDown e) ∧
        (Allows m' d va pteW ↔ write = true) ∧ (Allows m' d va pteU ↔ read = true)
  absent : ∀ va < 2 ^ 32, vaddr ≤ va ∧ pgRoundDown va < vaddr + size →
    pageEntry m d va = none → pageEntry m' d va = none
  outside : ∀ va < 2 ^ 32, ¬ (vaddr ≤ va ∧ pgRoundDown va < vaddr + size) →
    pageEntry m' d va = pageEntry m d va ∧ ∀ bit, Allows m' d va bit ↔ Allows m d va bit

/-- The pages of the range are present if they are to be executed, and only then. -/
def ExecPresent (d vaddr size : Nat) (exec : Bool) (m : Mem) : Prop :=
  ∀ va < 2 ^ 32, vaddr ≤ va ∧ pgRoundDown va < vaddr + size →
    (pageEntry m d va ≠ none ↔ exec = true)

/-- For the pages of the range that are present the directory has what is asked for. -/
def DirAllows (d vaddr size : Nat) (write read : Bool) (m : Mem) : Prop :=
  ∀ va < 2 ^ 32, vaddr ≤ va ∧ pgRoundDown va < vaddr + size → pageEntry m d va ≠ none →
    (write = true → word m d (pdx va) &&& pteW ≠ 0) ∧
      (read = true → word m d (pdx va) &&& pteU ≠ 0)

section Perm

variable {m m' : Mem} {P' : Set Nat} {exec write read : Bool} {k va w : Nat}

theorem vmaFlags_lt (exec write read : Bool) : vmaFlags exec write read < pgSize := by
  cases exec <;> cases write <;> cases read <;> decide

/-- The flags are read as those of the hardware. -/
theorem vmaFlags_and (exec write read : Bool) :
    (vmaFlags exec write read &&& pteP ≠ 0 ↔ exec = true) ∧
      (vmaFlags exec write read &&& pteW ≠ 0 ↔ write = true) ∧
      (vmaFlags exec write read &&& pteU ≠ 0 ↔ read = true) := by
  cases exec <;> cases write <;> cases read <;> decide

theorem permEntry_and {b : Nat} (hb : b < 2 ^ 12) :
    permEntry (vmaFlags exec write read) va w &&& b = vmaFlags exec write read &&& b := by
  rw [permEntry, Nat.and_or_distrib_right, aligned_and (pgRoundDown_aligned w) hb, Nat.zero_or]

theorem permEntry_addr :
    pgRoundDown (permEntry (vmaFlags exec write read) va w) = pgRoundDown w := by
  have hlt := vmaFlags_lt exec write read
  rw [permEntry, aligned_or (pgRoundDown_aligned w) hlt, pgRoundDown, pgRoundDown]
  rw [pgSize] at *
  omega

theorem allows_iff {e b : Nat} (he : pageEntry m d va = some e) :
    Allows m d va b ↔ e &&& b ≠ 0 ∧ word m d (pdx va) &&& b ≠ 0 := by
  constructor
  · rintro ⟨e', he', hbits⟩
    rw [he] at he'
    obtain rfl := Option.some.inj he'
    exact hbits
  · exact fun hbits => ⟨e, he, hbits⟩

theorem KeepsTables.word_eq (h : TwoLevel m d P) (hkept : KeepsTables d m m')
    (hsome : pageEntry m d va ≠ none) : word m' d (pdx va) = word m d (pdx va) := by
  obtain ⟨e, he⟩ := Option.ne_none_iff_exists'.mp hsome
  obtain ⟨t, ht, -⟩ := h.tableAt_of_pageEntry he
  exact hkept _ (pdx_lt va) (by rw [ht]; exact Option.some_ne_none t)

/-- A page that is as it was lets through what it did. -/
theorem KeepsTables.allows_iff (h : TwoLevel m d P) (hkept : KeepsTables d m m')
    (heq : pageEntry m' d va = pageEntry m d va) (bit : Nat) :
    Allows m' d va bit ↔ Allows m d va bit := by
  rw [Allows, Allows, heq]
  refine exists_congr fun e => and_congr_right fun he => ?_
  rw [hkept.word_eq h (by rw [he]; exact Option.some_ne_none e)]

/-- A page that was reached is present now if it is to be executed. -/
theorem rewritten_perm (hm' : TwoLevel m' d P')
    (h : Rewritten d vaddr k (permEntry (vmaFlags exec write read)) m m') (hlt : va < 2 ^ 32)
    (hin : vaddr ≤ va ∧ va < vaddr + pgSize * k) :
    (pageEntry m' d va ≠ none ↔ exec = true) ∧
      ∀ e', pageEntry m' d va = some e' → pgRoundDown e' = pgRoundDown (rawEntry m d va) ∧
        (e' &&& pteW ≠ 0 ↔ write = true) ∧ (e' &&& pteU ≠ 0 ↔ read = true) := by
  obtain ⟨hp, hw, hu⟩ := vmaFlags_and exec write read
  rw [hm'.pageEntry_eq, h va hlt, if_pos hin, permEntry_and (by decide)]
  refine ⟨?_, fun e' he' => ?_⟩
  · rw [← hp]
    split
    · next h0 => exact iff_of_false (not_not.mpr rfl) (not_not.mpr h0)
    · next h0 => exact iff_of_true (Option.some_ne_none _) h0
  · split at he'
    · cases he'
    · obtain rfl := Option.some.inj he'
      rw [permEntry_and (by decide), permEntry_and (by decide)]
      exact ⟨permEntry_addr, hw, hu⟩

variable (h : TwoLevel m d P) (h' : TwoLevel m' d P') (hkept : KeepsTables d m m')
  (hva : vaddr % pgSize = 0) (hsize : 0 < size)
  (hlast : vaddr + pgSize * ((size - 1) / pgSize) < 2 ^ 32)
  (hk : k = (size - 1) / pgSize + 1 ∨
    k ≤ (size - 1) / pgSize ∧ rawEntry m d (vaddr + pgSize * k) = 0)

include h hva hsize hlast hk in
/-- If all pages are there, the loop does not stop early: it does so at a page without
a table. -/
theorem ExecPresent.reached (hexec : ExecPresent d vaddr size true m) :
    k = (size - 1) / pgSize + 1 := by
  rcases hk with hk | ⟨hk, hzero⟩
  · exact hk
  · have hpos : 0 < pgSize := by decide
    have hle := Nat.mul_le_mul_left pgSize hk
    have hpage := (hexec (vaddr + pgSize * k) (by omega)
      ((mem_range_iff hva hsize).mpr ⟨by omega, ?_⟩)).mpr rfl
    · rw [h.pageEntry_eq, hzero, if_pos (Nat.zero_and _)] at hpage
      exact absurd rfl hpage
    · rw [Nat.mul_add, Nat.mul_one]
      omega

include h h' hkept hva hsize hlast hk in
/-- What the loop left is what was asked for, under the conditions. -/
theorem PermSet.of_rewritten
    (hrest : Rewritten d vaddr k (permEntry (vmaFlags exec write read)) m m')
    (hexec : ExecPresent d vaddr size exec m) (hdir : DirAllows d vaddr size write read m) :
    PermSet d vaddr size write read m m' := by
  refine ⟨fun va hlt hin e he => ?_, fun va hlt hin hnone => ?_, fun va hlt hout => ?_⟩
  · have hsome : pageEntry m d va ≠ none := by
      rw [he]
      exact Option.some_ne_none e
    obtain rfl : exec = true := (hexec va hlt hin).mp hsome
    rw [hexec.reached h hva hsize hlast hk] at hrest
    obtain ⟨hpres, hbits⟩ := rewritten_perm h' hrest hlt ((mem_range_iff hva hsize).mp hin)
    obtain ⟨e', he'⟩ := Option.ne_none_iff_exists'.mp (hpres.mpr rfl)
    obtain ⟨haddr, hw, hu⟩ := hbits e' he'
    obtain ⟨hdw, hdu⟩ := hdir va hlt hin hsome
    rw [h.pageEntry_eq] at he
    split at he
    · cases he
    · obtain rfl := Option.some.inj he
      rw [allows_iff he', allows_iff he', hkept.word_eq h hsome, hw, hu]
      exact ⟨⟨e', he', haddr⟩, and_iff_left_of_imp hdw, and_iff_left_of_imp hdu⟩
  · by_cases hreach : vaddr ≤ va ∧ va < vaddr + pgSize * k
    · exact not_not.mp fun hne =>
        (hexec va hlt hin).mpr ((rewritten_perm h' hrest hlt hreach).1.mp hne) hnone
    · rw [hrest.pageEntry_eq h h' hlt hreach]
      exact hnone
  · have hle : pgSize * k ≤ pgSize * ((size - 1) / pgSize + 1) :=
      Nat.mul_le_mul_left pgSize (by omega)
    have hsame := hrest.pageEntry_eq h h' hlt fun hin =>
      hout ((mem_range_iff hva hsize).mpr ⟨hin.1, by omega⟩)
    exact ⟨hsame, hkept.allows_iff h hsame⟩

include h h' hkept hva hsize in
/-- And if it is, with all pages reached, the conditions were met. -/
theorem PermSet.conditions (hset : PermSet d vaddr size write read m m')
    (hrest : Rewritten d vaddr ((size - 1) / pgSize + 1)
      (permEntry (vmaFlags exec write read)) m m') :
    ExecPresent d vaddr size exec m ∧ DirAllows d vaddr size write read m := by
  refine ⟨fun va hlt hin => ?_, fun va hlt hin hsome => ?_⟩
  · rw [← (rewritten_perm h' hrest hlt ((mem_range_iff hva hsize).mp hin)).1]
    refine not_congr ⟨hset.absent va hlt hin, fun hnone => ?_⟩
    by_contra hsome
    obtain ⟨e, he⟩ := Option.ne_none_iff_exists'.mp hsome
    obtain ⟨⟨e', he', -⟩, -⟩ := hset.present va hlt hin e he
    rw [hnone] at he'
    cases he'
  · obtain ⟨e, he⟩ := Option.ne_none_iff_exists'.mp hsome
    obtain ⟨⟨e', he', -⟩, hw, hu⟩ := hset.present va hlt hin e he
    rw [allows_iff he', hkept.word_eq h hsome] at hw hu
    exact ⟨fun ht => (hw.mpr ht).2, fun ht => (hu.mpr ht).2⟩

end Perm

/-- A page index that maps one page, readable, writable and executable. -/
def onePage : Phys Supply :=
  ⟨kstore32 (newTable (fun _ => 0) 0x80100000 0x400000 0x101000) 0x101000 0x500007,
    ⟨0x1000, [], [], [], [0x101000, 0x100000]⟩⟩

theorem onePage_index : TwoLevel onePage.mem 0x100000 {0x101000, 0x100000} ∧
    ∀ va < 2 ^ 32, 0x400000 ≤ va ∧ va < 0x401000 →
      pageEntry onePage.mem 0x100000 va = some 0x500007 := by
  obtain ⟨-, hidx, htab, -⟩ := twoLevel_empty.addTable (g := 0x80100000)
    (sees_high (f := 0x100000) (by decide)) (t := 0x101000) (by decide) (by decide)
    (tableAt_empty (pdx 0x400000))
  have hat : AtEntry (newTable (fun _ => 0) 0x80100000 0x400000 0x101000) 0x100000 0x400000
      0x101000 := ⟨0x101000, htab, sees_low (by decide)⟩
  obtain ⟨-, hidx', -, hraw⟩ := hidx.store (v := 0x500007) hat
  have hone : TwoLevel onePage.mem 0x100000 {0x101000, 0x100000} := hidx'
  refine ⟨hone, fun va hlt hin => ?_⟩
  have hself : rawEntry onePage.mem 0x100000 va = 0x500007 := by
    refine (hraw va).trans (if_pos ?_)
    exact (samePage_iff (by unfold IsPage; decide) hlt).mpr hin
  rw [hone.pageEntry_eq, hself]
  rfl

theorem onePage_has : ((supplySpec 0).pagerSpec ∅ ∅).Has onePage 0x100000 {0x101000, 0x100000} := by
  have hnone : ∀ x, x ∈ (∅ : Set Nat) ↔ x ∈ ([] : List Nat) := fun x =>
    ⟨fun hx => hx.elim, fun hx => (List.not_mem_nil hx).elim⟩
  refine ⟨⟨⟨Nat.succ_pos _, ?_, List.nodup_nil, by decide, fun _ _ => Nat.zero_le _, by decide⟩,
    hnone, hnone, ?_⟩, onePage_index.1⟩
  · exact fun _ hx => (List.not_mem_nil hx).elim
  · intro x
    rw [Set.mem_insert_iff, Set.mem_singleton_iff]
    exact List.mem_pair.symm

end Aim.Kern
