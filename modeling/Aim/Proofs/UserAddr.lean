import Aim.Kern.UserCopy
import Aim.Proofs.PageRange

/-!
# `uva2kva`

What a user may access at an address is `userByte`: the page has to be present,
and theirs in both levels of the page index. `uva2kva` should answer where the
kernel sees that byte, and null if there is none.

It answers where the kernel sees the page. So it is only right about the first
byte of a page that a user may access, and where there is no page table it reads
its entry from null. Everywhere else there is nothing to answer, and it says so.

The page index may have any words in it. An entry of four megabytes is taken for
a page table, and the answer is then read from the page that it maps.
-/

namespace Aim.Kern

open Aim.Lib Mem

variable {σ : Type}

/-- The physical byte that a user may access at `uva`. -/
def userByte (m : Mem) (d uva : Nat) : Option Nat :=
  (pageEntry m d uva).bind fun e =>
    if e &&& pteU = 0 ∨ word m d (pdx uva) &&& pteU = 0 then none else translate m d uva

/-- The kernel sees the user's byte at `kva`, or there is none and `kva` is null. -/
def KvaRight (m : Mem) (d uva kva : Nat) : Prop :=
  (userByte m d uva).elim (kva = 0) fun pa => kva ≠ 0 ∧ Sees kva pa

abbrev UserEntry (w : Nat) : Prop := w &&& pteP ≠ 0 ∧ w &&& pteU ≠ 0

/-- Where `uva2kva` is right: there is a table, and a page that its entry gives to
the user is theirs in the directory too, is asked for by its first address and is
seen by the kernel. In a page of four megabytes it has to be a coincidence. -/
def UvaFits (m : Mem) (d uva : Nat) : Prop :=
  ∃ t, tableAt m d (pdx uva) = some t ∧
    if word m d (pdx uva) &&& ptePS = 0 then
      UserEntry (word m t (ptx uva)) → word m d (pdx uva) &&& pteU ≠ 0 ∧ uva % pgSize = 0 ∧
        pgRoundDown (word m t (ptx uva)) < kernBase
    else
      (UserEntry (word m t (ptx uva)) ↔ word m d (pdx uva) &&& pteU ≠ 0) ∧
        (UserEntry (word m t (ptx uva)) → Sees (pgRoundDown (word m t (ptx uva)))
          (2 ^ 22 * (word m d (pdx uva) / 2 ^ 22) + uva % 2 ^ 22))

section Uva

variable {G : Pager σ} {s : Phys σ} {m : Mem} {d g t uva w a pa : Nat}

/-- In the window the kernel sees the same at both addresses. -/
theorem sees_postmapAddr : Sees (postmapAddr a) pa ↔ Sees a pa := by
  unfold Sees postmapAddr
  rw [kernBase]
  split <;> omega

theorem postmapAddr_ne_zero (a : Nat) : postmapAddr a ≠ 0 := by
  rw [postmapAddr, kernBase]
  split <;> omega

/-- The answer, from the entry. -/
def kvaOf (w : Nat) : Nat := if UserEntry w then postmapAddr (pgRoundDown w) else 0

theorem uva2kva_none (hd : IsFrame d) (hg : Sees g d)
    (ht : tableAt s.mem d (pdx uva) = none) : (uva2kva G g uva).run s = .error (.oob 0) s := by
  have htf : ∀ t, tableAt s.mem d (pdx uva) = some t → IsFrame t := by
    intro t hsome
    rw [ht] at hsome
    cases hsome
  obtain ⟨pte, hwalk, ⟨rfl, -⟩ | ⟨-, t, hsome, -⟩⟩ := walkpgdir_finds (G := G) hd htf hg
  · rw [uva2kva, run_bind_ok hwalk, if_pos rfl]
    rfl
  · rw [ht] at hsome
    cases hsome

theorem uva2kva_some (hd : IsFrame d) (hg : Sees g d) (ht : tableAt s.mem d (pdx uva) = some t)
    (htf : IsFrame t) : (uva2kva G g uva).run s = .ok (kvaOf (word s.mem t (ptx uva))) s := by
  have htab : ∀ t', tableAt s.mem d (pdx uva) = some t' → IsFrame t' := by
    intro t' hsome
    rw [ht] at hsome
    exact Option.some.inj hsome ▸ htf
  obtain ⟨pte, hwalk, ⟨-, hnone⟩ | ⟨hpte, t', hsome, hsees⟩⟩ :=
    walkpgdir_finds (G := G) hd htab hg
  · rw [ht] at hnone
    cases hnone
  · rw [ht] at hsome
    obtain rfl := Option.some.inj hsome
    have hload : (kload pte).run s = .ok (word s.mem t (ptx uva)) s := by
      rw [← kload32_word hsees htf (ptx_lt uva)]
      rfl
    rw [uva2kva, run_bind_ok hwalk, if_neg hpte, run_bind_ok hload, kvaOf]
    by_cases hp : word s.mem t (ptx uva) &&& pteP = 0
    · rw [if_pos hp, if_neg fun h => h.1 hp]
      rfl
    · by_cases hu : word s.mem t (ptx uva) &&& pteU = 0
      · rw [if_neg hp, if_pos hu, if_neg fun h => h.2 hu]
        rfl
      · rw [if_neg hp, if_neg hu, if_pos ⟨hp, hu⟩]
        rfl

/-- In a page table the user has what the entry gives, if the directory gives it
too. -/
theorem userByte_small (ht : tableAt m d (pdx uva) = some t)
    (hps : word m d (pdx uva) &&& ptePS = 0) : userByte m d uva =
    if UserEntry (word m t (ptx uva)) ∧ word m d (pdx uva) &&& pteU ≠ 0 then
      some (pgRoundDown (word m t (ptx uva)) + uva % pgSize)
    else none := by
  obtain ⟨hp, htab⟩ := tableAt_some ht
  have hload : m.load32 (d + 4 * pdx uva) = word m d (pdx uva) := rfl
  have hpte : m.load32 (t + 4 * ptx uva) = word m t (ptx uva) := rfl
  have hentry : pageEntry m d uva =
      if word m t (ptx uva) &&& pteP = 0 then none else some (word m t (ptx uva)) := by
    rw [pageEntry, hload, if_neg hp, if_neg (not_not.mpr hps), htab]
    simp only [hpte]
  rw [userByte, translate, hload, hentry]
  by_cases hpresent : word m t (ptx uva) &&& pteP = 0
  · rw [if_pos hpresent, if_neg fun h => h.1.1 hpresent]
    rfl
  · rw [if_neg hpresent, Option.bind_some, Option.map_some, if_neg (not_not.mpr hps)]
    by_cases hu : word m t (ptx uva) &&& pteU = 0 ∨ word m d (pdx uva) &&& pteU = 0
    · rw [if_pos hu, if_neg fun h => hu.elim h.1.2 h.2]
    · rw [not_or] at hu
      rw [if_neg (not_or.mpr hu), if_pos ⟨⟨hpresent, hu.1⟩, hu.2⟩]

theorem userByte_big (ht : tableAt m d (pdx uva) = some t)
    (hps : word m d (pdx uva) &&& ptePS ≠ 0) : userByte m d uva =
    if word m d (pdx uva) &&& pteU ≠ 0 then
      some (2 ^ 22 * (word m d (pdx uva) / 2 ^ 22) + uva % 2 ^ 22)
    else none := by
  obtain ⟨hp, -⟩ := tableAt_some ht
  have hload : m.load32 (d + 4 * pdx uva) = word m d (pdx uva) := rfl
  have hentry : pageEntry m d uva = some (word m d (pdx uva)) := by
    rw [pageEntry, hload, if_neg hp, if_pos hps]
  rw [userByte, translate, hload, hentry, Option.bind_some, Option.map_some, if_pos hps]
  by_cases hu : word m d (pdx uva) &&& pteU = 0
  · rw [if_pos (.inl hu), if_neg (not_not.mpr hu)]
  · rw [if_neg (not_or.mpr ⟨hu, hu⟩), if_pos hu]

/-- Without an access for the user the answer has to be null, and with one it has to
be where the byte is. -/
theorem kvaRight_ite {c : Prop} [Decidable c]
    (h : userByte m d uva = if c then some pa else none) :
    KvaRight m d uva (kvaOf w) ↔ (UserEntry w ↔ c) ∧ (UserEntry w → Sees (pgRoundDown w) pa) := by
  rw [KvaRight, h, kvaOf]
  by_cases hw : UserEntry w
  · have hne := postmapAddr_ne_zero (pgRoundDown w)
    by_cases hc : c
    · rw [if_pos hc, if_pos hw, Option.elim_some, sees_postmapAddr]
      exact ⟨fun h => ⟨iff_of_true hw hc, fun _ => h.2⟩, fun h => ⟨hne, h.2 hw⟩⟩
    · rw [if_neg hc, if_pos hw, Option.elim_none]
      exact iff_of_false hne fun h => hc (h.1.mp hw)
  · by_cases hc : c
    · rw [if_pos hc, if_neg hw, Option.elim_some]
      exact iff_of_false (fun h => h.1 rfl) fun h => hw (h.1.mpr hc)
    · rw [if_neg hc, if_neg hw, Option.elim_none]
      exact iff_of_true rfl ⟨iff_of_false hw hc, fun h => absurd h hw⟩

/-- The first byte of a page is the only one that the answer for the page fits. -/
theorem sees_offset : Sees a (a + uva % pgSize) ↔ uva % pgSize = 0 ∧ a < kernBase := by
  unfold Sees
  rw [kernBase]
  omega

theorem uva2kva_exact_iff (hd : IsFrame d)
    (htf : ∀ t, tableAt s.mem d (pdx uva) = some t → IsFrame t) (hg : Sees g d) :
    (∃ kva s', (uva2kva G g uva).run s = .ok kva s' ∧ KvaRight s.mem d uva kva) ↔
      UvaFits s.mem d uva := by
  cases ht : tableAt s.mem d (pdx uva) with
  | none =>
      refine iff_of_false ?_ ?_
      · rintro ⟨kva, s', hrun, -⟩
        rw [uva2kva_none hd hg ht] at hrun
        cases hrun
      · rintro ⟨t, hsome, -⟩
        rw [ht] at hsome
        cases hsome
  | some t =>
      have hrun := uva2kva_some (G := G) hd hg ht (htf t ht)
      have hright : (∃ kva s', (uva2kva G g uva).run s = .ok kva s' ∧ KvaRight s.mem d uva kva) ↔
          KvaRight s.mem d uva (kvaOf (word s.mem t (ptx uva))) := by
        refine ⟨?_, fun h => ⟨_, s, hrun, h⟩⟩
        rintro ⟨kva, s', hrun', h⟩
        rw [hrun] at hrun'
        cases hrun'
        exact h
      rw [hright]
      by_cases hps : word s.mem d (pdx uva) &&& ptePS = 0
      · rw [kvaRight_ite (userByte_small ht hps), sees_offset]
        refine ⟨fun h => ⟨t, ht, ?_⟩, ?_⟩
        · rw [if_pos hps]
          exact fun hw => ⟨(h.1.mp hw).2, h.2 hw⟩
        · rintro ⟨t', hsome, h⟩
          rw [ht] at hsome
          obtain rfl := Option.some.inj hsome
          rw [if_pos hps] at h
          exact ⟨⟨fun hw => ⟨hw, (h hw).1⟩, fun hw => hw.1⟩, fun hw => (h hw).2⟩
      · rw [kvaRight_ite (userByte_big ht hps)]
        refine ⟨fun h => ⟨t, ht, ?_⟩, ?_⟩
        · rw [if_neg hps]
          exact h
        · rintro ⟨t', hsome, h⟩
          rw [ht] at hsome
          obtain rfl := Option.some.inj hsome
          rw [if_neg hps] at h
          exact h

end Uva

/-! ## Runs -/

theorem onePage_table {t : Nat} (ht : tableAt onePage.mem 0x100000 (pdx 0x400000) = some t) :
    IsFrame t := by
  obtain ⟨hmem, -⟩ := onePage_index.1.table _ (pdx_lt _) t ht
  exact onePage_index.1.frame t hmem

/-- The first byte of a page is found. -/
theorem uva2kva_exact_iff_onePage :
    ∃ kva s', (uva2kva supplyBase.supplied.pager 0x80100000 0x400000).run onePage = .ok kva s' ∧
      KvaRight onePage.mem 0x100000 0x400000 kva := by
  refine (uva2kva_exact_iff (by decide) (fun t ht => onePage_table ht)
    (sees_high (by decide))).mpr ⟨0x101000, ?_, ?_⟩
  · decide +kernel
  · rw [if_pos (by decide +kernel)]
    exact fun _ => by decide +kernel

/-- Another byte of it is not, and where there is no table the call reads from null. -/
theorem uva2kva_misses :
    (∃ s', (uva2kva supplyBase.supplied.pager 0x80100000 0x400123).run onePage =
        .ok 0x80500000 s') ∧
      userByte onePage.mem 0x100000 0x400123 = some 0x500123 ∧
      ¬ KvaRight onePage.mem 0x100000 0x400123 0x80500000 ∧
      stopped (uva2kva supplyBase.supplied.pager 0x80100000 0x400000) (emptyIndex []) =
        some (.oob 0) := by
  have hbyte : userByte onePage.mem 0x100000 0x400123 = some 0x500123 := by decide +kernel
  have hret : returned (uva2kva supplyBase.supplied.pager 0x80100000 0x400123) onePage
      (fun kva _ => kva) = some 0x80500000 := by decide +kernel
  obtain ⟨kva, s', hrun, rfl⟩ := returned_eq_some hret
  refine ⟨⟨s', hrun⟩, hbyte, ?_, by decide +kernel⟩
  rw [KvaRight, hbyte, Option.elim_some]
  unfold Sees
  decide

end Aim.Kern
