import Aim.Proofs.CopyUvm
import Aim.Proofs.UvmLedger

/-!
# Address spaces are isolated

Every frame is of one area, and none is part of a page index. So a byte that is
stored through the page index of an address space is seen at that address of that
address space and nowhere else, and no address is translated differently.
-/

namespace Aim.Kern

open Aim.Lib Mem

variable {σ : Type} {B : Base σ} {S : BaseSpec B}

/-- What the MMU reaches is a byte of an area. -/
theorem UvmInv.translate_area {K : Set Nat} {H : Others} {u : Uvm (Phys σ)} {mms : List Nat}
    {vmas : Nat → List Nat} {R : Res} {m va pa : Nat}
    (h : UvmInv (i386Spec S True K) H u mms vmas R) (hm : m ∈ mms) (hva : va < 2 ^ 32)
    (ht : translate u.env.mem (premapAddr (u.pgindex m)) va = some pa) :
    ∃ v ∈ vmas m, ∃ i < pgSize, va = (u.vma v).start + i ∧ pa = u.frameOf v + i := by
  have hidx := (h.directory hm).2
  have hpage : IsPage (pgRoundDown va) ∧ pgRoundDown va ≤ va ∧ va < pgRoundDown va + pgSize := by
    rw [IsPage, pgRoundDown, pgSize]
    omega
  obtain ⟨hpdx, hptx⟩ := (samePage_iff hpage.1 hva).mpr hpage.2
  have hentry : pageEntry u.env.mem (premapAddr (u.pgindex m)) va =
      pageEntry u.env.mem (premapAddr (u.pgindex m)) (pgRoundDown va) := by
    rw [pageEntry, pageEntry, hpdx, hptx]
  cases hmaps : R.maps (u.pgindex m) (pgRoundDown va) with
  | none =>
      rw [hidx.twoLevel.translate_eq, hentry, hidx.pageEntry_eq hpage.1, hmaps] at ht
      cases ht
  | some e =>
      obtain ⟨v, hv, hstart, -⟩ := ((h.indexed trivial).maps m hm _ e).mp hmaps
      rw [← hstart] at hpage
      have harea := hidx.twoLevel.translate_area hpage.1 (h.frame_of hm hv).2
        (h.low trivial v (.of_mem hm hv)) (h.pageEntry_start hm hv) hpage.2.1 hpage.2.2
      rw [ht] at harea
      exact ⟨v, hv, va - (u.vma v).start, by omega, by omega, Option.some.inj harea⟩

/-- After `b` was stored at `pa`, every address of every address space is where it was,
and has the byte it had, except for `va` of `m`. -/
def SeenOnlyAt (r : UvmRun (Phys σ)) (m va pa : Nat) (b : UInt8) : Prop :=
  ∀ m' ∈ r.mms, ∀ va' < 2 ^ 32,
    translate (r.u.env.mem.store8 pa b) (premapAddr (r.u.pgindex m')) va' =
        translate r.u.env.mem (premapAddr (r.u.pgindex m')) va' ∧
      ∀ pa', translate r.u.env.mem (premapAddr (r.u.pgindex m')) va' = some pa' →
        r.u.env.mem.store8 pa b pa' = if m' = m ∧ va' = va then b else r.u.env.mem pa'

theorem uvm_store_isolated {r : UvmRun (Phys σ)} (h : (tameCalls S).Reachable r) {m va pa : Nat}
    (hm : m ∈ r.mms) (hva : va < 2 ^ 32)
    (ht : translate r.u.env.mem (premapAddr (r.u.pgindex m)) va = some pa) (b : UInt8) :
    SeenOnlyAt r m va pa b := by
  obtain ⟨K, H, vmas, R, hst⟩ := steady_of_reachable S (fun _ _ => id) h
  have hinv := hst.kept.inv
  obtain ⟨v, hv, i, hi, rfl, rfl⟩ := hinv.translate_area hm hva ht
  obtain ⟨hframe, hf⟩ := hinv.frame_of hm hv
  have hlt : r.u.frameOf v + i < 2 ^ 32 := by
    have hle := hf.le
    rw [kernBase] at hle
    omega
  intro m' hm' va' hva'
  obtain ⟨-, hidx⟩ := hinv.directory hm'
  refine ⟨hidx.twoLevel.translate_same (fun x hx j hj => ?_) va', fun pa' ht' => ?_⟩
  · -- The frames of the page index are out for page indexes, that of the area for users.
    obtain ⟨P, hacc⟩ := hinv.rep
    have hxP := hacc.inner _ (((hinv.indexed trivial).indexes _).mpr (.inr ⟨m', hm', rfl⟩)) x hx
    have hne : r.u.frameOf v ≠ x := fun he => S.apart _ _ _ _ hacc.out _ hframe (he ▸ hxP)
    have hapart := (hidx.frame x hx).disjoint hf hne
    have hle := (hidx.frame x hx).word_le hj
    rw [kernBase] at hle
    exact load32_store8_ne hlt (by omega) (by rw [pgSize] at *; omega)
  · obtain ⟨w, hw, j, hj, rfl, rfl⟩ := hinv.translate_area hm' hva' ht'
    split
    · next hsame =>
        obtain ⟨rfl, hva'⟩ := hsame
        obtain rfl := (hinv.indexed trivial).distinct _ hm _ hw _ hv (by
          have hav := (hinv.spaces.area _ hm v hv).aligned
          have haw := (hinv.spaces.area _ hm w hw).aligned
          rw [pgSize] at *
          omega)
        exact store8_self (by omega)
    · next hother =>
        refine store8_ne fun heq => hother ?_
        rw [Nat.mod_eq_of_lt hlt] at heq
        have hwf := (hinv.frame_of hm' hw).2
        obtain rfl : w = v := by
          refine hinv.owned.frameInj w v (.of_mem hm' hw) (.of_mem hm hv) ?_
          by_contra hne
          have hapart := hf.disjoint hwf hne
          omega
        exact ⟨hinv.spaces.unique hm hm' hv hw, by omega⟩

/-- A page and its copy in another address space. -/
theorem uvm_store_isolated_clone : ∃ r pa, (tameCalls (supplySpec 0)).Reachable r ∧
    r.mms = [0x106b, 0x1000] ∧ SeenOnlyAt r 0x106b 0x400010 pa 1 := by
  have hinit : (tameCalls (supplySpec 0)).Reachable (supplyStart eightFrames) :=
    .init eightFrames_init
  obtain ⟨r, hreach, hseen⟩ := hinit.sees (cloneCalls ++ [.clone 0x106b 0x1000]) (fun r => (r.mms,
      translate r.u.env.mem (premapAddr (r.u.pgindex 0x106b)) 0x400010))
    ([0x106b, 0x1000], some 0x104010) (by decide +kernel) (by decide +kernel)
  obtain ⟨hmms, ht⟩ := Prod.mk.inj hseen
  exact ⟨r, _, hreach, hmms, uvm_store_isolated hreach (by simp [hmms]) (by decide) ht 1⟩

end Aim.Kern
