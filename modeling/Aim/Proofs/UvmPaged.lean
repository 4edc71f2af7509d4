import Aim.Proofs.UvmRun
import Aim.Proofs.PageSupply

/-!
# The areas and the page index of an address space

On i386 the list of areas and the page index describe the same address space:
a page is present exactly if an area covers it, and its entry is made of the
frame and the flags of the area. The invariant of the runs says so of the
account of page indexes, and the representation of page indexes in memory
carries it over to what the MMU finds.

Then `map_pages` is never asked for a page that is there, and a call of `uvm.c`
does not stop. As for the lists, this takes that a range that reaches the top
of the address space is the first one of its address space: `create_uvm` does
not see that such a range is in use.
-/

namespace Aim.Kern

open Aim.Lib

variable {σ : Type} {B : Base σ} {S : BaseSpec B} {r : UvmRun (Phys σ)}

/-- Flags below the address of the frame. -/
def UvmRun.LowFlags (_ : UvmRun σ) : UvmCall → Prop
  | .create _ _ _ flags => flags < 0x1000
  | _ => True

instance (r : UvmRun σ) : ∀ i, Decidable (r.LowFlags i)
  | .new => inferInstanceAs (Decidable True)
  | .create _ _ _ _ => inferInstanceAs (Decidable (_ < _))
  | .destroy _ _ _ => inferInstanceAs (Decidable True)
  | .clone _ _ => inferInstanceAs (Decidable True)
  | .drop _ => inferInstanceAs (Decidable True)

/-- What is out is accounted for. -/
def BaseSpec.Start (S : BaseSpec B) (u : Uvm (Phys σ)) : Prop :=
  ∃ O U P, S.Out u.env O U P ∧ ∀ x, u.live x = true ↔ x ∈ O

/-- The same, and the words in front of every `struct mm` are zero. -/
def BaseSpec.CleanStart (S : BaseSpec B) (u : Uvm (Phys σ)) : Prop :=
  S.Start u ∧ ∀ m, u.before m = (0, 0)

theorem Accounts.initial {low : Prop} {s : Phys σ} {O U P : Set Nat} (h : S.Out s O U P) :
    Accounts S low P s ⟨O, U, ∅, fun _ => ∅, fun _ _ => none⟩ P where
  out := h
  others _ ha := ha
  inner _ hg := hg.elim
  only _ ha := .inr (.inl ha)
  notOther _ hg := hg.elim
  apart _ hg := hg.elim
  index _ hg := hg.elim

theorem UvmRun.Kept.initial {O U P : Set Nat} (total : Prop) (hout : S.Out r.u.env O U P)
    (hlive : ∀ x, r.u.live x = true ↔ x ∈ O) (hmms : r.mms = []) :
    r.Kept (i386Spec S total P) ⟨O, U, ∅⟩ (fun _ => [])
      ⟨O, U, ∅, fun _ => ∅, fun _ _ => none⟩ := by
  have hrep : (i386Spec S total P).Rep r.u.env ⟨O, U, ∅, fun _ => ∅, fun _ _ => none⟩ :=
    ⟨P, .initial hout⟩
  obtain ⟨u, mms⟩ := r
  obtain rfl : mms = [] := hmms
  exact ⟨UvmInv.initial hrep hlive, List.not_mem_nil⟩

/-! ## Runs that do not stop -/

/-- The calls of a run that does not stop: the ranges do not wrap, and one that
reaches the top is the first one. -/
def UvmRun.Tame (r : UvmRun σ) (i : UvmCall) : Prop := r.NoWrap i ∧ r.BelowTop i ∧ r.LowFlags i

/-- What is known in the states of such a run. -/
structure Steady (S : BaseSpec B) (K : Set Nat) (H : Others) (r : UvmRun (Phys σ))
    (vmas : Nat → List Nat) (R : Res) : Prop where
  kept : r.Kept (i386Spec S True K) H vmas R
  sorted : Sorted r.u r.mms vmas
  clean : ∀ m, r.u.before m = (0, 0)

section

variable {S : BaseSpec B} {K : Set Nat} {H : Others} {r : UvmRun (Phys σ)}
  {vmas : Nat → List Nat} {R : Res} {i : UvmCall}

theorem Steady.initial {O U P : Set Nat} (hout : S.Out r.u.env O U P)
    (hlive : ∀ x, r.u.live x = true ↔ x ∈ O) (hmms : r.mms = [])
    (hclean : ∀ m, r.u.before m = (0, 0)) :
    Steady S P ⟨O, U, ∅⟩ r (fun _ => []) ⟨O, U, ∅, fun _ => ∅, fun _ _ => none⟩ where
  kept := .initial True hout hlive hmms
  sorted m hm := by
    rw [hmms] at hm
    cases hm
  clean := hclean

theorem Steady.fits (h : Steady S K H r vmas R) (hl : r.Legal i) (ht : r.Tame i) :
    r.Fits vmas i := by
  obtain ⟨hwrap, htop, hlow⟩ := ht
  cases i with
  | new => trivial
  | create mm addr len flags =>
      intro _ _ hlen
      refine ⟨h.sorted, hlow, hwrap, ?_⟩
      exact (htop.resolve_left hlen).imp_right (h.kept.inv.spaces.empty_iff hl.1).mp
  | destroy mm addr len => exact ⟨by rw [h.clean mm], hwrap⟩
  | clone dst src => trivial
  | drop mm => trivial

theorem Steady.nodup (h : Steady S K H r vmas R) :
    ∀ m ∈ r.mms, (r.u.starts (vmas m)).Nodup := fun _ hm => h.sorted.nodup hm

/-- A call under these conditions returns, unless frames run out, and leaves a
state of the same kind. -/
theorem Steady.step_ends (h : Steady S K H r vmas R) (hl : r.Legal i) (ht : r.Tame i) :
    Ends True (UvmRun.step (i386 B) i) r fun _ r' => ∃ vmas' R', Steady S K H r' vmas' R' := by
  refine (Aim.Kern.step_ends h.kept id hl h.nodup fun _ => h.fits hl ht).imp ?_
  intro _ r' hr'
  obtain ⟨hbefore, vmas', R', hk, hs⟩ := hr'
  exact ⟨vmas', R', hk, hs h.sorted ht.1 ht.2.1, by rw [hbefore]; exact h.clean⟩

end

/-- The states of runs whose calls are under a condition that is `Tame`. -/
theorem steady_of_reachable (S : BaseSpec B) {C : UvmRun (Phys σ) → UvmCall → Prop}
    (hC : ∀ r i, C r i → r.Tame i) (h : ((uvmCalls (i386 B) S.CleanStart).restrict C).Reachable r) :
    ∃ K H vmas R, Steady S K H r vmas R := by
  refine Machine.reachable_of_kept (I := fun r => ∃ K H vmas R, Steady S K H r vmas R) ?_ ?_ h
  · intro r hr
    obtain ⟨hmms, ⟨O, U, P, hout, hlive⟩, hclean⟩ := hr
    exact ⟨_, _, _, _, .initial hout hlive hmms hclean⟩
  · intro r i r' hr hl hrun
    obtain ⟨K, H, vmas, R, hst⟩ := hr
    obtain ⟨vmas', R', hst'⟩ := (hst.step_ends hl.1 (hC r i hl.2)).of_run hrun
    exact ⟨K, H, vmas', R', hst'⟩

/-! ## What the MMU finds -/

/-- The list of areas and the page index describe the same address space. -/
structure UvmAgrees (r : UvmRun (Phys σ)) (vmas : Nat → List Nat) : Prop where
  linked : ∀ m ∈ r.mms, Links.Ring r.u.links (.sentry m) (nodes (vmas m))
  covered : ∀ m ∈ r.mms, ∀ va, IsPage va → ∀ v ∈ vmas m,
    (r.u.vma v).start ≤ va ∧ va < (r.u.vma v).start + (r.u.vma v).size →
    pageEntry r.u.env.mem (premapAddr (r.u.pgindex m)) va =
      some ((r.u.upages (r.u.vma v).pages).pages.paddr ||| (r.u.vma v).flags ||| pteP)
  uncovered : ∀ m ∈ r.mms, ∀ va, IsPage va →
    (∀ v ∈ vmas m, ¬ ((r.u.vma v).start ≤ va ∧ va < (r.u.vma v).start + (r.u.vma v).size)) →
    pageEntry r.u.env.mem (premapAddr (r.u.pgindex m)) va = none

theorem premapAddr_high (d : Nat) : premapAddr (d + kernBase) = d := by
  rw [premapAddr, if_pos (Nat.le_add_left _ _), Nat.add_sub_cancel]

section Inv

variable {S : BaseSpec B} {total : Prop} {K : Set Nat} {H : Others} {u : Uvm (Phys σ)}
  {mms : List Nat} {vmas : Nat → List Nat} {R : Res} {m v : Nat}
  (h : UvmInv (i386Spec S total K) H u mms vmas R) (hm : m ∈ mms)

include h hm

/-- The page index of an address space, in memory. -/
theorem UvmInv.indexAt :
    ∃ d, u.pgindex m = d + kernBase ∧
      IndexAt total u.env.mem d (R.inner (u.pgindex m)) (R.maps (u.pgindex m)) := by
  obtain ⟨P, hacc⟩ := h.rep
  exact hacc.index _ (((h.indexed trivial).indexes (u.pgindex m)).mpr (.inr ⟨m, hm, rfl⟩))

/-- The directory of an address space, among the frames of its page index. -/
theorem UvmInv.directory :
    Sees (u.pgindex m) (premapAddr (u.pgindex m)) ∧
      IndexAt total u.env.mem (premapAddr (u.pgindex m)) (R.inner (u.pgindex m))
        (R.maps (u.pgindex m)) := by
  obtain ⟨d, hd, hidx⟩ := h.indexAt hm
  rw [hd, premapAddr_high, ← hd]
  refine ⟨?_, hidx⟩
  rw [hd]
  exact sees_high (hidx.frame d hidx.dir).2

theorem UvmInv.frame_of (hv : v ∈ vmas m) : u.frameOf v ∈ R.frames ∧ IsFrame (u.frameOf v) := by
  obtain ⟨P, hacc⟩ := h.rep
  have hmem := (h.owned.frames (u.frameOf v)).mpr (.inr ⟨v, .of_mem hm hv, rfl⟩)
  exact ⟨hmem, BaseSpec.user hacc.out hmem⟩

/-- The entry of an area. -/
theorem UvmInv.pageEntry_start (hv : v ∈ vmas m) :
    pageEntry u.env.mem (premapAddr (u.pgindex m)) (u.vma v).start =
      some ((u.frameOf v ||| (u.vma v).flags ||| pteP) % 2 ^ 32) := by
  have harea := h.spaces.area m hm v hv
  have hmaps := ((h.indexed trivial).maps m hm _ (u.entryOf v)).mpr ⟨v, hv, rfl, rfl⟩
  rw [(h.directory hm).2.pageEntry_eq ⟨harea.aligned, harea.lt⟩, hmaps]
  rfl

end Inv

theorem UvmInv.agrees {K : Set Nat} {H : Others} {vmas : Nat → List Nat} {R : Res}
    (h : UvmInv (i386Spec S True K) H r.u r.mms vmas R) : UvmAgrees r vmas := by
  refine ⟨h.spaces.ring, ?_, ?_⟩
  · intro m hm va hva v hv hcover
    have harea := h.spaces.area m hm v hv
    -- Areas are one page long, so the page is the one the area starts at.
    have hstart : (r.u.vma v).start = va := by
      obtain ⟨haligned, -⟩ := hva
      obtain ⟨hlo, hhi⟩ := hcover
      have hstart := harea.aligned
      rw [harea.size] at hhi
      rw [pgSize] at *
      omega
    rw [← hstart, h.pageEntry_start hm hv]
    exact congrArg some (Nat.mod_eq_of_lt
      (page_entry_lt (h.frame_of hm hv).2.isPage (h.low trivial v (.of_mem hm hv))))
  · intro m hm va hva hnone
    have hmaps : R.maps (r.u.pgindex m) va = none := by
      refine Option.eq_none_iff_forall_ne_some.mpr fun e he => ?_
      obtain ⟨v, hv, hstart, -⟩ := ((h.indexed trivial).maps m hm va e).mp he
      refine hnone v hv ⟨hstart.le, ?_⟩
      rw [(h.spaces.area m hm v hv).size, hstart]
      exact Nat.lt_add_of_pos_right (by decide)
    rw [(h.directory hm).2.pageEntry_eq hva, hmaps]
    rfl

/-- In every run whose ranges stay below the top of the address space, or are
the first ones of theirs, areas and page indexes agree, and no call stops for
another reason than that there are no frames. -/
theorem uvm_paged_ok (S : BaseSpec B) {r : UvmRun (Phys σ)}
    (h : ((uvmCalls (i386 B) S.CleanStart).restrict
      fun r i => (r.InRange i ∧ r.LowFlags i) ∧ r.BelowTop i).Reachable r) :
    (∃ vmas, UvmAgrees r vmas) ∧
      ∀ i e r', r.Legal i → (r.InRange i ∧ r.LowFlags i) ∧ r.BelowTop i →
        (UvmRun.step (i386 B) i).run r = .error e r' → e = .starved := by
  have hC : ∀ (r : UvmRun (Phys σ)) (i : UvmCall),
      (r.InRange i ∧ r.LowFlags i) ∧ r.BelowTop i → r.Tame i := by
    intro r i hi
    exact ⟨hi.1.1.noWrap, hi.2, hi.1.2⟩
  obtain ⟨K, H, vmas, R, hst⟩ := steady_of_reachable S hC h
  refine ⟨⟨vmas, hst.kept.inv.agrees⟩, ?_⟩
  intro i e r' hl hi hrun
  exact (hst.step_ends hl (hC r i hi)).excused trivial hrun

/-! ## The topmost page, twice -/

/-- Nothing is out yet, and there are the frames `free`. -/
def supplyStart (free : List Nat) : UvmRun (Phys Supply) where
  u := { env := ⟨fun _ => 0, ⟨0x1000, free, [], [], []⟩⟩, live := fun _ => false
         links := ⟨id, id⟩, share := ⟨id, id⟩, pgindex := fun _ => 0
         vma := fun _ => ⟨0, 0, 0, 0, 0⟩, upages := fun _ => ⟨⟨0, 0, 0⟩, 0⟩
         before := fun _ => (0, 0), kernelMm := 0 }
  mms := []

theorem supplyStart_out {free : List Nat} {low : Nat}
    (hframe : ∀ a ∈ free, IsFrame a ∧ low ≤ a) (hnodup : free.Nodup) :
    (supplySpec low).Out (supplyStart free).u.env ∅ ∅ ∅ := by
  have hframes : (supplyStart free).u.env.pmm.frames = free := by
    rw [Supply.frames, supplyStart, List.append_nil, List.append_nil]
  have hnone : ∀ x, x ∈ (∅ : Set Nat) ↔ x ∈ ([] : List Nat) := fun x =>
    ⟨fun hx => hx.elim, fun hx => (List.not_mem_nil hx).elim⟩
  refine ⟨⟨Nat.succ_pos _, ?_, List.nodup_nil, ?_, ?_, ?_⟩, hnone, hnone, hnone⟩
  · exact fun _ hx => (List.not_mem_nil hx).elim
  · rw [hframes]
    exact fun a ha => (hframe a ha).1
  · rw [hframes]
    exact fun a ha => (hframe a ha).2
  · rw [hframes]
    exact hnodup

theorem supplyStart_start {free : List Nat} {low : Nat}
    (hframe : ∀ a ∈ free, IsFrame a ∧ low ≤ a) (hnodup : free.Nodup) :
    (supplySpec low).CleanStart (supplyStart free).u := by
  refine ⟨⟨∅, ∅, ∅, supplyStart_out hframe hnodup, fun x => ?_⟩, fun _ => rfl⟩
  exact ⟨fun hx => (Bool.false_ne_true hx).elim, fun hx => hx.elim⟩

def eightFrames : List Nat := (List.range 8).map fun i => 0x100000 + pgSize * i

theorem eightFrames_init : (uvmCalls (i386 supplyBase.supplied) (supplySpec 0).CleanStart).init
    (supplyStart eightFrames) :=
  ⟨rfl, supplyStart_start (by decide) (by decide)⟩

/-- A page, the topmost page, and the topmost page again. The first area of the
list is taken to be behind the range, so `create_uvm` goes on to map it. -/
theorem uvm_top_remapped : ∃ r r',
    ((uvmCalls (i386 supplyBase.supplied) (supplySpec 0).CleanStart).restrict
      fun r i => r.InRange i ∧ r.LowFlags i).Reachable r ∧
    (r.Legal (.create 0x1000 0xfffff000 0x1000 7) ∧
      r.InRange (.create 0x1000 0xfffff000 0x1000 7) ∧
      r.LowFlags (.create 0x1000 0xfffff000 0x1000 7)) ∧
    (UvmRun.step (i386 supplyBase.supplied) (.create 0x1000 0xfffff000 0x1000 7)).run r =
      .error (.panic "remap" []) r' := by
  have hinit : ((uvmCalls (i386 supplyBase.supplied) (supplySpec 0).CleanStart).restrict
      fun r i => r.InRange i ∧ r.LowFlags i).Reachable (supplyStart eightFrames) :=
    .init eightFrames_init
  obtain ⟨r, hreach, hseen⟩ := hinit.sees
    [.new, .create 0x1000 0x1000 0x1000 7, .create 0x1000 0xfffff000 0x1000 7]
    (fun r => (r.mms, stopped (UvmRun.step (i386 supplyBase.supplied)
      (.create 0x1000 0xfffff000 0x1000 7)) r))
    ([0x1000], some (.panic "remap" [])) (by decide +kernel) (by decide +kernel)
  obtain ⟨hmms, hstop⟩ := Prod.mk.inj hseen
  obtain ⟨r', hr'⟩ := stopped_eq_some hstop
  exact ⟨r, r', hreach, ⟨⟨by simp [hmms], by decide, by decide, by decide⟩,
    ⟨by decide, by decide⟩, show 7 < 0x1000 by decide⟩, hr'⟩

/-- Two pages in different tables, one of them freed again. -/
theorem uvm_paged_ok_sample : ∃ r,
    ((uvmCalls (i386 supplyBase.supplied) (supplySpec 0).CleanStart).restrict
      fun r i => (r.InRange i ∧ r.LowFlags i) ∧ r.BelowTop i).Reachable r ∧
    pageEntry r.u.env.mem (premapAddr (r.u.pgindex 0x1000)) 0x400000 = some 0x103007 ∧
    (∃ vmas, UvmAgrees r vmas) ∧
    ∀ e r', (UvmRun.step (i386 supplyBase.supplied) (.destroy 0x1000 0x400000 0x1000)).run r =
      .error e r' → e = .starved := by
  have hinit : ((uvmCalls (i386 supplyBase.supplied) (supplySpec 0).CleanStart).restrict
      fun r i => (r.InRange i ∧ r.LowFlags i) ∧ r.BelowTop i).Reachable
        (supplyStart eightFrames) := .init eightFrames_init
  obtain ⟨r, hreach, hseen⟩ := hinit.sees
    [.new, .create 0x1000 0x3ff000 0x2000 7, .destroy 0x1000 0x3ff000 0x1000]
    (fun r => (r.mms, pageEntry r.u.env.mem (premapAddr (r.u.pgindex 0x1000)) 0x400000))
    ([0x1000], some 0x103007) (by decide +kernel) (by decide +kernel)
  obtain ⟨hmms, hentry⟩ := Prod.mk.inj hseen
  obtain ⟨hagrees, hstops⟩ := uvm_paged_ok (supplySpec 0) hreach
  exact ⟨r, hreach, hentry, hagrees, fun e r' => hstops _ e r' ⟨by simp [hmms], by decide, by decide⟩
    ⟨⟨⟨by decide, by decide⟩, trivial⟩, trivial⟩⟩

end Aim.Kern
