import Aim.Proofs.UvmPaged

/-!
# A call that fails changes nothing

`create_uvm` and `mm_clone` work page by page, and a failure at any page and at
any step is rolled back. What the calls do to the invariant already says that
the areas are as they were; here that is carried to everything that is made of
them: the translation, the frames and the objects.

The ranges may be any here, and so may the words that are read through the
sentry of a list. What is assumed is that `pgalloc` answers a page. When there
is none, `walkpgdir` goes on with a page table at `0xffffffff`, and its entry
in the directory stays there when the call is rolled back.
-/

namespace Aim.Kern

open Aim.Lib

variable {σ : Type} {B : Base σ}

/-- Nothing that the address space `m` is made of has changed, apart from frames
for page tables. -/
structure Unchanged (S : BaseSpec B) (m : Nat) (u u' : Uvm (Phys σ)) : Prop where
  /-- The list has the same areas, in the same order. -/
  list : ∃ l, Links.Ring u.links (.sentry m) (nodes l) ∧
    Links.Ring u'.links (.sentry m) (nodes l) ∧
    ∀ v ∈ l, u'.vma v = u.vma v ∧ u'.upages (u.vma v).pages = u.upages (u.vma v).pages
  pgindex : u'.pgindex m = u.pgindex m
  translation : ∀ va, pageEntry u'.env.mem (premapAddr (u.pgindex m)) va =
    pageEntry u.env.mem (premapAddr (u.pgindex m)) va
  objects : u'.live = u.live
  /-- The same objects and user frames are out. -/
  out : ∀ O U P, S.Out u.env O U P → ∃ P', S.Out u'.env O U P'

/-- An address is translated as its page is. -/
theorem pageEntry_page (m : Mem) (d va : Nat) :
    pageEntry m d va = pageEntry m d (pgRoundDown (va % 2 ^ 32)) := by
  have hpdx : pdx (pgRoundDown (va % 2 ^ 32)) = pdx va := by
    rw [pdx, pdx, pgRoundDown, pgSize]
    omega
  have hptx : ptx (pgRoundDown (va % 2 ^ 32)) = ptx va := by
    rw [ptx, ptx, pgRoundDown, pgSize]
    omega
  rw [pageEntry, pageEntry, hpdx, hptx]

theorem isPage_round (va : Nat) : IsPage (pgRoundDown (va % 2 ^ 32)) := by
  rw [IsPage, pgRoundDown, pgSize]
  omega

section

variable {S : BaseSpec B} {total : Prop} {K : Set Nat} {H : Others} {u u' : Uvm (Phys σ)}
  {mms : List Nat} {vmas : Nat → List Nat} {R R' : Res} {m : Nat}

/-- With the same areas, the same is out and the same is translated. -/
theorem UvmInv.unchanged (h : UvmInv (i386Spec S total K) H u mms vmas R)
    (h' : UvmInv (i386Spec S total K) H u' mms vmas R') (hd : SameData mms vmas u u')
    (hm : m ∈ mms) : Unchanged S m u u' := by
  have hpg : u'.pgindex m = u.pgindex m := hd.pgindex m hm
  have hobjs : R'.objs = R.objs := by
    refine Set.ext fun x => ?_
    rw [h'.owned.objs x, h.owned.objs x, hd.objOf x]
  have hframes : R'.frames = R.frames := by
    refine Set.ext fun a => ?_
    rw [(h'.owned.frames a), (h.owned.keep hd).frames a]
  have hmaps : R'.maps (u.pgindex m) = R.maps (u.pgindex m) := by
    have hold := ((h.indexed trivial).keep hd).maps m hm
    have hnew := (h'.indexed trivial).maps m hm
    rw [hpg] at hold hnew
    exact funext fun va => Option.ext fun e => (hnew va e).trans (hold va e).symm
  refine ⟨⟨vmas m, h.spaces.ring m hm, h'.spaces.ring m hm, fun v hv => ?_⟩, hpg, fun va => ?_,
    funext fun x => ?_, fun O U P hout => ?_⟩
  · exact ⟨hd.vma v (.of_mem hm hv), hd.upages v (.of_mem hm hv)⟩
  · obtain ⟨-, hidx⟩ := h.directory hm
    obtain ⟨-, hidx'⟩ := h'.directory hm
    rw [hpg] at hidx'
    rw [pageEntry_page, pageEntry_page u.env.mem, hidx'.pageEntry_eq (isPage_round va),
      hidx.pageEntry_eq (isPage_round va), hmaps]
  · rw [Bool.eq_iff_iff, h'.live x, h.live x, hobjs]
  · obtain ⟨P₀, hacc⟩ := h.rep
    obtain ⟨P', hacc'⟩ := h'.rep
    obtain ⟨hO, hU, -⟩ := S.unique _ _ _ _ _ _ _ hacc.out hout
    rw [hO, hU, ← hobjs, ← hframes]
    exact ⟨P', hacc'.out⟩

theorem CallOn.unchanged {c : Int} {l : List Nat}
    (h : UvmInv (i386Spec S total K) H u mms vmas R)
    (hc : CallOn (i386Spec S total K) H mms vmas m u R c u' l R') (hm : m ∈ mms) (hneg : c < 0) :
    Unchanged S m u u' := by
  obtain ⟨hl, hd⟩ := hc.failed hneg
  have h' := hc.inv
  rw [hl, Function.update_eq_self] at h'
  exact h.unchanged h' hd hm

end

/-- The states of any runs, with any ranges and any words in front of a
`struct mm`. -/
theorem kept_of_reachable (S : BaseSpec B) {r : UvmRun (Phys σ)}
    (h : (uvmCalls (i386 B) S.Start).Reachable r) :
    ∃ K H vmas R, r.Kept (i386Spec S False K) H vmas R := by
  refine Machine.reachable_of_kept
    (I := fun r => ∃ K H vmas R, r.Kept (i386Spec S False K) H vmas R) ?_ ?_ h
  · intro r hr
    obtain ⟨hmms, O, U, P, hout, hlive⟩ := hr
    exact ⟨_, _, _, _, .initial False hout hlive hmms⟩
  · intro r i r' hr hl hrun
    obtain ⟨K, H, vmas, R, hk⟩ := hr
    have hnd : ∀ m ∈ r.mms, (r.u.starts (vmas m)).Nodup := fun m hm =>
      (hk.inv.indexed trivial).nodup hk.inv.spaces hm
    obtain ⟨-, vmas', R', hk', -⟩ :=
      (step_ends hk False.elim hl hnd False.elim).of_run hrun
    exact ⟨K, H, vmas', R', hk'⟩

/-- In every state of every run, a `create_uvm` or an `mm_clone` that fails leaves
the address space, the frames and the objects as they were. -/
theorem uvm_failure_unchanged (S : BaseSpec B) {r : UvmRun (Phys σ)}
    (h : (uvmCalls (i386 B) S.Start).Reachable r) :
    (∀ mm addr len flags c u', mm ∈ r.mms → addr < 2 ^ 32 → len < 2 ^ 32 → flags < 2 ^ 32 →
      (createUvm (i386 B) mm addr len flags).run r.u = .ok c u' → c < 0 →
      Unchanged S mm r.u u') ∧
    (∀ dst src c u', dst ∈ r.mms → src ∈ r.mms → r.Empty dst →
      (mmClone (i386 B) dst src).run r.u = .ok c u' → c < 0 → Unchanged S dst r.u u') := by
  obtain ⟨K, H, vmas, R, hk⟩ := kept_of_reachable S h
  have hinv := hk.inv
  refine ⟨?_, ?_⟩
  · intro mm addr len flags c u' hmm haddr hlen hflags hrun hneg
    obtain ⟨l, R', hc, -⟩ :=
      (createUvm_ends hinv False.elim hmm haddr hlen hflags False.elim).of_run hrun
    exact hc.unchanged hinv hmm hneg
  · intro dst src c u' hdst hsrc hempty hrun hneg
    have hnd := (hinv.indexed trivial).nodup hinv.spaces hsrc
    obtain ⟨l, R', hc, -⟩ := (mmClone_ends hinv False.elim hdst hsrc
      ((hinv.spaces.empty_iff hdst).mp hempty) (hinv.spaces.length_le hsrc hnd)).of_run hrun
    exact hc.unchanged hinv hdst hneg

/-- There is a frame for the directory, one for a page and one for its table. The
second page of the range finds none. -/
theorem uvm_failure_unchanged_sample : ∃ r u',
    (uvmCalls (i386 supplyBase.supplied) (supplySpec 0).Start).Reachable r ∧
    (createUvm (i386 supplyBase.supplied) 0x1000 0x1000 0x2000 7).run r.u = .ok (-enomem) u' ∧
    Unchanged (supplySpec 0) 0x1000 r.u u' := by
  have hinit : (uvmCalls (i386 supplyBase.supplied) (supplySpec 0).Start).Reachable
      (supplyStart [0x100000, 0x101000, 0x102000]) :=
    .init ⟨rfl, (supplyStart_start (by decide) (by decide)).1⟩
  obtain ⟨r, hreach, hseen⟩ := hinit.sees [.new] (fun r => (r.mms, returned
    (createUvm (i386 supplyBase.supplied) 0x1000 0x1000 0x2000 7) r.u fun c _ => c))
    ([0x1000], some (-enomem)) (by decide +kernel) (by decide +kernel)
  obtain ⟨hmms, hcall⟩ := Prod.mk.inj hseen
  obtain ⟨c, u', hrun, rfl⟩ := returned_eq_some hcall
  exact ⟨r, u', hreach, hrun, (uvm_failure_unchanged (supplySpec 0) hreach).1 0x1000 0x1000 0x2000
    7 _ u' (by simp [hmms]) (by decide) (by decide) (by decide) hrun (by decide)⟩

/-- There is a frame for the directory and one for the first page, and none for
the page table. After the failure at the second page, the four megabytes around
it are translated. -/
theorem uvm_failure_translated : ∃ r u',
    (uvmCalls (i386 supplyBase) (supplySpec 0).Start).Reachable r ∧
    r.Legal (.create 0x1000 0x1000 0x2000 7) ∧
    (createUvm (i386 supplyBase) 0x1000 0x1000 0x2000 7).run r.u = .ok (-enomem) u' ∧
    pageEntry r.u.env.mem (premapAddr (r.u.pgindex 0x1000)) 0x3000 = none ∧
    pageEntry u'.env.mem (premapAddr (r.u.pgindex 0x1000)) 0x3000 = some 0x7fc03007 := by
  have hinit : (uvmCalls (i386 supplyBase) (supplySpec 0).Start).Reachable
      (supplyStart [0x100000, 0x101000]) :=
    .init ⟨rfl, (supplyStart_start (by decide) (by decide)).1⟩
  obtain ⟨r, hreach, hseen⟩ := hinit.sees [.new] (fun r => (r.mms,
      pageEntry r.u.env.mem (premapAddr (r.u.pgindex 0x1000)) 0x3000,
      returned (createUvm (i386 supplyBase) 0x1000 0x1000 0x2000 7) r.u fun c u' =>
        (c, pageEntry u'.env.mem (premapAddr (r.u.pgindex 0x1000)) 0x3000)))
    ([0x1000], none, some (-enomem, some 0x7fc03007)) (by decide +kernel) (by decide +kernel)
  obtain ⟨hmms, hseen⟩ := Prod.mk.inj hseen
  obtain ⟨hbefore, hcall⟩ := Prod.mk.inj hseen
  obtain ⟨c, u', hrun, hseen⟩ := returned_eq_some hcall
  obtain ⟨rfl, hlater⟩ := Prod.mk.inj hseen
  exact ⟨r, u', hreach, ⟨by simp [hmms], by decide, by decide, by decide⟩, hrun, hbefore, hlater⟩

end Aim.Kern
