import Aim.Proofs.UvmFailure

/-!
# The life of an address space

From `mm_new` over any calls on it to `mm_destroy`, an address space takes and
gives back objects, frames for its pages, and frames for its page tables. In
the end everything is as before: what is out is what was out, each from the
allocator it is from.

That nothing is given back twice or used after that is part of this. A base may
stop at an object or a frame that is given back and is not out, or keep data of
its own in frames that are not out and go wrong if they are written to; the
result is for every base that keeps the contract, and no call stops. An object
is looked up in the record of what is out when it is accessed.

The frames of page tables come out even if frame zero is none of them: what
`walkpgdir` is answered then, it takes for a failure, and loses.
-/

namespace Aim.Kern

open Aim.Lib Function

variable {σ : Type} {B : Base σ}

instance (r : UvmRun σ) (i : UvmCall) : Decidable (r.Tame i) :=
  inferInstanceAs (Decidable (_ ∧ _ ∧ _))

/-- Calls on address spaces that do not stop. -/
def tameCalls (S : BaseSpec B) : Machine Stop (UvmRun (Phys σ)) UvmCall :=
  (uvmCalls (i386 B) S.CleanStart).restrict UvmRun.Tame

instance (S : BaseSpec B) (r : UvmRun (Phys σ)) (i : UvmCall) :
    Decidable ((tameCalls S).legal r i) := inferInstanceAs (Decidable (r.Legal i ∧ r.Tame i))

/-- `mm` is made in `r₀`, and `calls` are made on it. -/
structure Life (S : BaseSpec B) (mm : Nat) (calls : List UvmCall) (r₀ r : UvmRun (Phys σ)) :
    Prop where
  calls_on : ∀ i ∈ calls, i.target = some mm
  run : ∃ r₁, (UvmRun.step (i386 B) .new).run r₀ = .ok () r₁ ∧ r₁.mms = mm :: r₀.mms ∧
    (tameCalls S).Permits calls r₁ ∧ (tameCalls S).after calls r₁ = some r

/-- The same is out. -/
structure Balanced (S : BaseSpec B) (r₀ r : UvmRun (Phys σ)) : Prop where
  out : ∀ O U P, S.Out r₀.u.env O U P → S.Out r.u.env O U P
  live : r.u.live = r₀.u.live
  mms : r.mms = r₀.mms

section

variable {S : BaseSpec B} {K : Set Nat} {H : Others} {r₀ r r' : UvmRun (Phys σ)}
  {vmas₀ vmas : Nat → List Nat} {R₀ R : Res} {mm : Nat} {i : UvmCall}

/-- In the life of `mm`, which was made in `r₀`, the other address spaces are as
they were there. -/
structure Alive (S : BaseSpec B) (K : Set Nat) (H : Others) (r₀ : UvmRun (Phys σ))
    (vmas₀ : Nat → List Nat) (R₀ : Res) (mm : Nat) (r : UvmRun (Phys σ))
    (vmas : Nat → List Nat) (R : Res) : Prop where
  steady : Steady S K H r vmas R
  mms : r.mms = mm :: r₀.mms
  fresh : mm ∉ r₀.mms
  lists : ∀ m ∈ r₀.mms, vmas m = vmas₀ m
  data : SameData r₀.mms vmas₀ r₀.u r.u
  only : Res.OnlyAt (r.u.pgindex mm) R₀ R
  pgindex : r.u.pgindex mm ∉ R₀.indexes
  notKernel : mm ≠ r₀.u.kernelMm

theorem live_congr {mms : List Nat} (h : ∀ m ∈ mms, vmas m = vmas₀ m) (v : Nat) :
    Live mms vmas v ↔ Live mms vmas₀ v :=
  exists_congr fun m => and_congr_right fun hm => by rw [h m hm]

theorem alive_new (h : Steady S K H r₀ vmas₀ R₀)
    (hk : r₀.u.kernelMm = 0 ∨ r₀.u.live r₀.u.kernelMm = true)
    (hrun : (UvmRun.step (i386 B) .new).run r₀ = .ok () r) (hmms : r.mms = mm :: r₀.mms) :
    ∃ vmas R, Alive S K H r₀ vmas₀ R₀ mm r vmas R := by
  have hinv := h.kept.inv
  have hends : Ends True (UvmRun.step (i386 B) .new) r₀ fun _ r => r.mms = r₀.mms ∨
      ∃ m vmas R, r.mms = m :: r₀.mms ∧ Alive S K H r₀ vmas₀ R₀ m r vmas R := by
    refine ends_call_bind (mmNew_ends hinv) ?_
    intro m u hm
    obtain ⟨hd, ⟨h0, h'⟩ | ⟨h0, hR, R', ho, hpg, h'⟩⟩ := hm
    · rw [if_neg (not_not.mpr h0)]
      exact ends_pure (.inl rfl)
    · rw [if_pos h0]
      have hmem : m ∉ r₀.mms := fun hmem => hR (hinv.owned.objsOut.mm m hmem)
      refine ends_modify (.inr ⟨m, _, R', rfl, ⟨⟨h', ?_⟩, ?_, ?_⟩, rfl, hmem, ?_, hd, ho,
        hpg trivial, ?_⟩)
      · intro hzero
        rcases List.mem_cons.mp hzero with hzero | hzero
        · exact h0 hzero.symm
        · exact h.kept.zero hzero
      · exact (h.sorted.keep hd).newMm hmem
      · rw [hd.before]
        exact h.clean
      · intro m' hm'
        have hne : m' ≠ m := fun he => hmem (he ▸ hm')
        exact update_of_ne hne _ _
      · rcases hk with hk | hk
        · rw [hk]
          exact h0
        · exact fun he => hR (he ▸ (hinv.live _).mp hk)
  rcases hends.of_run hrun with hsame | ⟨m, vmas, R, hm, halive⟩
  · rw [hsame] at hmms
    exact absurd hmms.symm (List.cons_ne_self _ _)
  · rw [hmms] at hm
    obtain ⟨rfl, -⟩ := List.cons.inj hm
    exact ⟨vmas, R, halive⟩

theorem Alive.step (h : Alive S K H r₀ vmas₀ R₀ mm r vmas R) (hi : i.target = some mm)
    (hl : (tameCalls S).legal r i) (hrun : (UvmRun.step (i386 B) i).run r = .ok () r') :
    ∃ vmas' R', Alive S K H r₀ vmas₀ R₀ mm r' vmas' R' := by
  have hst := h.steady
  have hfit := hst.fits hl.1 hl.2
  obtain ⟨hm, c, u, l, R', rfl, hc, hsorted⟩ :=
    (call_ends hst.kept.inv id hi hl.1 hst.nodup fun _ => hfit).of_run hrun
  have hne : ∀ m ∈ r₀.mms, m ≠ mm := fun m hm he => h.fresh (he ▸ hm)
  have hpg : u.pgindex mm = r.u.pgindex mm := hc.others.pgindex mm hm
  -- The areas of the others are none of those that the call may have changed.
  have hlive : ∀ v, Live r₀.mms vmas₀ v → Live r.mms (update vmas mm []) v := by
    intro v hv
    obtain ⟨m, hm, hv⟩ := hv
    refine ⟨m, ?_, ?_⟩
    · rw [h.mms]
      exact List.mem_cons_of_mem _ hm
    · rw [update_of_ne (hne m hm), h.lists m hm]
      exact hv
  have hdata : SameData r₀.mms vmas₀ r.u u := by
    refine ⟨hc.others.before, hc.others.kernelMm, fun m hm => ?_, fun v hv => ?_, fun v hv => ?_⟩
    · refine hc.others.pgindex m ?_
      rw [h.mms]
      exact List.mem_cons_of_mem _ hm
    · exact hc.others.vma v (hlive v hv)
    · exact hc.others.upages v (hlive v hv)
  refine ⟨update vmas mm l, R', ⟨⟨hc.inv, hst.kept.zero⟩,
    hsorted hst.sorted hl.2.1 hl.2.2.1, ?_⟩, h.mms, h.fresh, ?_, h.data.trans hdata, ?_, ?_,
    h.notKernel⟩
  · show ∀ m, u.before m = (0, 0)
    rw [hc.others.before]
    exact hst.clean
  · intro m hm
    rw [update_of_ne (hne m hm)]
    exact h.lists m hm
  · show Res.OnlyAt (u.pgindex mm) R₀ R'
    rw [hpg]
    exact h.only.trans hc.only
  · show u.pgindex mm ∉ R₀.indexes
    rw [hpg]
    exact h.pgindex

theorem Alive.run {calls : List UvmCall} (h : Alive S K H r₀ vmas₀ R₀ mm r vmas R)
    (hon : ∀ i ∈ calls, i.target = some mm) (hp : (tameCalls S).Permits calls r)
    (hrun : (tameCalls S).after calls r = some r') :
    ∃ vmas' R', Alive S K H r₀ vmas₀ R₀ mm r' vmas' R' := by
  induction calls generalizing r vmas R with
  | nil =>
      obtain rfl : r = r' := Option.some.inj hrun
      exact ⟨vmas, R, h⟩
  | cons i calls ih =>
      rw [Machine.after] at hrun
      rw [Machine.Permits] at hp
      cases hstep : ((tameCalls S).step i).run r with
      | ok a r₁ =>
          rw [hstep] at hrun hp
          obtain ⟨vmas₁, R₁, h₁⟩ := h.step (hon i List.mem_cons_self) hp.1 hstep
          exact ih h₁ (fun j hj => hon j (List.mem_cons_of_mem i hj)) hp.2 hrun
      | error e r₁ =>
          rw [hstep] at hrun
          cases hrun

/-- The same address spaces, with the same areas: the same is out. -/
theorem balanced_of_same {R' : Res} {g : Nat} (hzero : ∀ s O U P, S.Out s O U P → 0 ∉ P)
    (h : UvmInv (i386Spec S True K) H r₀.u r₀.mms vmas₀ R₀)
    (h' : UvmInv (i386Spec S True K) H r.u r₀.mms vmas R')
    (hlists : ∀ m ∈ r₀.mms, vmas m = vmas₀ m) (hd : SameData r₀.mms vmas₀ r₀.u r.u)
    (ho : Res.OnlyAt g R₀ R') (hg : g ∉ R₀.indexes) (hmms : r.mms = r₀.mms) :
    Balanced S r₀ r := by
  have hlive := live_congr hlists
  have hobjs : R'.objs = R₀.objs := by
    refine Set.ext fun x => ?_
    rw [h'.owned.objs x, h.owned.objs x, ← hd.objOf x, ObjOf, ObjOf]
    refine or_congr_right (or_congr_right (exists_congr fun v => ?_))
    rw [hlive v]
  have hframes : R'.frames = R₀.frames := by
    refine Set.ext fun a => ?_
    rw [h'.owned.frames a, (h.owned.keep hd).frames a]
    refine or_congr_right (exists_congr fun v => ?_)
    rw [hlive v]
  have hindexes : ∀ g', g' ∈ R'.indexes ↔ g' ∈ R₀.indexes := by
    intro g'
    rw [(h'.indexed trivial).indexes g', ((h.indexed trivial).keep hd).indexes g']
  have hinner : ∀ g' ∈ R₀.indexes, R'.inner g' = R₀.inner g' := fun g' hg' =>
    (ho g' fun he => hg (he ▸ hg')).1
  obtain ⟨P₀, hacc⟩ := h.rep
  obtain ⟨P', hacc'⟩ := h'.rep
  have hP : P' = P₀ := by
    refine Set.ext fun a => ⟨fun ha => ?_, fun ha => ?_⟩
    · rcases hacc'.only a ha with h0 | hK | ⟨g', hg', hmem⟩
      · exact absurd (h0 ▸ ha) (hzero _ _ _ _ hacc'.out)
      · exact hacc.others a hK
      · have hg'' := (hindexes g').mp hg'
        rw [hinner g' hg''] at hmem
        exact hacc.inner g' hg'' a hmem
    · rcases hacc.only a ha with h0 | hK | ⟨g', hg', hmem⟩
      · exact absurd (h0 ▸ ha) (hzero _ _ _ _ hacc.out)
      · exact hacc'.others a hK
      · refine hacc'.inner g' ((hindexes g').mpr hg') a ?_
        rw [hinner g' hg']
        exact hmem
  refine ⟨fun O U P hout => ?_, funext fun x => ?_, hmms⟩
  · obtain ⟨rfl, rfl, rfl⟩ := S.unique _ _ _ _ _ _ _ hacc.out hout
    rw [← hobjs, ← hframes, ← hP]
    exact hacc'.out
  · rw [Bool.eq_iff_iff, h'.live x, h.live x, hobjs]

/-- `mm_destroy`, over any account of the state. -/
theorem Alive.destroy {K' : Set Nat} (h : Alive S K H r₀ vmas₀ R₀ mm r vmas R)
    (hinv : UvmInv (i386Spec S True K') H r.u r.mms vmas R) :
    Ends True (UvmRun.step (i386 B) (.drop mm)) r fun _ r' => r'.mms = r₀.mms ∧
      SameData r₀.mms vmas₀ r.u r'.u ∧ ∃ R', Res.OnlyAt (r.u.pgindex mm) R R' ∧
        UvmInv (i386Spec S True K') H r'.u r₀.mms vmas R' := by
  have hm : mm ∈ r.mms := by
    rw [h.mms]
    exact List.mem_cons_self
  have hm0 : mm ≠ 0 := fun he => h.steady.kept.zero (he ▸ hm)
  have herase : r.mms.erase mm = r₀.mms := by
    rw [h.mms]
    exact List.erase_cons_head mm r₀.mms
  have hk : mm ≠ r.u.kernelMm := by
    rw [h.data.kernelMm]
    exact h.notKernel
  refine ends_call_bind (mmDestroy_ends hinv id hm hm0 hk) ?_
  intro _ u hu
  obtain ⟨hd, R', ho, -, h'⟩ := hu
  refine ends_modify ?_
  rw [if_neg (show ¬ mm = u.kernelMm by rw [hd.kernelMm]; exact hk)]
  rw [herase] at hd h'
  exact ⟨herase, hd.mono fun v hv => (live_congr h.lists v).mpr hv, R', ho, h'⟩

theorem Alive.drop (h : Alive S K H r₀ vmas₀ R₀ mm r vmas R)
    (hzero : ∀ s O U P, S.Out s O U P → 0 ∉ P)
    (h₀ : UvmInv (i386Spec S True K) H r₀.u r₀.mms vmas₀ R₀) :
    Ends True (UvmRun.step (i386 B) (.drop mm)) r fun _ r' => Balanced S r₀ r' := by
  refine (h.destroy h.steady.kept.inv).imp ?_
  intro _ r' hr'
  obtain ⟨hmms, hd, R', ho, h'⟩ := hr'
  exact balanced_of_same hzero h₀ h' h.lists (h.data.trans hd) (h.only.trans ho) h.pgindex hmms

/-- A frame that is lost may as well be somebody else's. -/
theorem Accounts.lost {low : Prop} {s : Phys σ} {P : Set Nat} {a : Nat}
    (h : Accounts S low K s R P) (ha : a ∈ P)
    (hinner : ∀ g ∈ R.indexes, a ∉ R.inner g) : Accounts S low (insert a K) s R P where
  out := h.out
  others x hx := hx.elim (fun he => he ▸ ha) (h.others x)
  inner := h.inner
  only x hx := (h.only x hx).imp_right (Or.imp_left .inr)
  notOther g hg x hx hmem := hmem.elim (fun he => hinner g hg (he ▸ hx)) (h.notOther g hg x hx)
  apart := h.apart
  index := h.index

/-- A frame that has been lost is still out when the address space is destroyed. -/
theorem Alive.lost_stays {O U P P' : Set Nat} {a : Nat}
    (h : Alive S K H r₀ vmas₀ R₀ mm r vmas R) (hacc : Accounts S True K r.u.env R P)
    (ha : a ∈ P) (hinner : ∀ g ∈ R.indexes, a ∉ R.inner g)
    (hrun : (UvmRun.step (i386 B) (.drop mm)).run r = .ok () r')
    (hout : S.Out r'.u.env O U P') : a ∈ P' := by
  have hinv := h.steady.kept.inv
  have hinv' : UvmInv (i386Spec S True (insert a K)) H r.u r.mms vmas R :=
    ⟨⟨P, hacc.lost ha hinner⟩, hinv.live, hinv.nodup, hinv.spaces, hinv.owned, hinv.indexed,
      hinv.low⟩
  obtain ⟨-, -, R', -, h'⟩ := (h.destroy hinv').of_run hrun
  obtain ⟨P₁, hacc₁⟩ := h'.rep
  obtain ⟨-, -, rfl⟩ := S.unique _ _ _ _ _ _ _ hacc₁.out hout
  exact hacc₁.others a (Set.mem_insert a K)

theorem Life.alive {calls : List UvmCall} (h : Life S mm calls r₀ r)
    (hst : Steady S K H r₀ vmas₀ R₀)
    (hk : r₀.u.kernelMm = 0 ∨ r₀.u.live r₀.u.kernelMm = true) :
    ∃ vmas R, Alive S K H r₀ vmas₀ R₀ mm r vmas R := by
  obtain ⟨r₁, hnew, hmms, hpermits, hcalls⟩ := h.run
  obtain ⟨vmas₁, R₁, halive₁⟩ := alive_new hst hk hnew hmms
  exact halive₁.run h.calls_on hpermits hcalls

end

/-- Over the life of an address space everything is given back when it is
destroyed, provided that frame zero is not handed out for page tables; and
calls only stop for want of frames. -/
theorem uvm_life_balanced (S : BaseSpec B) (hzero : ∀ s O U P, S.Out s O U P → 0 ∉ P) :
    (∀ r₀ r mm calls, (tameCalls S).Reachable r₀ →
      (r₀.u.kernelMm = 0 ∨ r₀.u.live r₀.u.kernelMm = true) → Life S mm calls r₀ r →
      (∃ r', (UvmRun.step (i386 B) (.drop mm)).run r = .ok () r' ∧ Balanced S r₀ r') ∨
        ∃ r', (UvmRun.step (i386 B) (.drop mm)).run r = .error .starved r') ∧
    (∀ r i e r', (tameCalls S).Reachable r → (tameCalls S).legal r i →
      (UvmRun.step (i386 B) i).run r = .error e r' → e = .starved) := by
  refine ⟨?_, ?_⟩
  · intro r₀ r mm calls hreach hk hlife
    obtain ⟨K, H, vmas₀, R₀, hst⟩ := steady_of_reachable S (fun _ _ ht => ht) hreach
    obtain ⟨vmas, R, halive⟩ := hlife.alive hst hk
    have hends := halive.drop hzero hst.kept.inv
    cases hrun : (UvmRun.step (i386 B) (.drop mm)).run r with
    | ok a r' => exact .inl ⟨r', rfl, hends.of_run hrun⟩
    | error e r' =>
        obtain rfl : e = .starved := hends.excused trivial hrun
        exact .inr ⟨r', rfl⟩
  · intro r i e r' hreach hl hrun
    obtain ⟨K, H, vmas, R, hst⟩ := steady_of_reachable S (fun _ _ ht => ht) hreach
    exact (hst.step_ends hl.1 hl.2).excused trivial hrun

/-- What can be seen after the calls of a life, if they return and are
permitted. -/
def lifeView {β : Type} (low : Nat) (calls : List UvmCall) (r₀ : UvmRun (Phys Supply))
    (see : UvmRun (Phys Supply) → β) : Option (List Nat × Bool × Option β) :=
  returned (UvmRun.step (i386 supplyBase.supplied) .new) r₀ fun _ r₁ =>
    (r₁.mms, decide ((tameCalls (supplySpec low)).Permits calls r₁),
      ((tameCalls (supplySpec low)).after calls r₁).map see)

theorem life_of_view {β : Type} {low : Nat} (mm : Nat) {calls : List UvmCall}
    {r₀ : UvmRun (Phys Supply)} {see : UvmRun (Phys Supply) → β} {b : β}
    (hon : ∀ i ∈ calls, i.target = some mm)
    (h : lifeView low calls r₀ see = some (mm :: r₀.mms, true, some b)) :
    ∃ r, Life (supplySpec low) mm calls r₀ r ∧ see r = b := by
  obtain ⟨_, r₁, hnew, hseen⟩ := returned_eq_some h
  obtain ⟨hmms, hseen⟩ := Prod.mk.inj hseen
  obtain ⟨hpermits, hseen⟩ := Prod.mk.inj hseen
  obtain ⟨r, hcalls, hs⟩ := Option.map_eq_some_iff.mp hseen
  exact ⟨r, ⟨hon, r₁, hnew, hmms, of_decide_eq_true hpermits, hcalls⟩, hs⟩

/-- Two pages, one of them freed before the end. -/
theorem uvm_life_balanced_sample : ∃ r,
    Life (supplySpec 0x1000) 0x1000
      [.create 0x1000 0x3ff000 0x2000 7, .destroy 0x1000 0x3ff000 0x1000]
      (supplyStart eightFrames) r ∧
    ((∃ r', (UvmRun.step (i386 supplyBase.supplied) (.drop 0x1000)).run r = .ok () r' ∧
        Balanced (supplySpec 0x1000) (supplyStart eightFrames) r') ∨
      ∃ r', (UvmRun.step (i386 supplyBase.supplied) (.drop 0x1000)).run r =
        .error .starved r') := by
  have hzero : ∀ s O U P, (supplySpec 0x1000).Out s O U P → 0 ∉ P := by
    intro s O U P hout h0
    have hmem := (hout.pages 0).mp h0
    exact absurd (hout.good.from_low 0 (List.mem_append_right _ hmem)) (by decide)
  have hview : lifeView 0x1000
      [.create 0x1000 0x3ff000 0x2000 7, .destroy 0x1000 0x3ff000 0x1000]
      (supplyStart eightFrames) (fun r => r.u.env.pmm.users) =
      some ([0x1000], true, some [0x103000]) := by decide +kernel
  obtain ⟨r, hlife, -⟩ := life_of_view 0x1000 (by decide) hview
  have hreach : (tameCalls (supplySpec 0x1000)).Reachable (supplyStart eightFrames) :=
    .init ⟨rfl, supplyStart_start (by decide +kernel) (by decide +kernel)⟩
  exact ⟨r, hlife, (uvm_life_balanced (supplySpec 0x1000) hzero).1 _ r 0x1000 _ hreach
    (.inl rfl) hlife⟩

/-- `walkpgdir` is answered frame zero for a page table. The call fails, and the
frame is still out when the address space is destroyed. -/
theorem uvm_life_leaks : ∃ r,
    (tameCalls (supplySpec 0)).Reachable (supplyStart [0x2000, 0x1000, 0]) ∧
    Life (supplySpec 0) 0x1000 [.create 0x1000 0x1000 0x1000 7]
      (supplyStart [0x2000, 0x1000, 0]) r ∧
    ¬ ∃ r', (UvmRun.step (i386 supplyBase.supplied) (.drop 0x1000)).run r = .ok () r' ∧
      Balanced (supplySpec 0) (supplyStart [0x2000, 0x1000, 0]) r' := by
  have hstart : (supplySpec 0).CleanStart (supplyStart [0x2000, 0x1000, 0]).u :=
    supplyStart_start (by decide) (by decide)
  have hout₀ : (supplySpec 0).Out (supplyStart [0x2000, 0x1000, 0]).u.env ∅ ∅ ∅ :=
    supplyStart_out (by decide) (by decide)
  have hview : lifeView 0 [.create 0x1000 0x1000 0x1000 7] (supplyStart [0x2000, 0x1000, 0])
      (fun r => (r.u.env.pmm.pages, r.u.pgindex 0x1000,
        (List.range 1024).all fun i => word r.u.env.mem 0x2000 i == 0)) =
      some ([0x1000], true, some ([0, 0x2000], 0x80002000, true)) := by decide +kernel
  obtain ⟨r, hlife, hseen⟩ := life_of_view 0x1000 (by decide) hview
  obtain ⟨hpages, hseen⟩ := Prod.mk.inj hseen
  obtain ⟨hpg, hzero⟩ := Prod.mk.inj hseen
  refine ⟨r, .init ⟨rfl, hstart⟩, hlife, fun hbal => ?_⟩
  obtain ⟨r', hrun, hbal⟩ := hbal
  have hst := Steady.initial hout₀ (fun x => ⟨fun hx => (Bool.false_ne_true hx).elim,
    fun hx => hx.elim⟩) rfl (fun _ => rfl)
  obtain ⟨vmas, R, halive⟩ := hlife.alive hst (.inl rfl)
  have hinv := halive.steady.kept.inv
  obtain ⟨P, hacc⟩ := hinv.rep
  have h0 : 0 ∈ P := by
    refine (hacc.out.pages 0).mpr ?_
    rw [hpages]
    exact List.mem_cons_self
  -- The directory is at `0x2000` and has no tables.
  have hinner : ∀ g ∈ R.indexes, 0 ∉ R.inner g := by
    intro g hg hmem
    obtain ⟨d, hd, hidx⟩ := hacc.index g hg
    obtain hg | ⟨m, hm, hg⟩ := ((hinv.indexed trivial).indexes g).mp hg
    · exact hg.elim
    rw [halive.mms] at hm
    obtain rfl : m = 0x1000 := List.mem_singleton.mp hm
    rw [hg, hpg, kernBase] at hd
    obtain rfl : d = 0x2000 := by omega
    rcases hidx.only 0 hmem with hd0 | ⟨i, hi, hw⟩
    · exact absurd hd0 (by decide)
    · have hword := List.all_eq_true.mp hzero i (List.mem_range.mpr hi)
      rw [beq_iff_eq] at hword
      omega
  exact (halive.lost_stays hacc h0 hinner hrun (hbal.out ∅ ∅ ∅ hout₀)).elim

end Aim.Kern
