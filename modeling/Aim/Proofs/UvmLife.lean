import Aim.Proofs.UvmCalls

/-!
# The life of an address space

`mm_new` adds an address space without areas, and `mm_destroy` takes one away
with all its areas. The loop of the latter frees the areas without taking them
out of their lists, so while it runs the list of the address space leads
through objects that are gone; it only ever reads the link of an area that is
still there.
-/

namespace Aim.Kern

open Aim.Lib Function

variable {σ : Type} {E : Env σ} {paged total : Prop} {S : EnvSpec E paged total}
  {u u' : Uvm σ} {mms : List Nat} {vmas : Nat → List Nat} {H : Others}
  {R : Res} {m g : Nat}

/-! ## `mm_new` -/

theorem live_newMm (hm : m ∉ mms) (w : Nat) :
    Live (m :: mms) (update vmas m []) w ↔ Live mms vmas w := by
  have hne : ∀ m' ∈ mms, m' ≠ m := fun m' hm' hmm => hm (hmm ▸ hm')
  constructor
  · intro hw
    obtain ⟨m', hm', hw⟩ := hw
    rcases List.mem_cons.mp hm' with rfl | hm'
    · rw [update_self] at hw
      cases hw
    · rw [update_of_ne (hne m' hm')] at hw
      exact ⟨m', hm', hw⟩
  · intro hw
    obtain ⟨m', hm', hw⟩ := hw
    refine ⟨m', List.mem_cons_of_mem _ hm', ?_⟩
    rw [update_of_ne (hne m' hm')]
    exact hw

theorem objOf_newMm (hm : m ∉ mms) (x : Nat) :
    ObjOf u (m :: mms) (update vmas m []) x ↔ ObjOf u mms vmas x ∨ x = m := by
  simp only [ObjOf, live_newMm hm, List.mem_cons]
  rw [or_assoc, or_comm]

theorem Owned.newMm {O F : Set Nat} {R' : Res} (h : Owned u mms vmas O F R) (hm : m ∉ R.objs)
    (hobjs : R'.objs = insert m R.objs) (hframes : R'.frames = R.frames) :
    Owned u (m :: mms) (update vmas m []) O F R' := by
  have hout := h.objsOut
  have hmm : m ∉ mms := fun hmem => hm (hout.mm m hmem)
  have hlive : ∀ w, Live (m :: mms) (update vmas m []) w ↔ Live mms vmas w :=
    live_newMm hmm
  constructor
  · exact fun v w hv hw => h.pagesInj v w ((hlive v).mp hv) ((hlive w).mp hw)
  · exact fun v w hv hw => h.frameInj v w ((hlive v).mp hv) ((hlive w).mp hw)
  · exact fun v w hv hw => h.nePages v w ((hlive v).mp hv) ((hlive w).mp hw)
  · intro m' hm' v hv
    rw [hlive] at hv
    rcases List.mem_cons.mp hm' with rfl | hm'
    · exact ⟨fun he => hm (he ▸ hout.vma v hv), fun he => hm (he ▸ hout.pages v hv)⟩
    · exact h.mmNe m' hm' v hv
  · intro x
    rw [hobjs, Set.mem_insert_iff, h.objs x, objOf_newMm hmm]
    tauto
  · intro x hx
    rw [objOf_newMm hmm]
    intro hox
    rcases hox with hox | rfl
    · exact h.objsApart x hx hox
    · exact hm ((h.objs x).mpr (.inl hx))
  · intro a
    simp only [hlive]
    rw [hframes]
    exact h.frames a
  · exact fun v hv => h.framesApart v ((hlive v).mp hv)

theorem Indexed.newMm {I X : Set Nat} (h : Indexed u mms vmas I R) (hmm : m ∉ mms)
    (hpg : u.pgindex m = g) (hg : g ∉ R.indexes) :
    Indexed u (m :: mms) (update vmas m []) I (R.addIndex g X) := by
  have hne : ∀ m' ∈ mms, m' ≠ m := fun m' hm' he => hmm (he ▸ hm')
  have hgne : ∀ m' ∈ mms, u.pgindex m' ≠ g := fun m' hm' he =>
    hg (he ▸ (h.indexes _).mpr (.inr ⟨m', hm', rfl⟩))
  constructor
  · intro m₁ hm₁ m₂ hm₂ he
    rcases List.mem_cons.mp hm₁ with h₁ | h₁
    · rcases List.mem_cons.mp hm₂ with h₂ | h₂
      · exact h₁.trans h₂.symm
      · exact absurd (he.symm.trans (h₁ ▸ hpg)) (hgne m₂ h₂)
    · rcases List.mem_cons.mp hm₂ with h₂ | h₂
      · exact absurd (he.trans (h₂ ▸ hpg)) (hgne m₁ h₁)
      · exact h.inj m₁ h₁ m₂ h₂ he
  · intro g'
    show g' ∈ insert g R.indexes ↔ _
    rw [Set.mem_insert_iff, h.indexes g']
    simp only [List.mem_cons, exists_eq_or_imp, hpg]
    tauto
  · intro m' hm' hmem
    rcases List.mem_cons.mp hm' with rfl | hm'
    · exact hg ((h.indexes g).mpr (.inl (hpg ▸ hmem)))
    · exact h.apart m' hm' hmem
  · intro m' hm' v hv w hw
    rcases List.mem_cons.mp hm' with rfl | hm'
    · rw [update_self] at hv
      cases hv
    · rw [update_of_ne (hne m' hm')] at hv hw
      exact h.distinct m' hm' v hv w hw
  · intro m' hm' va e
    show update R.maps g (fun _ => none) (u.pgindex m') va = some e ↔ _
    rcases List.mem_cons.mp hm' with rfl | hm'
    · rw [hpg, update_self, update_self]
      simp
    · rw [update_of_ne (hgne m' hm'), update_of_ne (hne m' hm')]
      exact h.maps m' hm' va e

/-- A new address space, without areas. -/
theorem UvmInv.newMm {X : Set Nat} (h : UvmInv S H u mms vmas R) (hm : m ∉ R.objs)
    (hw : Working S mms vmas u u' ((R.addObj m).addIndex g X)) (hpg : u'.pgindex m = g)
    (hg : paged → g ∉ R.indexes) (hring : Links.Ring u'.links (.sentry m) []) :
    UvmInv S H u' (m :: mms) (update vmas m []) ((R.addObj m).addIndex g X) := by
  have hmm : m ∉ mms := fun hmem => hm (h.owned.objsOut.mm m hmem)
  have hne : ∀ m' ∈ mms, m' ≠ m := fun m' hm' he => hmm (he ▸ hm')
  have hlive : ∀ w, Live (m :: mms) (update vmas m []) w ↔ Live mms vmas w :=
    live_newMm hmm
  refine ⟨hw.rep, hw.live, List.nodup_cons.mpr ⟨hmm, h.nodup⟩, ⟨?_, ?_, ?_⟩, ?_, ?_, ?_⟩
  · intro m' hm'
    rcases List.mem_cons.mp hm' with rfl | hm'
    · rw [update_self]
      exact hring
    · rw [update_of_ne (hne m' hm')]
      exact hw.ring m' hm'
  · intro v hv
    rw [hlive] at hv
    rw [hw.data.vma v hv]
    exact hw.share v hv
  · intro m' hm' v hv
    rcases List.mem_cons.mp hm' with rfl | hm'
    · rw [update_self] at hv
      cases hv
    · rw [update_of_ne (hne m' hm')] at hv
      exact hw.data.areaOk (.of_mem hm' hv) (h.spaces.area m' hm' v hv)
  · exact (h.owned.keep hw.data).newMm hm rfl rfl
  · intro hpaged
    have hix : Indexed u' mms vmas H.indexes (R.addObj m) := by
      have hk := (h.indexed hpaged).keep hw.data
      exact ⟨hk.inj, hk.indexes, hk.apart, hk.distinct, hk.maps⟩
    exact hix.newMm hmm hpg (hg hpaged)
  · intro ht v hv
    rw [hlive] at hv
    rw [hw.data.vma v hv]
    exact h.low ht v hv

theorem mmNew_ends (h : UvmInv S H u mms vmas R) :
    Ends total (mmNew E) u fun r u' => SameData mms vmas u u' ∧
      ((r = 0 ∧ UvmInv S H u' mms vmas R) ∨
        (r ≠ 0 ∧ r ∉ R.objs ∧ ∃ R', Res.OnlyAt (u'.pgindex r) R R' ∧
          (paged → u'.pgindex r ∉ R.indexes) ∧
          UvmInv S H u' (r :: mms) (update vmas r []) R')) := by
  rw [mmNew]
  refine h.working.kmalloc.bind ?_
  intro mm u₁ hmm
  obtain ⟨-, -, ⟨h0, hw₁⟩ | ⟨h0, hR, hw₁⟩⟩ := hmm
  · rw [if_neg (not_not.mpr h0)]
    exact ends_pure ⟨hw₁.data, .inl ⟨h0, hw₁.inv_self h⟩⟩
  have hmem : mm ∉ mms := fun hmem => hR (h.owned.objsOut.mm mm hmem)
  have hne : ∀ m' ∈ mms, m' ≠ mm := fun m' hm' he => hmem (he ▸ hm')
  have hsentry : ∀ m' ∈ mms, VmaNode.sentry mm ∉ VmaNode.sentry m' :: nodes (vmas m') := by
    intro m' hm' hn
    exact hne m' hm' (sentry_mem_iff.mp hn).symm
  rw [if_pos h0]
  refine ends_modify_bind (ends_onEnv_bind (S.initPgindex u₁.env (R.addObj mm) hw₁.rep) ?_)
  intro g s' hg
  refine ends_modify_bind ?_
  generalize hu' : ({ u₁ with
    env := s', links := u₁.links.init (.sentry mm),
    pgindex := update u₁.pgindex mm g } : Uvm σ) = u₂
  have hpg : u₂.pgindex mm = g := by rw [← hu']; exact update_self mm _ _
  have hring : Links.Ring u₂.links (.sentry mm) [] := by rw [← hu']; exact Links.ring_init _ _
  have hw₂ : ∀ R', S.Rep s' R' → R'.objs = (R.addObj mm).objs →
      Working S mms vmas u u₂ R' := by
    intro R' hrep hobjs
    have hd := hw₁.data
    rw [← hu']
    refine ⟨hrep, ?_, ⟨hd.before, hd.kernelMm, ?_, hd.vma, hd.upages⟩, ?_, hw₁.share⟩
    · rw [hobjs]
      exact hw₁.live
    · intro m' hm'
      exact (update_of_ne (hne m' hm') _ _).trans (hd.pgindex m' hm')
    · intro m' hm'
      exact (hw₁.ring m' hm').init_other (hsentry m' hm')
  rcases hg with ⟨hg0, hrep⟩ | ⟨hg0, hfresh, X, hrep⟩
  · rw [if_pos hg0]
    refine ((hw₂ _ hrep rfl).kfree (Set.mem_insert mm _)).bind ?_
    intro _ u₃ hw₃
    rw [Res.dropObj_addObj hR] at hw₃
    exact ends_pure ⟨hw₃.data, .inl ⟨rfl, hw₃.inv_self h⟩⟩
  · rw [if_neg hg0]
    have hw := hw₂ _ hrep rfl
    refine ends_pure ⟨hw.data, .inr ⟨h0, hR, _, ?_, ?_, h.newMm hR hw hpg hfresh hring⟩⟩
    · rw [hpg]
      exact fun _ hg' => ⟨update_of_ne hg' _ _, update_of_ne hg' _ _⟩
    · rw [hpg]
      exact hfresh

/-! ## `mm_destroy` -/

/-- The loop of `mm_destroy` over what is left of the list. -/
theorem destroyLoop_ends {fuel : Nat} {k : Links VmaNode} {k' : Links ShareNode}
    {gone rest : List Nat} (htp : total → paged)
    (h : UvmInv S H { u with links := k, share := k' } mms vmas R) (hm : m ∈ mms)
    (hring : Links.Ring u.links (.sentry m) (nodes (gone ++ rest))) (hl : vmas m = rest)
    (hfuel : total → rest.length < fuel) :
    Ends total (destroyLoop E m fuel ((nodes rest).headD (.sentry m))
        (u.links.next ((nodes rest).headD (.sentry m)))) u fun _ u' => SameLists u u' ∧
      SameData mms (update vmas m []) u u' ∧ ∃ k k' R',
        Res.OnlyAt (u.pgindex m) R R' ∧
          UvmInv S H { u' with links := k, share := k' } mms (update vmas m []) R' := by
  induction fuel generalizing u vmas R k k' gone rest with
  | zero => exact ends_throw fun ht => Nat.not_lt_zero _ (hfuel ht)
  | succ fuel ih =>
      cases rest with
      | nil =>
          show Ends total (destroyLoop E m (fuel + 1) (.sentry m) _) u _
          rw [destroyLoop, if_pos rfl]
          refine ends_pure ⟨⟨rfl, rfl⟩, .refl u, k, k', R, .refl _ R, ?_⟩
          rw [← hl, update_eq_self]
          exact h
      | cons v rest =>
          have hring' : Links.Ring u.links (.sentry m) (nodes gone ++ .vma v :: nodes rest) := by
            rw [nodes_append] at hring
            exact hring
          have hring'' : Links.Ring u.links (.sentry m) (nodes ((gone ++ [v]) ++ rest)) := by
            rw [List.append_assoc, List.singleton_append]
            exact hring
          have hnext : u.links.next (.vma v) = (nodes rest).headD (.sentry m) := hring'.next_mem
          show Ends total (destroyLoop E m (fuel + 1) (.vma v) (u.links.next (.vma v))) u _
          rw [hnext, destroyLoop, if_neg VmaNode.noConfusion]
          have hround := destroyVma_ends htp h hm (show vmas m = [] ++ v :: rest from hl)
          rw [List.nil_append] at hround
          refine hround.bind ?_
          intro _ u₁ hu₁
          obtain ⟨hlists₁, hd₁, R₁, ho₁, h₁⟩ := hu₁
          -- The next area, or the sentry, is still there.
          have hlive : u₁.live ((nodes rest).headD (.sentry m)).object = true := by
            have hnode := h₁.live_node hm
            rw [update_self] at hnode
            exact hnode _ (Links.headD_mem _ _)
          refine ends_nextEntry_bind hlive ?_
          rw [← hlists₁.1] at hring''
          have hrest := ih h₁ hring'' (update_self m _ _)
            (fun ht => Nat.lt_of_succ_lt_succ (hfuel ht))
          rw [update_idem] at hrest
          refine hrest.imp ?_
          intro _ u₂ hu₂
          obtain ⟨hlists₂, hd₂, k₂, k₂', R₂, ho₂, h₂⟩ := hu₂
          rw [hd₁.pgindex m hm] at ho₂
          exact ⟨hlists₁.trans hlists₂, (hd₁.mono live_nil).trans hd₂, k₂, k₂', R₂,
            ho₁.trans ho₂, h₂⟩

theorem live_dropMm (hnd : mms.Nodup) (w : Nat) :
    Live (mms.erase m) vmas w ↔ Live mms (update vmas m []) w := by
  constructor
  · intro hw
    obtain ⟨m', hm', hw⟩ := hw
    obtain ⟨hne, hm'⟩ := hnd.mem_erase_iff.mp hm'
    refine ⟨m', hm', ?_⟩
    rw [update_of_ne hne]
    exact hw
  · intro hw
    obtain ⟨m', hm', hw⟩ := hw
    by_cases hne : m' = m
    · subst hne
      rw [update_self] at hw
      cases hw
    · rw [update_of_ne hne] at hw
      exact ⟨m', hnd.mem_erase_iff.mpr ⟨hne, hm'⟩, hw⟩

theorem Owned.dropMm {O F : Set Nat} (h : Owned u mms (update vmas m []) O F R)
    (hnd : mms.Nodup) (hm : m ∈ mms) :
    Owned u (mms.erase m) vmas O F ((R.dropIndex g).dropObj m) := by
  have hlive : ∀ w, Live (mms.erase m) vmas w ↔ Live mms (update vmas m []) w :=
    live_dropMm hnd
  have hobj : ∀ x, ObjOf u (mms.erase m) vmas x ↔
      ObjOf u mms (update vmas m []) x ∧ x ≠ m := by
    intro x
    simp only [ObjOf, hlive, hnd.mem_erase_iff]
    constructor
    · intro hx
      rcases hx with ⟨hne, hx⟩ | ⟨v, hv, hx⟩
      · exact ⟨.inl hx, hne⟩
      · refine ⟨.inr ⟨v, hv, hx⟩, fun hxm => ?_⟩
        rw [hxm] at hx
        exact hx.elim (h.mmNe m hm v hv).1 (h.mmNe m hm v hv).2
    · intro hx
      obtain ⟨hx | hx, hne⟩ := hx
      · exact .inl ⟨hne, hx⟩
      · exact .inr hx
  constructor
  · exact fun v w hv hw => h.pagesInj v w ((hlive v).mp hv) ((hlive w).mp hw)
  · exact fun v w hv hw => h.frameInj v w ((hlive v).mp hv) ((hlive w).mp hw)
  · exact fun v w hv hw => h.nePages v w ((hlive v).mp hv) ((hlive w).mp hw)
  · exact fun m' hm' v hv => h.mmNe m' (hnd.mem_erase_iff.mp hm').2 v ((hlive v).mp hv)
  · intro x
    show x ∈ R.objs \ {m} ↔ _
    rw [Set.mem_sdiff, Set.mem_singleton_iff, h.objs x, hobj x, or_and_right]
    refine or_congr_left (and_iff_left_of_imp fun hx hxm => h.objsApart x hx (.inl (hxm ▸ hm)))
  · exact fun x hx hox => h.objsApart x hx ((hobj x).mp hox).1
  · intro a
    simp only [hlive]
    exact h.frames a
  · exact fun v hv => h.framesApart v ((hlive v).mp hv)

theorem Indexed.dropMm {I : Set Nat} (h : Indexed u mms (update vmas m []) I R)
    (hnd : mms.Nodup) (hm : m ∈ mms) :
    Indexed u (mms.erase m) vmas I ((R.dropIndex (u.pgindex m)).dropObj m) := by
  have hmem : ∀ m' ∈ mms.erase m, m' ≠ m ∧ m' ∈ mms := fun _ hm' => hnd.mem_erase_iff.mp hm'
  have hlist : ∀ m' ∈ mms.erase m, update vmas m [] m' = vmas m' :=
    fun m' hm' => update_of_ne (hmem m' hm').1 _ _
  constructor
  · exact fun m₁ h₁ m₂ h₂ => h.inj m₁ (hmem m₁ h₁).2 m₂ (hmem m₂ h₂).2
  · intro g'
    show g' ∈ R.indexes \ {u.pgindex m} ↔ _
    rw [Set.mem_sdiff, Set.mem_singleton_iff, h.indexes g', or_and_right]
    refine or_congr (and_iff_left_of_imp fun hI hgm => h.apart m hm (hgm ▸ hI)) ?_
    constructor
    · intro hg'
      obtain ⟨⟨m', hm', rfl⟩, hne⟩ := hg'
      exact ⟨m', hnd.mem_erase_iff.mpr ⟨fun he => hne (he ▸ rfl), hm'⟩, rfl⟩
    · intro hg'
      obtain ⟨m', hm', rfl⟩ := hg'
      exact ⟨⟨m', (hmem m' hm').2, rfl⟩, fun he =>
        (hmem m' hm').1 (h.inj m' (hmem m' hm').2 m hm he)⟩
  · exact fun m' hm' => h.apart m' (hmem m' hm').2
  · intro m' hm'
    have hd := h.distinct m' (hmem m' hm').2
    rw [hlist m' hm'] at hd
    exact hd
  · intro m' hm' va e
    have hmaps := h.maps m' (hmem m' hm').2 va e
    rw [hlist m' hm'] at hmaps
    exact hmaps

/-- `mm_destroy` of an address space other than the kernel's. -/
theorem mmDestroy_ends (h : UvmInv S H u mms vmas R) (htp : total → paged) (hm : m ∈ mms)
    (hm0 : m ≠ 0) (hk : m ≠ u.kernelMm) :
    Ends total (mmDestroy E m) u fun _ u' => SameData (mms.erase m) vmas u u' ∧
      ∃ R', Res.OnlyAt (u.pgindex m) R R' ∧ R'.inner (u.pgindex m) = ∅ ∧
        UvmInv S H u' (mms.erase m) vmas R' := by
  have hnd := h.nodup
  have hlive : ∀ w, Live (mms.erase m) vmas w ↔ Live mms (update vmas m []) w :=
    live_dropMm hnd
  have hmem : ∀ m' ∈ mms.erase m, m' ≠ m ∧ m' ∈ mms := fun _ hm' => hnd.mem_erase_iff.mp hm'
  rw [mmDestroy]
  refine ends_get_bind ?_
  rw [if_neg (not_or.mpr ⟨hm0, hk⟩)]
  have hnode := h.live_node hm
  refine ends_nextEntry_bind (hnode _ List.mem_cons_self) ?_
  rw [h.spaces.next_sentry hm]
  refine ends_nextEntry_bind (hnode _ (Links.headD_mem _ _)) ?_
  have hring : Links.Ring u.links (.sentry m) (nodes ([] ++ vmas m)) := h.spaces.ring m hm
  refine (destroyLoop_ends htp h hm hring rfl (h.length_lt_fuel htp hm)).bind ?_
  intro _ u₁ hu₁
  obtain ⟨hlists, hd, k, k', R₁, ho, h₁⟩ := hu₁
  have hout := h₁.owned.objsOut
  have hpg : u₁.pgindex m = u.pgindex m := hd.pgindex m hm
  refine ends_touch_bind (live_one ((h₁.live m).mpr (hout.mm m hm))) (ends_get_bind ?_)
  refine ends_onEnv_bind (S.destroyPgindex u₁.env R₁ (u₁.pgindex m) h₁.rep ?_) ?_
  · intro hpaged
    have hix := h₁.indexed hpaged
    refine ⟨(hix.indexes _).mpr (.inr ⟨m, hm, rfl⟩), fun va => ?_⟩
    refine Option.eq_none_iff_forall_ne_some.mpr fun e he => ?_
    obtain ⟨v, hv, -⟩ := (hix.maps m hm va e).mp he
    rw [update_self] at hv
    cases hv
  intro _ s hrep
  have hd₁ : SameData (mms.erase m) vmas u { u₁ with links := k, share := k' } :=
    ⟨hd.before, hd.kernelMm, fun m' hm' => hd.pgindex m' (hmem m' hm').2,
      fun v hv => hd.vma v ((hlive v).mp hv), fun v hv => hd.upages v ((hlive v).mp hv)⟩
  have hb : Busy S (mms.erase m) vmas { u₁ with links := k, share := k' } { u₁ with env := s }
      (R₁.dropIndex (u₁.pgindex m)) :=
    ⟨hrep, h₁.live, rfl, rfl, fun _ _ => rfl, fun _ _ => rfl, fun _ _ => rfl⟩
  refine (hb.kfree (hout.mm m hm)).imp ?_
  intro _ u₂ hu₂
  obtain ⟨hb₂, hlists₂⟩ := hu₂
  have hlinks : u₂.links = u.links := hlists₂.1.trans hlists.1
  have hshare : u₂.share = u.share := hlists₂.2.trans hlists.2
  have hd₂ : SameData (mms.erase m) vmas u u₂ := hd₁.trans hb₂.data
  have hold : ∀ v, Live (mms.erase m) vmas v → Live mms vmas v :=
    fun v hv => live_others v ((hlive v).mp hv)
  refine ⟨hd₂, (R₁.dropIndex (u₁.pgindex m)).dropObj m, ?_, ?_,
    hb₂.rep, hb₂.live, hnd.erase m, ⟨?_, ?_, ?_⟩, ?_, ?_, ?_⟩
  · intro g' hg'
    refine ⟨?_, (ho g' hg').2⟩
    rw [← hpg] at hg'
    exact (update_of_ne hg' _ _).trans (ho g' (hpg ▸ hg')).1
  · rw [← hpg]
    exact update_self _ _ _
  · intro m' hm'
    rw [hlinks]
    exact h.spaces.ring m' (hmem m' hm').2
  · intro v hv
    rw [hshare, hd₂.vma v hv]
    exact h.spaces.share v (hold v hv)
  · intro m' hm' v hv
    exact hd₂.areaOk (.of_mem hm' hv) (h.spaces.area m' (hmem m' hm').2 v hv)
  · exact (h₁.owned.dropMm hnd hm).keep hb₂.data
  · exact fun hpaged => ((h₁.indexed hpaged).dropMm hnd hm).keep hb₂.data
  · intro ht v hv
    rw [hd₂.vma v hv]
    exact h.low ht v (hold v hv)

end Aim.Kern
