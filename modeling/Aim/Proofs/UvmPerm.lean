import Aim.Kern.UserCopy
import Aim.Proofs.DeepCopy

/-!
# `set_uvm_perm`

The loop of `set_uvm_perm` goes from page to page in the page index, and stays at the
area it has found: what it writes to the areas is one flags field, that of the area at
the start of the range, again and again. So the call is right about the areas if those
behind the first one have had the flags already, and only then.

What a clone gets is read from the areas, and follows from them. The page index of the
source is not looked at, which is why nothing has to be said about the entries that
`set_pages_perm` leaves there. The clone goes to an address space that is empty, or to
one that is made after the call.
-/

namespace Aim.Kern

open Aim.Lib Mem Function

variable {σ : Type} {G : Pager σ} {Q : Set Nat} {S : PagerSpec G} {u : Uvm (Phys σ)} {l : List Nat}

/-! ## The area at the start -/

section Search

variable {u : Uvm σ} {m addr len : Nat} {l : List Nat}

theorem continuousLoop_any (fuel i : Nat) (n : VmaNode) (u : Uvm σ) :
    Ends False (continuousLoop addr len fuel i n) u fun _ u' => u' = u := by
  induction fuel generalizing i n with
  | zero => exact ends_throw id
  | succ fuel ih =>
      rw [continuousLoop]
      by_cases hi : i < len
      · rw [if_pos hi]
        refine (ends_nextEntry_any n u).bind fun q u₁ hq => ?_
        obtain ⟨-, rfl⟩ := hq
        refine ends_touch_any_bind (ends_get_bind ?_)
        by_cases hs : u₁.startOf q ≠ (addr + i) % 2 ^ 32
        · rw [if_pos hs]
          exact ends_pure rfl
        · rw [if_neg hs]
          exact ih _ _
      · rw [if_neg hi]
        exact ends_pure rfl

/-- Whatever the order of the areas, an answer is an area at `addr`. -/
theorem findContinuousVma_at (h : AreasOf u m l) (haddr : addr % pgSize = 0)
    (hlen : len % pgSize = 0) :
    Ends False (findContinuousVma m addr len) u fun r u' => u' = u ∧
      ∀ n, r = some n → ∃ v ∈ l, n = .vma v ∧ (u.vma v).start = addr := by
  rcases findContinuousVma_first h haddr hlen with ⟨-, hrun⟩ | ⟨l₁, v, l₂, hl, hva, hrun⟩
  · refine ends_of_ok hrun ⟨rfl, fun n hn => ?_⟩
    cases hn
  · refine .of_eq hrun ((continuousLoop_any _ _ _ u).bind fun b u₁ hu₁ => ?_)
    refine ends_pure ⟨hu₁, fun n hn => ⟨v, hl ▸ mem_middle, ?_, hva⟩⟩
    cases b with
    | false => cases hn
    | true => exact (Option.some.inj hn).symm

end Search

/-! ## The loop -/

/-- `set_pages_perm` of one page is a walk and two stores, whatever the flags are. -/
theorem setPagesPerm_one {s : Phys σ} {d g va flags : Nat} (h : S.Has s d Q) (hg : Sees g d)
    (hva : IsPage va) :
    Ends False (setPagesPerm G g va pgSize flags) s fun _ s' => ∃ Q', S.Has s' d Q' := by
  obtain ⟨hlast, hfirst⟩ := lastPage_one hva
  rw [setPagesPerm, hlast, hfirst, show (2 : Nat) ^ 20 = 1048575 + 1 from rfl, setPermLoop]
  refine (walkpgdir_walks h hg).weaken.bind ?_
  intro pte s₁ hs₁
  obtain ⟨Q₁, -, h₁, -, ⟨hpte, hat⟩ | ⟨hpte, -⟩⟩ := hs₁
  · rw [if_neg hpte]
    refine ends_kload_bind (ends_kstore_bind (ends_kload_bind (ends_kstore_bind ?_)))
    rw [if_pos rfl]
    exact ends_pure ⟨Q₁, (h₁.store hat).store (h₁.index.store hat).2.2.1⟩
  · rw [if_pos hpte]
    exact ends_pure ⟨Q₁, h₁⟩

/-- The areas, with other flags for `v`. -/
def setFlags (areas : Nat → Vma) (v flags : Nat) : Nat → Vma :=
  update areas v { areas v with flags := flags }

theorem setFlags_again (areas : Nat → Vma) (v flags : Nat) :
    setFlags (setFlags areas v flags) v flags = setFlags areas v flags := by
  rw [setFlags, setFlags, update_self, update_idem]

theorem setFlags_apply (areas : Nat → Vma) (v₀ v flags : Nat) (c : Prop) [Decidable c] :
    (if c then setFlags areas v₀ flags else areas) v =
      { areas v with flags := if c ∧ v = v₀ then flags else (areas v).flags } := by
  by_cases hc : c
  · rw [if_pos hc, setFlags]
    by_cases hv : v = v₀
    · rw [if_pos ⟨hc, hv⟩, hv, update_self]
    · rw [if_neg fun h => hv h.2, update_of_ne hv]
  · rw [if_neg hc, if_neg fun h => hc h.1]

/-- However many pages there are, it is the flags of one area that are written. -/
theorem setUvmPermLoop_sets {mm v len flags d fuel i addr : Nat} (h : S.Has u.env d Q)
    (hg : Sees (u.pgindex mm) d) (haddr : IsPage addr) :
    Ends False (setUvmPermLoop G mm v len flags fuel i addr) u fun r u' => r = 0 →
      (∃ Q', S.Has u'.env d Q') ∧ u' = { u with
        env := u'.env, vma := if i < len then setFlags u.vma v flags else u.vma } := by
  induction fuel generalizing u Q i addr with
  | zero => exact ends_throw id
  | succ fuel ih =>
      rw [setUvmPermLoop]
      by_cases hi : i < len
      · rw [if_pos hi]
        refine ends_touch_any_bind (ends_modify_bind (ends_touch_any_bind (ends_get_bind ?_)))
        refine ends_onEnv_bind (setPagesPerm_one h hg haddr) fun c s hs => ?_
        obtain ⟨Q₁, h₁⟩ := hs
        by_cases hc : c ≠ 0
        · rw [if_pos hc]
          refine ends_pure fun h0 => ?_
          cases h0
        rw [if_neg hc]
        have hnext : IsPage ((addr + pgSize) % 2 ^ 32) := by
          obtain ⟨hal, -⟩ := haddr
          rw [IsPage]
          rw [pgSize] at *
          omega
        refine (ih (u := { u with env := s, vma := setFlags u.vma v flags }) h₁ hg hnext).imp ?_
        intro r u' hr h0
        obtain ⟨hhas, hu'⟩ := hr h0
        refine ⟨hhas, ?_⟩
        rw [setFlags_again, ite_self] at hu'
        rw [if_pos hi]
        exact hu'
      · rw [if_neg hi]
        refine ends_pure fun _ => ⟨⟨Q, h⟩, ?_⟩
        rw [if_neg hi]

/-- A call that returns zero, on areas in any order. -/
theorem setUvmPerm_sets {mm len flags d addr : Nat} (h : S.Has u.env d Q)
    (hg : Sees (u.pgindex mm) d) (hl : AreasOf u mm l) :
    Ends False (setUvmPerm G mm addr len flags) u fun r u' => r = 0 →
      len % pgSize = 0 ∧ (∃ Q', S.Has u'.env d Q') ∧
        ∃ v ∈ l, (u.vma v).start = addr ∧ u' = { u with
          env := u'.env, vma := if 0 < len then setFlags u.vma v flags else u.vma } := by
  rw [setUvmPerm]
  by_cases hbad : len % pgSize ≠ 0 ∨ mm = 0 ∨ addr % pgSize ≠ 0
  · rw [if_pos hbad]
    refine ends_pure fun h0 => ?_
    cases h0
  rw [if_neg hbad]
  rw [not_or, not_or, not_not, not_not] at hbad
  refine (findContinuousVma_at hl hbad.2.2 hbad.1).bind fun r u₁ hr => ?_
  obtain ⟨rfl, hr⟩ := hr
  cases r with
  | none =>
      refine ends_pure fun h0 => ?_
      cases h0
  | some n =>
      obtain ⟨v, hv, rfl, hva⟩ := hr n rfl
      have haddr : IsPage addr := hva ▸ ⟨hl.aligned v hv, hl.lt v hv⟩
      refine (setUvmPermLoop_sets h hg haddr).imp fun r u' hr h0 => ?_
      obtain ⟨hhas, hu'⟩ := hr h0
      exact ⟨hbad.1, hhas, v, hv, hva, hu'⟩

/-! ## `mm_new` -/

section New

variable {B : Base σ} {S : BaseSpec B} {O U P : Set Nat}

theorem initPgindex_new {s : Phys σ} (hout : S.Out s O U P) :
    Ends False (initPgindex B.pager) s fun g s' => ∃ d, g = d + kernBase ∧ Sees g d ∧ d ∉ P ∧
      S.Out s' O U ({d} ∪ P) ∧ TwoLevel s'.mem d {d} := by
  refine (initPgindex_out hout).weaken.imp fun g s' hg => ?_
  obtain ⟨d, rfl, hdP, hout', -, hzero⟩ := hg
  have hframe := BaseSpec.page hout' (Set.mem_insert d _)
  have hnone : ∀ i < 1024, ∀ t, tableAt s'.mem d i ≠ some t := by
    intro i hi t ht
    have hp := (tableAt_some ht).1
    rw [hzero i hi] at hp
    exact hp (Nat.zero_and _)
  refine ⟨d, rfl, sees_high hframe.2, hdP, hout', rfl, ?_, ?_, ?_, ?_⟩
  · intro x hx
    rw [Set.mem_singleton_iff.mp hx]
    exact hframe
  · exact fun i hi t ht => absurd ht (hnone i hi t)
  · exact fun i hi t ht => absurd ht (hnone i hi t)
  · exact fun i hi j _ t ht => absurd ht (hnone i hi t)

/-- A new address space can be walked, beside all others. -/
theorem mmNew_ready {u : Uvm (Phys σ)} (hout : S.Out u.env O U P) :
    Ends False (mmNew (i386 B)) u fun dst u' => dst ≠ 0 → dst ∉ O ∧
      Ready S dst (premapAddr (u'.pgindex dst)) P u' (insert dst O) U
        {premapAddr (u'.pgindex dst)} ∧
      u'.vma = u.vma ∧ u'.upages = u.upages ∧ u'.links = u.links.init (.sentry dst) := by
  rw [mmNew]
  refine (kmalloc_out hout).bind fun dst u₁ h₁ => ?_
  by_cases h0 : dst = 0
  · rw [if_neg (not_not.mpr h0)]
    exact ends_pure fun hne => absurd h0 hne
  rw [if_pos h0]
  obtain ⟨⟨hdO, hout₁, -⟩, -, hvma, hup, hlinks⟩ := h₁ h0
  refine ends_modify_bind (ends_onEnv_bind (initPgindex_new hout₁) fun g s hg => ?_)
  obtain ⟨d, rfl, hsees, hdP, hout₂, hindex⟩ := hg
  refine ends_modify_bind ?_
  have hg0 : d + kernBase ≠ 0 := by
    rw [kernBase]
    omega
  rw [if_neg hg0]
  refine ends_pure fun _ => ?_
  have hpg : update u₁.pgindex dst (d + kernBase) dst = d + kernBase :=
    update_self _ _ _
  refine ⟨hdO, ?_, hvma, hup, ?_⟩
  · show Ready S dst (premapAddr (update u₁.pgindex dst (d + kernBase) dst)) P _ _ _
      {premapAddr (update u₁.pgindex dst (d + kernBase) dst)}
    rw [hpg, premapAddr_high]
    refine ⟨hout₂, fun a ha => Set.mem_singleton_iff.mp ha ▸ hdP, hindex, ?_⟩
    show Sees (update u₁.pgindex dst (d + kernBase) dst) d
    rw [hpg]
    exact hsees
  · rw [← hlinks]

end New

/-! ## Areas and clones -/

/-- The area lies in the range. -/
def AreaInside (u : Uvm σ) (addr len v : Nat) : Prop :=
  addr ≤ (u.vma v).start ∧ (u.vma v).start + (u.vma v).size ≤ addr + len

instance (u : Uvm σ) (addr len v : Nat) : Decidable (AreaInside u addr len v) :=
  inferInstanceAs (Decidable (_ ∧ _))

/-- The flags that were set last, once they have been set in the range. -/
def Uvm.lastFlags (u : Uvm σ) (addr len flags v : Nat) : Nat :=
  if AreaInside u addr len v then flags else (u.vma v).flags

/-- The area that `set_uvm_perm` writes to is the one in the range that starts at `addr`. -/
theorem AreasOf.first_iff {u : Uvm σ} {mm addr len v v₀ : Nat} (h : AreasOf u mm l)
    (hlen : len % pgSize = 0) (hv₀ : v₀ ∈ l) (hstart : (u.vma v₀).start = addr) (hv : v ∈ l)
    (hdistinct : (u.vma v).start = addr → v = v₀) :
    0 < len ∧ v = v₀ ↔ AreaInside u addr len v ∧ (u.vma v).start = addr := by
  constructor
  · rintro ⟨hpos, rfl⟩
    refine ⟨⟨hstart.ge, ?_⟩, hstart⟩
    rw [hstart, h.size v hv₀]
    exact Nat.add_le_add_left (Nat.le_of_dvd hpos (Nat.dvd_of_mod_eq_zero hlen)) _
  · rintro ⟨⟨-, hhi⟩, hva⟩
    refine ⟨?_, hdistinct hva⟩
    have hsize := h.size v hv
    rw [pgSize] at hsize
    omega

/-- `dst` is there and empty, or it is made now. -/
def CloneTarget (B : Base σ) (r : UvmRun (Phys σ)) (mm dst : Nat) (u u₁ : Uvm (Phys σ)) : Prop :=
  (dst ∈ r.mms ∧ mm ≠ dst ∧ r.Empty dst ∧ u₁ = u) ∨
    (dst ≠ 0 ∧ (mmNew (i386 B)).run u = .ok dst u₁)

/-- The area `w` of the clone is at `a`, and it and its page have the flags `f`. -/
structure ClonedFlags (u : Uvm (Phys σ)) (dst a f w : Nat) : Prop where
  start : (u.vma w).start = a
  flags : (u.vma w).flags = f
  entry : pageEntry u.env.mem (premapAddr (u.pgindex dst)) a =
    some ((u.frameOf w ||| f ||| pteP) % 2 ^ 32)

/-- After the call in the state of `r`, the areas have the flags that were set last,
and so have those of every clone and their pages. -/
structure UvmPermRight (B : Base σ) (r : UvmRun (Phys σ)) (mm : Nat) (l : List Nat)
    (addr len flags : Nat) (u' : Uvm (Phys σ)) : Prop where
  areas : ∀ v ∈ l, (u'.vma v).flags = r.u.lastFlags addr len flags v
  clones : ∀ dst u₁ u₂, CloneTarget B r mm dst u' u₁ →
    (mmClone (i386 B) dst mm).run u₁ = .ok 0 u₂ →
    ∃ l', Links.Ring u₂.links (.sentry dst) (nodes l') ∧ List.Forall₂ (fun v w =>
      ClonedFlags u₂ dst (r.u.vma v).start (r.u.lastFlags addr len flags v) w) l l'

section Clones

variable {B : Base σ} {S : BaseSpec B} {K X Q' : Set Nat} {H : Others} {r : UvmRun (Phys σ)}
  {vmas : Nat → List Nat} {R : Res} {mm dst d : Nat} {u' u₁ u₂ : Uvm (Phys σ)} {areas : Nat → Vma}

theorem SourceArea.reflag {u u' : Uvm (Phys σ)} {O U : Set Nat} {v f : Nat}
    (h : SourceArea u O U v) (hv : u'.vma v = { u.vma v with flags := f })
    (hup : u'.upages = u.upages) : SourceArea u' O U v := by
  have hframe : u'.frameOf v = u.frameOf v := by rw [Uvm.frameOf, hv, hup, Uvm.frameOf]
  refine ⟨h.obj, ?_, ?_, ?_, ?_, ?_, ?_⟩
  · rw [hv]
    exact h.pages
  · rw [hv]
    exact h.start
  · rw [hv]
    exact h.size
  · rw [hv, hup]
    exact h.psize
  · rw [hv, hup]
    exact h.pflags
  · rw [hframe]
    exact h.frame

/-- An `mm_clone` after the call has what it needs. -/
theorem CloneTarget.ready (h : UvmInv (i386Spec S False K) H r.u r.mms vmas R) (hmm : mm ∈ r.mms)
    (hX : ∀ m ∈ r.mms, m ≠ mm → R.inner (r.u.pgindex m) ⊆ X)
    (hhas : (S.beside R.objs R.frames X r.u.env.mem).Has u'.env d Q')
    (hu' : u' = { r.u with env := u'.env, vma := areas })
    (hareas : ∀ v, ∃ f, areas v = { r.u.vma v with flags := f })
    (ht : CloneTarget B r mm dst u' u₁) :
    ∃ X₁ O Q, Ready S dst (premapAddr (u₁.pgindex dst)) X₁ u₁ O R.frames Q ∧ mm ≠ dst ∧
      Links.Ring u₁.links (.sentry mm) (nodes (vmas mm)) ∧
      Links.Ring u₁.links (.sentry dst) (nodes []) ∧
      (∀ v ∈ vmas mm, SourceArea u₁ O R.frames v) ∧ u₁.vma = areas := by
  obtain ⟨⟨hout, -, hleaves⟩, -⟩ := hhas
  have hsource : ∀ v ∈ vmas mm, SourceArea u' R.objs R.frames v := by
    intro v hv
    obtain ⟨f, hf⟩ := hareas v
    refine (h.sourceArea hmm hv).reflag (f := f) ?_ ?_
    · rw [hu']
      exact hf
    · rw [hu']
  have hlinks : u'.links = r.u.links := by rw [hu']
  have hvma : u'.vma = areas := by rw [hu']
  rcases ht with ⟨hdst, hne, hempty, rfl⟩ | ⟨hdst0, hnew⟩
  · -- The page index of `dst` is beside that of `mm`.
    obtain ⟨hsees, hidx⟩ := h.directory hdst
    have hsub := hX dst hdst hne.symm
    have hpg : u₁.pgindex = r.u.pgindex := by rw [hu']
    have hdstRing := h.spaces.ring dst hdst
    rw [(h.spaces.empty_iff hdst).mp hempty] at hdstRing
    refine ⟨(Q' ∪ X) \ R.inner (r.u.pgindex dst), R.objs, R.inner (r.u.pgindex dst), ?_, hne, ?_,
      ?_, hsource, hvma⟩
    · rw [hpg]
      refine ⟨?_, fun a ha hX => hX.2 ha, ?_, ?_⟩
      · rw [Set.union_sdiff_cancel (hsub.trans Set.subset_union_right)]
        exact hout
      · exact hidx.twoLevel.keep (hleaves.words _ (hsub hidx.dir))
      · rw [hpg]
        exact hsees
    · rw [hlinks]
      exact h.spaces.ring mm hmm
    · rw [hlinks]
      exact hdstRing
  · obtain ⟨hdO, hready, hvma₁, hup₁, hlinks₁⟩ := (mmNew_ready hout).of_run hnew hdst0
    have hmmO : mm ∈ R.objs := (h.owned.objs mm).mpr (.inr (.inl hmm))
    have hne : mm ≠ dst := fun he => hdO (he ▸ hmmO)
    have hother : VmaNode.sentry dst ∉ VmaNode.sentry mm :: nodes (vmas mm) := fun hmem =>
      hne (sentry_mem_iff.mp hmem).symm
    refine ⟨Q' ∪ X, insert dst R.objs, _, hready, hne, ?_, ?_, fun v hv => ?_,
      hvma₁.trans hvma⟩
    · rw [hlinks₁, hlinks]
      exact (h.spaces.ring mm hmm).init_other hother
    · rw [hlinks₁]
      exact Links.ring_init _ _
    · refine (hsource v hv).keep (Set.subset_insert dst R.objs) subset_rfl ?_ ?_
      · rw [hvma₁]
      · rw [hup₁]

/-- And it copies the flags of the areas. -/
theorem CloneTarget.clones (h : UvmInv (i386Spec S False K) H r.u r.mms vmas R) (hmm : mm ∈ r.mms)
    (hX : ∀ m ∈ r.mms, m ≠ mm → R.inner (r.u.pgindex m) ⊆ X)
    (hhas : (S.beside R.objs R.frames X r.u.env.mem).Has u'.env d Q')
    (hu' : u' = { r.u with env := u'.env, vma := areas })
    (hareas : ∀ v, ∃ f, areas v = { r.u.vma v with flags := f }) (ht : CloneTarget B r mm dst u' u₁)
    (hclone : (mmClone (i386 B) dst mm).run u₁ = .ok 0 u₂) :
    ∃ l', Links.Ring u₂.links (.sentry dst) (nodes l') ∧ List.Forall₂ (fun v w =>
      ClonedFlags u₂ dst (r.u.vma v).start (areas v).flags w) (vmas mm) l' := by
  obtain ⟨X₁, O, Q, hready, hne, hsrc, hdst, hsource, rfl⟩ := ht.ready h hmm hX hhas hu' hareas
  have hstarts : ∀ v, (u₁.vma v).start = (r.u.vma v).start := by
    intro v
    obtain ⟨f, hf⟩ := hareas v
    rw [hf]
  have hnd : (u₁.starts (vmas mm)).Nodup := by
    rw [Uvm.starts, List.map_congr_left fun v _ => hstarts v]
    exact (h.indexed trivial).nodup h.spaces hmm
  obtain ⟨l', O', U', Q'', hc⟩ :=
    (mmClone_copies hready hne hsrc hdst hsource hnd).of_run hclone rfl
  refine ⟨l', hc.list, hc.copies.imp fun v w hcopy => ⟨?_, ?_, ?_⟩⟩
  · rw [hcopy.vma, hstarts v]
  · rw [hcopy.vma]
  · rw [hc.same.pgindex, hc.ready.index.pageEntry_eq, ← hstarts v, hcopy.entry,
      if_neg (page_present _ _)]

end Clones

/-- A call that returns zero is right if and only if the areas behind the first one had
the flags already. -/
theorem setUvmPerm_right_iff {B : Base σ} (S : BaseSpec B) {r : UvmRun (Phys σ)}
    {mm addr len flags : Nat} {l : List Nat} {u' : Uvm (Phys σ)}
    (h : (uvmCalls (i386 B) S.Start).Reachable r) (hmm : mm ∈ r.mms)
    (hring : Links.Ring r.u.links (.sentry mm) (nodes l))
    (hrun : (setUvmPerm B.pager mm addr len flags).run r.u = .ok 0 u') :
    UvmPermRight B r mm l addr len flags u' ↔
      ∀ v ∈ l, AreaInside r.u addr len v → (r.u.vma v).start ≠ addr → (r.u.vma v).flags = flags := by
  obtain ⟨K, H, vmas, R, hk⟩ := kept_of_reachable S h
  have hinv := hk.inv
  have hareas := (areasOf_of_reachable S h hmm hring).1
  obtain rfl : vmas mm = l := nodes_injective ((hinv.spaces.ring mm hmm).unique hring)
  obtain ⟨X, hready, hX⟩ := hinv.ready hmm
  have hhas : (S.beside R.objs R.frames X r.u.env.mem).Has r.u.env (premapAddr (r.u.pgindex mm))
      (R.inner (r.u.pgindex mm)) :=
    ⟨⟨hready.out, hready.apart, ⟨fun _ _ _ _ => rfl, fun _ => .refl _ _⟩⟩, hready.index⟩
  obtain ⟨hlen, ⟨Q', hhas'⟩, v₀, hv₀, hstart, hu'⟩ :=
    (setUvmPerm_sets hhas hready.sees hareas).of_run hrun rfl
  have hvma : ∀ v, u'.vma v = { r.u.vma v with
      flags := if 0 < len ∧ v = v₀ then flags else (r.u.vma v).flags } := by
    intro v
    rw [hu']
    exact setFlags_apply r.u.vma v₀ v flags (0 < len)
  -- Of the areas in the range, the call has written to the one that starts at `addr`.
  have hareas_iff : ∀ v ∈ vmas mm, (u'.vma v).flags = r.u.lastFlags addr len flags v ↔
      (AreaInside r.u addr len v → (r.u.vma v).start ≠ addr → (r.u.vma v).flags = flags) := by
    intro v hv
    have hfirst := hareas.first_iff hlen hv₀ hstart hv fun hva =>
      (hinv.indexed trivial).distinct mm hmm v hv v₀ hv₀ (hva.trans hstart.symm)
    rw [hvma v, Uvm.lastFlags]
    simp only [hfirst]
    by_cases hin : AreaInside r.u addr len v
    · by_cases hva : (r.u.vma v).start = addr
      · rw [if_pos ⟨hin, hva⟩, if_pos hin]
        exact iff_of_true rfl fun _ hne => absurd hva hne
      · rw [if_neg fun h => hva h.2, if_pos hin]
        exact ⟨fun he _ _ => he, fun he => he hin hva⟩
    · rw [if_neg fun h => hin h.1, if_neg hin]
      exact iff_of_true rfl fun h => absurd h hin
  refine ⟨fun hright v hv => (hareas_iff v hv).mp (hright.areas v hv), fun hflags => ?_⟩
  have hlast : ∀ v ∈ vmas mm, (u'.vma v).flags = r.u.lastFlags addr len flags v := fun v hv =>
    (hareas_iff v hv).mpr (hflags v hv)
  refine ⟨hlast, fun dst u₁ u₂ ht hclone => ?_⟩
  have hu'' : u' = { r.u with env := u'.env, vma := u'.vma } := by
    rw [hu']
  obtain ⟨l', hring', hcopies⟩ :=
    ht.clones hinv hmm hX hhas' hu'' (fun v => ⟨_, hvma v⟩) hclone
  refine ⟨l', hring', forall₂_imp_mem hcopies fun v hv w hw => ?_⟩
  rw [← hlast v hv]
  exact hw

/-! ## One page, and two -/

/-- One page gets other flags. -/
theorem setUvmPerm_right_iff_oneArea : ∃ (r : UvmRun (Phys Supply)) (u' : Uvm (Phys Supply)),
    (setUvmPerm supplyBase.supplied.pager 0x1000 0x400000 0x1000 5).run r.u = .ok 0 u' ∧
    UvmPermRight supplyBase.supplied r 0x1000 [0x1019] 0x400000 0x1000 5 u' := by
  obtain ⟨r, hr, hm, hring, hvma, hcall⟩ := oneArea_reachable (b := (0, 0))
    (fun r => returned (setUvmPerm supplyBase.supplied.pager 0x1000 0x400000 0x1000 5) r.u
      fun c _ => c) (some 0) (by decide +kernel) (by decide +kernel)
  obtain ⟨c, u', hrun, rfl⟩ := returned_eq_some hcall
  refine ⟨r, u', hrun, (setUvmPerm_right_iff (supplySpec 0) hr hm hring hrun).mpr ?_⟩
  intro v hv _ hne
  rw [List.mem_singleton.mp hv, hvma] at hne
  exact absurd rfl hne

theorem ring_two {k : Links VmaNode} {n x y : VmaNode} (hn : k.next n = x) (hx : k.prev x = n)
    (hx' : k.next x = y) (hy : k.prev y = x) (hy' : k.next y = n) (hn' : k.prev n = y)
    (hnd : [n, x, y].Nodup) : Links.Ring k n [x, y] :=
  ⟨⟨hn, hx, hx', hy, hy', hn'⟩, hnd⟩

/-- Two pages with the flags 7 are to have the flags 5, and the second area keeps 7. -/
theorem setUvmPerm_keeps_second : ∃ (r : UvmRun (Phys Supply)) (u' : Uvm (Phys Supply)),
    (uvmCalls (i386 supplyBase.supplied) (supplySpec 0).Start).Reachable r ∧ 0x1000 ∈ r.mms ∧
    Links.Ring r.u.links (.sentry 0x1000) (nodes [0x1019, 0x106b]) ∧
    Covered r.u [0x1019, 0x106b] 0x400000 0x2000 ∧
    (setUvmPerm supplyBase.supplied.pager 0x1000 0x400000 0x2000 5).run r.u = .ok 0 u' ∧
    AreaInside r.u 0x400000 0x2000 0x106b ∧ (u'.vma 0x106b).flags = 7 ∧
    ¬ UvmPermRight supplyBase.supplied r 0x1000 [0x1019, 0x106b] 0x400000 0x2000 5 u' := by
  obtain ⟨r, hreach, hseen⟩ := (Machine.Reachable.init (startBehind_init (0, 0))).sees
      [.new, .create 0x1000 0x400000 0x2000 7] (fun r =>
        (r.mms, decide (r.u.links.next (.sentry 0x1000) = .vma 0x1019 ∧
          r.u.links.prev (.vma 0x1019) = .sentry 0x1000 ∧
          r.u.links.next (.vma 0x1019) = .vma 0x106b ∧
          r.u.links.prev (.vma 0x106b) = .vma 0x1019 ∧
          r.u.links.next (.vma 0x106b) = .sentry 0x1000 ∧
          r.u.links.prev (.sentry 0x1000) = .vma 0x106b ∧
          r.u.vma 0x1019 = ⟨0x400000, 0x1000, 7, 0x1000, 0x1046⟩ ∧
          r.u.vma 0x106b = ⟨0x401000, 0x1000, 7, 0x1000, 0x1098⟩),
        returned (setUvmPerm supplyBase.supplied.pager 0x1000 0x400000 0x2000 5) r.u fun c u' =>
          (c, (u'.vma 0x106b).flags))) ([0x1000], true, some (0, 7)) (by decide +kernel)
    (by decide +kernel)
  obtain ⟨hmms, hseen⟩ := Prod.mk.inj hseen
  obtain ⟨hlist, hcall⟩ := Prod.mk.inj hseen
  obtain ⟨h1, h2, h3, h4, h5, h6, hfirst, hsecond⟩ := of_decide_eq_true hlist
  obtain ⟨c, u', hrun, hcode⟩ := returned_eq_some hcall
  obtain ⟨rfl, hflags⟩ := Prod.mk.inj hcode
  have hinside : AreaInside r.u 0x400000 0x2000 0x106b := by
    rw [AreaInside, hsecond]
    decide
  refine ⟨r, u', hreach, by simp [hmms], ring_two h1 h2 h3 h4 h5 h6 (by decide), ?_, hrun, hinside,
    hflags, fun hright => ?_⟩
  · intro va hlo hhi
    by_cases hva : va < 0x401000
    · refine ⟨0x1019, List.mem_cons_self, ?_⟩
      rw [hfirst]
      exact ⟨hlo, hva⟩
    · refine ⟨0x106b, List.mem_cons_of_mem _ List.mem_cons_self, ?_⟩
      rw [hsecond]
      exact ⟨not_lt.mp hva, hhi⟩
  · have hsame := hright.areas 0x106b (List.mem_cons_of_mem _ List.mem_cons_self)
    rw [hflags, Uvm.lastFlags, if_pos hinside] at hsame
    exact absurd hsame (by decide)

end Aim.Kern
