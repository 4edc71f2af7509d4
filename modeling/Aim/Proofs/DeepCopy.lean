import Aim.Proofs.UvmClone

/-!
# `mm_clone` makes a copy

`UvmClone` says what `mm_clone` does to objects, frames and entries. In a state of a
run that is a copy of an address space in the terms of its users: the same areas, in
frames of their own, with the same bytes at every address, and nothing of the source
has changed.

The bytes are those that the MMU finds, so the entries must have the addresses of the
frames in them: the flags of the areas have to stay below the address. And there must
be a page table to put an entry in. `walkpgdir` does not notice that `pgalloc` has
failed, and `mm_clone` then returns zero for a page that is not in the page index.
-/

namespace Aim.Kern

open Aim.Lib Mem

variable {σ : Type} {B : Base σ}

/-! ## Address spaces of a run -/

section Inv

variable {S : BaseSpec B} {total : Prop} {K : Set Nat} {H : Others} {u : Uvm (Phys σ)}
  {mms : List Nat} {vmas : Nat → List Nat} {R : Res} {m dst src v : Nat}

/-- An address space can be walked, and the page indexes of the others are beside its
own. -/
theorem UvmInv.ready (h : UvmInv (i386Spec S total K) H u mms vmas R) (hdst : dst ∈ mms) :
    ∃ X, Ready S dst (premapAddr (u.pgindex dst)) X u R.objs R.frames (R.inner (u.pgindex dst)) ∧
      ∀ m ∈ mms, m ≠ dst → R.inner (u.pgindex m) ⊆ X := by
  obtain ⟨P, hacc⟩ := h.rep
  have hix := h.indexed trivial
  have hmem : ∀ m ∈ mms, u.pgindex m ∈ R.indexes := fun m hm =>
    (hix.indexes (u.pgindex m)).mpr (.inr ⟨m, hm, rfl⟩)
  have hsub : R.inner (u.pgindex dst) ⊆ P := hacc.inner _ (hmem dst hdst)
  obtain ⟨hsees, hidx⟩ := h.directory hdst
  refine ⟨P \ R.inner (u.pgindex dst), ⟨?_, fun a ha hX => hX.2 ha, hidx.twoLevel, hsees⟩, ?_⟩
  · rw [Set.union_sdiff_cancel hsub]
    exact hacc.out
  · intro m hm hne a ha
    refine ⟨hacc.inner _ (hmem m hm) a ha, fun hd => hne ?_⟩
    exact hix.inj m hm dst hdst (hacc.apart _ (hmem m hm) _ (hmem dst hdst) a ha hd)

theorem UvmInv.sourceArea (h : UvmInv (i386Spec S total K) H u mms vmas R) (hsrc : src ∈ mms)
    (hv : v ∈ vmas src) : SourceArea u R.objs R.frames v := by
  have harea := h.spaces.area src hsrc v hv
  have hlive : Live mms vmas v := .of_mem hsrc hv
  refine ⟨?_, ?_, ⟨harea.aligned, harea.lt⟩, harea.size, harea.psize, harea.pflags, ?_⟩
  · exact (h.owned.objs v).mpr (.inr (.inr ⟨v, hlive, .inl rfl⟩))
  · exact (h.owned.objs _).mpr (.inr (.inr ⟨v, hlive, .inr rfl⟩))
  · exact (h.owned.frames _).mpr (.inr ⟨v, hlive, rfl⟩)

end Inv

theorem pgRoundDown_entry {f flags : Nat} (hf : IsFrame f) (hflags : flags < pgSize) :
    pgRoundDown ((f ||| flags ||| pteP) % 2 ^ 32) = f := by
  have hlow : flags ||| pteP < 2 ^ 12 := Nat.or_lt_two_pow hflags (by decide)
  have hal := hf.1
  rw [Nat.mod_eq_of_lt (page_entry_lt hf.isPage hflags), Nat.or_assoc, aligned_or hal hlow,
    pgRoundDown]
  rw [pgSize] at *
  omega

/-- In an area, with flags below the address. -/
theorem TwoLevel.translate_area {m : Mem} {d start f flags va : Nat} {P : Set Nat}
    (h : TwoLevel m d P) (hstart : IsPage start) (hf : IsFrame f) (hflags : flags < pgSize)
    (he : pageEntry m d start = some ((f ||| flags ||| pteP) % 2 ^ 32)) (hlo : start ≤ va)
    (hhi : va < start + pgSize) : translate m d va = some (f + (va - start)) := by
  have hva : va < 2 ^ 32 := by
    obtain ⟨hal, hlt⟩ := hstart
    rw [pgSize] at *
    omega
  obtain ⟨hpdx, hptx⟩ := (samePage_iff hstart hva).mpr ⟨hlo, hhi⟩
  have hentry : pageEntry m d va = pageEntry m d start := by
    rw [pageEntry, pageEntry, hpdx, hptx]
  have hoff : va % pgSize = va - start := by
    obtain ⟨hal, -⟩ := hstart
    rw [pgSize] at *
    omega
  rw [h.translate_eq, hentry, he, Option.map_some, pgRoundDown_entry hf hflags, hoff]

/-! ## The copy -/

/-- The address space `dst` of `u'`, with the areas `l'`, is a copy of the address space
`src` of `u`, with the areas `l`, and that is still there. -/
structure DeepCopy (dst src : Nat) (u : Uvm (Phys σ)) (l : List Nat) (u' : Uvm (Phys σ))
    (l' : List Nat) : Prop where
  list : Links.Ring u'.links (.sentry dst) (nodes l')
  areas : (l'.map fun w => ((u'.vma w).start, (u'.vma w).size, (u'.vma w).flags)) =
    l.map fun v => ((u.vma v).start, (u.vma v).size, (u.vma v).flags)
  /-- No frame twice, and none of the source. -/
  own : (l'.map u'.frameOf).Nodup ∧ ∀ w ∈ l', ∀ v ∈ l, u'.frameOf w ≠ u.frameOf v
  /-- In both page indexes there is the byte that was at the address before. -/
  bytes : ∀ v ∈ l, ∀ va, (u.vma v).start ≤ va → va < (u.vma v).start + (u.vma v).size →
    ∃ a b, translate u'.env.mem (premapAddr (u'.pgindex dst)) va = some a ∧
      translate u'.env.mem (premapAddr (u'.pgindex src)) va = some b ∧
      translate u.env.mem (premapAddr (u.pgindex src)) va = some b ∧
      u'.env.mem a = u.env.mem b ∧ u'.env.mem b = u.env.mem b
  source : Links.Ring u'.links (.sentry src) (nodes l) ∧
    ∀ v ∈ l, u'.vma v = u.vma v ∧ u'.upages (u.vma v).pages = u.upages (u.vma v).pages
  index : u'.pgindex src = u.pgindex src ∧
    ∀ va, pageEntry u'.env.mem (premapAddr (u.pgindex src)) va =
      pageEntry u.env.mem (premapAddr (u.pgindex src)) va

theorem exists_of_forall₂ {α β : Type} {R : α → β → Prop} {as : List α} {bs : List β} {a : α}
    (h : List.Forall₂ R as bs) (ha : a ∈ as) : ∃ b ∈ bs, R a b :=
  mem_of_forall₂ h.flip ha

/-- In every state of every run, an `mm_clone` that returns zero has made a copy, if the
flags of the areas are below the address of a frame. -/
theorem mmClone_deepCopy (S : BaseSpec B) (hq : S.Quiet) {r : UvmRun (Phys σ)}
    {dst src : Nat} {l : List Nat} {u' : Uvm (Phys σ)}
    (h : (uvmCalls (i386 B) S.Start).Reachable r) (hdst : dst ∈ r.mms) (hsrc : src ∈ r.mms)
    (hne : dst ≠ src) (hempty : r.Empty dst)
    (hring : Links.Ring r.u.links (.sentry src) (nodes l))
    (hflags : ∀ v ∈ l, (r.u.vma v).flags < 0x1000)
    (hrun : (mmClone (i386 B) dst src).run r.u = .ok 0 u') :
    ∃ l', DeepCopy dst src r.u l u' l' := by
  obtain ⟨K, H, vmas, R, hk⟩ := kept_of_reachable S h
  have hinv := hk.inv
  obtain rfl : vmas src = l := nodes_injective ((hinv.spaces.ring src hsrc).unique hring)
  have hdstRing := hinv.spaces.ring dst hdst
  rw [(hinv.spaces.empty_iff hdst).mp hempty] at hdstRing
  have hareas : ∀ v ∈ vmas src, SourceArea r.u R.objs R.frames v := fun v hv =>
    hinv.sourceArea hsrc hv
  obtain ⟨X, hready, hX⟩ := hinv.ready hdst
  have hnd := (hinv.indexed trivial).nodup hinv.spaces hsrc
  obtain ⟨l', O', U', Q', hc⟩ :=
    (mmClone_copies hready hne.symm hring hdstRing hareas hnd).of_run hrun rfl
  -- The page index of the source is beside that of the copy.
  have hidx := (hinv.directory hsrc).2.twoLevel
  have hwords : SameWords (R.inner (r.u.pgindex src)) r.u.env.mem u'.env.mem :=
    hc.leaves.words.mono (hX src hsrc hne.symm)
  have hidx' := hidx.keep (hwords _ hidx.dir)
  have hentries : ∀ va, pageEntry u'.env.mem (premapAddr (r.u.pgindex src)) va =
      pageEntry r.u.env.mem (premapAddr (r.u.pgindex src)) va := fun va => by
    rw [hidx'.pageEntry_eq, hidx.pageEntry_eq, hidx.rawEntry_eq hwords]
  have hsame : ∀ v ∈ vmas src, u'.vma v = r.u.vma v ∧
      u'.upages (r.u.vma v).pages = r.u.upages (r.u.vma v).pages := fun v hv =>
    ⟨hc.vma v (hareas v hv).obj, hc.upages _ (hareas v hv).pages⟩
  refine ⟨l', hc.list, ?_, ⟨hc.apart, fun w hw v hv he => ?_⟩, fun v hv va hlo hhi => ?_,
    ⟨hc.source, hsame⟩, ⟨congrFun hc.same.pgindex src, hentries⟩⟩
  · rw [← List.forall₂_eq_eq_eq, List.forall₂_map_left_iff, List.forall₂_map_right_iff]
    refine hc.copies.flip.imp fun w v hcopy => ?_
    have hw : (u'.vma w).start = (r.u.vma v).start ∧ (u'.vma w).size = (r.u.vma v).size ∧
        (u'.vma w).flags = (r.u.vma v).flags := by
      rw [hcopy.vma]
      exact ⟨rfl, rfl, rfl⟩
    rw [hw.1, hw.2.1, hw.2.2]
  · obtain ⟨x, -, hcopy⟩ := mem_of_forall₂ hc.copies hw
    exact hcopy.own (he ▸ (hareas v hv).frame)
  · obtain ⟨w, -, hcopy⟩ := exists_of_forall₂ hc.copies hv
    have hsize := (hareas v hv).size
    rw [hsize] at hhi
    have hi : va - (r.u.vma v).start < pgSize := by omega
    have hstart := (hareas v hv).start
    have hf : IsFrame (r.u.frameOf v) := BaseSpec.user hready.out (hareas v hv).frame
    have hf' : IsFrame (u'.frameOf w) := BaseSpec.user hc.ready.out hcopy.frame
    have hentry := hinv.pageEntry_start hsrc hv
    have hdstEntry : pageEntry u'.env.mem (premapAddr (r.u.pgindex dst)) (r.u.vma v).start =
        some ((u'.frameOf w ||| (r.u.vma v).flags ||| pteP) % 2 ^ 32) := by
      rw [hc.ready.index.pageEntry_eq, hcopy.entry, if_neg (page_present _ _)]
    rw [hc.same.pgindex]
    refine ⟨_, _, hc.ready.index.translate_area hstart hf' (hflags v hv) hdstEntry hlo hhi,
      hidx'.translate_area hstart hf (hflags v hv) ((hentries _).trans hentry) hlo hhi,
      hidx.translate_area hstart hf (hflags v hv) hentry hlo hhi, ?_, ?_⟩
    · exact hcopy.bytes hq _ hi
    · exact hc.leaves.bytes hq _ (hareas v hv).frame _ hi

/-! ## A supply of frames -/

theorem supply_quiet (low : Nat) : (supplySpec low).Quiet where
  kmalloc s O U P n _ := by
    have hcall : (supplyBase.supplied.kmalloc n).run s = .ok s.pmm.nextObj { s with pmm :=
        { s.pmm with nextObj := s.pmm.nextObj + n + 1, objs := s.pmm.nextObj :: s.pmm.objs } } := rfl
    exact ends_of_ok hcall (.refl _ _)
  allocPages s O U P _ := by
    cases hfree : s.pmm.free with
    | nil => exact ends_of_ok (supplied_allocPages_none hfree) (.refl _ _)
    | cons a rest => exact ends_of_ok (supplied_allocPages hfree) (.refl _ _)
  pgalloc s O U P h := by
    cases hfree : s.pmm.free with
    | nil => exact ends_of_stop (supplied_pgalloc_none hfree) id
    | cons a rest =>
        have ha : IsFrame a := (h.takePage hfree).2.page (Set.mem_insert a P)
        exact ends_of_ok (supplied_pgalloc hfree ha) (.refl _ _)

/-- A page in one address space, and a second address space. -/
def cloneCalls : List UvmCall := [.new, .create 0x1000 0x400000 0x1000 7, .new]

/-- The list of `0x1000` has one area, and `0x106b` is empty. -/
def TwoSpaces (r : UvmRun σ) : Prop :=
  r.mms = [0x106b, 0x1000] ∧ r.Empty 0x106b ∧
    r.u.links.next (.sentry 0x1000) = .vma 0x1019 ∧
    r.u.links.prev (.vma 0x1019) = .sentry 0x1000 ∧
    r.u.links.next (.vma 0x1019) = .sentry 0x1000 ∧
    r.u.links.prev (.sentry 0x1000) = .vma 0x1019 ∧
    r.u.vma 0x1019 = ⟨0x400000, 0x1000, 7, 0x1000, 0x1046⟩

instance (r : UvmRun σ) : Decidable (TwoSpaces r) :=
  inferInstanceAs (Decidable (_ ∧ _ ∧ _ ∧ _ ∧ _ ∧ _ ∧ _))

theorem TwoSpaces.ring {r : UvmRun σ} (h : TwoSpaces r) :
    Links.Ring r.u.links (.sentry 0x1000) (nodes [0x1019]) := by
  obtain ⟨-, -, h1, h2, h3, h4, -⟩ := h
  exact ring_one h1 h2 h3 h4 VmaNode.noConfusion

theorem TwoSpaces.mem {r : UvmRun σ} (h : TwoSpaces r) : 0x106b ∈ r.mms ∧ 0x1000 ∈ r.mms := by
  rw [h.1]
  exact ⟨List.mem_cons_self, List.mem_cons_of_mem _ List.mem_cons_self⟩

theorem TwoSpaces.flags {r : UvmRun σ} (h : TwoSpaces r) :
    ∀ v ∈ [0x1019], (r.u.vma v).flags < 0x1000 := by
  obtain ⟨-, -, -, -, -, -, hvma⟩ := h
  intro v hv
  rw [List.mem_singleton.mp hv, hvma]
  decide

theorem mmClone_deepCopy_onePage : ∃ r u' l',
    (uvmCalls (i386 supplyBase.supplied) (supplySpec 0).Start).Reachable r ∧
    (mmClone (i386 supplyBase.supplied) 0x106b 0x1000).run r.u = .ok 0 u' ∧
    DeepCopy 0x106b 0x1000 r.u [0x1019] u' l' := by
  have hinit : (uvmCalls (i386 supplyBase.supplied) (supplySpec 0).Start).Reachable
      (supplyStart eightFrames) := .init ⟨rfl, (supplyStart_start (by decide) (by decide)).1⟩
  obtain ⟨r, hreach, hseen⟩ := hinit.sees cloneCalls (fun r => (decide (TwoSpaces r), returned
    (mmClone (i386 supplyBase.supplied) 0x106b 0x1000) r.u fun c _ => c)) (true, some 0)
    (by decide +kernel) (by decide +kernel)
  obtain ⟨hspaces, hcall⟩ := Prod.mk.inj hseen
  have hspaces := of_decide_eq_true hspaces
  obtain ⟨c, u', hrun, rfl⟩ := returned_eq_some hcall
  obtain ⟨l', hcopy⟩ := mmClone_deepCopy (supplySpec 0) (supply_quiet 0) hreach hspaces.mem.1
    hspaces.mem.2 (by decide) hspaces.2.1 hspaces.ring hspaces.flags hrun
  exact ⟨r, u', l', hreach, hrun, hcopy⟩

/-! ## No frame for a page table -/

/-- Five frames, and something in the one that becomes the page. -/
def fiveFrames : UvmRun (Phys Supply) :=
  let r := supplyStart [0x100000, 0x101000, 0x102000, 0x103000, 0x104000]
  { r with u := { r.u with
      env := { r.u.env with mem := fun x => if x = 0x101000 then 1 else 0 } } }

theorem fiveFrames_init : (uvmCalls (i386 supplyBase) (supplySpec 0).Start).init fiveFrames := by
  have hout : (supplySpec 0).Out (supplyStart [0x100000, 0x101000, 0x102000, 0x103000,
      0x104000]).u.env ∅ ∅ ∅ := supplyStart_out (by decide) (by decide)
  refine ⟨rfl, ∅, ∅, ∅, SupplyOut.write hout, fun x => ?_⟩
  exact ⟨fun hx => (Bool.false_ne_true hx).elim, fun hx => hx.elim⟩

/-- The copy gets its directory and its page, and the frames have run out when a page
table is needed. `mm_clone` returns zero, and the page is somewhere else. -/
theorem mmClone_misses_page : ∃ r u',
    (uvmCalls (i386 supplyBase) (supplySpec 0).Start).Reachable r ∧
    (0x106b ∈ r.mms ∧ 0x1000 ∈ r.mms) ∧ r.Empty 0x106b ∧
    Links.Ring r.u.links (.sentry 0x1000) (nodes [0x1019]) ∧
    (∀ v ∈ [0x1019], (r.u.vma v).flags < 0x1000) ∧
    (mmClone (i386 supplyBase) 0x106b 0x1000).run r.u = .ok 0 u' ∧
    ∀ l', ¬ DeepCopy 0x106b 0x1000 r.u [0x1019] u' l' := by
  obtain ⟨r, hreach, hseen⟩ := (Machine.Reachable.init fiveFrames_init).sees cloneCalls
    (fun r => (decide (TwoSpaces r), returned
      (mmClone (i386 supplyBase) 0x106b 0x1000) r.u fun c u' => (c,
        (translate u'.env.mem (premapAddr (u'.pgindex 0x106b)) 0x400000).map u'.env.mem,
        (translate u'.env.mem (premapAddr (u'.pgindex 0x1000)) 0x400000).map u'.env.mem)))
    (true, some (0, some 0, some 1)) (by decide +kernel) (by decide +kernel)
  obtain ⟨hspaces, hcall⟩ := Prod.mk.inj hseen
  have hspaces := of_decide_eq_true hspaces
  obtain ⟨c, u', hrun, hseen⟩ := returned_eq_some hcall
  obtain ⟨rfl, hbytes⟩ := Prod.mk.inj hseen
  obtain ⟨hcopied, hsource⟩ := Prod.mk.inj hbytes
  refine ⟨r, u', hreach, hspaces.mem, hspaces.2.1, hspaces.ring, hspaces.flags, hrun,
    fun l' hdeep => ?_⟩
  have hvma := hspaces.2.2.2.2.2.2
  obtain ⟨a, b, ha, hb, -, hab, hbb⟩ := hdeep.bytes 0x1019 List.mem_cons_self 0x400000
    (by rw [hvma]) (by rw [hvma]; decide)
  rw [ha] at hcopied
  rw [hb] at hsource
  have hzero : u'.env.mem a = 0 := Option.some.inj hcopied
  have hone : u'.env.mem b = 1 := Option.some.inj hsource
  rw [hab, ← hbb, hone] at hzero
  exact absurd hzero (by decide)

end Aim.Kern
