import Aim.Proofs.Contents
import Aim.Proofs.UvmOverlap

/-!
# What `mm_clone` copies

The invariant of address spaces says that a clone is an address space like any other.
This module says what it is a copy of, and it asks for less: nothing is needed of the
page index of the source, which `mm_clone` does not look at. What is needed is that
the objects and frames in use are out, and that the page index of the destination
can be walked.

A round that returned made an area, and `Copied` says what it did: the objects and
the frame are new, the data is that of the area it was made from, and all other
objects, frames and page indexes are as they were. Of a round that failed or stopped
nothing is said, so everything here is about calls that return zero.
-/

namespace Aim.Kern

open Aim.Lib Mem Function

variable {σ : Type} {B : Base σ} {S : BaseSpec B} {u u' : Uvm (Phys σ)} {O U P Q X : Set Nat}
  {dst d v p f : Nat}

/-! ## Steps -/

theorem kmalloc_out {n : Nat} (hout : S.Out u.env O U P) :
    Ends False (kmalloc (i386 B) n) u fun w u' => w ≠ 0 →
      (w ∉ O ∧ S.Out u'.env (insert w O) U P ∧ Leaves S U P u.env.mem u'.env.mem) ∧
        SameObjects u u' ∧ u'.vma = u.vma ∧ u'.upages = u.upages ∧ u'.links = u.links := by
  rw [kmalloc]
  refine ends_onEnv_bind (ends_leaves (S.kmalloc u.env O U P n hout).weaken
    fun hq => hq.kmalloc u.env O U P n hout) fun w s hw => ?_
  obtain ⟨hleaves, ⟨h0, -⟩ | ⟨h0, hwO, hout'⟩⟩ := hw
  · rw [if_neg (not_not.mpr h0)]
    exact ends_pure fun hne => absurd h0 hne
  · rw [if_pos h0]
    exact ends_modify_bind (ends_pure fun _ =>
      ⟨⟨hwO, hout', hleaves⟩, ⟨rfl, rfl⟩, rfl, rfl, rfl⟩)

theorem vmaNew_out {m addr size flags : Nat} (hout : S.Out u.env O U P) :
    Ends False (vmaNew (i386 B) m addr size flags) u fun w u' => w ≠ 0 →
      (w ∉ O ∧ S.Out u'.env (insert w O) U P ∧ Leaves S U P u.env.mem u'.env.mem) ∧
        SameObjects u u' ∧ u'.vma = update u.vma w ⟨addr, size, flags, m, 0⟩ ∧
        u'.upages = u.upages ∧ u'.links = u.links.init (.vma w) := by
  rw [vmaNew]
  refine (kmalloc_out hout).bind fun w u₁ hw => ?_
  by_cases h0 : w = 0
  · rw [if_neg (not_not.mpr h0)]
    exact ends_pure fun hne => absurd h0 hne
  · rw [if_pos h0]
    obtain ⟨hw, hsame, hvma, hup, hlinks⟩ := hw h0
    refine ends_modify_bind (ends_pure fun _ => ⟨hw, ⟨hsame.pgindex, hsame.before⟩, ?_, hup, ?_⟩)
    · rw [← hvma]
    · rw [← hlinks]

theorem upagesNew_out {size flags : Nat} (hout : S.Out u.env O U P) :
    Ends False (upagesNew (i386 B) size flags) u fun p u' => p ≠ 0 →
      (p ∉ O ∧ S.Out u'.env (insert p O) U P ∧ Leaves S U P u.env.mem u'.env.mem) ∧
        SameObjects u u' ∧ u'.vma = u.vma ∧
        u'.upages = update u.upages p ⟨⟨0, size, flags⟩, 0⟩ ∧ u'.links = u.links := by
  rw [upagesNew]
  refine (kmalloc_out hout).bind fun p u₁ hp => ?_
  by_cases h0 : p = 0
  · rw [if_neg (not_not.mpr h0)]
    exact ends_pure fun hne => absurd h0 hne
  · rw [if_pos h0]
    obtain ⟨hp, hsame, hvma, hup, hlinks⟩ := hp h0
    refine ends_modify_bind (ends_pure fun _ => ⟨hp, ⟨hsame.pgindex, hsame.before⟩, hvma, ?_,
      hlinks⟩)
    rw [← hup]

theorem allocUpages_out (hout : S.Out u.env O U P) (hup : u.upages p = pageAt 0) :
    Ends False (allocUpages (i386 B) p) u fun r u' => 0 ≤ r → ∃ f, (f ∉ U ∧
      S.Out u'.env O (insert f U) P ∧ Leaves S U P u.env.mem u'.env.mem) ∧
        SameObjects u u' ∧ u'.vma = u.vma ∧
        u'.upages = update u.upages p (pageAt f) ∧ u'.links = u.links := by
  rw [allocUpages]
  refine ends_touch_any_bind (ends_get_bind ?_)
  rw [hup, pageAt]
  refine ends_onEnv_bind (ends_leaves (S.allocPages u.env O U P hout).weaken
    fun hq => hq.allocPages u.env O U P hout) fun r s hr => ?_
  obtain ⟨c, pages⟩ := r
  obtain ⟨hleaves, ⟨hneg, -⟩ | ⟨-, hsize, hflags, hf, hout'⟩⟩ := hr
  · exact ends_modify_bind (ends_pure fun hc => absurd hneg (not_lt.mpr hc))
  · refine ends_modify_bind (ends_pure fun _ => ⟨pages.paddr, ⟨hf, hout', hleaves⟩, ⟨rfl, rfl⟩,
      rfl, ?_, rfl⟩)
    have hpages : pages = ⟨pages.paddr, pgSize, 0⟩ := by
      rw [← hsize, ← hflags]
    show update u.upages p { u.upages p with pages := pages } = _
    rw [hup, hpages]
    rfl

/-! ## One area -/

/-- What is out, and the page index of `dst`, whose directory is `d`, beside others in
the frames `X`. -/
structure Ready (S : BaseSpec B) (dst d : Nat) (X : Set Nat) (u : Uvm (Phys σ)) (O U Q : Set Nat) :
    Prop where
  out : S.Out u.env O U (Q ∪ X)
  apart : ∀ a ∈ Q, a ∉ X
  index : TwoLevel u.env.mem d Q
  sees : Sees (u.pgindex dst) d

/-- An area to be copied. -/
structure SourceArea (u : Uvm (Phys σ)) (O U : Set Nat) (v : Nat) : Prop where
  obj : v ∈ O
  pages : (u.vma v).pages ∈ O
  start : IsPage (u.vma v).start
  size : (u.vma v).size = pgSize
  psize : (u.upages (u.vma v).pages).pages.size = pgSize
  pflags : (u.upages (u.vma v).pages).pages.flags = 0
  frame : u.frameOf v ∈ U

/-- Between `u` and `u'` the area `w` of `dst` was made from `v`, on the pages `p` in the
frame `f`. -/
structure Copied (S : BaseSpec B) (dst d : Nat) (X : Set Nat) (u : Uvm (Phys σ)) (O U : Set Nat)
    (v w p f : Nat) (u' : Uvm (Phys σ)) : Prop where
  newVma : w ∉ O
  newPages : p ∉ insert w O
  newFrame : f ∉ U
  vma : u'.vma = update u.vma w { u.vma v with mm := dst, pages := p }
  upages : u'.upages = update u.upages p (pageAt f)
  same : SameObjects u u'
  leaves : Leaves S U X u.env.mem u'.env.mem
  bytes : S.Quiet → ∀ i < pgSize, u'.env.mem (f + i) = u.env.mem (u.frameOf v + i)
  entries : ∀ va, rawEntry u'.env.mem d va =
    if pdx va = pdx (u.vma v).start ∧ ptx va = ptx (u.vma v).start then
      (f ||| (u.vma v).flags ||| pteP) % 2 ^ 32
    else rawEntry u.env.mem d va

/-- `memmove` between two frames that are out, and only the new one is written. -/
theorem copyPages_copies {a : Nat} (hout : S.Out u.env O (insert f U) P) (hf : f ∉ U) (ha : a ∈ U)
    (hdst : (u.upages p).pages.paddr = f) (hsrc : u.frameOf v = a) :
    Ends False (copyPages (i386 B) v pgSize p) u fun _ u' => u' = { u with env := u'.env } ∧
      S.Out u'.env O (insert f U) P ∧ SameWords P u.env.mem u'.env.mem ∧
      SameBytes U u.env.mem u'.env.mem ∧
      ∀ i < pgSize, u'.env.mem (f + i) = u.env.mem (a + i) := by
  have hff : IsFrame f := BaseSpec.user hout (Set.mem_insert f U)
  have haf : IsFrame a := BaseSpec.user hout (Set.mem_insert_of_mem f ha)
  rw [copyPages]
  refine ends_touch_any_bind (ends_get_bind (ends_touch_any_bind ?_))
  show Ends False (onEnv (kmemmove (pa2kva (u.upages p).pages.paddr) (pa2kva (u.frameOf v))
    pgSize)) u _
  rw [hdst, hsrc]
  refine ends_onEnv (Q := fun _ s' => s' = { u.env with
    mem := kcopy u.env.mem (pa2kva f) (pa2kva a) pgSize }) (ends_modify rfl) fun _ s' hs' => ?_
  subst hs'
  have hcopied : SameOutside {f} u.env.mem (kcopy u.env.mem (pa2kva f) (pa2kva a) pgSize) :=
    fun x hx => kcopy_of_outside (sees_pa2kva hff.2) hff.le (hx f rfl)
  have hframe : ∀ x ∈ ({f} : Set Nat), IsFrame x := fun x hx => by
    rw [Set.mem_singleton_iff.mp hx]
    exact hff
  refine ⟨rfl, BaseSpec.kcopy hout (Set.mem_insert f U) (sees_pa2kva hff.2), ?_, ?_, ?_⟩
  · refine hcopied.sameWords hframe fun x hx => ⟨BaseSpec.page hout hx, fun hxf => ?_⟩
    rw [Set.mem_singleton_iff.mp hxf] at hx
    exact S.apart _ _ _ _ hout f (Set.mem_insert f U) hx
  · refine hcopied.sameBytes hframe fun x hx =>
      ⟨BaseSpec.user hout (Set.mem_insert_of_mem f hx), fun hxf => ?_⟩
    rw [Set.mem_singleton_iff.mp hxf] at hx
    exact hf hx
  · exact fun i hi => kcopy_at (sees_pa2kva hff.2) (sees_pa2kva haf.2) hff.le haf.le hi

/-- One round of the loop of `mm_clone` that returned an area. -/
theorem linkNewVma_copies {cur : VmaNode} (h : Ready S dst d X u O U Q)
    (hv : SourceArea u O U v) :
    Ends False (linkNewVma (i386 B) dst (u.vma v).start (u.vma v).size (u.vma v).flags
        (pagesRequest v) (copyPages (i386 B) v (u.vma v).size) cur) u fun r u' =>
      ∀ w, r = .inr w → ∃ p f Q', Copied S dst d X u O U v w p f u' ∧
        Ready S dst d X u' (insert p (insert w O)) (insert f U) Q' ∧
        u'.links = (u.links.init (.vma w)).add (.vma w) cur := by
  rw [linkNewVma]
  refine (vmaNew_out h.out).bind fun w u₁ h₁ => ?_
  by_cases hw0 : w = 0
  · rw [if_pos hw0]
    refine ends_pure fun w' hw' => ?_
    cases hw'
  rw [if_neg hw0]
  obtain ⟨⟨hwO, hout₁, hleaves₁⟩, hsame₁, hvma₁, hup₁, hlinks₁⟩ := h₁ hw0
  have hvw : v ≠ w := fun he => hwO (he ▸ hv.obj)
  have hv₁ : u₁.vma v = u.vma v := by
    rw [hvma₁, update_of_ne hvw]
  have hreq : Ends False (pagesRequest v) u₁ fun r u' => r = (pgSize, 0) ∧ u' = u₁ := by
    rw [pagesRequest]
    refine ends_touch_any_bind (ends_get_bind (ends_touch_any_bind (ends_pure ⟨?_, rfl⟩)))
    rw [hv₁, hup₁, hv.psize, hv.pflags]
  refine hreq.bind fun _ _ hr => ?_
  obtain ⟨rfl, rfl⟩ := hr
  refine (upagesNew_out hout₁).bind fun p u₂ h₂ => ?_
  by_cases hp0 : p = 0
  · rw [if_pos hp0]
    refine (ends_any _ u₂).bind fun _ _ _ => ends_pure fun w' hw' => ?_
    cases hw'
  rw [if_neg hp0]
  obtain ⟨⟨hpO, hout₂, hleaves₂⟩, hsame₂, hvma₂, hup₂, hlinks₂⟩ := h₂ hp0
  have hup₂' : u₂.upages p = pageAt 0 := by
    rw [hup₂, update_self]
    rfl
  refine (allocUpages_out hout₂ hup₂').bind fun r u₃ h₃ => ?_
  by_cases hr0 : r < 0
  · rw [if_pos hr0]
    refine (ends_any _ u₃).bind fun _ u₄ _ => (ends_any _ u₄).bind fun _ _ _ =>
      ends_pure fun w' hw' => ?_
    cases hw'
  rw [if_neg hr0]
  obtain ⟨f, ⟨hfU, hout₃, hleaves₃⟩, hsame₃, hvma₃, hup₃, hlinks₃⟩ := h₃ (not_lt.mp hr0)
  refine ends_touch_any_bind (ends_get_bind ?_)
  -- The page index is as it was, and there is a frame to map.
  have hsame := (hsame₁.trans hsame₂).trans hsame₃
  have hleaves := (hleaves₁.trans hleaves₂).trans hleaves₃
  have hsees : Sees (u₃.pgindex dst) d := by
    rw [hsame.pgindex]
    exact h.sees
  have hhas : (S.beside (insert p (insert w O)) (insert f U) X u₃.env.mem).Has u₃.env d Q :=
    ⟨⟨hout₃, h.apart, ⟨fun _ _ _ _ => rfl, fun _ => .refl _ _⟩⟩,
      h.index.keep (hleaves.words d (.inl h.index.dir))⟩
  have hraw : ∀ va, rawEntry u₃.env.mem d va = rawEntry u.env.mem d va :=
    h.index.rawEntry_eq (hleaves.words.mono Set.subset_union_left)
  have hpf : (u₃.upages p).pages.paddr = f := by
    rw [hup₃, update_self]
    rfl
  rw [hpf, hv.size]
  refine ends_onEnv_bind (mapPages_one hhas hsees hv.start) fun c s hc => ?_
  obtain ⟨Q', ⟨⟨hout₄, hapart₄, hleaves₄⟩, hindex₄⟩, hentry⟩ := hc
  by_cases hc0 : c < 0
  · rw [if_pos hc0]
    refine (ends_any _ _).bind fun _ u₄ _ => (ends_any _ u₄).bind fun _ u₅ _ =>
      (ends_any _ u₅).bind fun _ _ _ => ends_pure fun w' hw' => ?_
    cases hw'
  rw [if_neg hc0]
  have hentry := hentry (not_lt.mp hc0)
  -- The pages of the source are where they were.
  have hvp : (u.vma v).pages ≠ p := fun he => hpO (he ▸ Set.mem_insert_of_mem w hv.pages)
  have hsrc : u₃.frameOf v = u.frameOf v := by
    rw [Uvm.frameOf, Uvm.frameOf, hvma₃, hvma₂, hv₁, hup₃, update_of_ne hvp, hup₂,
      update_of_ne hvp, hup₁]
  refine (copyPages_copies (u := { u₃ with env := s }) hout₄ hfU hv.frame hpf hsrc).bind
    fun _ u₅ hu₅ => ?_
  obtain ⟨hu₅, hout₅, hwords, hbytes, hcopy⟩ := hu₅
  refine (attachVma_any w p cur u₅).bind fun _ u₆ h₆ => ends_pure fun w' hw' => ?_
  obtain rfl := Sum.inr.inj hw'
  obtain ⟨henv, hsame₆, hvma₆, hup₆, hlinks₆⟩ := h₆
  have hbefore : Leaves S U X u.env.mem s.mem :=
    (hleaves.mono subset_rfl Set.subset_union_right).trans
      (hleaves₄.mono (Set.subset_insert f U) subset_rfl)
  refine ⟨p, f, Q', ⟨hwO, hpO, hfU, ?_, ?_, ?_, ?_, ?_, ?_⟩, ⟨?_, hapart₄, ?_, ?_⟩, ?_⟩
  · rw [hvma₆, hu₅]
    show update u₃.vma w { u₃.vma w with pages := p } = _
    rw [hvma₃, hvma₂, hvma₁, update_self, update_idem]
  · rw [hup₆, hu₅]
    show u₃.upages = _
    rw [hup₃, hup₂, update_idem, hup₁]
  · exact (hsame.trans ⟨by rw [hu₅], by rw [hu₅]⟩).trans hsame₆
  · rw [henv]
    exact hbefore.trans ⟨hwords.mono Set.subset_union_right, fun _ => hbytes⟩
  · intro hq i hi
    rw [henv, hcopy i hi]
    exact hbefore.bytes hq _ hv.frame i hi
  · intro va
    rw [henv, hindex₄.rawEntry_eq (hwords.mono Set.subset_union_left), hentry va, hraw va]
  · rw [henv]
    exact hout₅
  · rw [henv]
    exact hindex₄.keep (hwords d (.inl hindex₄.dir))
  · rw [hsame₆.pgindex, hu₅]
    exact hsees
  · rw [hlinks₆, hu₅]
    show u₃.links.add _ _ = _
    rw [hlinks₃, hlinks₂, hlinks₁]

/-! ## All areas -/

theorem Copied.keeps {w p' x : Nat} (h : Copied S dst d X u O U v w p' f u') (hx : x ∈ O)
    (hp : (u.vma x).pages ∈ O) : u'.vma x = u.vma x ∧ u'.frameOf x = u.frameOf x := by
  have hxw : x ≠ w := fun he => h.newVma (he ▸ hx)
  have hpp : (u.vma x).pages ≠ p' := fun he => h.newPages (he ▸ Set.mem_insert_of_mem w hp)
  have hvma : u'.vma x = u.vma x := by rw [h.vma, update_of_ne hxw]
  refine ⟨hvma, ?_⟩
  rw [Uvm.frameOf, Uvm.frameOf, hvma, h.upages, update_of_ne hpp]

theorem Copied.frameOf_new {w p' : Nat} (h : Copied S dst d X u O U v w p' f u') :
    u'.frameOf w = f := by
  rw [Uvm.frameOf, h.vma, update_self, h.upages]
  show (update u.upages p' (pageAt f) p').pages.paddr = f
  rw [update_self]
  rfl

/-- The area `w` of `dst` is a copy of the area `v`, as that was in `u₀`. -/
structure CopyOf (S : BaseSpec B) (dst d : Nat) (u₀ : Uvm (Phys σ)) (O₀ U₀ : Set Nat)
    (u : Uvm (Phys σ)) (O U : Set Nat) (v w : Nat) : Prop where
  fresh : w ∉ O₀
  obj : w ∈ O
  pages : (u.vma w).pages ∈ O
  vma : u.vma w = { u₀.vma v with mm := dst, pages := (u.vma w).pages }
  frame : u.frameOf w ∈ U
  own : u.frameOf w ∉ U₀
  bytes : S.Quiet → ∀ i < pgSize, u.env.mem (u.frameOf w + i) = u₀.env.mem (u₀.frameOf v + i)
  entry : rawEntry u.env.mem d (u₀.vma v).start =
    (u.frameOf w ||| (u₀.vma v).flags ||| pteP) % 2 ^ 32

/-- On the way from `u₀`, where the areas of `src` were `l`, the first ones, `old`, have
been copied to `new`. -/
structure Cloning (S : BaseSpec B) (dst d src : Nat) (X : Set Nat) (u₀ : Uvm (Phys σ))
    (O₀ U₀ : Set Nat) (l old new : List Nat) (u : Uvm (Phys σ)) (O U Q : Set Nat) : Prop where
  ready : Ready S dst d X u O U Q
  objs : O₀ ⊆ O
  users : U₀ ⊆ U
  source : Links.Ring u.links (.sentry src) (nodes l)
  list : Links.Ring u.links (.sentry dst) (nodes new)
  same : SameObjects u₀ u
  vma : ∀ x ∈ O₀, u.vma x = u₀.vma x
  upages : ∀ x ∈ O₀, u.upages x = u₀.upages x
  leaves : Leaves S U₀ X u₀.env.mem u.env.mem
  copies : List.Forall₂ (CopyOf S dst d u₀ O₀ U₀ u O U) old new
  apart : (new.map u.frameOf).Nodup

section Loop

variable {u₀ u' : Uvm (Phys σ)} {O₀ U₀ Q' : Set Nat} {src w p' : Nat} {l old new rest : List Nat}
  {α β : Type} {as : List α} {bs : List β}

theorem SourceArea.keep (h : SourceArea u₀ O₀ U₀ v) (hO : O₀ ⊆ O) (hU : U₀ ⊆ U)
    (hvma : u.vma v = u₀.vma v)
    (hup : u.upages (u₀.vma v).pages = u₀.upages (u₀.vma v).pages) : SourceArea u O U v := by
  have hframe : u.frameOf v = u₀.frameOf v := by rw [Uvm.frameOf, Uvm.frameOf, hvma, hup]
  refine ⟨hO h.obj, ?_, ?_, ?_, ?_, ?_, ?_⟩
  · rw [hvma]
    exact hO h.pages
  · rw [hvma]
    exact h.start
  · rw [hvma]
    exact h.size
  · rw [hvma, hup]
    exact h.psize
  · rw [hvma, hup]
    exact h.pflags
  · rw [hframe]
    exact hU h.frame

theorem mem_of_forall₂ {R : α → β → Prop} {b : β} (h : List.Forall₂ R as bs) (hb : b ∈ bs) :
    ∃ a ∈ as, R a b := by
  induction h with
  | nil => cases hb
  | @cons a b' as bs hab _ ih =>
      rcases List.mem_cons.mp hb with rfl | hb
      · exact ⟨a, List.mem_cons_self, hab⟩
      · obtain ⟨a', ha', hr⟩ := ih hb
        exact ⟨a', List.mem_cons_of_mem _ ha', hr⟩

theorem forall₂_imp_mem {R R' : α → β → Prop} (h : List.Forall₂ R as bs)
    (himp : ∀ a ∈ as, ∀ b, R a b → R' a b) :
    List.Forall₂ R' as bs := by
  induction h with
  | nil => exact .nil
  | @cons a b as bs hab _ ih =>
      exact .cons (himp a List.mem_cons_self b hab)
        (ih fun x hx => himp x (List.mem_cons_of_mem _ hx))

/-- Another area is copied. -/
theorem CopyOf.keep {v' p' f' w' : Nat} (h : CopyOf S dst d u₀ O₀ U₀ u O U v w)
    (hc : Copied S dst d X u O U v' w' p' f' u') (hstart : IsPage (u₀.vma v).start)
    (hpage : IsPage (u.vma v').start) (hne : (u₀.vma v).start ≠ (u.vma v').start) :
    CopyOf S dst d u₀ O₀ U₀ u' (insert p' (insert w' O)) (insert f' U) v w := by
  obtain ⟨hvma, hframe⟩ := hc.keeps h.obj h.pages
  have hmem : ∀ x ∈ O, x ∈ insert p' (insert w' O) := fun x hx => .inr (.inr hx)
  refine ⟨h.fresh, hmem w h.obj, ?_, ?_, ?_, ?_, fun hq i hi => ?_, ?_⟩
  · rw [hvma]
    exact hmem _ h.pages
  · rw [hvma]
    exact h.vma
  · rw [hframe]
    exact .inr h.frame
  · rw [hframe]
    exact h.own
  · rw [hframe, hc.leaves.bytes hq _ h.frame i hi]
    exact h.bytes hq i hi
  · -- The entry of another page.
    rw [hc.entries, if_neg, h.entry, hframe]
    rw [samePage_iff hpage hstart.2]
    obtain ⟨hal, -⟩ := hstart
    obtain ⟨hal', -⟩ := hpage
    rw [pgSize] at *
    omega

/-- The area that was made is a copy. -/
theorem Copied.copyOf (h : Cloning S dst d src X u₀ O₀ U₀ l old new u O U Q)
    (hv : SourceArea u₀ O₀ U₀ v) (hc : Copied S dst d X u O U v w p' f u') :
    CopyOf S dst d u₀ O₀ U₀ u' (insert p' (insert w O)) (insert f U) v w := by
  have hvma := h.vma v hv.obj
  have hframe : u.frameOf v = u₀.frameOf v := by
    rw [Uvm.frameOf, Uvm.frameOf, hvma, h.upages _ hv.pages]
  have hw : u'.vma w = { u₀.vma v with mm := dst, pages := p' } := by
    rw [hc.vma, update_self, hvma]
  have hwp : (u'.vma w).pages = p' := by rw [hw]
  refine ⟨fun hw₀ => hc.newVma (h.objs hw₀), .inr (.inl rfl), ?_, ?_, ?_, ?_,
    fun hq i hi => ?_, ?_⟩
  · rw [hwp]
    exact .inl rfl
  · rw [hwp]
    exact hw
  · rw [hc.frameOf_new]
    exact .inl rfl
  · rw [hc.frameOf_new]
    exact fun hf => hc.newFrame (h.users hf)
  · rw [hc.frameOf_new, hc.bytes hq i hi, hframe]
    exact h.leaves.bytes hq _ hv.frame i hi
  · rw [hc.entries, hvma, if_pos ⟨rfl, rfl⟩, hc.frameOf_new]

/-- A round that copied the area `v`. -/
theorem Cloning.copy (h : Cloning S dst d src X u₀ O₀ U₀ l old new u O U Q)
    (hne : src ≠ dst) (hsrc : ∀ x ∈ l, SourceArea u₀ O₀ U₀ x) (hold : ∀ x ∈ old, x ∈ l)
    (hv : v ∈ l) (hfree : ∀ x ∈ old, (u₀.vma x).start ≠ (u₀.vma v).start)
    (hc : Copied S dst d X u O U v w p' f u')
    (hready : Ready S dst d X u' (insert p' (insert w O)) (insert f U) Q')
    (hlinks : u'.links = (u.links.init (.vma w)).add (.vma w)
      ((nodes new).getLastD (.sentry dst))) :
    Cloning S dst d src X u₀ O₀ U₀ l (old ++ [v]) (new ++ [w]) u'
      (insert p' (insert w O)) (insert f U) Q' := by
  have hv₀ := hsrc v hv
  have hO : ∀ x ∈ O₀, x ≠ w ∧ x ≠ p' := fun x hx =>
    ⟨fun he => hc.newVma (he ▸ h.objs hx), fun he => hc.newPages (he ▸ .inr (h.objs hx))⟩
  have hcopies : ∀ x ∈ new, x ∈ O ∧ x ∉ O₀ ∧ u'.frameOf x = u.frameOf x ∧ u.frameOf x ∈ U :=
    fun x hx => by
      obtain ⟨y, -, hcopy⟩ := mem_of_forall₂ h.copies hx
      exact ⟨hcopy.obj, hcopy.fresh, (hc.keeps hcopy.obj hcopy.pages).2, hcopy.frame⟩
  -- The two lists are apart, and `w` is in none of them.
  have hwl : VmaNode.vma w ∉ VmaNode.sentry src :: nodes l := fun hw =>
    (hO w (hsrc w (vma_mem_iff.mp hw)).obj).1 rfl
  have hwnew : VmaNode.vma w ∉ VmaNode.sentry dst :: nodes new := fun hw =>
    hc.newVma (hcopies w (vma_mem_iff.mp hw)).1
  have hdisj : ∀ y ∈ VmaNode.sentry src :: nodes l, y ∉ VmaNode.sentry dst :: nodes new :=
    nodes_disjoint hne fun x hx hx' => (hcopies x hx').2.1 (hsrc x hx).obj
  have hlist : Links.Ring (u.links.init (.vma w)) (.sentry dst) (nodes new ++ []) := by
    rw [List.append_nil]
    exact h.list.init_other hwnew
  refine ⟨hready, fun x hx => .inr (.inr (h.objs hx)), fun a ha => .inr (h.users ha), ?_, ?_,
    h.same.trans hc.same, fun x hx => ?_, fun x hx => ?_,
    h.leaves.trans (hc.leaves.mono h.users subset_rfl), ?_, ?_⟩
  · rw [hlinks]
    refine hlist.add_other (h.source.init_other hwl) ?_ hwl
    rw [List.append_nil]
    exact hdisj
  · rw [hlinks, nodes_append]
    refine hlist.add ?_
    rw [List.append_nil]
    exact hwnew
  · rw [hc.vma, update_of_ne (hO x hx).1]
    exact h.vma x hx
  · rw [hc.upages, update_of_ne (hO x hx).2]
    exact h.upages x hx
  · -- The copies so far are still copies, and there is one more.
    have hstart : (u.vma v).start = (u₀.vma v).start := by rw [h.vma v hv₀.obj]
    refine List.rel_append ?_ (.cons (hc.copyOf h hv₀) .nil)
    refine forall₂_imp_mem h.copies fun x hx y hxy => ?_
    refine hxy.keep hc (hsrc x (hold x hx)).start ?_ ?_
    · rw [hstart]
      exact hv₀.start
    · rw [hstart]
      exact hfree x hx
  · rw [List.map_append, List.map_congr_left fun x hx => (hcopies x hx).2.2.1]
    refine List.nodup_append.mpr ⟨h.apart, List.nodup_singleton _, ?_⟩
    intro a ha b hb hab
    obtain ⟨x, hx, rfl⟩ := List.mem_map.mp ha
    obtain rfl := List.mem_singleton.mp hb
    rw [hc.frameOf_new] at hab
    exact hc.newFrame (hab ▸ (hcopies x hx).2.2.2)

theorem ends_nextEntry_any (n : VmaNode) (u : Uvm σ) :
    Ends False (nextEntry n) u fun q u' => q = u.links.next n ∧ u' = u := by
  rw [nextEntry]
  exact ends_touch_any_bind (ends_get_bind (ends_pure ⟨rfl, rfl⟩))

/-- The loop of `mm_clone`, from any round on. -/
theorem cloneLoop_copies {fuel clonedSize : Nat}
    (h : Cloning S dst d src X u₀ O₀ U₀ l old new u O U Q) (hne : src ≠ dst)
    (hl : l = old ++ rest) (hsrc : ∀ v ∈ l, SourceArea u₀ O₀ U₀ v)
    (hnd : (u₀.starts l).Nodup) :
    Ends False (cloneLoop (i386 B) dst src fuel clonedSize ((nodes rest).headD (.sentry src))
        ((nodes new).getLastD (.sentry dst))) u fun r u' => r.1 = 0 →
      ∃ new' O' U' Q', Cloning S dst d src X u₀ O₀ U₀ l l new' u' O' U' Q' := by
  induction rest generalizing u O U Q old new fuel clonedSize with
  | nil =>
      rw [List.append_nil] at hl
      subst hl
      cases fuel with
      | zero => exact ends_throw id
      | succ fuel =>
          show Ends False (cloneLoop (i386 B) dst src (fuel + 1) clonedSize (.sentry src) _) u _
          rw [cloneLoop, if_pos rfl]
          exact ends_pure fun _ => ⟨new, O, U, Q, h⟩
  | cons v rest ih =>
      cases fuel with
      | zero => exact ends_throw id
      | succ fuel =>
          have hv : v ∈ l := hl ▸ mem_middle
          have hv₀ := hsrc v hv
          have harea := hv₀.keep h.objs h.users (h.vma v hv₀.obj) (h.upages _ hv₀.pages)
          show Ends False (cloneLoop (i386 B) dst src (fuel + 1) clonedSize (.vma v) _) u _
          rw [cloneLoop, if_neg VmaNode.noConfusion]
          refine ends_touch_any_bind (ends_get_bind ?_)
          refine ((linkNewVma_copies h.ready harea).and (linkNewVma_code u
            fun g va a n f s => mapPages_code B.pager g va a n f s)).bind fun r u₁ hr => ?_
          obtain ⟨hcopied, hcode⟩ := hr
          cases r with
          | inl c =>
              refine ends_pure fun hc0 => ?_
              rcases hcode c rfl with rfl | rfl
              · cases hc0
              · cases hc0
          | inr w =>
              obtain ⟨p', f, Q', hc, hready, hlinks⟩ := hcopied w rfl
              have hold : ∀ x ∈ old, x ∈ l := fun x hx => hl ▸ List.mem_append_left _ hx
              have hfree : ∀ x ∈ old, (u₀.vma x).start ≠ (u₀.vma v).start := by
                intro x hx
                rw [hl, Uvm.starts, List.map_append] at hnd
                exact (List.nodup_append.mp hnd).2.2 _ (List.mem_map_of_mem hx) _
                  List.mem_cons_self
              have hnext := h.copy hne hsrc hold hv hfree hc hready hlinks
              refine ends_touch_any_bind (ends_get_bind ?_)
              refine (ends_nextEntry_any (.vma v) u₁).bind fun q u₂ hq => ?_
              obtain ⟨rfl, rfl⟩ := hq
              have hring := hnext.source
              rw [hl, nodes_append] at hring
              rw [show u₂.links.next (.vma v) = (nodes rest).headD (.sentry src) from
                hring.next_mem, ← nodes_getLastD_concat new w (.sentry dst)]
              exact ih hnext (by rw [hl, List.append_assoc]; rfl)

/-- An `mm_clone` that returns zero has copied every area. -/
theorem mmClone_copies (h : Ready S dst d X u O U Q) (hne : src ≠ dst)
    (hlist : Links.Ring u.links (.sentry src) (nodes l))
    (hempty : Links.Ring u.links (.sentry dst) (nodes []))
    (hsrc : ∀ v ∈ l, SourceArea u O U v) (hnd : (u.starts l).Nodup) :
    Ends False (mmClone (i386 B) dst src) u fun r u' => r = 0 →
      ∃ new O' U' Q', Cloning S dst d src X u O U l l new u' O' U' Q' := by
  have hstart : Cloning S dst d src X u O U l [] [] u O U Q :=
    ⟨h, subset_rfl, subset_rfl, hlist, hempty, ⟨rfl, rfl⟩, fun _ _ => rfl, fun _ _ => rfl,
      ⟨fun _ _ _ _ => rfl, fun _ => .refl _ _⟩, .nil, List.nodup_nil⟩
  rw [mmClone]
  refine (ends_nextEntry_any (.sentry src) u).bind fun q u₁ hq => ?_
  obtain ⟨rfl, rfl⟩ := hq
  have hring : Links.Ring u₁.links (.sentry src) ([] ++ nodes l) := hlist
  have hfirst : u₁.links.next (.sentry src) = (nodes l).headD (.sentry src) := hring.next_last
  rw [hfirst]
  refine (cloneLoop_copies hstart hne rfl hsrc hnd).bind fun r u₂ hr => ?_
  obtain ⟨c, clonedSize⟩ := r
  show Ends False (if c < 0 then _ else _) u₂ _
  by_cases hc : c < 0
  · rw [if_pos hc]
    refine (ends_any _ u₂).bind fun _ u₃ _ => (ends_any _ u₃).bind fun _ _ _ =>
      ends_pure fun hc0 => ?_
    rw [hc0] at hc
    exact absurd hc (lt_irrefl _)
  · rw [if_neg hc]
    exact ends_pure hr

end Loop

end Aim.Kern
