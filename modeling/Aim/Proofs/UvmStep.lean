import Aim.Proofs.UvmInv

/-!
# One area at a time

What the functions of `uvm.c` do to the invariant, from the object functions up
to `linkNewVma` and one round of `__unmap_and_free_vma`. While a call is at
work on an area that is not, or no longer, in a list, the other areas are
untouched: `Working` says so, and each small step of a call only has to keep
that and say what it did to the account of the environment.
-/

namespace Aim.Kern

open Aim.Lib Function

variable {σ β α : Type} {E : Env σ} {paged total : Prop} {S : EnvSpec E paged total}
  {u₀ u u' : Uvm σ} {mms l₁ l₂ xs l : List Nat} {vmas : Nat → List Nat} {H : Others} {R R₀ R' : Res}
  {m v p a g m' start flags : Nat} {n : VmaNode} {X : Set Nat} {Q : β → Uvm σ → Prop}
  {func condition : String} {holds : Bool} {line : Int} {f : VmaNode → EStateM Stop (Uvm σ) β}
  {s : σ} {k : Links VmaNode}

/-! ## Accesses -/

theorem ends_onEnv {x : EStateM Stop σ α} {Q : α → σ → Prop} {Q' : α → Uvm σ → Prop}
    (h : Ends total x u.env Q) (hQ : ∀ a s, Q a s → Q' a { u with env := s }) :
    Ends total (onEnv x) u Q' :=
  ends_zoom h hQ

/-- A call to the environment, and what follows. -/
theorem ends_onEnv_bind {α β : Type} {x : EStateM Stop σ α} {f : α → EStateM Stop (Uvm σ) β}
    {Q : α → σ → Prop} {Q' : β → Uvm σ → Prop} (h : Ends total x u.env Q)
    (hf : ∀ a s, Q a s → Ends total (f a) { u with env := s } Q') :
    Ends total (onEnv x >>= f) u Q' := by
  have hx : Ends total (onEnv x) u fun a u' => ∃ s, Q a s ∧ u' = { u with env := s } :=
    ends_onEnv h fun a s hQ => ⟨s, hQ, rfl⟩
  refine hx.bind ?_
  intro a u' hQ
  obtain ⟨s, hQ, rfl⟩ := hQ
  exact hf a s hQ

theorem ends_kassert {Q : Unit → Uvm σ → Prop} (h : holds = false → ¬ total) (hQ : Q () u) :
    Ends total (kassert func condition line holds) u Q := by
  cases holds with
  | true => exact ends_pure hQ
  | false => exact ends_throw (h rfl)

theorem ends_kassert_bind {f : Unit → EStateM Stop (Uvm σ) β} (h : holds = false → ¬ total)
    (hf : Ends total (f ()) u Q) :
    Ends total (kassert func condition line holds >>= f) u Q := by
  refine (ends_kassert (Q := fun _ u' => u' = u) h rfl).bind ?_
  intro _ u' hu'
  rw [hu']
  exact hf

theorem ends_touch_any (xs : List Nat) (u : Uvm σ) :
    Ends False (touch xs) u fun _ u' => u' = u := by
  rw [touch]
  refine ends_get_bind ?_
  cases xs.find? fun x => !u.live x with
  | none => exact ends_pure rfl
  | some x => exact ends_throw id

theorem ends_touch_any_bind {k : Unit → EStateM Stop (Uvm σ) β} (h : Ends False (k ()) u Q) :
    Ends False (touch xs >>= k) u Q := by
  refine (ends_touch_any xs u).bind fun _ u' hu' => ?_
  rw [hu']
  exact h

/-- Everything but the data of areas and the lists is the same. -/
structure SameObjects (u u' : Uvm σ) : Prop where
  pgindex : u'.pgindex = u.pgindex
  before : u'.before = u.before

theorem SameObjects.trans {u u' u'' : Uvm σ} (h : SameObjects u u') (h' : SameObjects u' u'') :
    SameObjects u u'' := ⟨h'.pgindex.trans h.pgindex, h'.before.trans h.before⟩

theorem attachVma_any (w p : Nat) (cur : VmaNode) (u : Uvm σ) :
    Ends False (attachVma w p cur) u fun _ u' => u'.env = u.env ∧ SameObjects u u' ∧
      u'.vma = update u.vma w { u.vma w with pages := p } ∧ u'.upages = u.upages ∧
      u'.links = u.links.add (.vma w) cur := by
  rw [attachVma]
  refine ends_touch_any_bind (ends_modify_bind ?_)
  rw [refUpages, bind_assoc]
  refine ends_touch_any_bind ?_
  have hnode : Ends False (addNode (.vma w) cur) { u with
      vma := update u.vma w { u.vma w with pages := p } } fun _ u' => u' = { u with
        vma := update u.vma w { u.vma w with pages := p }
        links := u.links.add (.vma w) cur } := by
    rw [addNode]
    exact ends_get_bind (ends_touch_any_bind (ends_modify rfl))
  refine hnode.bind fun _ u' hu' => ?_
  rw [hu', addShare]
  exact ends_get_bind (ends_touch_any_bind (ends_modify ⟨rfl, ⟨rfl, rfl⟩, rfl, rfl, rfl⟩))

theorem run_get_bind {f : Uvm σ → EStateM Stop (Uvm σ) α} :
    (get >>= f).run u = (f u).run u := rfl

theorem touch_run (h : ∀ x ∈ xs, u.live x = true) : (touch xs).run u = .ok () u := by
  have hnone : (xs.find? fun x => !u.live x) = none := by
    refine List.find?_eq_none.mpr ?_
    intro x hx
    rw [h x hx]
    exact Bool.false_ne_true
  rw [touch, run_get_bind, hnone]
  rfl

theorem ends_touch_bind {f : Unit → EStateM Stop (Uvm σ) β} (h : ∀ x ∈ xs, u.live x = true)
    (hf : Ends total (f ()) u Q) :
    Ends total (touch xs >>= f) u Q :=
  ends_bind_ok (touch_run h) hf

theorem live_one {x : Nat} (h : u.live x = true) : ∀ y ∈ [x], u.live y = true := by
  intro y hy
  rw [List.mem_singleton.mp hy]
  exact h

theorem live_two {x y : Nat} (hx : u.live x = true) (hy : u.live y = true) :
    ∀ z ∈ [x, y], u.live z = true := by
  intro z hz
  rcases List.mem_cons.mp hz with rfl | hz
  · exact hx
  · exact live_one hy z hz

theorem live_three {x y z : Nat} (hx : u.live x = true) (hy : u.live y = true)
    (hz : u.live z = true) : ∀ w ∈ [x, y, z], u.live w = true := by
  intro w hw
  rcases List.mem_cons.mp hw with rfl | hw
  · exact hx
  · exact live_two hy hz w hw

theorem nextEntry_run (h : u.live n.object = true) :
    (nextEntry n).run u = .ok (u.links.next n) u := by
  rw [nextEntry, run_bind_ok (touch_run (live_one h))]
  rfl

theorem prevEntry_run (h : u.live n.object = true) :
    (prevEntry n).run u = .ok (u.links.prev n) u := by
  rw [prevEntry, run_bind_ok (touch_run (live_one h))]
  rfl

theorem ends_nextEntry_bind (h : u.live n.object = true)
    (hf : Ends total (f (u.links.next n)) u Q) :
    Ends total (nextEntry n >>= f) u Q :=
  ends_bind_ok (nextEntry_run h) hf

theorem ends_prevEntry_bind (h : u.live n.object = true)
    (hf : Ends total (f (u.links.prev n)) u Q) :
    Ends total (prevEntry n >>= f) u Q :=
  ends_bind_ok (prevEntry_run h) hf

/-! ## In the middle of a call -/

/-- In the middle of a call that started in `u₀`: the environment accounts for
`R`, and the data of the areas is as it was. -/
structure Busy (S : EnvSpec E paged total) (mms : List Nat) (vmas : Nat → List Nat)
    (u₀ u : Uvm σ) (R : Res) : Prop where
  rep : S.Rep u.env R
  live : ∀ x, u.live x = true ↔ x ∈ R.objs
  data : SameData mms vmas u₀ u

/-- Their lists are as they were, too. -/
structure Working (S : EnvSpec E paged total) (mms : List Nat) (vmas : Nat → List Nat)
    (u₀ u : Uvm σ) (R : Res) : Prop where
  rep : S.Rep u.env R
  live : ∀ x, u.live x = true ↔ x ∈ R.objs
  data : SameData mms vmas u₀ u
  ring : ∀ m ∈ mms, Links.Ring u.links (.sentry m) (nodes (vmas m))
  share : ∀ v, Live mms vmas v → Links.Ring u.share (.sentry (u₀.vma v).pages) [.vma v]

/-- No list is written to. -/
def SameLists (u u' : Uvm σ) : Prop := u'.links = u.links ∧ u'.share = u.share

theorem SameLists.trans {u'' : Uvm σ} (h : SameLists u u') (h' : SameLists u' u'') :
    SameLists u u'' := ⟨h'.1.trans h.1, h'.2.trans h.2⟩

theorem Working.busy (hw : Working S mms vmas u₀ u R) : Busy S mms vmas u₀ u R :=
  ⟨hw.rep, hw.live, hw.data⟩

theorem Working.of_busy (hw : Working S mms vmas u₀ u R) (hb : Busy S mms vmas u₀ u' R')
    (hl : SameLists u u') : Working S mms vmas u₀ u' R' where
  rep := hb.rep
  live := hb.live
  data := hb.data
  ring := by rw [hl.1]; exact hw.ring
  share := by rw [hl.2]; exact hw.share

theorem UvmInv.working (h : UvmInv S H u mms vmas R) : Working S mms vmas u u R :=
  ⟨h.rep, h.live, .refl u, h.spaces.ring, h.spaces.share⟩

theorem Res.setInner_self : R.setInner g (R.inner g) = R := by
  rw [setInner, update_eq_self]

/-- What was an invariant in `u₀` is one again. -/
theorem Working.inv (hw : Working S mms vmas u₀ u (R.setInner g X)) (h : UvmInv S H u₀ mms vmas R) :
    UvmInv S H u mms vmas (R.setInner g X) where
  rep := hw.rep
  live := hw.live
  nodup := h.nodup
  spaces := h.spaces.keep hw.data hw.ring hw.share
  owned := (h.owned.keep hw.data).inner
  indexed hp := ((h.indexed hp).keep hw.data).inner
  low ht v hv := by
    rw [hw.data.vma v hv]
    exact h.low ht v hv

theorem Working.inv_self (hw : Working S mms vmas u₀ u R) (h : UvmInv S H u₀ mms vmas R) :
    UvmInv S H u mms vmas R := by
  rw [← Res.setInner_self (R := R) (g := 0)] at hw ⊢
  exact hw.inv h

theorem Busy.env (hb : Busy S mms vmas u₀ u R) (hrep : S.Rep s R') (hobjs : R'.objs = R.objs) :
    Busy S mms vmas u₀ { u with env := s } R' where
  rep := hrep
  live := by rw [hobjs]; exact hb.live
  data := ⟨hb.data.before, hb.data.kernelMm, hb.data.pgindex, hb.data.vma, hb.data.upages⟩

theorem Working.env (hw : Working S mms vmas u₀ u R) (hrep : S.Rep s R')
    (hobjs : R'.objs = R.objs) : Working S mms vmas u₀ { u with env := s } R' :=
  hw.of_busy (hw.busy.env hrep hobjs) ⟨rfl, rfl⟩

/-- The objects of the address spaces are out. -/
structure ObjsOut (u₀ : Uvm σ) (mms : List Nat) (vmas : Nat → List Nat) (R : Res) : Prop where
  mm : ∀ m ∈ mms, m ∈ R.objs
  vma : ∀ v, Live mms vmas v → v ∈ R.objs
  pages : ∀ v, Live mms vmas v → (u₀.vma v).pages ∈ R.objs

theorem Owned.objsOut {O F : Set Nat} (h : Owned u mms vmas O F R) : ObjsOut u mms vmas R where
  mm m hm := (h.objs m).mpr (.inr (.inl hm))
  vma v hv := (h.objs v).mpr (.inr (.inr ⟨v, hv, .inl rfl⟩))
  pages v hv := (h.objs _).mpr (.inr (.inr ⟨v, hv, .inr rfl⟩))

theorem ObjsOut.addObj (h : ObjsOut u mms vmas R) : ObjsOut u mms vmas (R.addObj p) where
  mm m hm := Set.mem_insert_of_mem p (h.mm m hm)
  vma v hv := Set.mem_insert_of_mem p (h.vma v hv)
  pages v hv := Set.mem_insert_of_mem p (h.pages v hv)

theorem nodes_mem : n ∈ nodes l ↔ ∃ v ∈ l, n = .vma v := by
  rw [nodes, List.mem_map]
  exact ⟨fun ⟨v, hv, hn⟩ => ⟨v, hv, hn.symm⟩, fun ⟨v, hv, hn⟩ => ⟨v, hv, hn.symm⟩⟩

theorem nodes_append : nodes (l₁ ++ l₂) = nodes l₁ ++ nodes l₂ := List.map_append

theorem vma_mem_iff : .vma v ∈ VmaNode.sentry m :: nodes l ↔ v ∈ l := by
  rw [List.mem_cons, or_iff_right VmaNode.noConfusion, nodes_mem]
  constructor
  · rintro ⟨w, hw, hvw⟩
    exact VmaNode.vma.inj hvw ▸ hw
  · exact fun hv => ⟨v, hv, rfl⟩

theorem sentry_mem_iff : .sentry m' ∈ VmaNode.sentry m :: nodes l ↔ m' = m := by
  rw [List.mem_cons, nodes_mem, VmaNode.sentry.injEq]
  refine or_iff_left ?_
  rintro ⟨v, -, hv⟩
  cases hv

/-- Two lists have no node in common. -/
theorem nodes_disjoint {l l' : List Nat} (hne : m' ≠ m) (h : ∀ v ∈ l', v ∉ l) :
    ∀ n ∈ VmaNode.sentry m' :: nodes l', n ∉ VmaNode.sentry m :: nodes l := by
  intro n hn hn'
  cases n with
  | sentry a => exact hne ((sentry_mem_iff.mp hn).symm.trans (sentry_mem_iff.mp hn'))
  | vma v => exact h v (vma_mem_iff.mp hn) (vma_mem_iff.mp hn')

theorem vma_notMem (hv : ¬ Live mms vmas v) (hm : m ∈ mms) :
    .vma v ∉ VmaNode.sentry m :: nodes (vmas m) := fun hmem => hv ⟨m, hm, vma_mem_iff.mp hmem⟩

/-- The nodes of a list are part of objects that are out. -/
theorem ObjsOut.node (h : ObjsOut u₀ mms vmas R) (hm : m ∈ mms)
    (hn : n ∈ VmaNode.sentry m :: nodes (vmas m)) : n.object ∈ R.objs := by
  rcases List.mem_cons.mp hn with rfl | hn
  · exact h.mm m hm
  · obtain ⟨v, hv, rfl⟩ := nodes_mem.mp hn
    exact h.vma v (.of_mem hm hv)

/-! ## Objects -/

theorem Working.kmalloc {n : Nat} (hw : Working S mms vmas u₀ u R) :
    Ends total (kmalloc E n) u fun p u' => u'.vma = u.vma ∧ u'.upages = u.upages ∧
      ((p = 0 ∧ Working S mms vmas u₀ u' R) ∨
        (p ≠ 0 ∧ p ∉ R.objs ∧ Working S mms vmas u₀ u' (R.addObj p))) := by
  rw [Kern.kmalloc]
  refine ends_onEnv_bind (S.kmalloc u.env R n hw.rep) ?_
  intro p s hp
  rcases hp with ⟨hp0, hrep⟩ | ⟨hp0, hpR, hrep⟩
  · rw [if_neg (not_not.mpr hp0)]
    exact ends_pure ⟨rfl, rfl, .inl ⟨hp0, hw.env hrep rfl⟩⟩
  · rw [if_pos hp0]
    refine ends_modify_bind (ends_pure ⟨rfl, rfl, .inr ⟨hp0, hpR, hrep, ?_, ?_, hw.ring, hw.share⟩⟩)
    · intro x
      show update u.live p true x = true ↔ x ∈ insert p R.objs
      rw [Set.mem_insert_iff, ← hw.live x]
      by_cases hx : x = p
      · rw [hx, update_self]
        simp
      · rw [update_of_ne hx]
        simp [hx]
    · exact ⟨hw.data.before, hw.data.kernelMm, hw.data.pgindex, hw.data.vma, hw.data.upages⟩

theorem Busy.kfree (hb : Busy S mms vmas u₀ u R) (hp : p ∈ R.objs) :
    Ends total (kfree E p) u fun _ u' =>
      Busy S mms vmas u₀ u' (R.dropObj p) ∧ SameLists u u' := by
  rw [Kern.kfree]
  refine ends_touch_bind (live_one ((hb.live p).mpr hp)) ?_
  refine ends_onEnv_bind (S.kfree u.env R p hb.rep hp) ?_
  intro _ s hrep
  refine ends_modify ⟨⟨hrep, ?_, ?_⟩, rfl, rfl⟩
  · intro x
    show update u.live p false x = true ↔ x ∈ R.objs \ {p}
    rw [Set.mem_sdiff, Set.mem_singleton_iff, ← hb.live x]
    by_cases hx : x = p
    · rw [hx, update_self]
      simp
    · rw [update_of_ne hx]
      simp [hx]
  · exact ⟨hb.data.before, hb.data.kernelMm, hb.data.pgindex, hb.data.vma, hb.data.upages⟩

theorem Working.kfree (hw : Working S mms vmas u₀ u R) (hp : p ∈ R.objs) :
    Ends total (kfree E p) u fun _ u' => Working S mms vmas u₀ u' (R.dropObj p) := by
  refine (hw.busy.kfree hp).imp ?_
  intro _ u' hu'
  exact hw.of_busy hu'.1 hu'.2

/-- Nodes of different areas in the lists of sharers are different. -/
theorem share_apart {w q : Nat} (hpq : q ≠ p) (hvw : w ≠ v) :
    ∀ n ∈ [ShareNode.sentry q, .vma w], n ∉ [ShareNode.sentry p, .vma v] := by
  simp [hpq, hvw]

theorem vmaNew_ends {addr size flags : Nat} (hw : Working S mms vmas u₀ u R)
    (hout : ObjsOut u₀ mms vmas R) :
    Ends total (vmaNew E m addr size flags) u fun v u' =>
      (v = 0 ∧ Working S mms vmas u₀ u' R) ∨
        (v ≠ 0 ∧ v ∉ R.objs ∧ Working S mms vmas u₀ u' (R.addObj v) ∧
          u'.vma v = ⟨addr, size, flags, m, 0⟩) := by
  rw [vmaNew]
  refine hw.kmalloc.bind ?_
  intro v u₁ hv
  obtain ⟨-, -, ⟨hv0, hw₁⟩ | ⟨hv0, hvR, hw₁⟩⟩ := hv
  · rw [if_neg (not_not.mpr hv0)]
    exact ends_pure (.inl ⟨hv0, hw₁⟩)
  rw [if_pos hv0]
  have hvne : ∀ w, Live mms vmas w → w ≠ v := fun w hlw hwv => hvR (hwv ▸ hout.vma w hlw)
  refine ends_modify_bind (ends_pure (.inr ⟨hv0, hvR, ⟨hw₁.rep, hw₁.live, ?_, ?_, ?_⟩, ?_⟩))
  · refine ⟨hw₁.data.before, hw₁.data.kernelMm, hw₁.data.pgindex, ?_, hw₁.data.upages⟩
    intro w hlw
    exact (update_of_ne (hvne w hlw) _ _).trans (hw₁.data.vma w hlw)
  · intro m' hm'
    exact (hw₁.ring m' hm').init_other (vma_notMem (fun hlv => hvne v hlv rfl) hm')
  · intro w hlw
    refine (hw₁.share w hlw).init_other ?_
    simp [(hvne w hlw).symm]
  · exact update_self v _ _

/-- A write to the pages of a `struct upages` that no area has. -/
theorem Busy.upages {f : Upages} (hb : Busy S mms vmas u₀ u R)
    (hp : ∀ w, Live mms vmas w → (u₀.vma w).pages ≠ p) :
    Busy S mms vmas u₀ { u with upages := update u.upages p f } R where
  rep := hb.rep
  live := hb.live
  data := by
    refine ⟨hb.data.before, hb.data.kernelMm, hb.data.pgindex, hb.data.vma, ?_⟩
    intro w hlw
    exact (update_of_ne (hp w hlw) _ _).trans (hb.data.upages w hlw)

theorem Working.upages {f : Upages} (hw : Working S mms vmas u₀ u R)
    (hp : ∀ w, Live mms vmas w → (u₀.vma w).pages ≠ p) :
    Working S mms vmas u₀ { u with upages := update u.upages p f } R :=
  hw.of_busy (hw.busy.upages hp) ⟨rfl, rfl⟩

theorem upagesNew_ends {size flags : Nat} (hw : Working S mms vmas u₀ u R)
    (hout : ObjsOut u₀ mms vmas R) :
    Ends total (upagesNew E size flags) u fun p u' => u'.vma = u.vma ∧
      ((p = 0 ∧ Working S mms vmas u₀ u' R) ∨
        (p ≠ 0 ∧ p ∉ R.objs ∧ Working S mms vmas u₀ u' (R.addObj p) ∧
          u'.upages p = ⟨⟨0, size, flags⟩, 0⟩ ∧ Links.Ring u'.share (.sentry p) [])) := by
  rw [upagesNew]
  refine hw.kmalloc.bind ?_
  intro p u₁ hp
  obtain ⟨hvma, -, ⟨hp0, hw₁⟩ | ⟨hp0, hpR, hw₁⟩⟩ := hp
  · rw [if_neg (not_not.mpr hp0)]
    exact ends_pure ⟨hvma, .inl ⟨hp0, hw₁⟩⟩
  rw [if_pos hp0]
  have hpne : ∀ w, Live mms vmas w → (u₀.vma w).pages ≠ p :=
    fun w hlw hwp => hpR (hwp ▸ hout.pages w hlw)
  have hw₂ := hw₁.upages (f := ⟨⟨0, size, flags⟩, 0⟩) hpne
  refine ends_modify_bind (ends_pure ⟨hvma, .inr ⟨hp0, hpR,
    ⟨hw₂.rep, hw₂.live, ?_, hw₂.ring, ?_⟩, update_self p _ _, Links.ring_init _ _⟩⟩)
  · have hd := hw₂.data
    exact ⟨hd.before, hd.kernelMm, hd.pgindex, hd.vma, hd.upages⟩
  · intro w hlw
    refine (hw₁.share w hlw).init_other ?_
    simp [(hpne w hlw).symm]

/-- `struct upages` of a page at `a`. -/
def pageAt (a : Nat) : Upages := ⟨⟨a, pgSize, 0⟩, 0⟩

theorem allocUpages_ends (hw : Working S mms vmas u₀ u R) (hpR : p ∈ R.objs)
    (hp : ∀ w, Live mms vmas w → (u₀.vma w).pages ≠ p) (hup : u.upages p = pageAt 0) :
    Ends total (allocUpages E p) u fun r u' => u'.vma = u.vma ∧ u'.share = u.share ∧
      ((r < 0 ∧ Working S mms vmas u₀ u' R) ∨
        (0 ≤ r ∧ ∃ a, a ∉ R.frames ∧ Working S mms vmas u₀ u' (R.addFrame a) ∧
          u'.upages p = pageAt a)) := by
  have hpages : (u.upages p).pages = ⟨0, pgSize, 0⟩ := congrArg Upages.pages hup
  have hrefs : (u.upages p).refs = 0 := congrArg Upages.refs hup
  rw [allocUpages]
  refine ends_touch_bind (live_one ((hw.live p).mpr hpR)) (ends_get_bind ?_)
  rw [hpages]
  refine ends_onEnv_bind (S.allocPages u.env R hw.rep) ?_
  intro r s hr
  obtain ⟨r, paddr, size, flags⟩ := r
  refine ends_modify_bind (ends_pure ⟨rfl, rfl, ?_⟩)
  rcases hr with ⟨hr, hrep⟩ | ⟨hr, hsize, hflags, ha, hrep⟩
  · exact .inl ⟨hr, (hw.env hrep rfl).upages hp⟩
  · refine .inr ⟨hr, paddr, ha, (hw.env hrep rfl).upages hp, ?_⟩
    obtain rfl : size = pgSize := hsize
    obtain rfl : flags = 0 := hflags
    refine (update_self p _ _).trans ?_
    exact congrArg (Upages.mk _) hrefs

theorem freeUpages_ends (hb : Busy S mms vmas u₀ u R) (hpR : p ∈ R.objs)
    (hp : ∀ w, Live mms vmas w → (u₀.vma w).pages ≠ p) (hup : u.upages p = pageAt a)
    (ha : a ∈ R.frames) :
    Ends total (freeUpages E p) u fun _ u' =>
      Busy S mms vmas u₀ u' (R.dropFrame a) ∧ SameLists u u' := by
  have hpages : (u.upages p).pages = ⟨a, pgSize, 0⟩ := congrArg Upages.pages hup
  rw [freeUpages]
  refine ends_touch_bind (live_one ((hb.live p).mpr hpR)) (ends_get_bind ?_)
  rw [hpages]
  refine ends_onEnv_bind (S.freePages u.env R a hb.rep ha) ?_
  intro pages s hrep
  exact ends_modify ⟨(hb.env hrep rfl).upages hp, rfl, rfl⟩

/-! ## A new area -/

/-- The nodes of different address spaces are different. -/
theorem Spaces.nodes_apart (h : Spaces u mms vmas) (hm : m ∈ mms) (hm' : m' ∈ mms) (hne : m' ≠ m) :
    ∀ n ∈ VmaNode.sentry m' :: nodes (vmas m'),
      n ∉ VmaNode.sentry m :: nodes (vmas m) :=
  nodes_disjoint hne fun _ hv hw => hne (h.unique hm hm' hw hv)

theorem Spaces.ring_add (h : Spaces u mms vmas)
    (hk : ∀ m ∈ mms, Links.Ring k (.sentry m) (nodes (vmas m))) (hm : m ∈ mms)
    (hl : vmas m = l₁ ++ l₂) (hv : ¬ Live mms vmas v) :
    ∀ m' ∈ mms, Links.Ring (k.add (.vma v) ((nodes l₁).getLastD (.sentry m))) (.sentry m')
      (nodes (update vmas m (l₁ ++ v :: l₂) m')) := by
  intro m' hm'
  have hkm := hk m hm
  have hnew := vma_notMem hv hm
  rw [hl, nodes_append] at hkm hnew
  by_cases hmm : m' = m
  · subst hmm
    rw [update_self, nodes_append]
    exact hkm.add hnew
  · rw [update_of_ne hmm]
    have hdisj := h.nodes_apart hm hm' hmm
    rw [hl, nodes_append] at hdisj
    exact hkm.add_other (hk m' hm') hdisj (vma_notMem hv hm')

/-- Of the page indexes, only `g` is different in `R'`. -/
def Res.OnlyAt (g : Nat) (R R' : Res) : Prop :=
  ∀ g', g' ≠ g → R'.inner g' = R.inner g' ∧ R'.maps g' = R.maps g'

theorem Res.OnlyAt.refl (g : Nat) (R : Res) : Res.OnlyAt g R R := fun _ _ => ⟨rfl, rfl⟩

theorem Res.OnlyAt.trans {R' R'' : Res} (h : Res.OnlyAt g R R') (h' : Res.OnlyAt g R' R'') :
    Res.OnlyAt g R R'' := by
  intro g' hg'
  exact ⟨(h' g' hg').1.trans (h g' hg').1, (h' g' hg').2.trans (h g' hg').2⟩

theorem Res.onlyAt_setInner : Res.OnlyAt g R (R.setInner g X) :=
  fun _ hg' => ⟨update_of_ne hg' _ _, rfl⟩

/-- The place and the flags of a new area in the list of `m`: behind the areas
`l₁` and in front of `l₂`. -/
structure Gap (total : Prop) (u : Uvm σ) (vmas : Nat → List Nat) (R : Res) (m : Nat)
    (l₁ l₂ : List Nat) (start flags : Nat) : Prop where
  list : vmas m = l₁ ++ l₂
  aligned : start % pgSize = 0
  lt : start < 2 ^ 32
  flagsLt : flags < 2 ^ 32
  free : total → R.maps (u.pgindex m) start = none ∧ flags < pgSize

/-- The account with one more area, and its page index made of the frames `X`. -/
def Res.grant (R : Res) (g : Nat) (X : Set Nat) (v p a start flags : Nat) : Res :=
  ((((R.addObj v).addObj p).addFrame a).setInner g X).setMap g start (some (a, flags))

theorem Res.onlyAt_grant : Res.OnlyAt g R (R.grant g X v p a start flags) :=
  fun _ hg' => ⟨update_of_ne hg' _ _, update_of_ne hg' _ _⟩

theorem UvmInv.add (h : UvmInv S H u₀ mms vmas R)
    (hm : m ∈ mms) (hgap : Gap total u₀ vmas R m l₁ l₂ start flags)
    (hd : SameData mms vmas u₀ u)
    (hring : ∀ m' ∈ mms, Links.Ring u.links (.sentry m')
      (nodes (update vmas m (l₁ ++ v :: l₂) m')))
    (hshare : ∀ w, Live mms vmas w → Links.Ring u.share (.sentry (u₀.vma w).pages) [.vma w])
    (hsharev : Links.Ring u.share (.sentry p) [.vma v])
    (hvma : u.vma v = ⟨start, pgSize, flags, m, p⟩) (hup : u.upages p = pageAt a)
    (hv : v ∉ R.objs) (hp : p ∉ (R.addObj v).objs) (ha : a ∉ R.frames)
    (hfree : paged → R.maps (u₀.pgindex m) start = none)
    (hlive : ∀ x, u.live x = true ↔ x ∈ ((R.addObj v).addObj p).objs)
    (hrep : S.Rep u.env (R.grant (u₀.pgindex m) X v p a start flags)) :
    UvmInv S H u mms (update vmas m (l₁ ++ v :: l₂))
      (R.grant (u₀.pgindex m) X v p a start flags) := by
  have hpages : (u.vma v).pages = p := by rw [hvma]
  have hstart : (u.vma v).start = start := by rw [hvma]
  have hframe : u.frameOf v = a := by rw [Uvm.frameOf, hpages, hup, pageAt]
  have hentry : u.entryOf v = (a, flags) := by rw [Uvm.entryOf, hframe, hvma]
  have hpR : p ∉ R.objs := fun hpR => hp (Set.mem_insert_of_mem v hpR)
  have hvp : v ≠ p := fun hvp => hp (hvp ▸ Set.mem_insert v R.objs)
  have harea : AreaOk u m v := by
    constructor
    · rw [hstart]; exact hgap.aligned
    · rw [hstart]; exact hgap.lt
    · rw [hvma]
    · rw [hvma]; exact hgap.flagsLt
    · rw [hvma]
    · rw [hpages, hup, pageAt]
    · rw [hpages, hup, pageAt]
    · rw [hpages, hup, pageAt]
  refine ⟨hrep, hlive, h.nodup, ?_, ?_, ?_, ?_⟩
  · exact h.spaces.add hd hm hgap.list harea hring hshare (hpages ▸ hsharev)
  · refine h.owned.add hd hm hgap.list hv (hpages ▸ hpR) (hpages ▸ hvp) (hframe ▸ ha) ?_ ?_
    · intro x
      rw [hpages]
      show x ∈ insert p (insert v R.objs) ↔ _
      rw [Set.mem_insert_iff, Set.mem_insert_iff]
      tauto
    · intro x
      rw [hframe]
      show x ∈ insert a R.frames ↔ _
      rw [Set.mem_insert_iff, or_comm]
  · intro hpg
    refine (h.indexed hpg).add hd hm hgap.list ?_ rfl ?_
    · rw [hstart]
      exact hfree hpg
    · rw [hstart, hentry]
      rfl
  · intro ht w hw
    rcases (live_add hm hgap.list w).mp hw with hw | rfl
    · rw [hd.vma w hw]
      exact h.low ht w hw
    · rw [hvma]
      exact (hgap.free ht).2

/-- What `linkNewVma` needs of its two parameters: `request` asks for one page,
and `fill` only copies between frames that are out. -/
structure HooksOk (S : EnvSpec E paged total) (mms : List Nat) (vmas : Nat → List Nat)
    (u₀ : Uvm σ) (R₀ : Res) (request : EStateM Stop (Uvm σ) (Nat × Nat))
    (fill : Nat → EStateM Stop (Uvm σ) Unit) : Prop where
  request : ∀ u R, Working S mms vmas u₀ u R → R₀.objs ⊆ R.objs →
    Ends total request u fun r u' => r = (pgSize, 0) ∧ u' = u
  fill : ∀ u R p a, Working S mms vmas u₀ u R → R₀.objs ⊆ R.objs → R₀.frames ⊆ R.frames →
    p ∈ R.objs → u.upages p = pageAt a → a ∈ R.frames →
    Ends total (fill p) u fun _ u' => Working S mms vmas u₀ u' R ∧
      u'.vma = u.vma ∧ u'.upages = u.upages ∧ u'.share = u.share

/-- The two `kfree`s of `rollback_pages` and `rollback_vma`: the account is as
it was before the two objects. -/
theorem Working.kfree_both (hv : v ∉ R.objs) (hp : p ∉ (R.addObj v).objs)
    (hw : Working S mms vmas u₀ u ((R.addObj v).addObj p)) {c : Int} :
    Ends total (do
        Kern.kfree E p
        Kern.kfree E v
        return (Sum.inl c : Int ⊕ β)) u fun r u' =>
      r = .inl c ∧ Working S mms vmas u₀ u' R := by
  refine (hw.kfree (Set.mem_insert p _)).bind ?_
  intro _ u₁ hw₁
  rw [Res.dropObj_addObj hp] at hw₁
  refine (hw₁.kfree (Set.mem_insert v _)).bind ?_
  intro _ u₂ hw₂
  rw [Res.dropObj_addObj hv] at hw₂
  exact ends_pure ⟨rfl, hw₂⟩

theorem attachVma_ends {cur : VmaNode} (hv : u.live v = true) (hp : u.live p = true)
    (hcur : u.live cur.object = true) (hnext : u.live (u.links.next cur).object = true)
    (hshare : Links.Ring u.share (.sentry p) []) :
    Ends total (attachVma v p cur) u fun _ u' => u' = { u with
      links := u.links.add (.vma v) cur
      share := u.share.add (.vma v) (.sentry p)
      vma := update u.vma v { u.vma v with pages := p } } := by
  have hself : u.share.next (.sentry p) = .sentry p := hshare.linked.1
  rw [attachVma]
  refine ends_touch_bind (live_one hv) (ends_modify_bind ?_)
  rw [refUpages, atomicInc]
  refine Ends.bind (Q := fun _ u' => u' = { u with
    vma := update u.vma v { u.vma v with pages := p } }) ?_ ?_
  · exact ends_touch_bind (live_one hp) (ends_pure rfl)
  intro _ u₁ hu₁
  subst hu₁
  refine Ends.bind (Q := fun _ u' => u' = { u with
    links := u.links.add (.vma v) cur
    vma := update u.vma v { u.vma v with pages := p } }) ?_ ?_
  · exact ends_get_bind (ends_touch_bind (live_three hcur hnext hv) (ends_modify rfl))
  intro _ u₂ hu₂
  subst hu₂
  refine ends_get_bind (ends_touch_bind (live_three hp ?_ hv) (ends_modify rfl))
  show u.live (u.share.next (.sentry p)).object = true
  rw [hself]
  exact hp

/-- The share list of the new area, and those of the others. -/
theorem Working.share_add (hw : Working S mms vmas u₀ u R)
    (hvne : ∀ w, Live mms vmas w → w ≠ v)
    (hpne : ∀ w, Live mms vmas w → (u₀.vma w).pages ≠ p)
    (hshare : Links.Ring u.share (.sentry p) []) :
    ∀ w, Live mms vmas w →
      Links.Ring (u.share.add (.vma v) (.sentry p)) (.sentry (u₀.vma w).pages) [.vma w] := by
  intro w hlw
  have hempty : Links.Ring u.share (.sentry p) ([] ++ []) := hshare
  refine hempty.add_other (hw.share w hlw) ?_ ?_
  · intro n hn hn'
    exact share_apart (hpne w hlw) (hvne w hlw) n hn (List.mem_cons.mpr (.inl
      (List.mem_singleton.mp hn')))
  · simp [(hvne w hlw).symm]

/-- The new area, with its objects, its frame and its page in place, goes to its
lists. -/
theorem attachVma_inv (h : UvmInv S H u₀ mms vmas R) (hm : m ∈ mms)
    (hgap : Gap total u₀ vmas R m l₁ l₂ start flags)
    (hw : Working S mms vmas u₀ u (R.grant (u₀.pgindex m) X v p a start flags))
    (hvma : u.vma v = ⟨start, pgSize, flags, m, 0⟩) (hup : u.upages p = pageAt a)
    (hshare : Links.Ring u.share (.sentry p) []) (hv : v ∉ R.objs) (hp : p ∉ (R.addObj v).objs)
    (ha : a ∉ R.frames) (hfree : paged → R.maps (u₀.pgindex m) start = none) :
    Ends total (attachVma v p ((nodes l₁).getLastD (.sentry m))) u fun _ u' =>
      SameData mms vmas u₀ u' ∧ (u'.vma v).start = start ∧
        UvmInv S H u' mms (update vmas m (l₁ ++ v :: l₂))
          (R.grant (u₀.pgindex m) X v p a start flags) := by
  have hout := h.owned.objsOut
  have hvne : ∀ w, Live mms vmas w → w ≠ v := fun w hlw hwv => hv (hwv ▸ hout.vma w hlw)
  have hpne : ∀ w, Live mms vmas w → (u₀.vma w).pages ≠ p :=
    fun w hlw hwp => hp (hwp ▸ hout.addObj.pages w hlw)
  have hlive : ∀ x, u.live x = true ↔ x ∈ ((R.addObj v).addObj p).objs := hw.live
  have hlv : u.live v = true := (hlive v).mpr (Set.mem_insert_of_mem p (Set.mem_insert v _))
  have hlp : u.live p = true := (hlive p).mpr (Set.mem_insert p _)
  have hnode : ∀ n ∈ VmaNode.sentry m :: nodes (vmas m), u.live n.object = true := by
    intro n hn
    exact (hlive _).mpr (Set.mem_insert_of_mem p (Set.mem_insert_of_mem v (hout.node hm hn)))
  have hring := hw.ring m hm
  rw [hgap.list, nodes_append] at hring hnode
  refine (attachVma_ends hlv hlp (hnode _ ?_) (hnode _ ?_) hshare).imp ?_
  · exact Links.getLastD_mem_append _ _ _
  · rw [hring.next_last]
    exact Links.headD_mem_append _ _ _
  intro _ u' hu'
  have hvma' : u'.vma v = ⟨start, pgSize, flags, m, p⟩ := by
    rw [hu']
    exact (update_self v _ _).trans (by rw [hvma])
  have hdata : SameData mms vmas u₀ u' := by
    rw [hu']
    refine ⟨hw.data.before, hw.data.kernelMm, hw.data.pgindex, ?_, hw.data.upages⟩
    intro w hlw
    exact (update_of_ne (hvne w hlw) _ _).trans (hw.data.vma w hlw)
  refine ⟨hdata, by rw [hvma'], ?_⟩
  refine h.add hm hgap hdata ?_ ?_ ?_ hvma' ?_ hv hp ha hfree ?_ ?_
  · rw [hu']
    exact h.spaces.ring_add hw.ring hm hgap.list fun hlv => hvne v hlv rfl
  · rw [hu']
    exact hw.share_add hvne hpne hshare
  · rw [hu']
    have hempty : Links.Ring u.share (.sentry p) ([] ++ []) := hshare
    exact hempty.add (by simp)
  · rw [hu']
    exact hup
  · rw [hu']
    exact hlive
  · rw [hu']
    exact hw.rep

/-- One round of the loops of `create_uvm` and `mm_clone`: either there is a new
area in the gap, or everything is as it was, apart from the frames that the
page index is made of. -/
theorem linkNewVma_ends {request : EStateM Stop (Uvm σ) (Nat × Nat)}
    {fill : Nat → EStateM Stop (Uvm σ) Unit} (h : UvmInv S H u₀ mms vmas R₀) (hm : m ∈ mms)
    (hgap : Gap total u₀ vmas R₀ m l₁ l₂ start flags)
    (hhooks : HooksOk S mms vmas u₀ R₀ request fill) :
    Ends total (linkNewVma E m start pgSize flags request fill
        ((nodes l₁).getLastD (.sentry m))) u₀ fun r u' =>
      (∃ c X, r = .inl c ∧ c < 0 ∧
        Working S mms vmas u₀ u' (R₀.setInner (u₀.pgindex m) X)) ∨
        ∃ v R', r = .inr v ∧ SameData mms vmas u₀ u' ∧ (u'.vma v).start = start ∧
          Res.OnlyAt (u₀.pgindex m) R₀ R' ∧
          UvmInv S H u' mms (update vmas m (l₁ ++ v :: l₂)) R' := by
  have hout := h.owned.objsOut
  -- Up to `map_pages`, not even the page index has changed.
  have hfail : ∀ (c : Int) (u' : Uvm σ), c < 0 → Working S mms vmas u₀ u' R₀ →
      ∃ c' X, (Sum.inl c : Int ⊕ Nat) = .inl c' ∧ c' < 0 ∧
        Working S mms vmas u₀ u' (R₀.setInner (u₀.pgindex m) X) := by
    intro c u' hc hw
    refine ⟨c, R₀.inner (u₀.pgindex m), rfl, hc, ?_⟩
    rw [Res.setInner_self]
    exact hw
  rw [linkNewVma]
  refine (vmaNew_ends h.working hout).bind ?_
  intro v u₁ hv
  rcases hv with ⟨hv0, hw₁⟩ | ⟨hv0, hvR, hw₁, hvma₁⟩
  · rw [if_pos hv0]
    exact ends_pure (.inl (hfail _ _ (by decide) hw₁))
  rw [if_neg hv0]
  refine (hhooks.request u₁ _ hw₁ (Set.subset_insert v _)).bind ?_
  intro _ _ hreq
  obtain ⟨rfl, rfl⟩ := hreq
  refine (upagesNew_ends hw₁ hout.addObj).bind ?_
  intro p u₂ hp
  obtain ⟨hvma₂, ⟨hp0, hw₂⟩ | ⟨hp0, hpR, hw₂, hup₂, hshare₂⟩⟩ := hp
  · rw [if_pos hp0]
    refine (hw₂.kfree (Set.mem_insert v _)).bind ?_
    intro _ u₃ hw₃
    rw [Res.dropObj_addObj hvR] at hw₃
    exact ends_pure (.inl (hfail _ _ (by decide) hw₃))
  rw [if_neg hp0]
  have hpne : ∀ w, Live mms vmas w → (u₀.vma w).pages ≠ p :=
    fun w hlw hwp => hpR (hwp ▸ hout.addObj.pages w hlw)
  refine (allocUpages_ends hw₂ (Set.mem_insert p _) hpne hup₂).bind ?_
  intro r u₃ hr
  obtain ⟨hvma₃, hshare₃, ⟨hr, hw₃⟩ | ⟨hr, a, haR, hw₃, hup₃⟩⟩ := hr
  · rw [if_pos hr]
    refine (hw₃.kfree_both hvR hpR).imp ?_
    intro _ u₄ hu₄
    obtain ⟨rfl, hw₄⟩ := hu₄
    exact .inl (hfail _ _ (by decide) hw₄)
  rw [if_neg (not_lt.mpr hr)]
  have hlive₃ : ∀ x ∈ R₀.objs, u₃.live x = true := fun x hx =>
    (hw₃.live x).mpr (Set.mem_insert_of_mem p (Set.mem_insert_of_mem v hx))
  refine ends_touch_bind
    (live_two (hlive₃ m (hout.mm m hm)) ((hw₃.live p).mpr (Set.mem_insert p _))) ?_
  refine ends_get_bind ?_
  have hpaddr : (u₃.upages p).pages.paddr = a := by rw [hup₃, pageAt]
  rw [hpaddr, hw₃.data.pgindex m hm]
  refine ends_onEnv_bind (S.mapPages u₃.env _ (u₀.pgindex m) start a flags hw₃.rep
    hgap.aligned hgap.lt (Set.mem_insert a _) hgap.flagsLt ?_ hgap.free) ?_
  · intro hpg
    exact ((h.indexed hpg).indexes _).mpr (.inr ⟨m, hm, rfl⟩)
  intro c s hc
  obtain ⟨X, ⟨hc, hrep⟩ | ⟨hc, hfree, hrep⟩⟩ := hc
  · rw [if_pos hc]
    have hw := hw₃.env hrep rfl
    refine (freeUpages_ends hw.busy (Set.mem_insert p _) hpne hup₃ (Set.mem_insert a _)).bind ?_
    intro _ u₄ hu₄
    have hw₄ := hw.of_busy hu₄.1 hu₄.2
    have hdrop : (((((R₀.addObj v).addObj p).addFrame a).setInner (u₀.pgindex m) X).dropFrame a) =
        ((R₀.setInner (u₀.pgindex m) X).addObj v).addObj p :=
      Res.dropFrame_addFrame (R := ((R₀.setInner (u₀.pgindex m) X).addObj v).addObj p) haR
    rw [hdrop] at hw₄
    refine (Working.kfree_both (R := R₀.setInner (u₀.pgindex m) X) hvR hpR hw₄).imp ?_
    intro _ u₅ hu₅
    obtain ⟨rfl, hw₅⟩ := hu₅
    exact .inl ⟨c, X, rfl, hc, hw₅⟩
  rw [if_neg (not_lt.mpr hc)]
  refine (hhooks.fill _ _ p a (hw₃.env hrep rfl)
    ((Set.subset_insert v _).trans (Set.subset_insert p _)) (Set.subset_insert a _)
    (Set.mem_insert p _) hup₃ (Set.mem_insert a _)).bind ?_
  intro _ u₄ hu₄
  obtain ⟨hw₄, hvma₄, hup₄, hshare₄⟩ := hu₄
  have hv₄ : u₄.vma v = ⟨start, pgSize, flags, m, 0⟩ := by
    rw [hvma₄]
    show u₃.vma v = _
    rw [hvma₃, hvma₂, hvma₁]
  have hring₄ : Links.Ring u₄.share (.sentry p) [] := by
    rw [hshare₄]
    show Links.Ring u₃.share _ _
    rw [hshare₃]
    exact hshare₂
  refine (attachVma_inv h hm hgap hw₄ hv₄ (by rw [hup₄]; exact hup₃) hring₄ hvR hpR haR
    hfree).bind ?_
  intro _ u₅ hu₅
  obtain ⟨hd, hstart, hinv⟩ := hu₅
  exact ends_pure (.inr ⟨v, _, rfl, hd, hstart, Res.onlyAt_grant, hinv⟩)

/-! ## An area less -/

theorem Spaces.ring_del (h : Spaces u mms vmas) (hm : m ∈ mms) (hl : vmas m = l₁ ++ v :: l₂) :
    ∀ m' ∈ mms, Links.Ring (u.links.del (.vma v)) (.sentry m')
      (nodes (update vmas m (l₁ ++ l₂) m')) := by
  intro m' hm'
  have hkm := h.ring m hm
  rw [hl, nodes_append] at hkm
  by_cases hmm : m' = m
  · subst hmm
    rw [update_self, nodes_append]
    exact hkm.del
  · rw [update_of_ne hmm]
    have hdisj := h.nodes_apart hm hm' hmm
    rw [hl, nodes_append] at hdisj
    exact hkm.del_other (h.ring m' hm') hdisj

theorem Spaces.share_del (h : Spaces u mms vmas) (ho : Owned u mms vmas H.objs H.frames R)
    (hlv : Live mms vmas v) : ∀ w, Live mms vmas w → w ≠ v →
      Links.Ring (u.share.del (.vma v)) (.sentry (u.vma w).pages) [.vma w] := by
  intro w hlw hwv
  have hv : Links.Ring u.share (.sentry (u.vma v).pages) ([] ++ [.vma v]) := h.share v hlv
  refine hv.del_other (h.share w hlw) (share_apart ?_ hwv)
  exact fun hp => hwv (ho.pagesInj w v hlw hlv hp)

/-- The account with one area less. -/
def Res.revoke (R : Res) (g v p a start : Nat) : Res :=
  (((R.setMap g start none).dropFrame a).dropObj p).dropObj v

theorem Res.onlyAt_revoke : Res.OnlyAt g R (R.revoke g v p a start) :=
  fun _ hg' => ⟨rfl, update_of_ne hg' _ _⟩

theorem UvmInv.remove (h : UvmInv S H u₀ mms vmas R) (hm : m ∈ mms)
    (hl : vmas m = l₁ ++ v :: l₂)
    (hw : Working S mms (update vmas m (l₁ ++ l₂)) u₀ u
      (R.revoke (u₀.pgindex m) v (u₀.vma v).pages (u₀.frameOf v) (u₀.vma v).start)) :
    UvmInv S H u mms (update vmas m (l₁ ++ l₂))
      (R.revoke (u₀.pgindex m) v (u₀.vma v).pages (u₀.frameOf v) (u₀.vma v).start) where
  rep := hw.rep
  live := hw.live
  nodup := h.nodup
  spaces := h.spaces.remove hm hl hw.data hw.ring hw.share
  owned := by
    refine (h.owned.remove h.spaces hm hl ?_ ?_).keep hw.data
    · intro x
      show x ∈ (R.objs \ {(u₀.vma v).pages}) \ {v} ↔ _
      simp only [Set.mem_sdiff, Set.mem_singleton_iff]
      tauto
    · intro x
      exact Iff.rfl
  indexed hpg := by
    refine Indexed.keep ?_ hw.data
    exact (h.indexed hpg).remove h.spaces hm hl rfl rfl
  low ht w hlw := by
    rw [hw.data.vma w hlw]
    exact h.low ht w ((h.spaces.live_remove hm hl w).mp hlw).1

theorem Uvm.upages_eq (h : AreaOk u m v) : u.upages (u.vma v).pages = pageAt (u.frameOf v) := by
  have hsize := h.psize
  have hflags := h.pflags
  have hrefs := h.refs
  rw [Uvm.frameOf]
  generalize u.upages (u.vma v).pages = x at hsize hflags hrefs ⊢
  obtain ⟨⟨paddr, size, flags⟩, refs⟩ := x
  obtain rfl : size = pgSize := hsize
  obtain rfl : flags = 0 := hflags
  obtain rfl : refs = 0 := hrefs
  rfl

/-- The end of a round of `__unmap_and_free_vma` and of `mm_destroy`: the frame
and the two objects of an area that is in no list are freed. -/
theorem release_ends (hb : Busy S mms vmas u₀ u R)
    (hp : ∀ w, Live mms vmas w → (u₀.vma w).pages ≠ p) (hup : u.upages p = pageAt a)
    (ha : a ∈ R.frames) (hpR : p ∈ R.objs) (hvR : v ∈ R.objs) (hvp : v ≠ p) :
    Ends total (do
        if ← unrefAndFreeUpages E p then
          kfree E p
        kfree E v) u fun _ u' =>
      Busy S mms vmas u₀ u' (((R.dropFrame a).dropObj p).dropObj v) ∧ SameLists u u' := by
  have hrefs : (u.upages p).refs = 0 := by rw [hup, pageAt]
  have hunref : Ends total (unrefAndFreeUpages E p) u fun freed u' =>
      freed = true ∧ Busy S mms vmas u₀ u' (R.dropFrame a) ∧ SameLists u u' := by
    rw [unrefAndFreeUpages, atomicDec, pure_bind]
    refine ends_touch_bind (live_one ((hb.live p).mpr hpR)) (ends_get_bind ?_)
    rw [if_pos hrefs]
    refine (freeUpages_ends hb hpR hp hup ha).bind ?_
    intro _ u' hu'
    exact ends_pure ⟨rfl, hu'⟩
  refine hunref.bind ?_
  intro freed u₁ hu₁
  obtain ⟨rfl, hb₁, hl₁⟩ := hu₁
  rw [if_pos rfl]
  refine (hb₁.kfree hpR).bind ?_
  intro _ u₂ hu₂
  obtain ⟨hb₂, hl₂⟩ := hu₂
  refine (hb₂.kfree ⟨hvR, hvp⟩).imp ?_
  intro _ u₃ hu₃
  exact ⟨hu₃.1, (hl₁.trans hl₂).trans hu₃.2⟩

/-- Between the lists and the frees, the page of the area is unmapped. -/
theorem unmapArea_ends {vmas' : Nat → List Nat} (h : UvmInv S H u₀ mms vmas R) (hm : m ∈ mms)
    (hv : v ∈ vmas m) (hb : Busy S mms vmas' u₀ u R) :
    Ends total (E.unmapPages (u₀.pgindex m) (u₀.vma v).start pgSize) u.env fun r s =>
      (total → r.1 = pgSize ∧ (paged → r.2 = u₀.frameOf v)) ∧
        Busy S mms vmas' u₀ { u with env := s }
          (R.setMap (u₀.pgindex m) (u₀.vma v).start none) := by
  have harea := h.spaces.area m hm v hv
  have hpresent : paged → R.maps (u₀.pgindex m) (u₀.vma v).start = some (u₀.entryOf v) :=
    fun hpg => ((h.indexed hpg).maps m hm _ _).mpr ⟨v, hv, rfl, rfl⟩
  refine (S.unmapPages u.env R _ _ hb.rep harea.aligned harea.lt ?_).imp ?_
  · intro hpg
    refine ⟨((h.indexed hpg).indexes _).mpr (.inr ⟨m, hm, rfl⟩), ?_⟩
    rw [hpresent hpg]
    exact Option.some_ne_none _
  · intro r s hr
    obtain ⟨hanswer, hrep⟩ := hr
    refine ⟨fun ht => ⟨(hanswer ht).1, fun hpg => ?_⟩, hb.env hrep rfl⟩
    exact (hanswer ht).2 _ (hpresent hpg)

theorem mem_middle : v ∈ l₁ ++ v :: l₂ := List.mem_append_right _ List.mem_cons_self

/-- The neighbours of an area in its list are objects that are out. -/
theorem UvmInv.live_around (h : UvmInv S H u mms vmas R) (hm : m ∈ mms)
    (hl : vmas m = l₁ ++ v :: l₂) : u.live v = true ∧
      u.live (u.links.next (.vma v)).object = true ∧
      u.live (u.links.prev (.vma v)).object = true := by
  have hring := h.spaces.ring m hm
  have hnode : ∀ n ∈ VmaNode.sentry m :: nodes (vmas m), u.live n.object = true :=
    fun n hn => (h.live _).mpr (h.owned.objsOut.node hm hn)
  rw [hl, nodes_append] at hring hnode
  have hnext : u.links.next (.vma v) = (nodes l₂).headD (.sentry m) := hring.next_mem
  have hprev : u.links.prev (.vma v) = (nodes l₁).getLastD (.sentry m) := hring.prev_mem
  rw [hnext, hprev]
  refine ⟨hnode (.vma v) ?_, hnode _ ?_, hnode _ ?_⟩
  · exact List.mem_cons_of_mem _ (List.mem_append_right _ List.mem_cons_self)
  · exact Links.headD_mem_middle _ _ _ _
  · exact Links.getLastD_mem_append _ _ _

/-- The areas that are left do not share the pages of the one that goes. -/
theorem UvmInv.pages_ne_of_removed (h : UvmInv S H u mms vmas R) (hm : m ∈ mms)
    (hl : vmas m = l₁ ++ v :: l₂) (w : Nat)
    (hw : Live mms (update vmas m (l₁ ++ l₂)) w) :
    (u.vma w).pages ≠ (u.vma v).pages := by
  intro hpages
  obtain ⟨hw, hwv⟩ := (h.spaces.live_remove hm hl w).mp hw
  exact hwv (h.owned.pagesInj w v hw (.of_mem hm (hl ▸ mem_middle)) hpages)

/-- A round of `__unmap_and_free_vma`. -/
theorem unmapVma_ends (h : UvmInv S H u₀ mms vmas R) (hm : m ∈ mms)
    (hl : vmas m = l₁ ++ v :: l₂) :
    Ends total (unmapVma E m v) u₀ fun _ u' =>
      SameData mms (update vmas m (l₁ ++ l₂)) u₀ u' ∧
        ∃ R', Res.OnlyAt (u₀.pgindex m) R R' ∧
          UvmInv S H u' mms (update vmas m (l₁ ++ l₂)) R' := by
  have hv : v ∈ vmas m := hl ▸ mem_middle
  have hlv : Live mms vmas v := .of_mem hm hv
  have harea := h.spaces.area m hm v hv
  have hout := h.owned.objsOut
  have hlive := h.spaces.live_remove hm hl
  obtain ⟨hvlive, hnext, hprev⟩ := h.live_around hm hl
  have hplive : u₀.live (u₀.vma v).pages = true := (h.live _).mpr (hout.pages v hlv)
  have hmlive : u₀.live m = true := (h.live _).mpr (hout.mm m hm)
  have hshare : Links.Ring u₀.share (.sentry (u₀.vma v).pages) ([] ++ [.vma v]) :=
    h.spaces.share v hlv
  have hsnext : u₀.share.next (.vma v) = .sentry (u₀.vma v).pages := hshare.next_mem
  have hsprev : u₀.share.prev (.vma v) = .sentry (u₀.vma v).pages := hshare.prev_mem
  have hpne : ∀ w, Live mms (update vmas m (l₁ ++ l₂)) w →
      (u₀.vma w).pages ≠ (u₀.vma v).pages := h.pages_ne_of_removed hm hl
  rw [unmapVma]
  refine ends_touch_bind (live_one hvlive) ?_
  -- Both `list_del`s.
  refine Ends.bind (Q := fun _ u' => u' = { u₀ with links := u₀.links.del (.vma v) }) ?_ ?_
  · exact ends_get_bind (ends_touch_bind (live_three hvlive hnext hprev) (ends_modify rfl))
  intro _ u₁ hu₁
  subst hu₁
  refine Ends.bind (Q := fun _ u' => u' = { u₀ with
    links := u₀.links.del (.vma v), share := u₀.share.del (.vma v) }) ?_ ?_
  · refine ends_get_bind (ends_touch_bind (live_three hvlive ?_ ?_) (ends_modify rfl))
    · show u₀.live (u₀.share.next (.vma v)).object = true
      rw [hsnext]
      exact hplive
    · show u₀.live (u₀.share.prev (.vma v)).object = true
      rw [hsprev]
      exact hplive
  intro _ u₂ hu₂
  have hw : Working S mms (update vmas m (l₁ ++ l₂)) u₀ u₂ R := by
    rw [hu₂]
    refine ⟨h.rep, h.live, ⟨rfl, rfl, fun _ _ => rfl, fun _ _ => rfl, fun _ _ => rfl⟩,
      h.spaces.ring_del hm hl, ?_⟩
    intro w hlw
    obtain ⟨hlw, hwv⟩ := (hlive w).mp hlw
    exact h.spaces.share_del h.owned hlv w hlw hwv
  have hpgindex : u₂.pgindex m = u₀.pgindex m := by rw [hu₂]
  have hvma : u₂.vma v = u₀.vma v := by rw [hu₂]
  have hup : u₂.upages = u₀.upages := by rw [hu₂]
  have hpage : u₂.upages (u₀.vma v).pages = pageAt (u₀.frameOf v) := by
    rw [hup]
    exact Uvm.upages_eq harea
  have hvlive₂ : u₂.live v = true := (hw.live v).mpr (hout.vma v hlv)
  refine ends_touch_bind (live_two ((hw.live m).mpr (hout.mm m hm)) hvlive₂) (ends_get_bind ?_)
  rw [hvma, hpgindex, harea.size]
  refine ends_onEnv_bind (unmapArea_ends h hm hv hw.busy) ?_
  intro r s hr
  obtain ⟨hanswer, hb⟩ := hr
  refine ends_kassert_bind ?_ (ends_touch_bind (live_one hvlive₂) ?_)
  · intro hfalse ht
    rw [(hanswer ht).1] at hfalse
    exact absurd hfalse (by decide)
  have hframe : u₀.frameOf v ∈ R.frames := (h.owned.frames _).mpr (.inr ⟨v, hlv, rfl⟩)
  refine (release_ends hb hpne hpage hframe (hout.pages v hlv) (hout.vma v hlv)
    (h.owned.nePages v v hlv hlv)).imp ?_
  intro _ u₃ hu₃
  obtain ⟨hb₃, hl₃⟩ := hu₃
  exact ⟨hb₃.data, _, Res.onlyAt_revoke, h.remove hm hl (hw.of_busy hb₃ hl₃)⟩

/-- A round of the loop of `mm_destroy`. The area stays in its lists, where
nothing is written; so the invariant is that of a state in which it had been
taken out. -/
theorem destroyVma_ends {k' : Links ShareNode} (htp : total → paged)
    (h : UvmInv S H { u₀ with links := k, share := k' } mms vmas R) (hm : m ∈ mms)
    (hl : vmas m = l₁ ++ v :: l₂) :
    Ends total (destroyVma E m v) u₀ fun _ u' => SameLists u₀ u' ∧
      SameData mms (update vmas m (l₁ ++ l₂)) u₀ u' ∧
        ∃ R', Res.OnlyAt (u₀.pgindex m) R R' ∧
          UvmInv S H { u' with links := k.del (.vma v), share := k'.del (.vma v) } mms
            (update vmas m (l₁ ++ l₂)) R' := by
  have hv : v ∈ vmas m := hl ▸ mem_middle
  have hlv : Live mms vmas v := .of_mem hm hv
  have harea := h.spaces.area m hm v hv
  have hsize : (u₀.vma v).size = pgSize := harea.size
  have hpsize : (u₀.upages (u₀.vma v).pages).pages.size = pgSize := harea.psize
  have hout := h.owned.objsOut
  have hlive := h.spaces.live_remove hm hl
  have hvlive : u₀.live v = true := (h.live v).mpr (hout.vma v hlv)
  have hplive : u₀.live (u₀.vma v).pages = true := (h.live _).mpr (hout.pages v hlv)
  have hmlive : u₀.live m = true := (h.live m).mpr (hout.mm m hm)
  have hpne : ∀ w, Live mms (update vmas m (l₁ ++ l₂)) w →
      (u₀.vma w).pages ≠ (u₀.vma v).pages := h.pages_ne_of_removed hm hl
  have hb : Busy S mms (update vmas m (l₁ ++ l₂)) { u₀ with links := k, share := k' }
      u₀ R := ⟨h.rep, h.live, rfl, rfl, fun _ _ => rfl, fun _ _ => rfl, fun _ _ => rfl⟩
  have hclean : Ends total (cleanVma E m v) u₀ fun _ u' => SameLists u₀ u' ∧
      u'.vma = u₀.vma ∧ u'.upages = u₀.upages ∧
      Busy S mms (update vmas m (l₁ ++ l₂)) { u₀ with links := k, share := k' } u'
        (R.setMap (u₀.pgindex m) (u₀.vma v).start none) := by
    rw [cleanVma]
    refine ends_touch_bind (live_one hvlive) (ends_get_bind ?_)
    refine ends_touch_bind (live_two hplive hmlive) (ends_kassert_bind ?_ ?_)
    · intro hfalse
      rw [hsize, hpsize] at hfalse
      exact absurd hfalse (by decide)
    have hunmap := unmapArea_ends h hm hv hb
    rw [hsize]
    refine ends_onEnv_bind hunmap ?_
    intro r s hr
    obtain ⟨hanswer, hb₁⟩ := hr
    refine ends_touch_bind (live_two hvlive hplive) (ends_kassert_bind ?_ (ends_kassert ?_ ?_))
    · intro hfalse ht
      have hpa : r.2 = (u₀.upages (u₀.vma v).pages).pages.paddr := (hanswer ht).2 (htp ht)
      exact absurd hpa (of_decide_eq_false hfalse)
    · intro hfalse ht
      rw [(hanswer ht).1] at hfalse
      exact absurd hfalse (by decide)
    · exact ⟨⟨rfl, rfl⟩, rfl, rfl, hb₁⟩
  rw [destroyVma]
  refine hclean.bind ?_
  intro _ u₁ hu₁
  obtain ⟨hl₁, hvma₁, hup₁, hb₁⟩ := hu₁
  have hvlive₁ : u₁.live v = true := (hb₁.live v).mpr (hout.vma v hlv)
  refine ends_touch_bind (live_one hvlive₁) (ends_get_bind ?_)
  rw [hvma₁]
  have hpage : u₁.upages (u₀.vma v).pages = pageAt (u₀.frameOf v) := by
    rw [hup₁]
    have heq := Uvm.upages_eq harea
    exact heq
  have hframe : u₀.frameOf v ∈ R.frames := (h.owned.frames _).mpr (.inr ⟨v, hlv, rfl⟩)
  refine (release_ends hb₁ hpne hpage hframe (hout.pages v hlv) (hout.vma v hlv)
    (h.owned.nePages v v hlv hlv)).imp ?_
  intro _ u₂ hu₂
  obtain ⟨hb₂, hl₂⟩ := hu₂
  have hd := hb₂.data
  refine ⟨hl₁.trans hl₂, ⟨hd.before, hd.kernelMm, hd.pgindex, hd.vma, hd.upages⟩, _,
    Res.onlyAt_revoke, h.remove hm hl ⟨hb₂.rep, hb₂.live, ?_, ?_, ?_⟩⟩
  · exact ⟨hd.before, hd.kernelMm, hd.pgindex, hd.vma, hd.upages⟩
  · exact h.spaces.ring_del hm hl
  · intro w hlw
    obtain ⟨hlw, hwv⟩ := (hlive w).mp hlw
    exact h.spaces.share_del h.owned hlv w hlw hwv

end Aim.Kern
