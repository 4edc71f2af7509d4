import Aim.Proofs.UvmLoops

/-!
# The calls of `uvm.c`

What `mm_new`, `create_uvm`, `destroy_uvm`, `mm_clone` and `mm_destroy` do to the
invariant of the address spaces. A call that fails leaves the areas as they
were.
-/

namespace Aim.Kern

open Aim.Lib Function

variable {σ : Type} {E : Env σ} {paged total : Prop} {S : EnvSpec E paged total} {u₀ u : Uvm σ}
  {mms l₁ l₂ new : List Nat} {vmas : Nat → List Nat} {H : Others} {R R₀ : Res}
  {m v addr len flags : Nat}

/-- What a call on the address space `m` did that started in `u`, with the
account `R`, and answered `r`: now `m` has the areas `l`, the other address
spaces are as they were, and so is `m` if the call failed. -/
structure CallOn (S : EnvSpec E paged total) (H : Others) (mms : List Nat)
    (vmas : Nat → List Nat) (m : Nat) (u : Uvm σ) (R : Res) (r : Int) (u' : Uvm σ)
    (l : List Nat) (R' : Res) : Prop where
  inv : UvmInv S H u' mms (update vmas m l) R'
  only : Res.OnlyAt (u.pgindex m) R R'
  others : SameData mms (update vmas m []) u u'
  failed : r < 0 → l = vmas m ∧ SameData mms vmas u u'

theorem live_nil {l : List Nat} : ∀ v, Live mms (update vmas m []) v →
    Live mms (update vmas m l) v :=
  live_mono fun _ hv => (List.not_mem_nil hv).elim

theorem live_others : ∀ v, Live mms (update vmas m []) v → Live mms vmas v := by
  intro v hv
  have hlive := live_nil (l := vmas m) v hv
  rw [update_eq_self] at hlive
  exact hlive

theorem CallOn.same {r : Int} {u' : Uvm σ} {R' : Res} (h : UvmInv S H u' mms vmas R')
    (hd : SameData mms vmas u u') (ho : Res.OnlyAt (u.pgindex m) R R') :
    CallOn S H mms vmas m u R r u' (vmas m) R' where
  inv := by rw [update_eq_self]; exact h
  only := ho
  others := hd.mono live_others
  failed _ := ⟨rfl, hd⟩

/-! ## `create_uvm` -/

/-- Where the first `n` areas from `addr` on start. -/
def createStarts (addr n : Nat) : List Nat :=
  (List.range n).map fun i => (addr + pgSize * i) % 2 ^ 32

theorem createStarts_succ (addr n : Nat) :
    createStarts addr (n + 1) = createStarts addr n ++ [(addr + pgSize * n) % 2 ^ 32] := by
  rw [createStarts, List.range_succ, List.map_append]
  rfl

/-- In a range that does not wrap, their pages are in the range. -/
theorem createStarts_bounds {n a : Nat} (h : addr + pgSize * n ≤ 2 ^ 32)
    (ha : a ∈ createStarts addr n) : addr ≤ a ∧ a + pgSize ≤ addr + pgSize * n := by
  obtain ⟨i, hi, rfl⟩ := List.mem_map.mp ha
  have hpos : 0 < pgSize := by decide
  have hle := Nat.mul_le_mul_left pgSize (Nat.succ_le_of_lt (List.mem_range.mp hi))
  rw [Nat.mul_succ] at hle
  rw [Nat.mod_eq_of_lt (by omega)]
  omega

theorem createStarts_ascend {n : Nat} (h : addr + pgSize * n ≤ 2 ^ 32) :
    (createStarts addr n).Pairwise fun a b => a + pgSize ≤ b := by
  induction n with
  | zero => exact List.Pairwise.nil
  | succ n ih =>
      rw [Nat.mul_add, Nat.mul_one] at h
      have hpos : 0 < pgSize := by decide
      rw [createStarts_succ, Nat.mod_eq_of_lt (by omega)]
      refine List.pairwise_append.mpr ⟨ih (by omega), List.pairwise_singleton _ _, ?_⟩
      intro a ha b hb
      rw [List.mem_singleton.mp hb]
      exact (createStarts_bounds (by omega) ha).2

theorem hooksOk_create : HooksOk S mms vmas u R (pure (pgSize, 0)) (fun _ => pure ()) where
  request _ _ _ _ := ends_pure ⟨rfl, rfl⟩
  fill _ _ _ _ hw _ _ _ _ _ := ends_pure ⟨hw, rfl, rfl, rfl⟩

theorem createLoop_ends {mapped k fuel : Nat} (htp : total → paged)
    (hg : Grown S H mms vmas m l₁ l₂ u₀ u R₀ new (createStarts addr new.length) R)
    (hm : m ∈ mms) (hl : vmas m = l₁ ++ l₂) (hflags : flags < 2 ^ 32)
    (haddr : addr % pgSize = 0) (hmapped : mapped = pgSize * new.length)
    (hlen : len = mapped + pgSize * k) (hlen32 : len < 2 ^ 32)
    (hfree : total → flags < pgSize ∧ addr + len ≤ 2 ^ 32 ∧
      ∀ a ∈ u₀.starts (vmas m), a < addr ∨ addr + len ≤ a) (hfuel : k < fuel) :
    Ends total (createLoop E m len flags fuel mapped ((addr + mapped) % 2 ^ 32)
        ((nodes (l₁ ++ new)).getLastD (.sentry m))) u fun r u' =>
      ∃ new' R', r.2 = pgSize * new'.length ∧ r.2 ≤ len ∧ r.1 ≤ 0 ∧
        Grown S H mms vmas m l₁ l₂ u₀ u' R₀ new' (createStarts addr new'.length) R' := by
  induction k generalizing u mapped new fuel R with
  | zero =>
      obtain ⟨fuel, rfl⟩ := Nat.exists_eq_add_one_of_ne_zero (Nat.ne_zero_of_lt hfuel)
      rw [createLoop, if_neg (by omega)]
      exact ends_pure ⟨new, R, hmapped, by omega, le_refl _, hg⟩
  | succ k ih =>
      obtain ⟨fuel, rfl⟩ := Nat.exists_eq_add_one_of_ne_zero (Nat.ne_zero_of_lt hfuel)
      rw [Nat.mul_add, Nat.mul_one] at hlen
      have hpos : 0 < pgSize := by decide
      have haligned : (addr + mapped) % 2 ^ 32 % pgSize = 0 := by
        rw [Nat.mod_mod_of_dvd _ (by decide), hmapped, Nat.add_mul_mod_self_left]
        exact haddr
      have hfree' : total → (addr + mapped) % 2 ^ 32 ∉ u₀.starts (vmas m) ∧
          (addr + mapped) % 2 ^ 32 ∉ createStarts addr new.length ∧ flags < pgSize := by
        intro ht
        obtain ⟨hlow, hend, hclear⟩ := hfree ht
        rw [Nat.mod_eq_of_lt (by omega)]
        refine ⟨fun ha => ?_, fun ha => ?_, hlow⟩
        · have := hclear _ ha
          omega
        · have := (createStarts_bounds (by omega) ha).2
          omega
      rw [createLoop, if_pos (by omega)]
      refine (hg.link htp hm hl haligned (Nat.mod_lt _ (by decide)) hflags hfree'
        hooksOk_create).bind ?_
      intro r u₁ hr
      rcases hr with ⟨c, R₁, rfl, hc, hg₁⟩ | ⟨v, R₁, rfl, hg₁⟩
      · exact ends_pure ⟨new, R₁, hmapped, by omega, le_of_lt hc, hg₁⟩
      · have hcur : (nodes (l₁ ++ (new ++ [v]))).getLastD (.sentry m) = .vma v := by
          rw [← List.append_assoc]
          exact nodes_getLastD_concat _ _ _
        have hlength : (new ++ [v]).length = new.length + 1 := by
          rw [List.length_append, List.length_singleton]
        have hmapped' : mapped + pgSize = pgSize * (new ++ [v]).length := by
          rw [hlength, Nat.mul_add, Nat.mul_one, hmapped]
        have hg₂ : Grown S H mms vmas m l₁ l₂ u₀ u₁ R₀ (new ++ [v])
            (createStarts addr (new ++ [v]).length) R₁ := by
          rw [hlength, createStarts_succ, ← hmapped]
          exact hg₁
        show Ends total (createLoop E m len flags fuel ((mapped + pgSize) % 2 ^ 32)
          (((addr + mapped) % 2 ^ 32 + pgSize) % 2 ^ 32) (.vma v)) u₁ _
        rw [Nat.mod_add_mod, Nat.mod_eq_of_lt (show mapped + pgSize < 2 ^ 32 by omega), ← hcur,
          Nat.add_assoc]
        exact ih hg₂ hmapped' (by omega) (Nat.lt_of_succ_lt_succ hfuel)

/-- `create_uvm`. In an address space that ascends, a range that ends below
`2 ^ 32`, or is the first one, is put in its place. -/
theorem createUvm_ends (h : UvmInv S H u mms vmas R) (htp : total → paged) (hm : m ∈ mms)
    (haddr32 : addr < 2 ^ 32) (hlen32 : len < 2 ^ 32) (hflags : flags < 2 ^ 32)
    (hfit : total → len % pgSize = 0 → addr % pgSize = 0 → len ≠ 0 →
      Sorted u mms vmas ∧ flags < pgSize ∧ addr + len ≤ 2 ^ 32 ∧
        (addr + len < 2 ^ 32 ∨ vmas m = [])) :
    Ends total (createUvm E m addr len flags) u fun r u' => ∃ l R',
      CallOn S H mms vmas m u R r u' l R' ∧
        (Sorted u mms vmas → addr + len ≤ 2 ^ 32 →
          len = 0 ∨ addr + len < 2 ^ 32 ∨ vmas m = [] →
          Sorted u' mms (update vmas m l)) := by
  -- Where no area comes, the areas ascend as before.
  have hsame : ∀ {r : Int} {u' : Uvm σ} {R' : Res}, UvmInv S H u' mms vmas R' →
      SameData mms vmas u u' → Res.OnlyAt (u.pgindex m) R R' → ∃ l R',
      CallOn S H mms vmas m u R r u' l R' ∧
        (Sorted u mms vmas → addr + len ≤ 2 ^ 32 →
          len = 0 ∨ addr + len < 2 ^ 32 ∨ vmas m = [] →
          Sorted u' mms (update vmas m l)) := by
    intro r u' R' h' hd ho
    refine ⟨vmas m, R', CallOn.same h' hd ho, fun hs _ _ => ?_⟩
    rw [update_eq_self]
    exact hs.keep hd
  rw [createUvm]
  by_cases hbad : len % pgSize ≠ 0 ∨ m = 0 ∨ addr % pgSize ≠ 0
  · rw [if_pos hbad]
    exact ends_pure (hsame h (.refl u) (.refl _ R))
  rw [if_neg hbad]
  simp only [not_or, not_not] at hbad
  obtain ⟨hlen, -, haddr⟩ := hbad
  by_cases hzero : len = 0
  · rw [if_pos hzero]
    exact ends_pure (hsame h (.refl u) (.refl _ R))
  rw [if_neg hzero]
  refine (findVmaBefore_ends h htp hm haddr hlen).bind ?_
  intro r u₁ hr
  obtain ⟨rfl, rfl | ⟨l₁, l₂, hl, rfl, hplace⟩⟩ := hr
  · exact ends_pure (hsame h (.refl _) (.refl _ R))
  obtain ⟨k, hk⟩ := Nat.dvd_of_mod_eq_zero hlen
  have hfuel : k < len / pgSize + 1 := by
    rw [hk, Nat.mul_div_cancel_left _ (by decide)]
    omega
  have hfree : total → flags < pgSize ∧ addr + len ≤ 2 ^ 32 ∧
      ∀ a ∈ u₁.starts (vmas m), a < addr ∨ addr + len ≤ a := by
    intro ht
    obtain ⟨hs, hlow, hend, htop⟩ := hfit ht hlen haddr hzero
    obtain ⟨hbelow, habove⟩ := hplace hs htop
    refine ⟨hlow, hend, fun a ha => ?_⟩
    rw [hl, Uvm.starts, List.map_append, List.mem_append] at ha
    rcases ha with ha | ha
    · have := hbelow a ha
      have hpos : 0 < pgSize := by decide
      omega
    · exact .inr (habove a ha)
  have hloop := createLoop_ends htp (Grown.init h hl) hm hl hflags haddr rfl
    (show len = pgSize * 0 + pgSize * k by omega) hlen32 hfree hfuel
  rw [List.append_nil, show (addr + pgSize * ([] : List Nat).length) % 2 ^ 32 = addr from
    Nat.mod_eq_of_lt haddr32] at hloop
  refine hloop.bind ?_
  intro r u₂ hr
  obtain ⟨c, mapped⟩ := r
  obtain ⟨new, R₂, hmapped, hle, hc, hg₂⟩ := hr
  replace hmapped : mapped = pgSize * new.length := hmapped
  replace hle : mapped ≤ len := hle
  show Ends total (if c < 0 then _ else _) u₂ _
  by_cases hc0 : c < 0
  · rw [if_pos hc0]
    have hroll := hg₂.rollback hm hl hmapped (lt_of_le_of_lt hle hlen32)
    have hend : Ends total ((do
        let first ← nextEntry ((nodes l₁).getLastD (.sentry m))
        unmapAndFreeVma E m first mapped) >>= fun _ => pure c) u₂ fun r u' => ∃ l R',
        CallOn S H mms vmas m u₁ R r u' l R' ∧
          (Sorted u₁ mms vmas → addr + len ≤ 2 ^ 32 →
            len = 0 ∨ addr + len < 2 ^ 32 ∨ vmas m = [] →
            Sorted u' mms (update vmas m l)) := by
      refine hroll.bind ?_
      intro _ u₃ hu₃
      obtain ⟨hd, R₃, ho, h₃⟩ := hu₃
      exact ends_pure (hsame h₃ hd ho)
    rw [bind_assoc] at hend
    exact hend
  · rw [if_neg hc0]
    refine ends_pure ⟨_, R₂, ⟨hg₂.inv, hg₂.only, hg₂.data.mono live_others,
      fun hneg => absurd hneg hc0⟩, ?_⟩
    intro hs hend htop
    obtain ⟨hbelow, habove⟩ := hplace hs (htop.resolve_left hzero)
    have hn : addr + pgSize * new.length ≤ 2 ^ 32 := by omega
    refine hg₂.sorted hm hl hs (createStarts_ascend hn) ?_ ?_
    · exact fun a ha b hb => (hbelow a ha).trans (createStarts_bounds hn hb).1
    · intro a ha b hb
      have hab := habove b hb
      have := (createStarts_bounds hn ha).2
      omega

/-! ## `destroy_uvm` -/

theorem Sorted.middle {seg : List Nat} (hs : Sorted u mms vmas)
    (hl : vmas m = l₁ ++ (seg ++ l₂)) : Sorted u mms (update vmas m (l₁ ++ l₂)) := by
  intro m' hm'
  have hold := hs m' hm'
  by_cases hmm : m' = m
  · subst hmm
    rw [hl] at hold
    rw [update_self]
    exact hold.sublist (((List.sublist_append_right seg l₂).append_left l₁).map _)
  · rw [update_of_ne hmm]
    exact hold

/-- `destroy_uvm`. It always returns if the range is clear of the sentry. -/
theorem destroyUvm_ends (h : UvmInv S H u mms vmas R) (htp : total → paged) (hm : m ∈ mms)
    (hlen32 : len < 2 ^ 32)
    (hclear : total → (u.before m).1 = 0 ∧ addr + len ≤ 2 ^ 32) :
    Ends total (destroyUvm E m addr len) u fun r u' => ∃ l R',
      CallOn S H mms vmas m u R r u' l R' ∧
        (Sorted u mms vmas → Sorted u' mms (update vmas m l)) := by
  have hsame : ∀ r : Int, ∃ l R', CallOn S H mms vmas m u R r u l R' ∧
      (Sorted u mms vmas → Sorted u mms (update vmas m l)) := by
    intro r
    refine ⟨vmas m, R, CallOn.same h (.refl u) (.refl _ R), fun hs => ?_⟩
    rw [update_eq_self]
    exact hs
  rw [destroyUvm]
  by_cases hbad : len % pgSize ≠ 0 ∨ m = 0 ∨ addr % pgSize ≠ 0
  · rw [if_pos hbad]
    exact ends_pure (hsame _)
  rw [if_neg hbad]
  simp only [not_or, not_not] at hbad
  obtain ⟨hlen, -, haddr⟩ := hbad
  refine (findContinuousVma_ends h htp hm haddr hlen hlen32).bind ?_
  intro r u₁ hr
  obtain ⟨rfl, rfl | ⟨l₁, rest, hl, rfl, henough⟩⟩ := hr
  · exact ends_pure (hsame _)
  have hsize : len = pgSize * (len / pgSize) :=
    (Nat.mul_div_cancel' (Nat.dvd_of_mod_eq_zero hlen)).symm
  refine (unmapAndFreeVma_ends h hm hl hsize hlen32
    (fun ht => henough (hclear ht).1 (hclear ht).2)).bind ?_
  intro _ u₂ hu₂
  obtain ⟨seg, l₂, rfl, -, hd, R₂, ho, h₂⟩ := hu₂
  refine ends_pure ⟨l₁ ++ l₂, R₂, ⟨h₂, ho, hd.mono live_nil, fun hneg => absurd hneg (by decide)⟩,
    fun hs => (hs.middle hl).keep hd⟩

/-! ## `mm_clone` -/

/-- The parameters that `mm_clone` gives `linkNewVma` for the area `v` of its
source. -/
theorem hooksOk_clone (h : UvmInv S H u mms vmas R) (hm : m ∈ mms) (hv : v ∈ vmas m) :
    HooksOk S mms vmas u R (pagesRequest v) (copyPages E v pgSize) where
  request u' R' hw hobjs := by
    have hlv : Live mms vmas v := .of_mem hm hv
    have harea := h.spaces.area m hm v hv
    have hout := h.owned.objsOut
    have hlive : ∀ x ∈ R.objs, u'.live x = true := fun x hx => (hw.live x).mpr (hobjs hx)
    rw [pagesRequest]
    refine ends_touch_bind (live_one (hlive v (hout.vma v hlv))) (ends_get_bind ?_)
    rw [hw.data.vma v hlv, hw.data.upages v hlv]
    refine ends_touch_bind (live_one (hlive _ (hout.pages v hlv))) (ends_pure ⟨?_, rfl⟩)
    rw [harea.psize, harea.pflags]
  fill u' R' p a hw hobjs hframes hpR hp ha := by
    have hlv : Live mms vmas v := .of_mem hm hv
    have hout := h.owned.objsOut
    have hlive : ∀ x ∈ R.objs, u'.live x = true := fun x hx => (hw.live x).mpr (hobjs hx)
    have hframe : u.frameOf v ∈ R'.frames :=
      hframes ((h.owned.frames _).mpr (.inr ⟨v, hlv, rfl⟩))
    have hpaddr : (u'.upages p).pages.paddr = a := by rw [hp, pageAt]
    rw [copyPages]
    refine ends_touch_bind
      (live_two (hlive v (hout.vma v hlv)) ((hw.live p).mpr hpR)) (ends_get_bind ?_)
    rw [hpaddr, hw.data.vma v hlv, hw.data.upages v hlv]
    refine ends_touch_bind (live_one (hlive _ (hout.pages v hlv))) ?_
    exact ends_onEnv (S.memmove u'.env R' a (u.frameOf v) hw.rep ha hframe)
      fun _ s hrep => ⟨hw.env hrep rfl, rfl, rfl, rfl⟩

theorem cloneLoop_ends {dst src fuel clonedSize : Nat} {old rest : List Nat}
    (htp : total → paged) (h₀ : UvmInv S H u₀ mms vmas R₀)
    (hg : Grown S H mms vmas dst [] [] u₀ u R₀ new (u₀.starts old) R) (hdst : dst ∈ mms)
    (hsrc : src ∈ mms) (hne : src ≠ dst) (hempty : vmas dst = [])
    (hl : vmas src = old ++ rest) (hnew : new.length = old.length)
    (hsize : clonedSize = pgSize * new.length % 2 ^ 32)
    (hlen : pgSize * (vmas src).length ≤ 2 ^ 32) (hfuel : rest.length < fuel) :
    Ends total (cloneLoop E dst src fuel clonedSize ((nodes rest).headD (.sentry src))
        ((nodes ([] ++ new)).getLastD (.sentry dst))) u fun r u' =>
      ∃ new' old' rest' R', vmas src = old' ++ rest' ∧ r.1 ≤ 0 ∧
        Grown S H mms vmas dst [] [] u₀ u' R₀ new' (u₀.starts old') R' ∧
        (r.1 < 0 → r.2 = pgSize * new'.length ∧ r.2 < 2 ^ 32) := by
  induction rest generalizing u new R old fuel clonedSize with
  | nil =>
      obtain ⟨fuel, rfl⟩ := Nat.exists_eq_add_one_of_ne_zero (Nat.ne_zero_of_lt hfuel)
      show Ends total (cloneLoop E dst src (fuel + 1) clonedSize (.sentry src) _) u _
      rw [cloneLoop, if_pos rfl]
      exact ends_pure ⟨new, old, [], R, hl, le_refl _, hg, fun hneg => absurd hneg (lt_irrefl _)⟩
  | cons v rest ih =>
      obtain ⟨fuel, rfl⟩ := Nat.exists_eq_add_one_of_ne_zero (Nat.ne_zero_of_lt hfuel)
      have hv₀ : v ∈ vmas src := hl ▸ mem_middle
      have hlv : Live mms vmas v := .of_mem hsrc hv₀
      have harea := h₀.spaces.area src hsrc v hv₀
      have hsrc' : update vmas dst ([] ++ (new ++ [])) src = old ++ v :: rest := by
        rw [update_of_ne hne, hl]
      have hv : v ∈ update vmas dst ([] ++ (new ++ [])) src := hsrc' ▸ mem_middle
      have hfree : total → (u₀.vma v).start ∉ u₀.starts (vmas dst) ∧
          (u₀.vma v).start ∉ u₀.starts old ∧ (u₀.vma v).flags < pgSize := by
        intro ht
        have hnd := (h₀.indexed (htp ht)).nodup h₀.spaces hsrc
        rw [hl, Uvm.starts, List.map_append] at hnd
        refine ⟨?_, fun hmem => ?_, h₀.low ht v hlv⟩
        · rw [hempty]
          exact List.not_mem_nil
        · exact (List.nodup_append.mp hnd).2.2 _ hmem _ List.mem_cons_self rfl
      have hlive : u.live v = true := (hg.inv.live_around hsrc hsrc').1
      show Ends total (cloneLoop E dst src (fuel + 1) clonedSize (.vma v) _) u _
      rw [cloneLoop, if_neg VmaNode.noConfusion]
      refine ends_touch_bind (live_one hlive) (ends_get_bind ?_)
      dsimp only
      rw [hg.data.vma v hlv, harea.size]
      refine (hg.link htp hdst hempty harea.aligned harea.lt harea.flags hfree
        (hooksOk_clone hg.inv hsrc hv)).bind ?_
      intro r u₁ hr
      have hlen' := hlen
      rw [hl, List.length_append, List.length_cons] at hlen'
      rcases hr with ⟨c, R₁, rfl, hc, hg₁⟩ | ⟨w, R₁, rfl, hg₁⟩
      · -- At least this area has not been cloned, so the size has not wrapped.
        have hlt : pgSize * new.length < 2 ^ 32 := by
          rw [hnew]
          simp only [pgSize] at hlen' ⊢
          omega
        refine ends_pure ⟨new, old, v :: rest, R₁, hl, le_of_lt hc, hg₁, fun _ => ?_⟩
        rw [Nat.mod_eq_of_lt hlt] at hsize
        exact ⟨hsize, hsize ▸ hlt⟩
      · have hw : update vmas dst ([] ++ ((new ++ [w]) ++ [])) dst =
            new ++ w :: [] := by
          rw [update_self]
          simp
        have hsrc₁ : update vmas dst ([] ++ ((new ++ [w]) ++ [])) src =
            old ++ v :: rest := by
          rw [update_of_ne hne, hl]
        have hring := hg₁.inv.spaces.ring src hsrc
        rw [hsrc₁, nodes_append] at hring
        refine ends_touch_bind (live_one (hg₁.inv.live_around hdst hw).1) (ends_get_bind ?_)
        refine ends_nextEntry_bind (hg₁.inv.live_around hsrc hsrc₁).1 ?_
        have hwmem : w ∈ update vmas dst ([] ++ ((new ++ [w]) ++ [])) dst := by
          rw [hw]
          exact mem_middle
        rw [(hg₁.inv.spaces.area dst hdst w hwmem).size,
          show u₁.links.next (.vma v) = (nodes rest).headD (.sentry src) from hring.next_mem]
        have hcur : (nodes ([] ++ (new ++ [w]))).getLastD (.sentry dst) = .vma w :=
          nodes_getLastD_concat _ _ _
        have hg₂ : Grown S H mms vmas dst [] [] u₀ u₁ R₀ (new ++ [w])
            (u₀.starts (old ++ [v])) R₁ := by
          rw [Uvm.starts, List.map_append]
          exact hg₁
        rw [← hcur]
        refine ih hg₂ ?_ ?_ ?_ (Nat.lt_of_succ_lt_succ hfuel)
        · rw [hl, List.append_assoc, List.singleton_append]
        · rw [List.length_append, List.length_append, hnew]
          rfl
        · rw [hsize, List.length_append, List.length_singleton, Nat.mul_add, Nat.mul_one,
            Nat.mod_add_mod]

/-- `mm_clone` into an address space without areas. -/
theorem mmClone_ends {dst src : Nat} (h : UvmInv S H u mms vmas R) (htp : total → paged)
    (hdst : dst ∈ mms) (hsrc : src ∈ mms) (hempty : vmas dst = [])
    (hlen : pgSize * (vmas src).length ≤ 2 ^ 32) :
    Ends total (mmClone E dst src) u fun r u' => ∃ l R',
      CallOn S H mms vmas dst u R r u' l R' ∧
        (Sorted u mms vmas → Sorted u' mms (update vmas dst l)) := by
  have hsame : ∀ {r : Int} {u' : Uvm σ} {R' : Res}, UvmInv S H u' mms vmas R' →
      SameData mms vmas u u' → Res.OnlyAt (u.pgindex dst) R R' → ∃ l R',
      CallOn S H mms vmas dst u R r u' l R' ∧
        (Sorted u mms vmas → Sorted u' mms (update vmas dst l)) := by
    intro r u' R' h' hd ho
    refine ⟨vmas dst, R', CallOn.same h' hd ho, fun hs => ?_⟩
    rw [update_eq_self]
    exact hs.keep hd
  rw [mmClone]
  refine ends_nextEntry_bind (h.live_node hsrc _ List.mem_cons_self) ?_
  rw [h.spaces.next_sentry hsrc]
  by_cases hne : src = dst
  · -- Nothing to copy.
    subst hne
    rw [hempty]
    have hloop : Ends total (cloneLoop E src src listFuel 0 (.sentry src) (.sentry src)) u
        fun r u' => r = (0, 0) ∧ u' = u := by
      rw [show listFuel = 4294967295 + 1 from rfl, cloneLoop, if_pos rfl]
      exact ends_pure ⟨rfl, rfl⟩
    refine hloop.bind ?_
    intro r u' hr
    obtain ⟨rfl, rfl⟩ := hr
    exact ends_pure (hsame h (.refl _) (.refl _ R))
  have hloop := cloneLoop_ends htp h (Grown.init h hempty) hdst hsrc hne hempty
    (List.nil_append _).symm rfl rfl hlen (lt_listFuel hlen)
  refine hloop.bind ?_
  intro r u₁ hr
  obtain ⟨c, clonedSize⟩ := r
  obtain ⟨new, old, rest, R₁, hl, hc, hg₁, hsize⟩ := hr
  show Ends total (if c < 0 then _ else _) u₁ _
  by_cases hc0 : c < 0
  · rw [if_pos hc0]
    have hroll := hg₁.rollback hdst hempty (hsize hc0).1 (hsize hc0).2
    have hend : Ends total ((do
        let first ← nextEntry ((nodes []).getLastD (.sentry dst))
        unmapAndFreeVma E dst first clonedSize) >>= fun _ => pure c) u₁ fun r u' => ∃ l R',
        CallOn S H mms vmas dst u R r u' l R' ∧
          (Sorted u mms vmas → Sorted u' mms (update vmas dst l)) := by
      refine hroll.bind ?_
      intro _ u₂ hu₂
      obtain ⟨hd, R₂, ho, h₂⟩ := hu₂
      exact ends_pure (hsame h₂ hd ho)
    rw [bind_assoc] at hend
    exact hend
  · rw [if_neg hc0]
    refine ends_pure ⟨_, R₁, ⟨hg₁.inv, hg₁.only, hg₁.data.mono live_others,
      fun hneg => absurd hneg hc0⟩, fun hs => hg₁.sorted hdst hempty hs ?_ ?_ ?_⟩
    · have hold := hs src hsrc
      rw [hl, Uvm.starts, List.map_append] at hold
      exact (List.pairwise_append.mp hold).1
    · exact fun _ ha => (List.not_mem_nil ha).elim
    · exact fun _ _ _ hb => (List.not_mem_nil hb).elim

end Aim.Kern
