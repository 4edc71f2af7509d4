import Aim.Proofs.UvmStep

/-!
# Many areas: the loops of `uvm.c`

The searches through a list, and the loops that add and remove a stretch of
areas. A stretch is a list of areas in the middle of the list of its address
space: `create_uvm` and `mm_clone` let one grow behind `l₁` and in front of
`l₂`, and `__unmap_and_free_vma` takes one away again, whether it was asked to
by `destroy_uvm` or has to roll back.

Nothing here needs the areas to ascend, except what the searches say about
where they have stopped.
-/

namespace Aim.Kern

open Aim.Lib Function

variable {σ : Type} {E : Env σ} {paged total : Prop} {S : EnvSpec E paged total} {u₀ u : Uvm σ}
  {mms l₁ l₂ l rest : List Nat} {vmas : Nat → List Nat} {H : Others} {R R₀ : Res}
  {m v addr len : Nat} {n : VmaNode}

/-! ## How long a list can be -/

/-- Pages that are all different are not more than there are. -/
theorem length_of_pages (hnd : l.Nodup) (ha : ∀ a ∈ l, a % pgSize = 0) (hlt : ∀ a ∈ l, a < 2 ^ 32) :
    pgSize * l.length ≤ 2 ^ 32 := by
  have hsub : l ⊆ (List.range (2 ^ 20)).map (pgSize * ·) := by
    intro a hal
    refine List.mem_map.mpr ⟨a / pgSize, List.mem_range.mpr ?_, ?_⟩
    · have := hlt a hal
      rw [pgSize]
      omega
    · exact Nat.mul_div_cancel' (Nat.dvd_of_mod_eq_zero (ha a hal))
  have hle := (hnd.subperm hsub).length_le
  rw [List.length_map, List.length_range] at hle
  rw [pgSize]
  omega

theorem Spaces.starts_page (h : Spaces u mms vmas) (hm : m ∈ mms) :
    ∀ a ∈ u.starts (vmas m), a % pgSize = 0 ∧ a < 2 ^ 32 := by
  intro a ha
  obtain ⟨v, hv, rfl⟩ := List.mem_map.mp ha
  exact ⟨(h.area m hm v hv).aligned, (h.area m hm v hv).lt⟩

theorem Spaces.length_le (h : Spaces u mms vmas) (hm : m ∈ mms)
    (hnd : (u.starts (vmas m)).Nodup) : pgSize * (vmas m).length ≤ 2 ^ 32 := by
  have hpage := h.starts_page hm
  have hle := length_of_pages hnd (fun a ha => (hpage a ha).1) (fun a ha => (hpage a ha).2)
  rw [Uvm.starts, List.length_map] at hle
  exact hle

theorem Sorted.nodup (h : Sorted u mms vmas) (hm : m ∈ mms) : (u.starts (vmas m)).Nodup := by
  refine (h m hm).imp ?_
  intro a b hab heq
  have hpos : 0 < pgSize := by decide
  omega

theorem Indexed.nodup {I : Set Nat} (h : Indexed u mms vmas I R) (hs : Spaces u mms vmas)
    (hm : m ∈ mms) : (u.starts (vmas m)).Nodup :=
  (hs.nodup hm).map_on fun v hv w hw => h.distinct m hm v hv w hw

theorem lt_listFuel {n : Nat} (h : pgSize * n ≤ 2 ^ 32) : n < listFuel := by
  rw [pgSize] at h
  rw [listFuel]
  omega

/-- Where page indexes are accounted for, no list is longer than its loops. -/
theorem UvmInv.length_lt_fuel (h : UvmInv S H u mms vmas R) (htp : total → paged)
    (hm : m ∈ mms) : total → (vmas m).length < listFuel := by
  intro ht
  exact lt_listFuel (h.spaces.length_le hm ((h.indexed (htp ht)).nodup h.spaces hm))

/-! ## Searches -/

theorem UvmInv.live_node (h : UvmInv S H u mms vmas R) (hm : m ∈ mms) :
    ∀ n ∈ VmaNode.sentry m :: nodes (vmas m), u.live n.object = true :=
  fun _ hn => (h.live _).mpr (h.owned.objsOut.node hm hn)

theorem live_area (h : u.live n.object = true) : ∀ x ∈ n.area, u.live x = true := by
  cases n with
  | sentry m =>
      intro x hx
      cases hx
  | vma v => exact live_one h

/-- The loop stops at the first area that it is looking for, or else at the
sentry, unless the list is longer than the loop. -/
theorem forEachEntry_cases (stop : Nat → Bool) (fuel : Nat) (l₁ l₂ : List Nat)
    (hring : Links.Ring u.links (.sentry m) (nodes (l₁ ++ l₂)))
    (hlive : ∀ v ∈ l₂, u.live v = true) :
    (∃ l₃ l₄, l₂ = l₃ ++ l₄ ∧ (forEachEntry m stop fuel ((nodes l₂).headD (.sentry m))).run u =
        .ok ((nodes l₄).headD (.sentry m)) u ∧
      (∀ v ∈ l₃, stop (u.vma v).start = false) ∧ ∀ v ∈ l₄.head?, stop (u.vma v).start = true) ∨
    (fuel ≤ l₂.length ∧
      (forEachEntry m stop fuel ((nodes l₂).headD (.sentry m))).run u = .error .fuel u) := by
  induction fuel generalizing l₁ l₂ with
  | zero => exact .inr ⟨Nat.zero_le _, rfl⟩
  | succ fuel ih =>
      cases l₂ with
      | nil =>
          refine .inl ⟨[], [], rfl, ?_, fun _ hv => (List.not_mem_nil hv).elim,
            fun _ hv => (Option.not_mem_none _ hv).elim⟩
          rw [forEachEntry, if_pos (show (nodes []).headD (.sentry m) = .sentry m from rfl)]
          rfl
      | cons v l =>
          have hv : u.live v = true := hlive v List.mem_cons_self
          have hhead : (nodes (v :: l)).headD (.sentry m) = .vma v := rfl
          rw [hhead, forEachEntry, if_neg VmaNode.noConfusion,
            run_bind_ok (touch_run (live_area (n := .vma v) hv)), run_get_bind]
          have hstart : u.startOf (.vma v) = (u.vma v).start := rfl
          rw [hstart]
          cases hstop : stop (u.vma v).start with
          | true =>
              refine .inl ⟨[], v :: l, rfl, rfl, fun _ hw => (List.not_mem_nil hw).elim, ?_⟩
              intro w hw
              cases hw
              exact hstop
          | false =>
              rw [if_neg Bool.false_ne_true, run_bind_ok (nextEntry_run (n := .vma v) hv)]
              have hring' : Links.Ring u.links (.sentry m) (nodes l₁ ++ .vma v :: nodes l) := by
                rw [nodes_append] at hring
                exact hring
              have hring'' : Links.Ring u.links (.sentry m) (nodes (l₁ ++ [v] ++ l)) := by
                rw [List.append_assoc, List.singleton_append]
                exact hring
              rw [hring'.next_mem]
              rcases ih (l₁ ++ [v]) l hring'' fun w hw => hlive w (List.mem_cons_of_mem _ hw) with
                ⟨l₃, l₄, hl, hrun, h₃, h₄⟩ | ⟨hfuel, hrun⟩
              · refine .inl ⟨v :: l₃, l₄, by rw [hl, List.cons_append], hrun, ?_, h₄⟩
                intro w hw
                rcases List.mem_cons.mp hw with rfl | hw
                · exact hstop
                · exact h₃ w hw
              · exact .inr ⟨Nat.succ_le_succ hfuel, hrun⟩

theorem forEachEntry_ends {stop : Nat → Bool} {fuel : Nat} (l₁ l₂ : List Nat)
    (hring : Links.Ring u.links (.sentry m) (nodes (l₁ ++ l₂)))
    (hlive : ∀ v ∈ l₂, u.live v = true) (hfuel : total → l₂.length < fuel) :
    Ends total (forEachEntry m stop fuel ((nodes l₂).headD (.sentry m))) u fun r u' =>
      u' = u ∧ ∃ l₃ l₄, l₂ = l₃ ++ l₄ ∧ r = (nodes l₄).headD (.sentry m) ∧
        (∀ v ∈ l₃, stop (u.vma v).start = false) ∧
        ∀ v ∈ l₄.head?, stop (u.vma v).start = true := by
  rcases forEachEntry_cases stop fuel l₁ l₂ hring hlive with
    ⟨l₃, l₄, hl, hrun, h₃, h₄⟩ | ⟨hle, hrun⟩
  · exact ends_of_ok hrun ⟨rfl, l₃, l₄, hl, rfl, h₃, h₄⟩
  · exact ends_of_stop hrun fun ht => absurd (hfuel ht) (not_lt.mpr hle)

theorem Spaces.next_sentry (h : Spaces u mms vmas) (hm : m ∈ mms) :
    u.links.next (.sentry m) = (nodes (vmas m)).headD (.sentry m) :=
  (show Links.Ring u.links (.sentry m) ([] ++ nodes (vmas m)) from h.ring m hm).next_last

theorem nodes_getLastD_concat (l : List Nat) (v : Nat) (n : VmaNode) :
    (nodes (l ++ [v])).getLastD n = .vma v := by
  rw [nodes_append]
  exact List.getLastD_concat

/-- The search refuses or finds a place in the list. Of a range that ends below
`2 ^ 32`, or in an empty address space, that is the place between the areas
below and above, if the areas ascend. -/
theorem findVmaBefore_ends (h : UvmInv S H u mms vmas R) (htp : total → paged) (hm : m ∈ mms)
    (haddr : addr % pgSize = 0) (hlen : len % pgSize = 0) :
    Ends total (findVmaBefore m addr len) u fun r u' => u' = u ∧
      (r = none ∨ ∃ l₁ l₂, vmas m = l₁ ++ l₂ ∧
        r = some ((nodes l₁).getLastD (.sentry m)) ∧
        (Sorted u mms vmas → addr + len < 2 ^ 32 ∨ vmas m = [] →
          (∀ a ∈ u.starts l₁, a + pgSize ≤ addr) ∧ ∀ a ∈ u.starts l₂, addr + len ≤ a)) := by
  have hnode := h.live_node hm
  rw [findVmaBefore]
  refine ends_nextEntry_bind (hnode _ List.mem_cons_self) ?_
  rw [h.spaces.next_sentry hm]
  by_cases hnil : vmas m = []
  · rw [hnil, if_pos (show (nodes []).headD (.sentry m) = .sentry m from rfl)]
    exact ends_pure ⟨rfl, .inr ⟨[], [], rfl, rfl, fun _ _ =>
      ⟨fun _ ha => (List.not_mem_nil ha).elim, fun _ ha => (List.not_mem_nil ha).elim⟩⟩⟩
  have hne : (nodes (vmas m)).headD (.sentry m) ≠ .sentry m := by
    obtain ⟨v, l, hvl⟩ := List.exists_cons_of_ne_nil hnil
    rw [hvl]
    exact VmaNode.noConfusion
  rw [if_neg hne]
  refine (forEachEntry_ends [] (vmas m) (h.spaces.ring m hm) ?_
    (h.length_lt_fuel htp hm)).bind ?_
  · intro v hv
    exact hnode (.vma v) (List.mem_cons_of_mem _ (nodes_mem.mpr ⟨v, hv, rfl⟩))
  intro n u' hn
  obtain ⟨rfl, l₃, l₄, hl, rfl, hpass, hstop⟩ := hn
  have hring := h.spaces.ring m hm
  rw [hl, nodes_append] at hring hnode
  refine ends_prevEntry_bind (hnode _ (Links.headD_mem_append _ _ _)) ?_
  rw [hring.prev_headD]
  refine ends_touch_bind (live_area (hnode _ (Links.getLastD_mem_append _ _ _)))
    (ends_get_bind ?_)
  by_cases hover : addr < (u'.startOf ((nodes l₃).getLastD (.sentry m)) +
      u'.sizeOf ((nodes l₃).getLastD (.sentry m))) % 2 ^ 32
  · rw [if_pos hover]
    exact ends_pure ⟨rfl, .inl rfl⟩
  rw [if_neg hover]
  refine ends_pure ⟨rfl, .inr ⟨l₃, l₄, hl, rfl, ?_⟩⟩
  intro hsorted hend
  have hlt := hend.resolve_right hnil
  have hs := hsorted m hm
  rw [hl, Uvm.starts, List.map_append] at hs
  obtain ⟨hs₃, hs₄, -⟩ := List.pairwise_append.mp hs
  rw [Nat.mod_eq_of_lt hlt] at hpass hstop
  refine ⟨?_, ?_⟩
  · -- The area in front of the place does not wrap, since it starts below the range.
    rcases List.eq_nil_or_concat l₃ with rfl | ⟨l₀, p, rfl⟩
    · exact fun _ ha => (List.not_mem_nil ha).elim
    rw [List.concat_eq_append] at hl hs₃ hpass hover ⊢
    rw [nodes_getLastD_concat] at hover
    have hp : p ∈ vmas m := by
      rw [hl]
      exact List.mem_append_left _ (List.mem_append_right _ List.mem_cons_self)
    have harea := h.spaces.area m hm p hp
    have hbelow : (u'.vma p).start < addr + len :=
      not_le.mp (of_decide_eq_false (hpass p (List.mem_append_right _ List.mem_cons_self)))
    have hal := harea.aligned
    have hpend : (u'.vma p).start + pgSize < 2 ^ 32 := by
      simp only [pgSize] at *
      omega
    have hlast : (u'.vma p).start + pgSize ≤ addr := by
      have hover' : ¬ addr < ((u'.vma p).start + (u'.vma p).size) % 2 ^ 32 := hover
      rw [harea.size, Nat.mod_eq_of_lt hpend] at hover'
      exact not_lt.mp hover'
    intro a ha
    rw [Uvm.starts, List.map_append, List.mem_append] at ha
    rw [List.map_append] at hs₃
    rcases ha with ha | ha
    · have := (List.pairwise_append.mp hs₃).2.2 a ha (u'.vma p).start List.mem_cons_self
      omega
    · rw [List.mem_singleton.mp ha]
      exact hlast
  · cases l₄ with
    | nil => exact fun _ ha => (List.not_mem_nil ha).elim
    | cons w l =>
        have hw : addr + len ≤ (u'.vma w).start := of_decide_eq_true (hstop w rfl)
        intro a ha
        rcases List.mem_cons.mp ha with rfl | ha
        · exact hw
        · have hwa : (u'.vma w).start + pgSize ≤ a := (List.pairwise_cons.mp hs₄).1 a ha
          omega

/-- A step along a ring stays on it. -/
theorem ring_next_mem (h : Links.Ring u.links (.sentry m) (nodes l))
    (hn : n ∈ VmaNode.sentry m :: nodes l) :
    u.links.next n ∈ VmaNode.sentry m :: nodes l := by
  obtain ⟨l₁, l₂, hl⟩ : ∃ l₁ l₂, nodes l = l₁ ++ l₂ ∧ n = l₁.getLastD (.sentry m) := by
    rcases List.mem_cons.mp hn with rfl | hn
    · exact ⟨[], nodes l, rfl, rfl⟩
    · obtain ⟨l₁, l₂, hl⟩ := List.append_of_mem hn
      refine ⟨l₁ ++ [n], l₂, ?_, List.getLastD_concat.symm⟩
      rw [hl, List.append_assoc, List.singleton_append]
  obtain ⟨hl, rfl⟩ := hl
  rw [hl] at h ⊢
  rw [h.next_last]
  exact Links.headD_mem_append _ _ _

/-- With `k` pages to go, the loop only says yes if there are as many areas
behind `n`, provided that the sentry's start is no address of the range. -/
theorem continuousLoop_ends {addr len i k fuel : Nat} (h : UvmInv S H u mms vmas R) (hm : m ∈ mms)
    (hn : n ∈ VmaNode.sentry m :: nodes (vmas m)) (hlen : len = i + pgSize * k) (hi : 0 < i)
    (hlen32 : len < 2 ^ 32) (hfuel : k < fuel) :
    Ends total (continuousLoop addr len fuel i n) u fun r u' => u' = u ∧
      (r = true → (u.before m).1 = 0 → addr + len ≤ 2 ^ 32 → ∀ l₁ l₂ v,
        n = .vma v → vmas m = l₁ ++ v :: l₂ → k ≤ l₂.length) := by
  induction k generalizing i n fuel with
  | zero =>
      obtain ⟨fuel, rfl⟩ := Nat.exists_eq_add_one_of_ne_zero (Nat.ne_zero_of_lt hfuel)
      rw [continuousLoop, if_neg (by omega)]
      exact ends_pure ⟨rfl, fun _ _ _ _ _ _ _ _ => Nat.zero_le _⟩
  | succ k ih =>
      obtain ⟨fuel, rfl⟩ := Nat.exists_eq_add_one_of_ne_zero (Nat.ne_zero_of_lt hfuel)
      rw [Nat.mul_add, Nat.mul_one] at hlen
      have hpos : 0 < pgSize := by decide
      have hring := h.spaces.ring m hm
      have hnext := ring_next_mem hring hn
      rw [continuousLoop, if_pos (by omega)]
      refine ends_nextEntry_bind (h.live_node hm n hn) ?_
      refine ends_touch_bind (live_area (h.live_node hm _ hnext)) (ends_get_bind ?_)
      by_cases hw : u.startOf (u.links.next n) ≠ (addr + i) % 2 ^ 32
      · rw [if_pos hw]
        exact ends_pure ⟨rfl, fun hf => (Bool.false_ne_true hf).elim⟩
      rw [if_neg hw, Nat.mod_eq_of_lt (show i + pgSize < 2 ^ 32 by omega)]
      refine (ih hnext (by omega) (by omega) (Nat.lt_of_succ_lt_succ hfuel)).imp ?_
      intro r u' hr
      obtain ⟨rfl, hr⟩ := hr
      refine ⟨rfl, ?_⟩
      intro htrue hbefore hend l₁ l₂ v hnv hl
      subst hnv
      rw [hl, nodes_append] at hring
      have hhead : u'.links.next (.vma v) = (nodes l₂).headD (.sentry m) := hring.next_mem
      cases l₂ with
      | nil =>
          -- The sentry has been taken for an area at zero.
          have hzero : u'.startOf (u'.links.next (.vma v)) = 0 := by
            rw [hhead]
            exact hbefore
          rw [not_not, hzero, Nat.mod_eq_of_lt (by omega)] at hw
          omega
      | cons w l =>
          have hl' : vmas m = (l₁ ++ [v]) ++ w :: l := by
            rw [hl, List.append_assoc, List.singleton_append]
          have := hr htrue hbefore hend (l₁ ++ [v]) l w hhead hl'
          rw [List.length_cons]
          omega

/-- A region that `__find_continuous_vma` finds starts at an area, and if it is
clear of the sentry, then there is an area for every page. -/
theorem findContinuousVma_ends (h : UvmInv S H u mms vmas R) (htp : total → paged) (hm : m ∈ mms)
    (haddr : addr % pgSize = 0) (hlen : len % pgSize = 0) (hlen32 : len < 2 ^ 32) :
    Ends total (findContinuousVma m addr len) u fun r u' => u' = u ∧
      (r = none ∨ ∃ l₁ l₂, vmas m = l₁ ++ l₂ ∧ r = some ((nodes l₂).headD (.sentry m)) ∧
        ((u.before m).1 = 0 → addr + len ≤ 2 ^ 32 → len / pgSize ≤ l₂.length)) := by
  have hnode := h.live_node hm
  rw [findContinuousVma]
  refine ends_kassert_bind (fun hf => absurd haddr (of_decide_eq_false hf)) ?_
  refine ends_kassert_bind (fun hf => absurd hlen (of_decide_eq_false hf)) ?_
  refine ends_nextEntry_bind (hnode _ List.mem_cons_self) ?_
  rw [h.spaces.next_sentry hm]
  refine (forEachEntry_ends [] (vmas m) (h.spaces.ring m hm) ?_
    (h.length_lt_fuel htp hm)).bind ?_
  · intro v hv
    exact hnode (.vma v) (List.mem_cons_of_mem _ (nodes_mem.mpr ⟨v, hv, rfl⟩))
  intro n u' hn
  obtain ⟨rfl, l₃, l₄, hl, rfl, -, -⟩ := hn
  cases l₄ with
  | nil =>
      rw [if_pos (show (nodes []).headD (.sentry m) = .sentry m from rfl)]
      exact ends_pure ⟨rfl, .inl rfl⟩
  | cons v l =>
      have hne : (nodes (v :: l)).headD (.sentry m) ≠ .sentry m := VmaNode.noConfusion
      have hmem : VmaNode.vma v ∈ VmaNode.sentry m :: nodes (vmas m) :=
        List.mem_cons_of_mem _ (nodes_mem.mpr ⟨v, hl ▸ mem_middle, rfl⟩)
      rw [if_neg hne]
      obtain ⟨k, hk⟩ := Nat.dvd_of_mod_eq_zero hlen
      have hdiv : len / pgSize = k := by rw [hk, Nat.mul_div_cancel_left _ (by decide)]
      have hloop : Ends total (continuousLoop addr len (len / pgSize + 1) pgSize (.vma v)) u'
          fun r u₁ => u₁ = u' ∧ (r = true → (u'.before m).1 = 0 → addr + len ≤ 2 ^ 32 →
            k ≤ l.length + 1) := by
        cases k with
        | zero =>
            obtain rfl : len = 0 := hk
            exact ends_pure ⟨rfl, fun _ _ _ => Nat.zero_le _⟩
        | succ k =>
            have hk' : len = pgSize + pgSize * k := by
              rw [hk, Nat.mul_add, Nat.mul_one, Nat.add_comm]
            refine (continuousLoop_ends h hm hmem hk' (by decide) hlen32 (by omega)).imp ?_
            intro r u₁ hr
            refine ⟨hr.1, fun htrue hb hend => ?_⟩
            exact Nat.succ_le_succ (hr.2 htrue hb hend l₃ l v rfl hl)
      refine hloop.bind ?_
      intro r u₁ hr
      obtain ⟨rfl, hr⟩ := hr
      cases r with
      | false =>
          rw [if_neg Bool.false_ne_true]
          exact ends_pure ⟨rfl, .inl rfl⟩
      | true =>
          rw [if_pos rfl]
          refine ends_pure ⟨rfl, .inr ⟨l₃, v :: l, hl, rfl, ?_⟩⟩
          rw [hdiv]
          exact hr rfl

/-! ## Taking a stretch away -/

theorem live_mono {l l' : List Nat} (hsub : ∀ v ∈ l, v ∈ l') :
    ∀ v, Live mms (update vmas m l) v → Live mms (update vmas m l') v := by
  intro v hv
  obtain ⟨m', hm', hv⟩ := hv
  refine ⟨m', hm', ?_⟩
  by_cases hmm : m' = m
  · subst hmm
    rw [update_self] at hv ⊢
    exact hsub v hv
  · rw [update_of_ne hmm] at hv ⊢
    exact hv

theorem unmapLoop_done {size i fuel : Nat} (h : ¬ i < size) :
    unmapLoop E m size (fuel + 1) i n = pure () := by
  cases n with
  | sentry m' => rw [unmapLoop, if_neg h]
  | vma v => rw [unmapLoop, if_neg h]

/-- The loop of `__unmap_and_free_vma` with `k` pages to go takes as many areas
away. If there are not as many, it gets to the sentry and stops. -/
theorem unmapLoop_ends {size i k fuel : Nat} (h : UvmInv S H u mms vmas R) (hm : m ∈ mms)
    (hl : vmas m = l₁ ++ rest) (hsize : size = i + pgSize * k) (hsize32 : size < 2 ^ 32)
    (hfuel : k < fuel) (henough : total → k ≤ rest.length) :
    Ends total (unmapLoop E m size fuel i ((nodes rest).headD (.sentry m))) u
      fun _ u' => ∃ seg l₂, rest = seg ++ l₂ ∧ seg.length = k ∧
        SameData mms (update vmas m (l₁ ++ l₂)) u u' ∧
        ∃ R', Res.OnlyAt (u.pgindex m) R R' ∧
          UvmInv S H u' mms (update vmas m (l₁ ++ l₂)) R' := by
  induction k generalizing u vmas R i fuel rest with
  | zero =>
      obtain ⟨fuel, rfl⟩ := Nat.exists_eq_add_one_of_ne_zero (Nat.ne_zero_of_lt hfuel)
      rw [unmapLoop_done (by omega)]
      refine ends_pure ⟨[], rest, rfl, rfl, .refl u, R, .refl _ R, ?_⟩
      rw [← hl, update_eq_self]
      exact h
  | succ k ih =>
      obtain ⟨fuel, rfl⟩ := Nat.exists_eq_add_one_of_ne_zero (Nat.ne_zero_of_lt hfuel)
      rw [Nat.mul_add, Nat.mul_one] at hsize
      have hpos : 0 < pgSize := by decide
      cases rest with
      | nil =>
          show Ends total (unmapLoop E m size (fuel + 1) i (.sentry m)) u _
          rw [unmapLoop, if_pos (by omega)]
          exact ends_throw fun ht => Nat.not_succ_le_zero k (henough ht)
      | cons v rest =>
          have hring := h.spaces.ring m hm
          rw [hl, nodes_append] at hring
          have hv : v ∈ vmas m := hl ▸ mem_middle
          show Ends total (unmapLoop E m size (fuel + 1) i (.vma v)) u _
          rw [unmapLoop, if_pos (by omega)]
          refine ends_nextEntry_bind (h.live_around hm hl).1 (ends_get_bind ?_)
          rw [(h.spaces.area m hm v hv).size, Nat.mod_eq_of_lt (by omega),
            show u.links.next (.vma v) = (nodes rest).headD (.sentry m) from hring.next_mem]
          refine (unmapVma_ends h hm hl).bind ?_
          intro _ u₁ hu₁
          obtain ⟨hd₁, R₁, ho₁, h₁⟩ := hu₁
          have hrest := ih (i := i + pgSize) h₁ (update_self m _ _) (by omega)
            (Nat.lt_of_succ_lt_succ hfuel) (fun ht => Nat.le_of_succ_le_succ (henough ht))
          refine hrest.imp ?_
          intro _ u₂ hu₂
          obtain ⟨seg, l₂, rfl, hseg, hd₂, R₂, ho₂, h₂⟩ := hu₂
          rw [update_idem] at hd₂ h₂
          rw [hd₁.pgindex m hm] at ho₂
          refine ⟨v :: seg, l₂, rfl, congrArg (· + 1) hseg, (hd₁.mono (live_mono ?_)).trans hd₂,
            R₂, ho₁.trans ho₂, h₂⟩
          intro w hw
          rcases List.mem_append.mp hw with hw | hw
          · exact List.mem_append_left _ hw
          · exact List.mem_append_right _ (List.mem_append_right _ hw)

theorem unmapAndFreeVma_ends {size k : Nat} (h : UvmInv S H u mms vmas R) (hm : m ∈ mms)
    (hl : vmas m = l₁ ++ rest) (hsize : size = pgSize * k) (hsize32 : size < 2 ^ 32)
    (henough : total → k ≤ rest.length) :
    Ends total (unmapAndFreeVma E m ((nodes rest).headD (.sentry m)) size) u
      fun _ u' => ∃ seg l₂, rest = seg ++ l₂ ∧ seg.length = k ∧
        SameData mms (update vmas m (l₁ ++ l₂)) u u' ∧
        ∃ R', Res.OnlyAt (u.pgindex m) R R' ∧
          UvmInv S H u' mms (update vmas m (l₁ ++ l₂)) R' := by
  rw [unmapAndFreeVma]
  refine unmapLoop_ends h hm hl (by omega) hsize32 ?_ henough
  rw [hsize, pgSize]
  omega

/-! ## Letting a stretch grow -/

/-- Since `u₀`, where `m` had the areas `l₁ ++ l₂`, the areas `new` have come in
between. They start at `starts`. -/
structure Grown (S : EnvSpec E paged total) (H : Others) (mms : List Nat)
    (vmas : Nat → List Nat) (m : Nat) (l₁ l₂ : List Nat) (u₀ u : Uvm σ) (R₀ : Res)
    (new starts : List Nat) (R : Res) : Prop where
  inv : UvmInv S H u mms (update vmas m (l₁ ++ (new ++ l₂))) R
  data : SameData mms vmas u₀ u
  only : Res.OnlyAt (u₀.pgindex m) R₀ R
  startsAt : u.starts new = starts

variable {new starts : List Nat} {start flags : Nat}

theorem live_grown (hl : vmas m = l₁ ++ l₂) :
    ∀ v, Live mms vmas v → Live mms (update vmas m (l₁ ++ (new ++ l₂))) v := by
  intro v hv
  rw [← update_eq_self m vmas, hl] at hv
  refine live_mono (fun w hw => ?_) v hv
  rcases List.mem_append.mp hw with hw | hw
  · exact List.mem_append_left _ hw
  · exact List.mem_append_right _ (List.mem_append_right _ hw)

theorem Grown.init (h : UvmInv S H u mms vmas R) (hl : vmas m = l₁ ++ l₂) :
    Grown S H mms vmas m l₁ l₂ u u R [] [] R := by
  refine ⟨?_, .refl u, .refl _ R, rfl⟩
  rw [List.nil_append, ← hl, update_eq_self]
  exact h

variable (hg : Grown S H mms vmas m l₁ l₂ u₀ u R₀ new starts R)

include hg

/-- The starts in the list of `m`. -/
theorem Grown.starts_mem (hm : m ∈ mms) (hl : vmas m = l₁ ++ l₂) {w : Nat}
    (hw : w ∈ l₁ ++ (new ++ l₂)) :
    (u.vma w).start ∈ u₀.starts (vmas m) ∨ (u.vma w).start ∈ starts := by
  have hold : w ∈ vmas m → (u.vma w).start ∈ u₀.starts (vmas m) := by
    intro hwm
    rw [hg.data.vma w (.of_mem hm hwm)]
    exact List.mem_map_of_mem hwm
  rw [hl] at hold
  rcases List.mem_append.mp hw with hw | hw
  · exact .inl (hl ▸ hold (List.mem_append_left _ hw))
  rcases List.mem_append.mp hw with hw | hw
  · rw [← hg.startsAt]
    exact .inr (List.mem_map_of_mem hw)
  · exact .inl (hl ▸ hold (List.mem_append_right _ hw))

/-- A page at which nothing starts is not present. -/
theorem Grown.free (hm : m ∈ mms) (hl : vmas m = l₁ ++ l₂) (hp : paged)
    (hold : start ∉ u₀.starts (vmas m)) (hnew : start ∉ starts) :
    R.maps (u.pgindex m) start = none := by
  cases hmaps : R.maps (u.pgindex m) start with
  | none => rfl
  | some e =>
      obtain ⟨w, hw, hstart, -⟩ := ((hg.inv.indexed hp).maps m hm start e).mp hmaps
      rw [update_self] at hw
      rcases hg.starts_mem hm hl hw with hmem | hmem
      · exact absurd (hstart ▸ hmem) hold
      · exact absurd (hstart ▸ hmem) hnew

/-- A round of a loop that lets the stretch grow. -/
theorem Grown.link {request : EStateM Stop (Uvm σ) (Nat × Nat)}
    {fill : Nat → EStateM Stop (Uvm σ) Unit} (htp : total → paged) (hm : m ∈ mms)
    (hl : vmas m = l₁ ++ l₂) (haligned : start % pgSize = 0) (hlt : start < 2 ^ 32)
    (hflags : flags < 2 ^ 32)
    (hfree : total → start ∉ u₀.starts (vmas m) ∧ start ∉ starts ∧ flags < pgSize)
    (hhooks : HooksOk S mms (update vmas m (l₁ ++ (new ++ l₂))) u R request fill) :
    Ends total (linkNewVma E m start pgSize flags request fill
        ((nodes (l₁ ++ new)).getLastD (.sentry m))) u fun r u' =>
      (∃ c R', r = .inl c ∧ c < 0 ∧ Grown S H mms vmas m l₁ l₂ u₀ u' R₀ new starts R') ∨
        ∃ v R', r = .inr v ∧
          Grown S H mms vmas m l₁ l₂ u₀ u' R₀ (new ++ [v]) (starts ++ [start]) R' := by
  have hgap : Gap total u (update vmas m (l₁ ++ (new ++ l₂))) R m (l₁ ++ new) l₂
      start flags := by
    refine ⟨?_, haligned, hlt, hflags, fun ht => ?_⟩
    · rw [update_self, List.append_assoc]
    · obtain ⟨hold, hnew, hlow⟩ := hfree ht
      exact ⟨hg.free hm hl (htp ht) hold hnew, hlow⟩
  have hlive : ∀ w ∈ new, Live mms (update vmas m (l₁ ++ (new ++ l₂))) w := by
    intro w hw
    refine .of_mem hm ?_
    rw [update_self]
    exact List.mem_append_right _ (List.mem_append_left _ hw)
  have hpgindex : u.pgindex m = u₀.pgindex m := hg.data.pgindex m hm
  refine (linkNewVma_ends hg.inv hm hgap hhooks).imp ?_
  intro r u' hr
  rcases hr with ⟨c, X, rfl, hc, hw⟩ | ⟨v, R', rfl, hd, hstart, ho, hinv⟩
  · refine .inl ⟨c, _, rfl, hc, hw.inv hg.inv, hg.data.trans (hw.data.mono (live_grown hl)), ?_, ?_⟩
    · rw [hpgindex]
      exact hg.only.trans Res.onlyAt_setInner
    · rw [hw.data.starts hlive]
      exact hg.startsAt
  · rw [hpgindex] at ho
    refine .inr ⟨v, R', rfl, ?_, hg.data.trans (hd.mono (live_grown hl)), hg.only.trans ho, ?_⟩
    · rw [update_idem, List.append_assoc, ← List.singleton_append,
        ← List.append_assoc new] at hinv
      exact hinv
    · rw [Uvm.starts, List.map_append]
      show u'.starts new ++ [(u'.vma v).start] = _
      rw [hd.starts hlive, hg.startsAt, hstart]

/-- The stretch that has grown is taken away again. -/
theorem Grown.rollback {size : Nat} (hm : m ∈ mms) (hl : vmas m = l₁ ++ l₂)
    (hsize : size = pgSize * new.length) (hsize32 : size < 2 ^ 32) :
    Ends total (do
        let first ← nextEntry ((nodes l₁).getLastD (.sentry m))
        unmapAndFreeVma E m first size) u fun _ u' =>
      SameData mms vmas u₀ u' ∧ ∃ R', Res.OnlyAt (u₀.pgindex m) R₀ R' ∧
        UvmInv S H u' mms vmas R' := by
  have hring := hg.inv.spaces.ring m hm
  have hnode := hg.inv.live_node hm
  rw [update_self, nodes_append] at hring hnode
  refine ends_nextEntry_bind (hnode _ (Links.getLastD_mem_append _ _ _)) ?_
  rw [hring.next_last]
  refine (unmapAndFreeVma_ends hg.inv hm (update_self m _ _) hsize hsize32 ?_).imp ?_
  · intro _
    rw [List.length_append]
    exact Nat.le_add_right _ _
  intro _ u' hu'
  obtain ⟨seg, l₃, hseg, hlen, hd, R', ho, h'⟩ := hu'
  obtain ⟨rfl, rfl⟩ := List.append_inj hseg hlen.symm
  rw [update_idem, ← hl, update_eq_self] at hd h'
  rw [hg.data.pgindex m hm] at ho
  exact ⟨hg.data.trans hd, R', hg.only.trans ho, h'⟩

/-- A stretch that ascends between what is below it and what is above. -/
theorem Grown.sorted (hm : m ∈ mms) (hl : vmas m = l₁ ++ l₂) (hs : Sorted u₀ mms vmas)
    (hnew : starts.Pairwise fun a b => a + pgSize ≤ b)
    (hbelow : ∀ a ∈ u₀.starts l₁, ∀ b ∈ starts, a + pgSize ≤ b)
    (habove : ∀ a ∈ starts, ∀ b ∈ u₀.starts l₂, a + pgSize ≤ b) :
    Sorted u mms (update vmas m (l₁ ++ (new ++ l₂))) := by
  intro m' hm'
  by_cases hmm : m' = m
  · subst hmm
    have h₁ : u.starts l₁ = u₀.starts l₁ :=
      hg.data.starts fun v hv => .of_mem hm (hl ▸ List.mem_append_left _ hv)
    have h₂ : u.starts l₂ = u₀.starts l₂ :=
      hg.data.starts fun v hv => .of_mem hm (hl ▸ List.mem_append_right _ hv)
    have hold := hs m' hm
    rw [hl, Uvm.starts, List.map_append] at hold
    obtain ⟨hs₁, hs₂, hs₁₂⟩ := List.pairwise_append.mp hold
    have hsplit : u.starts (l₁ ++ (new ++ l₂)) = u₀.starts l₁ ++ (starts ++ u₀.starts l₂) := by
      rw [← h₁, ← h₂, ← hg.startsAt]
      simp only [Uvm.starts, List.map_append]
    rw [update_self, hsplit]
    refine List.pairwise_append.mpr ⟨hs₁, List.pairwise_append.mpr ⟨hnew, hs₂, habove⟩, ?_⟩
    intro a ha b hb
    rcases List.mem_append.mp hb with hb | hb
    · exact hbelow a ha b hb
    · exact hs₁₂ a ha b hb
  · rw [update_of_ne hmm, hg.data.starts fun _ hv => .of_mem hm' hv]
    exact hs m' hm'

end Aim.Kern
