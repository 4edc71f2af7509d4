import Aim.Proofs.UvmFailure

/-!
# The searches through a list of areas

What `__find_vma_before` and `__find_continuous_vma` answer, for a list that is in
order and with any words in front of the `struct mm`. Both go round the ring and
may get to the sentry, which they take for an area of its own: its start and its
size are those words.

For the first search that happens in front of the first area. A range below all
areas is compared with the end of the sentry, `sentryEnd`, and a range up to the
top, whose end is zero in 32 bits, counts as such a range. For the second search
it happens behind the last area. The sentry passes for the page that is missing
there if it starts where the page does, and if nothing more is asked for.
-/

namespace Aim.Kern

open Aim.Lib

variable {σ : Type}

/-- The list of `m` has the areas `l`. -/
structure AreasOf (u : Uvm σ) (m : Nat) (l : List Nat) : Prop where
  ring : Links.Ring u.links (.sentry m) (nodes l)
  live : ∀ n ∈ VmaNode.sentry m :: nodes l, u.live n.object = true
  fuel : l.length < listFuel
  aligned : ∀ v ∈ l, (u.vma v).start % pgSize = 0
  lt : ∀ v ∈ l, (u.vma v).start < 2 ^ 32
  size : ∀ v ∈ l, (u.vma v).size = pgSize

/-- They ascend and do not overlap. -/
def Ascending (u : Uvm σ) (l : List Nat) : Prop :=
  l.Pairwise fun v w => (u.vma v).start + (u.vma v).size ≤ (u.vma w).start

/-- The range has an address in common with an area. -/
def Intersects (u : Uvm σ) (l : List Nat) (addr len : Nat) : Prop :=
  ∃ v ∈ l, (u.vma v).start < addr + len ∧ addr < (u.vma v).start + (u.vma v).size

/-- Every address of the range is in an area. -/
def Covered (u : Uvm σ) (l : List Nat) (addr len : Nat) : Prop :=
  ∀ va, addr ≤ va → va < addr + len →
    ∃ v ∈ l, (u.vma v).start ≤ va ∧ va < (u.vma v).start + (u.vma v).size

/-- Where the sentry ends, taken for an area. -/
def Uvm.sentryEnd (u : Uvm σ) (m : Nat) : Nat := ((u.before m).1 + (u.before m).2) % 2 ^ 32

section Searches

variable {u : Uvm σ} {m v addr len : Nat} {l l₁ l₂ : List Nat}

/-- The words in front of a `struct mm` are not part of a list. -/
theorem AreasOf.setBefore (h : AreasOf u m l) (b : Nat → Nat × Nat) :
    AreasOf { u with before := b } m l :=
  ⟨h.ring, h.live, h.fuel, h.aligned, h.lt, h.size⟩

theorem forEachEntry_run (stop : Nat → Bool) {fuel : Nat} (l₁ l₂ : List Nat)
    (hring : Links.Ring u.links (.sentry m) (nodes (l₁ ++ l₂)))
    (hlive : ∀ v ∈ l₂, u.live v = true) (hfuel : l₂.length < fuel) :
    ∃ l₃ l₄, l₂ = l₃ ++ l₄ ∧ (forEachEntry m stop fuel ((nodes l₂).headD (.sentry m))).run u =
        .ok ((nodes l₄).headD (.sentry m)) u ∧
      (∀ v ∈ l₃, stop (u.vma v).start = false) ∧ ∀ v ∈ l₄.head?, stop (u.vma v).start = true :=
  (forEachEntry_cases stop fuel l₁ l₂ hring hlive).resolve_right fun h =>
    absurd hfuel (not_lt.mpr h.1)

theorem AreasOf.next_sentry (h : AreasOf u m l) :
    u.links.next (.sentry m) = (nodes l).headD (.sentry m) :=
  (show Links.Ring u.links (.sentry m) ([] ++ nodes l) from h.ring).next_last

theorem AreasOf.live_vma (h : AreasOf u m l) (hv : v ∈ l) : u.live v = true :=
  h.live (.vma v) (List.mem_cons_of_mem _ (nodes_mem.mpr ⟨v, hv, rfl⟩))

/-! ## `__find_vma_before` -/

/-- The search stops behind the areas `l₃` that start below the end of the range,
and looks at the last one of them, or at the sentry. -/
theorem findVmaBefore_run (addr len : Nat) (h : AreasOf u m l) (hne : l ≠ []) :
    ∃ l₃ l₄, l = l₃ ++ l₄ ∧
      (∀ v ∈ l₃, (u.vma v).start < (addr + len) % 2 ^ 32) ∧
      (∀ v ∈ l₄.head?, (addr + len) % 2 ^ 32 ≤ (u.vma v).start) ∧
      (findVmaBefore m addr len).run u = .ok
        (if addr < (u.startOf ((nodes l₃).getLastD (.sentry m)) +
            u.sizeOf ((nodes l₃).getLastD (.sentry m))) % 2 ^ 32 then none
          else some ((nodes l₃).getLastD (.sentry m))) u := by
  have hfirst : (nodes l).headD (.sentry m) ≠ .sentry m := by
    obtain ⟨v, l', rfl⟩ := List.exists_cons_of_ne_nil hne
    exact VmaNode.noConfusion
  obtain ⟨l₃, l₄, hl, hrun, h₃, h₄⟩ := forEachEntry_run
    (fun start => start ≥ (addr + len) % 2 ^ 32) [] l h.ring
    (fun v hv => h.live_vma hv) h.fuel
  refine ⟨l₃, l₄, hl, fun v hv => not_le.mp (of_decide_eq_false (h₃ v hv)),
    fun v hv => of_decide_eq_true (h₄ v hv), ?_⟩
  have hring := h.ring
  have hnode := h.live
  rw [hl, nodes_append] at hring hnode
  have hmem₄ := hnode _ (Links.headD_mem_append _ _ _)
  have hmem₃ := hnode _ (Links.getLastD_mem_append _ _ _)
  rw [findVmaBefore, run_bind_ok (nextEntry_run (h.live _ List.mem_cons_self)), h.next_sentry,
    if_neg hfirst, run_bind_ok hrun, run_bind_ok (prevEntry_run hmem₄),
    hring.prev_headD, run_bind_ok (touch_run (live_area hmem₃)), run_get_bind]
  split <;> rfl

theorem findVmaBefore_nil (h : AreasOf u m []) :
    (findVmaBefore m addr len).run u = .ok (some (.sentry m)) u := by
  rw [findVmaBefore, run_bind_ok (nextEntry_run (h.live _ List.mem_cons_self)), h.next_sentry,
    if_pos (show (nodes []).headD (.sentry m) = .sentry m from rfl)]
  rfl

/-- An area starts below the end of the range. -/
def StartsBelow (u : Uvm σ) (l : List Nat) (addr len : Nat) : Prop :=
  ∃ v ∈ l, (u.vma v).start < (addr + len) % 2 ^ 32

theorem intersects_iff (h : AreasOf u m l) (hs : Ascending u l) {l₀ : List Nat} {p : Nat}
    (hl : l = l₀ ++ p :: l₂) (hlow : (u.vma p).start < addr + len)
    (hhigh : ∀ w ∈ l₂.head?, addr + len ≤ (u.vma w).start) :
    Intersects u l addr len ↔ addr < (u.vma p).start + pgSize := by
  have hp : p ∈ l := hl ▸ mem_middle
  refine ⟨?_, fun hlt => ⟨p, hp, hlow, by rw [h.size p hp]; exact hlt⟩⟩
  rintro ⟨v, hv, hbelow, habove⟩
  rw [h.size v hv] at habove
  rw [Ascending, hl, List.pairwise_append] at hs
  obtain ⟨-, hs₂, hcross⟩ := hs
  obtain ⟨hp₂, hs₂⟩ := List.pairwise_cons.mp hs₂
  have hv' := hv
  rw [hl, List.mem_append, List.mem_cons] at hv
  rcases hv with hv | rfl | hv
  · have hvp := hcross v hv p List.mem_cons_self
    rw [h.size v hv'] at hvp
    omega
  · exact habove
  · -- Behind the place nothing starts below the end.
    exfalso
    obtain ⟨w, l', rfl⟩ := List.exists_cons_of_ne_nil (List.ne_nil_of_mem hv)
    have hw := hhigh w rfl
    rcases List.mem_cons.mp hv with rfl | hv
    · omega
    · have hwv := (List.pairwise_cons.mp hs₂).1 v hv
      omega

/-- The search refuses a range that intersects an area, where there are areas on
both sides of it or none at all. In front of all areas it looks at the sentry. -/
theorem findVmaBefore_refuses (h : AreasOf u m l) (hs : Ascending u l)
    (haddr : addr % pgSize = 0) (hlen : len % pgSize = 0)
    (hend : addr + len ≤ 2 ^ 32) :
    ∃ r, (findVmaBefore m addr len).run u = .ok r u ∧
      ((l = [] ∧ r ≠ none ∧ ¬ Intersects u l addr len) ∨
        (StartsBelow u l addr len ∧ (r = none ↔ Intersects u l addr len)) ∨
        (l ≠ [] ∧ ¬ StartsBelow u l addr len ∧ (r = none ↔ addr < u.sentryEnd m))) := by
  by_cases hnil : l = []
  · subst hnil
    refine ⟨_, findVmaBefore_nil h, .inl ⟨rfl, Option.some_ne_none _, ?_⟩⟩
    rintro ⟨v, hv, -⟩
    exact List.not_mem_nil hv
  obtain ⟨l₃, l₄, hl, h₃, h₄, hrun⟩ := findVmaBefore_run addr len h hnil
  refine ⟨_, hrun, .inr ?_⟩
  rcases List.eq_nil_or_concat l₃ with rfl | ⟨l₀, p, rfl⟩
  · right
    rw [List.nil_append] at hl
    subst hl
    refine ⟨hnil, ?_, ?_⟩
    · rintro ⟨v, hv, hlow⟩
      obtain ⟨w, l', rfl⟩ := List.exists_cons_of_ne_nil hnil
      have hw := h₄ w rfl
      rcases List.mem_cons.mp hv with rfl | hv
      · omega
      · have hwv := (List.pairwise_cons.mp hs).1 v hv
        omega
    · have hsentry : (u.startOf ((nodes []).getLastD (.sentry m)) +
          u.sizeOf ((nodes []).getLastD (.sentry m))) % 2 ^ 32 = u.sentryEnd m := rfl
      rw [hsentry]
      simp
  · left
    rw [List.concat_eq_append, List.append_assoc, List.singleton_append] at hl
    rw [List.concat_eq_append] at h₃ ⊢
    have hp : p ∈ l := hl ▸ mem_middle
    have hplow := h₃ p (List.mem_append_right _ List.mem_cons_self)
    have hlt : addr + len < 2 ^ 32 := by
      by_contra hge
      rw [show addr + len = 2 ^ 32 by omega] at hplow
      omega
    rw [Nat.mod_eq_of_lt hlt] at h₄ hplow
    refine ⟨⟨p, hp, by rw [Nat.mod_eq_of_lt hlt]; exact hplow⟩, ?_⟩
    have hal := h.aligned p hp
    have hpend : (u.vma p).start + pgSize < 2 ^ 32 := by
      simp only [pgSize] at *
      omega
    have harea : (u.startOf (.vma p) + u.sizeOf (.vma p)) % 2 ^ 32 = (u.vma p).start + pgSize := by
      show ((u.vma p).start + (u.vma p).size) % 2 ^ 32 = _
      rw [h.size p hp, Nat.mod_eq_of_lt hpend]
    rw [nodes_getLastD_concat, harea, intersects_iff h hs hl hplow h₄]
    simp

/-! ## `__find_continuous_vma` -/

/-- An area starts at `a`. -/
def AreaAt (u : Uvm σ) (l : List Nat) (a : Nat) : Prop := ∃ v ∈ l, (u.vma v).start = a

/-- One starts at each of the `k` pages from `a` on. -/
def PagesAt (u : Uvm σ) (l : List Nat) (a k : Nat) : Prop := ∀ j < k, AreaAt u l (a + pgSize * j)

/-- The walk goes through `k` pages from `a` on: there are areas for them, or for all
but the last, and the sentry is met in its place. -/
def Passes (u : Uvm σ) (m : Nat) (l : List Nat) (a k : Nat) : Prop :=
  PagesAt u l a k ∨ ∃ k', k = k' + 1 ∧ PagesAt u l a k' ∧
    (∀ v ∈ l, (u.vma v).start < a + pgSize * k') ∧ (u.before m).1 = a + pgSize * k'

variable {a k i fuel : Nat}

theorem page_shift (a j : Nat) : a + pgSize * (j + 1) = a + pgSize + pgSize * j := by
  rw [Nat.mul_add, Nat.mul_one]
  omega

theorem pagesAt_zero : PagesAt u l a 0 := fun _ hj => absurd hj (Nat.not_lt_zero _)

theorem pagesAt_succ : PagesAt u l a (k + 1) ↔ AreaAt u l a ∧ PagesAt u l (a + pgSize) k := by
  refine ⟨fun h => ⟨h 0 (Nat.succ_pos k), fun j hj => ?_⟩, fun h j hj => ?_⟩
  · rw [← page_shift]
    exact h (j + 1) (Nat.succ_lt_succ hj)
  · cases j with
    | zero => exact h.1
    | succ j =>
        rw [page_shift]
        exact h.2 j (Nat.lt_of_succ_lt_succ hj)

theorem passes_zero : Passes u m l a 0 := .inl pagesAt_zero

theorem passes_succ (ha : AreaAt u l a) : Passes u m l a (k + 1) ↔ Passes u m l (a + pgSize) k := by
  rw [Passes, Passes, pagesAt_succ, and_iff_right ha]
  refine or_congr_right ⟨?_, ?_⟩
  · rintro ⟨k', hk, hpages, hlast, hbefore⟩
    cases k' with
    | zero =>
        -- The sentry would be met where there is an area.
        obtain ⟨v, hv, hva⟩ := ha
        have := hlast v hv
        omega
    | succ k' =>
        rw [page_shift] at hlast hbefore
        exact ⟨k', by omega, (pagesAt_succ.mp hpages).2, hlast, hbefore⟩
  · rintro ⟨k', rfl, hpages, hlast, hbefore⟩
    rw [← page_shift] at hlast hbefore
    exact ⟨k' + 1, rfl, pagesAt_succ.mpr ⟨ha, hpages⟩, hlast, hbefore⟩

theorem passes_succ_of_not (ha : ¬ AreaAt u l a) :
    Passes u m l a (k + 1) ↔ k = 0 ∧ (∀ v ∈ l, (u.vma v).start < a) ∧ (u.before m).1 = a := by
  refine ⟨?_, ?_⟩
  · rintro (hpages | ⟨k', hk, hpages, hlast, hbefore⟩)
    · exact absurd (pagesAt_succ.mp hpages).1 ha
    · cases k' with
      | zero => exact ⟨by omega, hlast, hbefore⟩
      | succ k' => exact absurd (pagesAt_succ.mp hpages).1 ha
  · rintro ⟨rfl, hlast, hbefore⟩
    exact .inr ⟨0, rfl, pagesAt_zero, hlast, hbefore⟩

/-- The areas in front of one, and those behind it. -/
theorem AreasOf.around (h : AreasOf u m l) (hs : Ascending u l) (hl : l = l₁ ++ v :: l₂) :
    (∀ w ∈ l₁, (u.vma w).start + pgSize ≤ (u.vma v).start) ∧
      ∀ w ∈ l₂, (u.vma v).start + pgSize ≤ (u.vma w).start := by
  have hv : v ∈ l := hl ▸ mem_middle
  rw [Ascending, hl, List.pairwise_append] at hs
  obtain ⟨-, hs₂, hcross⟩ := hs
  refine ⟨fun w hw => ?_, fun w hw => ?_⟩
  · have hwv := hcross w hw v List.mem_cons_self
    rw [h.size w (hl ▸ List.mem_append_left _ hw)] at hwv
    exact hwv
  · have hvw := (List.pairwise_cons.mp hs₂).1 w hw
    rw [h.size v hv] at hvw
    exact hvw

/-- One round. -/
theorem continuousLoop_next {n q : VmaNode} (hi : i < len) (hn : u.live n.object = true)
    (hnext : u.links.next n = q) (hq : ∀ x ∈ q.area, u.live x = true) (hend : addr + len ≤ 2 ^ 32) :
    (continuousLoop addr len (fuel + 1) i n).run u =
      if u.startOf q = addr + i then
        (continuousLoop addr len fuel ((i + pgSize) % 2 ^ 32) q).run u
      else .ok false u := by
  rw [continuousLoop, if_pos hi, run_bind_ok (nextEntry_run hn), hnext,
    run_bind_ok (touch_run hq), run_get_bind, Nat.mod_eq_of_lt (by omega : addr + i < 2 ^ 32)]
  by_cases hstart : u.startOf q = addr + i
  · rw [if_neg (not_not.mpr hstart), if_pos hstart]
  · rw [if_pos hstart, if_neg hstart]
    rfl

theorem continuousLoop_done {n : VmaNode} (hi : ¬ i < len) :
    (continuousLoop addr len (fuel + 1) i n).run u = .ok true u := by
  rw [continuousLoop, if_neg hi]
  rfl

/-- Having come as far as the sentry, the walk does not get through another page. -/
theorem continuousLoop_sentry (h : AreasOf u m l) (hlow : ∀ w ∈ l, (u.vma w).start < addr + i)
    (hne : l ≠ []) (hi : i < len) (hend : addr + len ≤ 2 ^ 32) :
    (continuousLoop addr len (fuel + 1) i (.sentry m)).run u = .ok false u := by
  obtain ⟨f, l', rfl⟩ := List.exists_cons_of_ne_nil hne
  have hf : f ∈ f :: l' := List.mem_cons_self
  have hstart : u.startOf (.vma f) ≠ addr + i := by
    have := hlow f hf
    show (u.vma f).start ≠ addr + i
    omega
  rw [continuousLoop_next hi (h.live _ List.mem_cons_self) h.next_sentry
    (live_one (h.live_vma hf)) hend]
  exact if_neg hstart

/-- From the area of the page in front of `addr + i` on, with `k` pages to go. -/
theorem continuousLoop_run (h : AreasOf u m l) (hs : Ascending u l) (hl : l = l₁ ++ v :: l₂)
    (hv : (u.vma v).start + pgSize = addr + i) (hlen : len = i + pgSize * k) (hlen32 : len < 2 ^ 32)
    (hend : addr + len ≤ 2 ^ 32) (hfuel : k < fuel) :
    ∃ b, (continuousLoop addr len fuel i (.vma v)).run u = .ok b u ∧
      (b = true ↔ Passes u m l (addr + i) k) := by
  have hpos : 0 < pgSize := by decide
  induction k generalizing i fuel v l₁ l₂ with
  | zero =>
      obtain ⟨fuel, rfl⟩ := Nat.exists_eq_add_one_of_ne_zero (Nat.ne_zero_of_lt hfuel)
      exact ⟨true, continuousLoop_done (by omega), iff_of_true rfl passes_zero⟩
  | succ k ih =>
      obtain ⟨fuel, rfl⟩ := Nat.exists_eq_add_one_of_ne_zero (Nat.ne_zero_of_lt hfuel)
      rw [Nat.mul_add, Nat.mul_one] at hlen
      have hi : i < len := by omega
      have hmod : (i + pgSize) % 2 ^ 32 = i + pgSize := Nat.mod_eq_of_lt (by omega)
      obtain ⟨hfront, hback⟩ := h.around hs hl
      have hring := h.ring
      rw [hl, nodes_append] at hring
      have hnext : u.links.next (.vma v) = (nodes l₂).headD (.sentry m) := hring.next_mem
      have hlive := h.live_vma (hl ▸ mem_middle : v ∈ l)
      -- An area at the page can only be behind `v`.
      have hbehind : AreaAt u l (addr + i) → ∃ w ∈ l₂, (u.vma w).start = addr + i := by
        rintro ⟨w, hw, hwa⟩
        rw [hl, List.mem_append, List.mem_cons] at hw
        rcases hw with hw | rfl | hw
        · have := hfront w hw
          omega
        · omega
        · exact ⟨w, hw, hwa⟩
      cases l₂ with
      | nil =>
          have hnone : ¬ AreaAt u l (addr + i) := fun ha => by
            obtain ⟨w, hw, -⟩ := hbehind ha
            exact List.not_mem_nil hw
          have hlow : ∀ w ∈ l, (u.vma w).start < addr + i := by
            intro w hw
            rw [hl, List.mem_append, List.mem_singleton] at hw
            rcases hw with hw | rfl
            · have := hfront w hw
              omega
            · omega
          rw [continuousLoop_next (q := .sentry m) hi hlive hnext
            (fun _ hx => (List.not_mem_nil hx).elim) hend, hmod, passes_succ_of_not hnone]
          have hsentry : u.startOf (.sentry m) = (u.before m).1 := rfl
          rw [hsentry]
          by_cases hb : (u.before m).1 = addr + i
          · rw [if_pos hb]
            obtain ⟨fuel, rfl⟩ := Nat.exists_eq_add_one_of_ne_zero
              (Nat.ne_zero_of_lt (Nat.lt_of_succ_lt_succ hfuel))
            cases k with
            | zero => exact ⟨true, continuousLoop_done (by omega), iff_of_true rfl ⟨rfl, hlow, hb⟩⟩
            | succ k =>
                rw [Nat.mul_add, Nat.mul_one] at hlen
                refine ⟨false, continuousLoop_sentry h (fun w hw => ?_)
                  (hl ▸ List.append_ne_nil_of_right_ne_nil _ (List.cons_ne_nil _ _)) (by omega)
                  hend, iff_of_false Bool.false_ne_true fun hk => Nat.succ_ne_zero k hk.1⟩
                have := hlow w hw
                omega
          · rw [if_neg hb]
            exact ⟨false, rfl, iff_of_false Bool.false_ne_true fun hk => hb hk.2.2⟩
      | cons w l₃ =>
          have hl' : l = (l₁ ++ [v]) ++ w :: l₃ := by
            rw [hl, List.append_assoc, List.singleton_append]
          have hw : w ∈ l := hl' ▸ mem_middle
          rw [continuousLoop_next (q := .vma w) hi hlive hnext (live_one (h.live_vma hw)) hend,
            hmod]
          have hstart : u.startOf (.vma w) = (u.vma w).start := rfl
          rw [hstart]
          by_cases hwa : (u.vma w).start = addr + i
          · rw [if_pos hwa, passes_succ ⟨w, hw, hwa⟩, Nat.add_assoc addr i]
            exact ih hl' (by omega) (by omega) (Nat.lt_of_succ_lt_succ hfuel)
          · rw [if_neg hwa]
            refine ⟨false, rfl, iff_of_false Bool.false_ne_true ?_⟩
            have hwv := hback w List.mem_cons_self
            have hnone : ¬ AreaAt u l (addr + i) := by
              intro ha
              obtain ⟨x, hx, hxa⟩ := hbehind ha
              rcases List.mem_cons.mp hx with rfl | hx
              · exact hwa hxa
              · have := (h.around hs hl').2 x hx
                omega
            rw [passes_succ_of_not hnone]
            rintro ⟨-, hlow, -⟩
            have := hlow w hw
            omega

/-- The search has no answer without an area at `addr`, and walks on from one. -/
theorem findContinuousVma_first (h : AreasOf u m l) (haddr : addr % pgSize = 0)
    (hlen : len % pgSize = 0) :
    (¬ AreaAt u l addr ∧ (findContinuousVma m addr len).run u = .ok none u) ∨
      ∃ l₁ v l₂, l = l₁ ++ v :: l₂ ∧ (u.vma v).start = addr ∧
        (findContinuousVma m addr len).run u =
          (continuousLoop addr len (len / pgSize + 1) pgSize (.vma v) >>= fun b =>
            pure (if b then some (.vma v) else none)).run u := by
  have hassert : ∀ {func condition : String} {line : Int} {c : Bool}, c = true →
      (kassert func condition line c).run u = .ok () u := by
    rintro _ _ _ _ rfl
    rfl
  obtain ⟨l₃, l₄, hl, hrun, h₃, h₄⟩ := forEachEntry_run (fun start => start = addr) []
    l h.ring (fun v hv => h.live_vma hv) h.fuel
  rw [findContinuousVma, run_bind_ok (hassert (decide_eq_true haddr)),
    run_bind_ok (hassert (decide_eq_true hlen)),
    run_bind_ok (nextEntry_run (h.live _ List.mem_cons_self)), h.next_sentry, run_bind_ok hrun]
  cases l₄ with
  | nil =>
      rw [if_pos (show (nodes []).headD (.sentry m) = .sentry m from rfl)]
      refine .inl ⟨?_, rfl⟩
      rintro ⟨v, hv, hva⟩
      rw [hl, List.append_nil] at hv
      exact of_decide_eq_false (h₃ v hv) hva
  | cons v l₅ =>
      have hne : (nodes (v :: l₅)).headD (.sentry m) ≠ .sentry m := VmaNode.noConfusion
      have hhead : (nodes (v :: l₅)).headD (.sentry m) = .vma v := rfl
      have hans : ∀ b : Bool, (if b then pure (some (.vma v)) else pure none) =
          (pure (if b then some (.vma v) else none) : EStateM Stop (Uvm σ) (Option VmaNode)) :=
        fun b => (apply_ite pure _ _ _).symm
      refine .inr ⟨l₃, v, l₅, hl, of_decide_eq_true (h₄ v rfl), ?_⟩
      rw [if_neg hne, hhead]
      simp only [hans]

/-- The search answers the area at `addr` if the walk from there gets through. -/
theorem findContinuousVma_run (h : AreasOf u m l) (hs : Ascending u l)
    (haddr : addr % pgSize = 0) (hlen : len = pgSize * (k + 1)) (hlen32 : len < 2 ^ 32)
    (hend : addr + len ≤ 2 ^ 32) :
    ∃ r, (findContinuousVma m addr len).run u = .ok r u ∧
      (r ≠ none → ∃ v ∈ l, (u.vma v).start = addr ∧ r = some (.vma v)) ∧
      (r ≠ none ↔ AreaAt u l addr ∧ Passes u m l addr (k + 1)) := by
  have hlenal : len % pgSize = 0 := by rw [hlen, Nat.mul_mod_right]
  rcases findContinuousVma_first h haddr hlenal with ⟨hnone, hrun⟩ | ⟨l₁, v, l₂, hl, hva, hrun⟩
  · refine ⟨none, hrun, fun hne => absurd rfl hne, iff_of_false (fun hne => hne rfl) ?_⟩
    exact fun hat => hnone hat.1
  · have hv : v ∈ l := hl ▸ mem_middle
    have hat : AreaAt u l addr := ⟨v, hv, hva⟩
    rw [Nat.mul_add, Nat.mul_one] at hlen
    have hfuel : k < len / pgSize + 1 := by
      rw [hlen, Nat.add_div_right _ (by decide), Nat.mul_div_cancel_left _ (by decide)]
      omega
    obtain ⟨b, hloop, hb⟩ := continuousLoop_run (i := pgSize) (k := k) h hs hl
      (by rw [hva]) (by omega) hlen32 hend hfuel
    rw [hrun, run_bind_ok hloop, and_iff_right hat, passes_succ hat, ← hb]
    cases b with
    | true =>
        exact ⟨some (.vma v), rfl, fun _ => ⟨v, hv, hva, rfl⟩,
          iff_of_true (Option.some_ne_none _) rfl⟩
    | false =>
        exact ⟨none, rfl, fun hne => absurd rfl hne,
          iff_of_false (fun hne => hne rfl) Bool.false_ne_true⟩

/-- Areas are pages, so a range of pages is covered by those that start in it. -/
theorem covered_iff (h : AreasOf u m l) (haddr : addr % pgSize = 0) :
    Covered u l addr (pgSize * k) ↔ PagesAt u l addr k := by
  have hpos : 0 < pgSize := by decide
  refine ⟨fun hc j hj => ?_, fun hp va hlo hhi => ?_⟩
  · have hle := Nat.mul_le_mul_left pgSize (Nat.succ_le_of_lt hj)
    rw [Nat.mul_succ] at hle
    obtain ⟨v, hv, hvlo, hvhi⟩ := hc (addr + pgSize * j) (by omega) (by omega)
    rw [h.size v hv] at hvhi
    have hal := h.aligned v hv
    refine ⟨v, hv, ?_⟩
    rw [pgSize] at *
    omega
  · have hdiv := Nat.div_add_mod (va - addr) pgSize
    have hmod := Nat.mod_lt (va - addr) hpos
    obtain ⟨v, hv, hva⟩ := hp ((va - addr) / pgSize) (Nat.div_lt_of_lt_mul (by omega))
    refine ⟨v, hv, by omega, ?_⟩
    rw [h.size v hv]
    omega

end Searches

end Aim.Kern
