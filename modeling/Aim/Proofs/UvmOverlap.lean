import Aim.Proofs.UvmSearch

/-!
# Which ranges `uvm.c` takes

What the searches make of the calls, in every state of every run on i386.
`create_uvm` answers `-EFAULT` if its search refuses, and only then: what it does
afterwards ends with other codes. So its decision is that of the search, and it is
right unless the range is taken to be in front of all areas. There the sentry
decides, whatever is in the words in front of the `struct mm`.

For a range that wraps, the end is below the start. The area in front of the place
that the search finds ends below the range, and is not in the way. Only the sentry
can be. What else turns such a range away is a request for memory that is not met:
with a `Stock` for all of them, `create_uvm` takes the range.
-/

namespace Aim.Kern

open Aim.Lib

variable {σ : Type}

/-! ## Codes -/

section Codes

variable {E : Env σ} {m addr len : Nat} {cur : VmaNode} {u : Uvm σ}

/-- The code of an allocation that failed. -/
def AllocFailed (c : Int) : Prop := c = -enomem ∨ c = -1

theorem mapLoop_code (G : Pager σ) (g flags last fuel a paddr : Nat) (s : Phys σ) :
    Ends False (mapLoop G g flags last fuel a paddr) s fun r _ => r = 0 ∨ r = -1 := by
  induction fuel generalizing a paddr s with
  | zero => exact ends_throw id
  | succ fuel ih =>
      rw [mapLoop]
      refine (ends_any _ s).bind fun pte s₁ _ => ?_
      by_cases hpte : pte = 0
      · rw [if_pos hpte]
        exact ends_pure (.inr rfl)
      rw [if_neg hpte]
      refine ends_kload_bind ?_
      by_cases hp : kload32 s₁.mem pte &&& pteP ≠ 0
      · rw [if_pos hp]
        exact ends_throw id
      rw [if_neg hp]
      refine ends_kstore_bind ?_
      by_cases hlast : a = last
      · rw [if_pos hlast]
        exact ends_pure (.inl rfl)
      · rw [if_neg hlast]
        exact ih _ _ _

/-- A round that fails does so with the code of an allocation, if `map_pages` does. -/
theorem linkNewVma_code {start size flags : Nat} {request : EStateM Stop (Uvm σ) (Nat × Nat)}
    {fill : Nat → EStateM Stop (Uvm σ) Unit} (u : Uvm σ)
    (hmap : ∀ g va a n f s, Ends False (E.mapPages g va a n f) s fun r _ => r = 0 ∨ r = -1) :
    Ends False (linkNewVma E m start size flags request fill cur) u fun r _ =>
      ∀ c, r = .inl c → AllocFailed c := by
  have hnomem : ∀ c : Int, (Sum.inl (-enomem) : Int ⊕ Nat) = .inl c → AllocFailed c := by
    intro c hc
    exact .inl (Sum.inl.inj hc).symm
  rw [linkNewVma]
  refine (ends_any _ u).bind fun v u₁ _ => ?_
  by_cases hv : v = 0
  · rw [if_pos hv]
    exact ends_pure hnomem
  rw [if_neg hv]
  refine (ends_any _ u₁).bind fun req u₂ _ => ?_
  refine (ends_any _ u₂).bind fun p u₃ _ => ?_
  by_cases hp : p = 0
  · rw [if_pos hp]
    exact (ends_any _ u₃).bind fun _ _ _ => ends_pure hnomem
  rw [if_neg hp]
  refine (ends_any _ u₃).bind fun r u₄ _ => ?_
  by_cases hr : r < 0
  · rw [if_pos hr]
    exact (ends_any _ u₄).bind fun _ u₅ _ => (ends_any _ u₅).bind fun _ _ _ => ends_pure hnomem
  rw [if_neg hr]
  refine (ends_any _ u₄).bind fun _ u₅ _ => ends_get_bind ?_
  refine ends_onEnv_bind (hmap _ _ _ _ _ u₅.env) fun c s hc => ?_
  by_cases hc0 : c < 0
  · rw [if_pos hc0]
    refine (ends_any _ _).bind fun _ u₆ _ => (ends_any _ u₆).bind fun _ u₇ _ =>
      (ends_any _ u₇).bind fun _ _ _ => ends_pure fun c' hc' => ?_
    rw [← Sum.inl.inj hc']
    exact .inr (hc.resolve_left (by omega))
  rw [if_neg hc0]
  refine (ends_any _ _).bind fun _ u₆ _ => (ends_any _ u₆).bind fun _ _ _ => ends_pure ?_
  intro c hc
  cases hc

theorem createLoop_code {len flags fuel mapped vcur : Nat} (u : Uvm σ)
    (hmap : ∀ g va a n f s, Ends False (E.mapPages g va a n f) s fun r _ => r = 0 ∨ r = -1) :
    Ends False (createLoop E m len flags fuel mapped vcur cur) u fun r _ =>
      r.1 = 0 ∨ AllocFailed r.1 := by
  induction fuel generalizing mapped vcur cur u with
  | zero => exact ends_throw id
  | succ fuel ih =>
      rw [createLoop]
      by_cases hlt : mapped < len
      · rw [if_pos hlt]
        refine (linkNewVma_code u hmap).bind fun r u₁ hr => ?_
        cases r with
        | inl c => exact ends_pure (.inr (hr c rfl))
        | inr v => exact ih u₁
      · rw [if_neg hlt]
        exact ends_pure (.inl rfl)

theorem args_checked (hm : m ≠ 0) (haddr : addr % pgSize = 0) (hlen : len % pgSize = 0) :
    ¬ (len % pgSize ≠ 0 ∨ m = 0 ∨ addr % pgSize ≠ 0) := by
  simp [hlen, hm, haddr]

/-- `create_uvm`, by what its search answers. -/
theorem createUvm_refused (flags : Nat) (hm : m ≠ 0) (haddr : addr % pgSize = 0)
    (hlen : len % pgSize = 0) (hpos : len ≠ 0)
    (hfind : (findVmaBefore m addr len).run u = .ok none u) :
    (createUvm E m addr len flags).run u = .ok (-efault) u := by
  rw [createUvm, if_neg (args_checked hm haddr hlen), if_neg hpos, run_bind_ok hfind]
  rfl

theorem createUvm_code {addr len flags : Nat} {n : VmaNode} (hm : m ≠ 0) (haddr : addr % pgSize = 0)
    (hlen : len % pgSize = 0) (hpos : len ≠ 0)
    (hfind : (findVmaBefore m addr len).run u = .ok (some n) u)
    (hmap : ∀ g va a n f s, Ends False (E.mapPages g va a n f) s fun r _ => r = 0 ∨ r = -1) :
    Ends False (createUvm E m addr len flags) u fun r _ => r = 0 ∨ AllocFailed r := by
  rw [createUvm, if_neg (args_checked hm haddr hlen), if_neg hpos]
  refine Ends.of_eq (run_bind_ok hfind) ((createLoop_code u hmap).bind fun r u₁ hr => ?_)
  obtain ⟨c, mapped⟩ := r
  show Ends False (if c < 0 then _ else _) u₁ _
  by_cases hc : c < 0
  · rw [if_pos hc]
    exact (ends_any _ u₁).bind fun _ u₂ _ => (ends_any _ u₂).bind fun _ _ _ => ends_pure hr
  · rw [if_neg hc]
    exact ends_pure hr

theorem not_allocFailed_efault : ¬ ((-efault : Int) = 0 ∨ AllocFailed (-efault)) := by
  unfold AllocFailed
  decide

end Codes

/-! ## Requests that are met -/

/-- `T k n` is enough for `k` objects and `n` pages: the next request that returns is
met, and leaves one less. What is written to memory does not matter to it. -/
structure Stock (B : Base σ) (T : Nat → Nat → Phys σ → Prop) : Prop where
  less : ∀ k n s, T k (n + 1) s → T k n s
  write : ∀ k n s m, T k n s → T k n { s with mem := m }
  kmalloc : ∀ k n s size, T (k + 1) n s →
    Ends False (B.kmalloc size) s fun p s' => p ≠ 0 ∧ T k n s'
  allocPages : ∀ k n s, T k (n + 1) s →
    Ends False (B.allocPages ⟨0, pgSize, 0⟩) s fun r s' => 0 ≤ r.1 ∧ T k n s'
  pgalloc : ∀ k n s, T k (n + 1) s → Ends False B.pager.pgalloc s fun a s' =>
    (a % pgSize = 0 ∧ a % 2 ^ 32 ≠ 0) ∧ T k n s'

namespace Stock

variable {B : Base σ} {T : Nat → Nat → Phys σ → Prop} {k n g va : Nat} {s : Phys σ}
  {u : Uvm (Phys σ)} (hT : Stock B T) {cur : VmaNode}

include hT

theorem walkpgdir (h : T k (n + 1) s) :
    Ends False (walkpgdir B.pager g va true) s fun pte s' => pte ≠ 0 ∧ T k n s' := by
  have hptx := ptx_lt va
  rw [Kern.walkpgdir]
  refine ends_kload_bind ?_
  by_cases hp : kload32 s.mem ((g + 4 * pdx va) % 2 ^ 32) &&& pteP ≠ 0
  · rw [if_pos hp]
    refine ends_pure ⟨?_, hT.less k n s h⟩
    have hlt : kload32 s.mem ((g + 4 * pdx va) % 2 ^ 32) < 2 ^ 32 := kload32_lt _ _
    rw [postmapAddr, pgRoundDown, kernBase, pgSize]
    split <;> omega
  · rw [if_neg hp, if_neg (by decide)]
    refine (hT.pgalloc k n s h).bind fun a s₁ ha => ?_
    obtain ⟨⟨hal, hne⟩, hleft⟩ := ha
    rw [if_neg hne]
    refine ends_kmemset_bind (ends_kstore_bind
      (ends_pure ⟨?_, hT.write k n _ _ (hT.write k n _ _ hleft)⟩))
    rw [pgSize] at hal
    omega

theorem mapPages {a flags : Nat} (hva : IsPage va) (h : T k (n + 1) s) :
    Ends False (mapPages B.pager g va a pgSize flags) s fun c s' => 0 ≤ c ∧ T k n s' := by
  obtain ⟨hlast, hfirst⟩ := lastPage_one hva
  rw [Kern.mapPages, hlast, hfirst, show (2 : Nat) ^ 20 = 1048575 + 1 from rfl, mapLoop]
  refine (hT.walkpgdir h).bind fun pte s₁ hpte => ?_
  rw [if_neg hpte.1]
  refine ends_kload_bind ?_
  by_cases hp : kload32 s₁.mem pte &&& pteP ≠ 0
  · rw [if_pos hp]
    exact ends_throw id
  · rw [if_neg hp]
    refine ends_kstore_bind ?_
    rw [if_pos rfl]
    exact ends_pure ⟨le_rfl, hT.write k n _ _ hpte.2⟩

theorem kmalloc_met {size : Nat} (h : T (k + 1) n u.env) :
    Ends False (Kern.kmalloc (i386 B) size) u fun p u' => p ≠ 0 ∧ T k n u'.env := by
  rw [Kern.kmalloc]
  refine ends_onEnv_bind (hT.kmalloc k n u.env size h) fun p s hp => ?_
  rw [if_pos hp.1]
  exact ends_modify_bind (ends_pure hp)

theorem vmaNew {m start size flags : Nat} (h : T (k + 1) n u.env) :
    Ends False (vmaNew (i386 B) m start size flags) u fun v u' => v ≠ 0 ∧ T k n u'.env := by
  rw [Kern.vmaNew]
  refine (hT.kmalloc_met h).bind fun v u₁ hv => ?_
  rw [if_pos hv.1]
  exact ends_modify_bind (ends_pure hv)

theorem upagesNew {size flags : Nat} (h : T (k + 1) n u.env) :
    Ends False (upagesNew (i386 B) size flags) u fun p u' =>
      (u'.upages p).pages = ⟨0, size, flags⟩ ∧ p ≠ 0 ∧ T k n u'.env := by
  rw [Kern.upagesNew]
  refine (hT.kmalloc_met h).bind fun p u₁ hp => ?_
  rw [if_pos hp.1]
  exact ends_modify_bind (ends_pure ⟨by simp, hp⟩)

theorem allocUpages {p : Nat} (hp : (u.upages p).pages = ⟨0, pgSize, 0⟩) (h : T k (n + 1) u.env) :
    Ends False (allocUpages (i386 B) p) u fun c u' => 0 ≤ c ∧ T k n u'.env := by
  rw [Kern.allocUpages]
  refine ends_touch_any_bind (ends_get_bind ?_)
  rw [hp]
  exact ends_onEnv_bind (hT.allocPages k n u.env h) fun r s hr => ends_modify_bind (ends_pure hr)

/-- A round takes two objects, a page and at most one table. -/
theorem linkNewVma {m start flags : Nat} (hva : IsPage start) (h : T (k + 2) (n + 2) u.env) :
    Ends False (linkNewVma (i386 B) m start pgSize flags (pure (pgSize, 0)) (fun _ => pure ())
      cur) u fun r u' => (∃ v, r = .inr v) ∧ T k n u'.env := by
  rw [Kern.linkNewVma]
  refine (hT.vmaNew h).bind fun v u₁ hv => ?_
  rw [if_neg hv.1]
  refine (ends_pure (Q := fun x u' => x = (pgSize, 0) ∧ u' = u₁) ⟨rfl, rfl⟩).bind ?_
  rintro _ _ ⟨rfl, rfl⟩
  refine (hT.upagesNew hv.2).bind fun p u₂ hp => ?_
  rw [if_neg hp.2.1]
  refine (hT.allocUpages hp.1 hp.2.2).bind fun c u₃ hc => ?_
  rw [if_neg (not_lt.mpr hc.1)]
  refine ends_touch_any_bind (ends_get_bind ?_)
  refine ends_onEnv_bind (hT.mapPages hva hc.2) fun c s hs => ?_
  rw [if_neg (not_lt.mpr hs.1)]
  refine (attachVma_any v p cur _).bind fun _ u₄ h₄ => ends_pure ⟨⟨v, rfl⟩, ?_⟩
  rw [h₄.1]
  exact hs.2

theorem createLoop {m len flags fuel mapped vcur : Nat} (hlen : len < 2 ^ 32)
    (hk : mapped + pgSize * k = len) (hva : IsPage vcur) (h : T (2 * k) (2 * k) u.env) :
    Ends False (createLoop (i386 B) m len flags fuel mapped vcur cur) u fun r _ => r.1 = 0 := by
  induction fuel generalizing mapped vcur cur k u with
  | zero => exact ends_throw id
  | succ fuel ih =>
      rw [Kern.createLoop]
      cases k with
      | zero =>
          rw [if_neg (by omega)]
          exact ends_pure rfl
      | succ k =>
          rw [Nat.mul_add, Nat.mul_one] at hk h
          rw [if_pos (by rw [pgSize] at hk; omega)]
          refine (hT.linkNewVma hva h).bind fun r u₁ hr => ?_
          obtain ⟨⟨v, rfl⟩, hleft⟩ := hr
          have hnext : (mapped + pgSize) % 2 ^ 32 = mapped + pgSize := Nat.mod_eq_of_lt (by omega)
          rw [hnext]
          refine ih (k := k) (by omega) ⟨?_, Nat.mod_lt _ (by decide)⟩ hleft
          have hal := hva.1
          rw [pgSize] at *
          omega

theorem createUvm {m addr len flags : Nat} {at' : VmaNode} (hm : m ≠ 0) (haddr : IsPage addr)
    (hlen : len % pgSize = 0) (hlen32 : len < 2 ^ 32) (hpos : len ≠ 0)
    (hfind : (findVmaBefore m addr len).run u = .ok (some at') u)
    (h : T (2 * (len / pgSize)) (2 * (len / pgSize)) u.env) :
    Ends False (createUvm (i386 B) m addr len flags) u fun c _ => c = 0 := by
  rw [Kern.createUvm, if_neg (args_checked hm haddr.1 hlen), if_neg hpos]
  have hpages : 0 + pgSize * (len / pgSize) = len := by
    rw [Nat.zero_add, Nat.mul_div_cancel' (Nat.dvd_of_mod_eq_zero hlen)]
  refine Ends.of_eq (run_bind_ok hfind) ((hT.createLoop hlen32 hpages haddr h).bind
    fun r u₁ hr => ?_)
  obtain ⟨c, mapped⟩ := r
  obtain rfl : c = 0 := hr
  exact ends_pure rfl

end Stock

/-! ## In every state of every run -/

section Runs

variable {B : Base σ} {r : UvmRun (Phys σ)} {m addr len flags : Nat} {l : List Nat} {u : Uvm σ}

theorem UvmInv.areasOf {E : Env σ} {total : Prop} {S : EnvSpec E True total} {H : Others}
    {mms : List Nat} {vmas : Nat → List Nat} {R : Res} (h : UvmInv S H u mms vmas R)
    (hm : m ∈ mms) : AreasOf u m (vmas m) where
  ring := h.spaces.ring m hm
  live := h.live_node hm
  fuel := lt_listFuel (h.spaces.length_le hm ((h.indexed trivial).nodup h.spaces hm))
  aligned v hv := (h.spaces.area m hm v hv).aligned
  lt v hv := (h.spaces.area m hm v hv).lt
  size v hv := (h.spaces.area m hm v hv).size

theorem nodes_injective : Function.Injective nodes :=
  List.map_injective_iff.mpr fun _ _ h => VmaNode.vma.inj h

theorem areasOf_of_reachable (S : BaseSpec B) (h : (uvmCalls (i386 B) S.Start).Reachable r)
    (hm : m ∈ r.mms) (hring : Links.Ring r.u.links (.sentry m) (nodes l)) :
    AreasOf r.u m l ∧ m ≠ 0 := by
  obtain ⟨K, H, vmas, R, hk⟩ := kept_of_reachable S h
  have hareas := hk.inv.areasOf hm
  obtain rfl : l = vmas m := nodes_injective (hring.unique hareas.ring)
  exact ⟨hareas, fun h0 => hk.zero (h0 ▸ hm)⟩

theorem mapPages_code (G : Pager σ) (g va a n f : Nat) (s : Phys σ) :
    Ends False (mapPages G g va a n f) s fun r _ => r = 0 ∨ r = -1 :=
  mapLoop_code G g f _ _ _ _ s

/-- `create_uvm` answers `-EFAULT` if and only if the range intersects an area,
unless it is taken to be in front of all areas: then the words in front of the
`struct mm` have to agree. -/
theorem createUvm_overlap_iff (S : BaseSpec B) (h : (uvmCalls (i386 B) S.Start).Reachable r)
    (hm : m ∈ r.mms) (hring : Links.Ring r.u.links (.sentry m) (nodes l))
    (hs : Ascending r.u l) (b : Nat → Nat × Nat) (haddr : addr % pgSize = 0)
    (hlen : len % pgSize = 0) (hpos : 0 < len) (hend : addr + len ≤ 2 ^ 32) :
    ((∃ u', (createUvm (i386 B) m addr len flags).run { r.u with before := b } =
        .ok (-efault) u') ↔ Intersects r.u l addr len) ↔
      (l = [] ∨ StartsBelow r.u l addr len ∨
        (addr < ((b m).1 + (b m).2) % 2 ^ 32 ↔ Intersects r.u l addr len)) := by
  obtain ⟨hareas, hm0⟩ := areasOf_of_reachable S h hm hring
  obtain ⟨ans, hfind, hcases⟩ := findVmaBefore_refuses (hareas.setBefore b) hs haddr hlen hend
  have hans : (∃ u', (createUvm (i386 B) m addr len flags).run { r.u with before := b } =
      .ok (-efault) u') ↔ ans = none := by
    cases ans with
    | none =>
        exact iff_of_true ⟨_, createUvm_refused flags hm0 haddr hlen hpos.ne' hfind⟩ rfl
    | some n =>
        refine iff_of_false ?_ (Option.some_ne_none n)
        rintro ⟨u', hrun⟩
        exact not_allocFailed_efault ((createUvm_code hm0 haddr hlen hpos.ne' hfind
          (mapPages_code B.pager)).of_run hrun)
  rw [hans]
  rcases hcases with ⟨hnil, hne, hno⟩ | ⟨hbelow, hiff⟩ | ⟨hnil, hbelow, hiff⟩
  · exact iff_of_true (iff_of_false hne hno) (.inl hnil)
  · exact iff_of_true hiff (.inr (.inl hbelow))
  · rw [hiff]
    exact ⟨fun hc => .inr (.inr hc), fun hc => (hc.resolve_left hnil).resolve_left hbelow⟩

/-- What `__find_continuous_vma` is for: the area at the start of a range that is
covered, and null for any other. -/
def ContinuousRight (u : Uvm σ) (m : Nat) (l : List Nat) (addr len : Nat) : Prop :=
  (Covered u l addr len → ∃ v ∈ l, (u.vma v).start = addr ∧
    (findContinuousVma m addr len).run u = .ok (some (.vma v)) u) ∧
  (¬ Covered u l addr len → (findContinuousVma m addr len).run u = .ok none u)

/-- All pages but the last are covered, and the sentry passes for that one: it is met
behind the last area, and starts where the page does. -/
def SentryPasses (u : Uvm σ) (m : Nat) (l : List Nat) (addr len : Nat) : Prop :=
  pgSize < len ∧ Covered u l addr (len - pgSize) ∧
    (∀ v ∈ l, (u.vma v).start < addr + (len - pgSize)) ∧
    (u.before m).1 = addr + (len - pgSize)

theorem findContinuousVma_unaligned (haddr : addr % pgSize = 0) (hlen : len % pgSize ≠ 0) :
    ∃ e, (findContinuousVma m addr len).run u = .error e u := by
  rw [findContinuousVma, decide_eq_true haddr, decide_eq_false hlen]
  exact ⟨_, rfl⟩

/-- The search, by what the words in front of the `struct mm` are. -/
theorem continuousRight_iff (h : AreasOf u m l) (hs : Ascending u l) (haddr : addr % pgSize = 0)
    (hpos : 0 < len) (hlen32 : len < 2 ^ 32) (hend : addr + len ≤ 2 ^ 32) :
    ContinuousRight u m l addr len ↔ len % pgSize = 0 ∧ ¬ SentryPasses u m l addr len := by
  by_cases hlen : len % pgSize = 0
  swap
  · obtain ⟨e, herr⟩ := findContinuousVma_unaligned (m := m) (u := u) haddr hlen
    refine iff_of_false (fun hright => ?_) fun hc => hlen hc.1
    rw [ContinuousRight, herr] at hright
    by_cases hcov : Covered u l addr len
    · obtain ⟨v, -, -, hrun⟩ := hright.1 hcov
      cases hrun
    · cases hright.2 hcov
  obtain ⟨n, hn⟩ := Nat.dvd_of_mod_eq_zero hlen
  obtain ⟨k, rfl⟩ := Nat.exists_eq_add_one_of_ne_zero
    (show n ≠ 0 from fun h0 => by rw [h0, Nat.mul_zero] at hn; omega)
  obtain ⟨ans, hrun, harea, hans⟩ := findContinuousVma_run h hs haddr hn hlen32 hend
  have hrest : len - pgSize = pgSize * k := by
    rw [hn, Nat.mul_add, Nat.mul_one, Nat.add_sub_cancel]
  have hcov : Covered u l addr len ↔ PagesAt u l addr (k + 1) := by
    rw [hn]
    exact covered_iff h haddr
  have hcov' : Covered u l addr (len - pgSize) ↔ PagesAt u l addr k := by
    rw [hrest]
    exact covered_iff h haddr
  have hmore : pgSize < len ↔ k ≠ 0 := by
    rw [hn, pgSize]
    omega
  -- The answer is an area if the range is covered, or if the sentry passes.
  have hsome : ans ≠ none ↔ Covered u l addr len ∨ SentryPasses u m l addr len := by
    rw [hans, hcov, SentryPasses, hmore, hcov', hrest]
    refine ⟨?_, ?_⟩
    · rintro ⟨hat, hpages | ⟨k', hk, hpages, hlast, hbefore⟩⟩
      · exact .inl hpages
      · obtain rfl : k' = k := by omega
        refine .inr ⟨?_, hpages, hlast, hbefore⟩
        rintro rfl
        obtain ⟨v, hv, hva⟩ := hat
        have := hlast v hv
        omega
    · rintro (hpages | ⟨hk, hpages, hlast, hbefore⟩)
      · exact ⟨(pagesAt_succ.mp hpages).1, .inl hpages⟩
      · obtain ⟨k', rfl⟩ := Nat.exists_eq_add_one_of_ne_zero hk
        exact ⟨(pagesAt_succ.mp hpages).1, .inr ⟨_, rfl, hpages, hlast, hbefore⟩⟩
  have hnot : SentryPasses u m l addr len → ¬ Covered u l addr len := by
    rintro ⟨-, -, hlast, -⟩ hc
    obtain ⟨v, hv, hva⟩ := hcov.mp hc k (Nat.lt_succ_self k)
    have := hlast v hv
    rw [hrest] at this
    omega
  rw [and_iff_right hlen, ContinuousRight, hrun]
  refine ⟨fun hright hsentry => ?_, fun hsentry => ⟨fun hc => ?_, fun hc => ?_⟩⟩
  · have hnone := hright.2 (hnot hsentry)
    exact hsome.mpr (.inr hsentry) (EStateM.Result.ok.inj hnone).1
  · obtain ⟨v, hv, hva, hsv⟩ := harea (hsome.mpr (.inl hc))
    exact ⟨v, hv, hva, by rw [hsv]⟩
  · have hnone : ans = none := by
      by_contra hne
      exact (hsome.mp hne).elim hc hsentry
    rw [hnone]

theorem findContinuousVma_exact_iff (S : BaseSpec B)
    (h : (uvmCalls (i386 B) S.Start).Reachable r) (hm : m ∈ r.mms)
    (hring : Links.Ring r.u.links (.sentry m) (nodes l)) (hs : Ascending r.u l)
    (b : Nat → Nat × Nat) (haddr : addr % pgSize = 0) (hpos : 0 < len) (hlen32 : len < 2 ^ 32)
    (hend : addr + len ≤ 2 ^ 32) :
    ContinuousRight { r.u with before := b } m l addr len ↔
      len % pgSize = 0 ∧ ¬ SentryPasses { r.u with before := b } m l addr len :=
  continuousRight_iff ((areasOf_of_reachable S h hm hring).1.setBefore b) hs haddr hpos hlen32 hend

/-- The range is taken to be in front of all areas, and starts below the end of the
sentry. -/
def SentryBars (u : Uvm σ) (m : Nat) (l : List Nat) (addr len : Nat) : Prop :=
  (∃ v ∈ l.head?, (addr + len) % 2 ^ 32 ≤ (u.vma v).start) ∧ addr < u.sentryEnd m

/-- The search refuses a range that wraps only in front of all areas. -/
theorem findVmaBefore_wrap (h : AreasOf u m l) (haddr : addr % pgSize = 0) (hlen : len % pgSize = 0)
    (haddr32 : addr < 2 ^ 32) (hlen32 : len < 2 ^ 32) (hwrap : 2 ^ 32 < addr + len) :
    ∃ ans, (findVmaBefore m addr len).run u = .ok ans u ∧
      (ans = none ↔ SentryBars u m l addr len) := by
  rw [SentryBars]
  by_cases hnil : l = []
  · subst hnil
    refine ⟨_, findVmaBefore_nil h, iff_of_false (Option.some_ne_none _) ?_⟩
    rintro ⟨⟨v, hv, -⟩, -⟩
    exact Option.not_mem_none v hv
  obtain ⟨l₃, l₄, hl, h₃, h₄, hrun⟩ := findVmaBefore_run addr len h hnil
  refine ⟨_, hrun, ?_⟩
  rcases List.eq_nil_or_concat l₃ with rfl | ⟨l₀, p, rfl⟩
  · rw [List.nil_append] at hl
    subst hl
    obtain ⟨w, l', rfl⟩ := List.exists_cons_of_ne_nil hnil
    have hsentry : (u.startOf ((nodes []).getLastD (.sentry m)) +
        u.sizeOf ((nodes []).getLastD (.sentry m))) % 2 ^ 32 = u.sentryEnd m := rfl
    have hfirst : ∃ v ∈ (w :: l').head?, (addr + len) % 2 ^ 32 ≤ (u.vma v).start :=
      ⟨w, rfl, h₄ w rfl⟩
    rw [hsentry, and_iff_right hfirst]
    simp
  · -- The area in front of the place ends below the end of the range, so below its start.
    rw [List.concat_eq_append] at hl h₃ ⊢
    have hp : p ∈ l := hl ▸ List.mem_append_left _ (List.mem_append_right _ List.mem_cons_self)
    have hlow := h₃ p (List.mem_append_right _ List.mem_cons_self)
    have hal := h.aligned p hp
    have hpend : (u.vma p).start + pgSize ≤ addr := by
      simp only [pgSize] at *
      omega
    have harea : (u.startOf (.vma p) + u.sizeOf (.vma p)) % 2 ^ 32 = (u.vma p).start + pgSize := by
      show ((u.vma p).start + (u.vma p).size) % 2 ^ 32 = _
      rw [h.size p hp, Nat.mod_eq_of_lt (by omega)]
    rw [nodes_getLastD_concat, harea, if_neg (by omega)]
    refine iff_of_false (Option.some_ne_none _) ?_
    rintro ⟨⟨v, hv, hvlow⟩, -⟩
    have hhead : v ∈ l₀ ++ [p] := by
      cases l₀ with
      | nil =>
          rw [hl] at hv
          cases hv
          exact List.mem_cons_self
      | cons w l' =>
          rw [hl] at hv
          cases hv
          exact List.mem_cons_self
    have := h₃ v hhead
    omega

/-- `create_uvm` answers an error, with the address space as it was. -/
def TurnedAway (S : BaseSpec B) (m addr len flags : Nat) (u : Uvm (Phys σ)) : Prop :=
  ∃ c u', (createUvm (i386 B) m addr len flags).run u = .ok c u' ∧ c < 0 ∧ Unchanged S m u u'

/-- A range that wraps is turned away if the sentry is in the way, and only then if
there is enough left for two objects, a page and a table for each of its pages. The
address space is as it was after any error. -/
theorem createUvm_wrap_iff (S : BaseSpec B) (h : (uvmCalls (i386 B) S.Start).Reachable r)
    (hm : m ∈ r.mms) (hring : Links.Ring r.u.links (.sentry m) (nodes l))
    (haddr : addr % pgSize = 0) (hlen : len % pgSize = 0) (haddr32 : addr < 2 ^ 32)
    (hlen32 : len < 2 ^ 32) (hflags : flags < 2 ^ 32) (hwrap : 2 ^ 32 < addr + len) :
    (SentryBars r.u m l addr len → TurnedAway S m addr len flags r.u) ∧
      (∀ T, Stock B T → T (2 * (len / pgSize)) (2 * (len / pgSize)) r.u.env →
        (TurnedAway S m addr len flags r.u ↔ SentryBars r.u m l addr len)) ∧
      ∀ c u', (createUvm (i386 B) m addr len flags).run r.u = .ok c u' → c < 0 →
        Unchanged S m r.u u' := by
  obtain ⟨K, H, vmas, R, hk⟩ := kept_of_reachable S h
  have hinv := hk.inv
  obtain ⟨hareas, hm0⟩ := areasOf_of_reachable S h hm hring
  obtain ⟨ans, hfind, hans⟩ := findVmaBefore_wrap hareas haddr hlen haddr32 hlen32 hwrap
  have hlen0 : len ≠ 0 := by omega
  have hunchanged : ∀ c u', (createUvm (i386 B) m addr len flags).run r.u = .ok c u' → c < 0 →
      Unchanged S m r.u u' := by
    intro c u' hrun hneg
    obtain ⟨l', R', hc, -⟩ :=
      (createUvm_ends hinv False.elim hm haddr32 hlen32 hflags False.elim).of_run hrun
    exact hc.unchanged hinv hm hneg
  have hbars : SentryBars r.u m l addr len → TurnedAway S m addr len flags r.u := by
    intro hbars
    rw [hans.mpr hbars] at hfind
    have hrun := createUvm_refused (E := i386 B) flags hm0 haddr hlen hlen0 hfind
    have hneg : (-efault : Int) < 0 := by decide
    exact ⟨_, _, hrun, hneg, hunchanged _ _ hrun hneg⟩
  refine ⟨hbars, fun T hT hleft => ⟨?_, hbars⟩, hunchanged⟩
  rintro ⟨c, u', hrun, hneg, -⟩
  cases ans with
  | none => exact hans.mp rfl
  | some n =>
      have hzero : c = 0 :=
        (hT.createUvm hm0 ⟨haddr, haddr32⟩ hlen hlen32 hlen0 hfind hleft).of_run hrun
      omega

end Runs

/-! ## One area -/

/-- Any two words in front of every `struct mm`. -/
def startBehind (b : Nat × Nat) : UvmRun (Phys Supply) :=
  { supplyStart eightFrames with u := { (supplyStart eightFrames).u with before := fun _ => b } }

theorem startBehind_init (b : Nat × Nat) :
    (uvmCalls (i386 supplyBase.supplied) (supplySpec 0).Start).init (startBehind b) := by
  have hout : (supplySpec 0).Out (supplyStart eightFrames).u.env ∅ ∅ ∅ :=
    supplyStart_out (by decide) (by decide)
  refine ⟨rfl, ∅, ∅, ∅, hout, fun x => ?_⟩
  exact ⟨fun hx => (Bool.false_ne_true hx).elim, fun hx => hx.elim⟩

theorem ring_one {k : Links VmaNode} {n x : VmaNode} (hn : k.next n = x) (hx : k.prev x = n)
    (hx' : k.next x = n) (hn' : k.prev n = x) (hne : n ≠ x) : Links.Ring k n [x] :=
  ⟨⟨hn, hx, hx', hn'⟩, by simp [hne]⟩

/-- The list of `0x1000` has one area, of the page `0x400000`. -/
def OneArea (r : UvmRun σ) : Prop :=
  r.mms = [0x1000] ∧ r.u.links.next (.sentry 0x1000) = .vma 0x1019 ∧
    r.u.links.prev (.vma 0x1019) = .sentry 0x1000 ∧
    r.u.links.next (.vma 0x1019) = .sentry 0x1000 ∧
    r.u.links.prev (.sentry 0x1000) = .vma 0x1019 ∧
    r.u.vma 0x1019 = ⟨0x400000, 0x1000, 7, 0x1000, 0x1046⟩

instance (r : UvmRun σ) : Decidable (OneArea r) :=
  inferInstanceAs (Decidable (_ ∧ _ ∧ _ ∧ _ ∧ _ ∧ _))

/-- A run that makes this area, and what `see` sees then. -/
theorem oneArea_reachable {β : Type} {b : Nat × Nat} (see : UvmRun (Phys Supply) → β) (x : β)
    (hpermits : (uvmCalls (i386 supplyBase.supplied) (supplySpec 0).Start).Permits
      [.new, .create 0x1000 0x400000 0x1000 7] (startBehind b))
    (hsee : ((uvmCalls (i386 supplyBase.supplied) (supplySpec 0).Start).after
      [.new, .create 0x1000 0x400000 0x1000 7] (startBehind b)).map
        (fun r => (decide (OneArea r), see r)) = some (true, x)) :
    ∃ r, (uvmCalls (i386 supplyBase.supplied) (supplySpec 0).Start).Reachable r ∧
      0x1000 ∈ r.mms ∧ Links.Ring r.u.links (.sentry 0x1000) (nodes [0x1019]) ∧
      r.u.vma 0x1019 = ⟨0x400000, 0x1000, 7, 0x1000, 0x1046⟩ ∧ see r = x := by
  obtain ⟨r, hreach, hseen⟩ :=
    (Machine.Reachable.init (startBehind_init b)).sees _ _ _ hpermits hsee
  obtain ⟨hone, hx⟩ := Prod.mk.inj hseen
  obtain ⟨hmms, h1, h2, h3, h4, hvma⟩ := of_decide_eq_true hone
  exact ⟨r, hreach, by simp [hmms], ring_one h1 h2 h3 h4 VmaNode.noConfusion, hvma, hx⟩

/-- Behind the area the words do not matter. -/
theorem createUvm_overlap_iff_oneArea :
    ∃ r : UvmRun (Phys Supply), Links.Ring r.u.links (.sentry 0x1000) (nodes [0x1019]) ∧
      ((∃ u', (createUvm (i386 supplyBase.supplied) 0x1000 0x500000 0x1000 7).run
        { r.u with before := fun _ => (0xfffff000, 0xfff) } = .ok (-efault) u') ↔
          Intersects r.u [0x1019] 0x500000 0x1000) := by
  obtain ⟨r, hr, hm, hring, hvma, -⟩ := oneArea_reachable (b := (0, 0)) (fun _ => ()) ()
    (by decide +kernel) (by decide +kernel)
  refine ⟨r, hring, (createUvm_overlap_iff (supplySpec 0) hr hm hring (List.pairwise_singleton _ _)
    _ (by decide) (by decide) (by decide) (by decide)).mpr
      (.inr (.inl ⟨0x1019, List.mem_cons_self, ?_⟩))⟩
  rw [hvma]
  decide

/-- A free range in front of the area is refused. -/
theorem createUvm_free_refused : ∃ (r : UvmRun (Phys Supply)) (u' : Uvm (Phys Supply)),
    (uvmCalls (i386 supplyBase.supplied) (supplySpec 0).Start).Reachable r ∧ 0x1000 ∈ r.mms ∧
    Links.Ring r.u.links (.sentry 0x1000) (nodes [0x1019]) ∧ Ascending r.u [0x1019] ∧
    (createUvm (i386 supplyBase.supplied) 0x1000 0x1000 0x1000 7).run
      { r.u with before := fun _ => (0x2000, 0) } = .ok (-efault) u' ∧
    ¬ Intersects r.u [0x1019] 0x1000 0x1000 := by
  obtain ⟨r, hr, hm, hring, hvma, hcall⟩ := oneArea_reachable (b := (0, 0))
    (fun r => returned (createUvm (i386 supplyBase.supplied) 0x1000 0x1000 0x1000 7)
      { r.u with before := fun _ => (0x2000, 0) } fun c _ => c) (some (-efault))
    (by decide +kernel) (by decide +kernel)
  obtain ⟨c, u', hrun, rfl⟩ := returned_eq_some hcall
  refine ⟨r, u', hr, hm, hring, List.pairwise_singleton _ _, hrun, ?_⟩
  rintro ⟨v, hv, hlow, -⟩
  rw [List.mem_singleton.mp hv, hvma] at hlow
  exact absurd hlow (by decide)

theorem findContinuousVma_exact_iff_oneArea : ∃ r : UvmRun (Phys Supply),
    Links.Ring r.u.links (.sentry 0x1000) (nodes [0x1019]) ∧
    ContinuousRight { r.u with before := fun _ => (0x400000, 0) } 0x1000 [0x1019] 0x400000
      0x2000 := by
  obtain ⟨r, hr, hm, hring, hvma, -⟩ := oneArea_reachable (b := (0, 0)) (fun _ => ()) ()
    (by decide +kernel) (by decide +kernel)
  refine ⟨r, hring, (findContinuousVma_exact_iff (supplySpec 0) hr hm hring
    (List.pairwise_singleton _ _) _ (by decide) (by decide) (by decide) (by decide)).mpr
      ⟨by decide, ?_⟩⟩
  rintro ⟨-, -, -, hbefore⟩
  exact absurd (show 0x400000 = 0x400000 + (0x2000 - pgSize) from hbefore) (by decide)

/-- The sentry passes for the page `0x401000`. -/
theorem findContinuousVma_sentry : ∃ (r : UvmRun (Phys Supply)) (u' : Uvm (Phys Supply)),
    (uvmCalls (i386 supplyBase.supplied) (supplySpec 0).Start).Reachable r ∧ 0x1000 ∈ r.mms ∧
    Links.Ring r.u.links (.sentry 0x1000) (nodes [0x1019]) ∧ Ascending r.u [0x1019] ∧
    (findContinuousVma 0x1000 0x400000 0x2000).run
      { r.u with before := fun _ => (0x401000, 0) } = .ok (some (.vma 0x1019)) u' ∧
    ¬ Covered r.u [0x1019] 0x400000 0x2000 := by
  obtain ⟨r, hr, hm, hring, hvma, hcall⟩ := oneArea_reachable (b := (0, 0))
    (fun r => returned (findContinuousVma 0x1000 0x400000 0x2000)
      { r.u with before := fun _ => (0x401000, 0) } fun n _ => n) (some (some (.vma 0x1019)))
    (by decide +kernel) (by decide +kernel)
  obtain ⟨n, u', hrun, rfl⟩ := returned_eq_some hcall
  refine ⟨r, u', hr, hm, hring, List.pairwise_singleton _ _, hrun, fun hcov => ?_⟩
  obtain ⟨v, hv, -, hhigh⟩ := hcov 0x401000 (by decide) (by decide)
  rw [List.mem_singleton.mp hv, hvma] at hhigh
  exact absurd hhigh (by decide)

/-- The frames of the supply are its stock of pages. Objects do not run out. -/
def FramesLeft (_ n : Nat) (s : Phys Supply) : Prop :=
  n ≤ s.pmm.free.length ∧ 0 < s.pmm.nextObj ∧ ∀ a ∈ s.pmm.free, IsFrame a ∧ a ≠ 0

instance (k n : Nat) (s : Phys Supply) : Decidable (FramesLeft k n s) :=
  inferInstanceAs (Decidable (_ ∧ _ ∧ ∀ a ∈ _, (_ ∧ _) ∧ _))

theorem FramesLeft.take {k n : Nat} {s : Phys Supply} (h : FramesLeft k (n + 1) s) :
    ∃ a rest, s.pmm.free = a :: rest ∧ (IsFrame a ∧ a ≠ 0) ∧ n ≤ rest.length ∧
      ∀ a ∈ rest, IsFrame a ∧ a ≠ 0 := by
  obtain ⟨hn, -, hframe⟩ := h
  cases hfree : s.pmm.free with
  | nil =>
      rw [hfree] at hn
      exact absurd hn (Nat.not_succ_le_zero n)
  | cons a rest =>
      rw [hfree] at hn hframe
      obtain ⟨ha, hrest⟩ := List.forall_mem_cons.mp hframe
      exact ⟨a, rest, rfl, ha, Nat.le_of_succ_le_succ hn, hrest⟩

theorem supplyStock : Stock supplyBase.supplied FramesLeft where
  less k n s h := ⟨Nat.le_of_succ_le h.1, h.2⟩
  write k n s m h := h
  kmalloc k n s size h := by
    obtain ⟨hn, hpos, hframe⟩ := h
    exact ends_of_ok rfl ⟨hpos.ne', hn, Nat.succ_pos _, hframe⟩
  allocPages k n s h := by
    obtain ⟨a, rest, hfree, -, hn, hrest⟩ := h.take
    exact ends_of_ok (supplied_allocPages hfree) ⟨le_rfl, hn, h.2.1, hrest⟩
  pgalloc k n s h := by
    obtain ⟨a, rest, hfree, ⟨hframe, hne⟩, hn, hrest⟩ := h.take
    refine ends_of_ok (supplied_pgalloc hfree hframe) ⟨⟨hframe.1, ?_⟩, hn, h.2.1, hrest⟩
    rwa [Nat.mod_eq_of_lt (hframe.2.trans (by decide))]

/-- With the words in front of the `struct mm` the range is turned away, without them it
is not. -/
theorem createUvm_wrap_iff_oneArea :
    (∃ r : UvmRun (Phys Supply), TurnedAway (supplySpec 0) 0x1000 0xfffff000 0x2000 7 r.u) ∧
    ∃ r : UvmRun (Phys Supply), Links.Ring r.u.links (.sentry 0x1000) (nodes [0x1019]) ∧
      ¬ TurnedAway (supplySpec 0) 0x1000 0xfffff000 0x2000 7 r.u := by
  refine ⟨?_, ?_⟩
  · obtain ⟨r, hr, hm, hring, hvma, hend⟩ := oneArea_reachable (b := (0xfffff000, 0xfff))
      (fun r => r.u.sentryEnd 0x1000) 0xffffffff (by decide +kernel) (by decide +kernel)
    refine ⟨r, (createUvm_wrap_iff (supplySpec 0) hr hm hring (by decide) (by decide) (by decide)
      (by decide) (by decide) (by decide)).1 ⟨⟨0x1019, rfl, ?_⟩, ?_⟩⟩
    · rw [hvma]
      decide
    · rw [hend]
      decide
  · obtain ⟨r, hr, hm, hring, hvma, hseen⟩ := oneArea_reachable (b := (0, 0))
      (fun r => (r.u.sentryEnd 0x1000, decide (FramesLeft 4 4 r.u.env))) (0, true)
      (by decide +kernel) (by decide +kernel)
    obtain ⟨hend, hleft⟩ := Prod.mk.inj hseen
    refine ⟨r, hring, fun hturned => ?_⟩
    have hbars := ((createUvm_wrap_iff (supplySpec 0) hr hm hring (by decide) (by decide)
      (by decide) (by decide) (by decide) (by decide)).2.1 _ supplyStock
        (of_decide_eq_true hleft)).mp hturned
    exact absurd (hend ▸ hbars.2) (by decide)

/-- A new address space takes a range that wraps. Its list does not ascend. -/
theorem createUvm_wraps : ∃ (r : UvmRun (Phys Supply)) (u' : Uvm (Phys Supply)),
    (uvmCalls (i386 supplyBase.supplied) (supplySpec 0).Start).Reachable r ∧ 0x1000 ∈ r.mms ∧
    (createUvm (i386 supplyBase.supplied) 0x1000 0xfffff000 0x2000 7).run r.u = .ok 0 u' ∧
    u'.links.next (.sentry 0x1000) = .vma 0x1019 ∧ (u'.vma 0x1019).start = 0xfffff000 ∧
    u'.links.next (.vma 0x1019) = .vma 0x106b ∧ (u'.vma 0x106b).start = 0 := by
  obtain ⟨r, hreach, hseen⟩ := (Machine.Reachable.init (startBehind_init (0, 0))).sees [.new]
    (fun r => (r.mms, returned
      (createUvm (i386 supplyBase.supplied) 0x1000 0xfffff000 0x2000 7) r.u fun c u' =>
        decide (c = 0 ∧ u'.links.next (.sentry 0x1000) = .vma 0x1019 ∧
          (u'.vma 0x1019).start = 0xfffff000 ∧ u'.links.next (.vma 0x1019) = .vma 0x106b ∧
          (u'.vma 0x106b).start = 0))) ([0x1000], some true) (by decide +kernel)
    (by decide +kernel)
  obtain ⟨hmms, hcall⟩ := Prod.mk.inj hseen
  obtain ⟨c, u', hrun, hseen⟩ := returned_eq_some hcall
  obtain ⟨rfl, hlist⟩ := of_decide_eq_true hseen
  exact ⟨r, u', hreach, by simp [hmms], hrun, hlist⟩

end Aim.Kern
