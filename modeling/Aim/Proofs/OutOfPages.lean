import Aim.Kern.ArchMmu
import Aim.Proofs.SimpleStep
import Aim.Proofs.Window
import Aim.Lib.Ends

/-!
# When there are no pages left

`pgalloc` answers `-1` when the page allocator does. Its callers look for
another value: `simple_alloc` and `walkpgdir` narrow the answer to 32 bits and
compare it with zero, and `init_pgindex` adds `KERN_BASE` to it. So none of
them notices, and each goes on with a page at `0xffffffff`.
-/

namespace Aim.Kern

open Aim.Lib

variable {σ : Type} {P : PageAllocator σ} {s : Simple σ} {n : Int} {o size tries : Nat}
  {d : SizeDescriptor} {Same : Phys σ → Phys σ → Prop} {f : SizeDescriptor → SizeDescriptor}

/-- The page allocator answers `EOF` to a request for a page, and has not asked
for the page to be zeroed. -/
def OutOfPages (P : PageAllocator σ) (pmm : σ) : Prop :=
  ∃ p pmm', (P.alloc ⟨0, pgSize, 0⟩).run pmm = .ok (-1, p) pmm' ∧ p.flags &&& gfpZero = 0

/-- The call reports a failure: it answers `fail`, and `Same` holds of the states
before and after. -/
def Reports {τ α : Type} (x : EStateM Stop τ α) (s : τ) (fail : α) (Same : τ → τ → Prop) :
    Prop := ∃ s', x.run s = .ok fail s' ∧ Same s s'

theorem pgalloc_outOfPages {s : Phys σ} (h : OutOfPages P s.pmm) :
    ∃ pmm', (pgalloc P).run s = .ok (2 ^ 64 - 1) { s with pmm := pmm' } := by
  obtain ⟨p, pmm', hrun, hflags⟩ := h
  refine ⟨pmm', ?_⟩
  have halloc : (allocPages P ⟨0, pgSize, 0⟩).run s = .ok (-1, p) { s with pmm := pmm' } := by
    have hpmm : (onPmm (P.alloc ⟨0, pgSize, 0⟩)).run s = .ok (-1, p) { s with pmm := pmm' } :=
      run_zoom_ok hrun
    rw [allocPages, run_bind_ok hpmm]
    show (if p.flags &&& gfpZero ≠ 0 then _ else _ : EStateM Stop (Phys σ) _).run _ = _
    rw [if_neg (not_not.mpr hflags)]
    rfl
  rw [pgalloc, run_bind_ok halloc]
  rfl

/-! ## `init_pgindex` and `walkpgdir` -/

theorem initPgindex_unreported {s : Phys σ} (h : OutOfPages P s.pmm) :
    ¬ Reports (initPgindex (pager P)) s 0 Same := by
  obtain ⟨pmm', hrun⟩ := pgalloc_outOfPages h
  intro hrep
  obtain ⟨s', hs', -⟩ := hrep
  rw [initPgindex, run_bind_ok (show (pager P).pgalloc.run s = _ from hrun)] at hs'
  injection hs' with hanswer _
  exact absurd hanswer (by decide)

theorem walkpgdir_unreported {s : Phys σ} {pgdir va : Nat} (h : OutOfPages P s.pmm)
    (hentry : kload32 s.mem ((pgdir + 4 * pdx va) % 2 ^ 32) &&& pteP = 0) :
    ¬ Reports (walkpgdir (pager P) pgdir va true) s 0 Same := by
  obtain ⟨pmm', hrun⟩ := pgalloc_outOfPages h
  intro hrep
  obtain ⟨s', hs', -⟩ := hrep
  have hload : (kload ((pgdir + 4 * pdx va) % 2 ^ 32)).run s =
      .ok (kload32 s.mem ((pgdir + 4 * pdx va) % 2 ^ 32)) s := rfl
  have hnotNull : ¬ (2 ^ 64 - 1) % 2 ^ 32 = 0 := by decide
  rw [walkpgdir, run_bind_ok hload, if_neg (not_not.mpr hentry), if_neg (by decide),
    run_bind_ok (show (pager P).pgalloc.run s = _ from hrun), if_neg hnotNull] at hs'
  -- The pointer is odd, so that the entry behind it is not at zero.
  injection hs' with hanswer _
  omega

/-! ## `simple_alloc`

The table counts the pages of a class, and nothing in `simple_alloc` takes a
page off that count. -/

def PagesFrom (o : Nat) (n : Int) (s : Simple σ) : Prop :=
  ∃ d, s.sizes[o]? = some d ∧ n ≤ d.npages

theorem sizeAt_ends (h : PagesFrom o n s) :
    Ends False (sizeAt (o : Int)) s fun d s' => s' = s ∧ s.sizes[o]? = some d := by
  obtain ⟨d, hd, -⟩ := h
  exact ends_of_ok (run_sizeAt hd) ⟨rfl, hd⟩

theorem load_ends {Q : Simple σ → Prop} {a : Nat} (h : Q s) :
    Ends False (load a) s fun _ => Q := ends_of_ok (run_load a s) h

theorem store_ends {a v : Nat} (h : PagesFrom o n s) :
    Ends False (store a v) s fun _ => PagesFrom o n := ends_of_ok (run_store a v s) h

theorem kprintf_ends {fmt : String} {args : List Int} (h : PagesFrom o n s) :
    Ends False (kprintf fmt args) s fun _ => PagesFrom o n :=
  ends_of_ok rfl h

theorem modifySize_ends {n k : Int} (h : PagesFrom o n s) (hf : ∀ d, d.npages + k ≤ (f d).npages) :
    Ends False (modifySize (o : Int) f) s fun _ => PagesFrom o (n + k) := by
  obtain ⟨d, hd, hn⟩ := h
  refine ends_of_ok (run_modifySize hd f) ⟨f d, ?_, ?_⟩
  · exact List.getElem?_set_self (List.getElem?_eq_some_iff.mp hd).1
  · have := hf d
    omega

/-- A write to the table that is not to `npages`. -/
theorem modifySize_ends_same (h : PagesFrom o n s) (hf : ∀ d, (f d).npages = d.npages) :
    Ends False (modifySize (o : Int) f) s fun _ => PagesFrom o n := by
  have hends := modifySize_ends h (k := 0) (fun d => by rw [hf d]; omega)
  rwa [Int.add_zero] at hends

theorem carveBlocks_ends {sz : Nat} (k p : Nat) (h : PagesFrom o n s) :
    Ends False (carveBlocks sz k p) s fun _ => PagesFrom o n := by
  fun_induction @carveBlocks σ sz k p generalizing s with
  | case1 p i ih =>
      refine (store_ends h).bind ?_
      intro _ s₁ h₁
      refine (store_ends h₁).bind ?_
      intro _ s₂ h₂
      refine (load_ends h₂).bind ?_
      intro p' s₃ h₃
      exact ih p' h₃
  | case2 k p hk => exact ends_pure h

theorem addPage_ends {o page : Nat} (h : PagesFrom o n s) :
    Ends False (addPage (o : Int) page) s fun _ => PagesFrom o (n + 1) := by
  refine (sizeAt_ends h).bind ?_
  intro d s₀ h₀
  obtain ⟨rfl, -⟩ := h₀
  refine (modifySize_ends h (fun d => le_refl _)).bind ?_
  intro _ s₁ h₁
  refine (carveBlocks_ends _ _ h₁).bind ?_
  intro p s₂ h₂
  refine (store_ends h₂).bind ?_
  intro _ s₃ h₃
  refine (store_ends h₃).bind ?_
  intro _ s₄ h₄
  refine (store_ends h₄).bind ?_
  intro _ s₅ h₅
  refine (store_ends h₅).bind ?_
  intro _ s₆ h₆
  refine (store_ends h₆).bind ?_
  intro _ s₇ h₇
  refine (sizeAt_ends h₇).bind ?_
  intro d' s₈ h₈
  obtain ⟨rfl, -⟩ := h₈
  refine (store_ends h₇).bind ?_
  intro _ s₉ h₉
  exact modifySize_ends_same h₉ fun _ => rfl

/-- The end of `takeBlock`, once the page is in order. -/
theorem useBlock_ends {o size p : Nat} (h : PagesFrom o n s) :
    Ends False (do
      modifySize (o : Int) fun d => { d with
        nmallocs := d.nmallocs + 1
        nbytesmalloced := d.nbytesmalloced + size }
      store p mfUsed
      store (p + 4) size
      return (p + 8) % 2 ^ 32) s fun _ => PagesFrom o n := by
  refine (modifySize_ends_same h ?_).bind ?_
  · intro d
    rfl
  intro _ s₁ h₁
  refine (store_ends h₁).bind ?_
  intro _ s₂ h₂
  refine (store_ends h₂).bind ?_
  intro _ s₃ h₃
  exact ends_pure h₃

theorem takeBlock_ends {o size page p : Nat} (h : PagesFrom o n s) :
    Ends False (takeBlock (o : Int) size page p) s fun _ => PagesFrom o n := by
  refine (load_ends h).bind ?_
  intro flags s₁ h₁
  split
  · refine (load_ends h₁).bind ?_
    intro next s₂ h₂
    refine (store_ends h₂).bind ?_
    intro _ s₃ h₃
    refine (load_ends h₃).bind ?_
    intro nfree s₄ h₄
    refine (store_ends h₄).bind ?_
    intro _ s₅ h₅
    refine (load_ends h₅).bind ?_
    intro nfree' s₆ h₆
    split
    · refine (load_ends h₆).bind ?_
      intro next' s₇ h₇
      refine (modifySize_ends_same h₇ ?_).bind ?_
      · intro d
        rfl
      intro _ s₈ h₈
      refine (store_ends h₈).bind ?_
      intro _ s₉ h₉
      exact useBlock_ends h₉
    · exact useBlock_ends h₆
  · refine (kprintf_ends h₁).bind ?_
    intro _ s₂ h₂
    exact ends_pure h₂

theorem getPage_ends (h : PagesFrom o n s) : Ends False (getPage P) s fun _ => PagesFrom o n := by
  refine ends_get_bind ?_
  split
  · have hphys : Ends False (onPhys (pgalloc P)) s fun _ => PagesFrom o n := by
      refine ends_zoom (Q := fun _ _ => True) ?_ fun _ _ _ => h
      rw [Ends]
      split
      · trivial
      · exact False.elim
    refine hphys.bind ?_
    intro paddr s₁ h₁
    exact ends_pure h₁
  · exact ends_pure h

/-- `simple_alloc` has no block of the class at hand, and has to ask for a page. -/
def NoBlock (s : Simple σ) (d : SizeDescriptor) : Prop :=
  d.firstfree = 0 ∨ s.phys.mem.load32 (d.firstfree + 4) = 0

theorem simpleAllocLoop_of_block (hd : s.sizes[o]? = some d) (h : ¬ NoBlock s d) :
    (simpleAllocLoop P (o : Int) size (tries + 1)).run s =
      (takeBlock (o : Int) size d.firstfree (s.phys.mem.load32 (d.firstfree + 4))).run s := by
  obtain ⟨hpage, hp⟩ := not_or.mp h
  rw [simpleAllocLoop, run_bind_ok (run_sizeAt hd), if_pos hpage, run_bind_ok (run_load _ s)]
  beta_reduce
  rw [if_pos ⟨hpage, hp⟩]

theorem simpleAllocLoop_of_noBlock (hd : s.sizes[o]? = some d) (h : NoBlock s d) :
    (simpleAllocLoop P (o : Int) size (tries + 1)).run s = (do
      let page ← getPage P
      if page = 0 then
        kprintf "Couldn't get a free page.....\n" []
        return 0
      else
        addPage (o : Int) page
        simpleAllocLoop P (o : Int) size tries).run s := by
  rw [simpleAllocLoop, run_bind_ok (run_sizeAt hd)]
  by_cases hpage : d.firstfree = 0
  · rw [if_neg (not_not.mpr hpage), run_bind_ok (EStateM.run_pure 0 s)]
    beta_reduce
    rw [if_neg fun hboth => hboth.1 hpage]
  · have hp := h.resolve_left hpage
    rw [if_pos hpage, run_bind_ok (run_load _ s)]
    beta_reduce
    rw [if_neg fun hboth => hboth.2 hp]

theorem simpleAllocLoop_ends (tries : Nat) (h : PagesFrom o n s) :
    Ends False (simpleAllocLoop P (o : Int) size tries) s fun _ => PagesFrom o n := by
  induction tries generalizing s n with
  | zero => exact ends_throw not_false
  | succ tries ih =>
      obtain ⟨d, hd, hn⟩ := h
      by_cases hempty : NoBlock s d
      · rw [Ends, simpleAllocLoop_of_noBlock hd hempty, ← Ends]
        refine (getPage_ends ⟨d, hd, hn⟩).bind ?_
        intro page s₁ h₁
        split
        · refine (kprintf_ends h₁).bind ?_
          intro _ s₂ h₂
          exact ends_pure h₂
        · refine (addPage_ends h₁).bind ?_
          intro _ s₂ h₂
          refine (ih h₂).imp ?_
          intro _ s₃ h₃
          obtain ⟨d', hd', hn'⟩ := h₃
          exact ⟨d', hd', by omega⟩
      · rw [Ends, simpleAllocLoop_of_block hd hempty, ← Ends]
        exact takeBlock_ends ⟨d, hd, hn⟩

/-- At whichever of its tries `simple_alloc` is refused a page, it counts one
page more, and the count stays. -/
theorem simpleAllocLoop_unreported (hon : s.isPageAllocOn = true) (hd : s.sizes[o]? = some d)
    (hempty : NoBlock s d) (h : OutOfPages P s.phys.pmm) :
    ¬ Reports (simpleAllocLoop P (o : Int) size (tries + 1)) s 0
      fun s s' => s'.sizes = s.sizes := by
  obtain ⟨pmm', hrun⟩ := pgalloc_outOfPages h
  have hphys : (onPhys (pgalloc P)).run s =
      .ok (2 ^ 64 - 1) { s with phys := { s.phys with pmm := pmm' } } := run_zoom_ok hrun
  have hpage : (getPage P).run s =
      .ok (2 ^ 32 - 1) { s with phys := { s.phys with pmm := pmm' } } := by
    show (if s.isPageAllocOn then _ else _ : EStateM Stop (Simple σ) Nat).run s = _
    rw [if_pos hon, run_bind_ok hphys]
    rfl
  have hpages : PagesFrom o d.npages { s with phys := { s.phys with pmm := pmm' } } :=
    ⟨d, hd, le_refl _⟩
  have hends : Ends False (simpleAllocLoop P (o : Int) size (tries + 1)) s
      fun _ => PagesFrom o (d.npages + 1) := by
    rw [Ends, simpleAllocLoop_of_noBlock hd hempty, run_bind_ok hpage,
      if_neg (by decide), ← Ends]
    refine (addPage_ends hpages).bind ?_
    intro _ s₁ h₁
    exact simpleAllocLoop_ends tries h₁
  intro hrep
  obtain ⟨s', hs', hsame⟩ := hrep
  obtain ⟨d', hd', hn⟩ := hends.of_run hs'
  rw [hsame, hd] at hd'
  injection hd' with hd'
  rw [← hd'] at hn
  omega

/-- `simple_alloc` of `size` bytes comes to ask for a page. -/
structure NeedsPage (s : Simple σ) (size : Nat) : Prop where
  on : s.isPageAllocOn = true
  small : size ≤ maxKmallocK * 1024
  noBlock : ∃ (o : Nat) (d : SizeDescriptor), (getOrder size).run s = .ok (o : Int) s ∧
    s.sizes[o]? = some d ∧ NoBlock s d

theorem simpleAlloc_unreported (hneeds : NeedsPage s size) (h : OutOfPages P s.phys.pmm) :
    ¬ Reports (simpleAlloc P size) s 0 fun s s' => s'.sizes = s.sizes := by
  obtain ⟨o, d, horder, hd, hempty⟩ := hneeds.noBlock
  have hsmall : ¬ size > maxKmallocK * 1024 := not_lt.mpr hneeds.small
  have horder0 : ¬ (o : Int) < 0 := by omega
  intro hrep
  obtain ⟨s', hs', hsame⟩ := hrep
  unfold simpleAlloc at hs'
  rw [if_neg hsmall, run_bind_ok horder, if_neg horder0,
    show maxGetFreePageTries = 3 + 1 from rfl] at hs'
  exact simpleAllocLoop_unreported hneeds.on hd hempty h ⟨s', hs', hsame⟩

/-- Nobody who is refused a page says so, whatever the state: neither
`simple_alloc`, at whichever try, nor `walkpgdir`, nor `init_pgindex`. -/
theorem outOfPages_unreported (P : PageAllocator σ) :
    (∀ (s : Simple σ) (size : Nat), OutOfPages P s.phys.pmm → NeedsPage s size →
      ¬ Reports (simpleAlloc P size) s 0
        fun s s' => s'.phys.mem = s.phys.mem ∧ s'.sizes = s.sizes) ∧
    (∀ (s : Simple σ) (size o tries : Nat) (d : SizeDescriptor), OutOfPages P s.phys.pmm →
      s.isPageAllocOn = true → s.sizes[o]? = some d → NoBlock s d →
      ¬ Reports (simpleAllocLoop P (o : Int) size (tries + 1)) s 0
        fun s s' => s'.phys.mem = s.phys.mem ∧ s'.sizes = s.sizes) ∧
    (∀ (s : Phys σ) (pgdir va : Nat), OutOfPages P s.pmm →
      kload32 s.mem ((pgdir + 4 * pdx va) % 2 ^ 32) &&& pteP = 0 →
      ¬ Reports (walkpgdir (pager P) pgdir va true) s 0 fun s s' => s'.mem = s.mem) ∧
    (∀ s : Phys σ, OutOfPages P s.pmm →
      ¬ Reports (initPgindex (pager P)) s 0 fun s s' => s'.mem = s.mem) := by
  refine ⟨?_, ?_, ?_, ?_⟩
  · intro s size h hneeds hrep
    obtain ⟨s', hs', -, hsizes⟩ := hrep
    exact simpleAlloc_unreported hneeds h ⟨s', hs', hsizes⟩
  · intro s size o tries d h hon hd hempty hrep
    obtain ⟨s', hs', -, hsizes⟩ := hrep
    exact simpleAllocLoop_unreported hon hd hempty h ⟨s', hs', hsizes⟩
  · intro s pgdir va h hentry
    exact walkpgdir_unreported h hentry
  · intro s h
    exact initPgindex_unreported h

/-- Before an allocator is registered, on cleared memory and an empty table. -/
def dummyStart : Simple Unit :=
  ⟨⟨fun _ => 0, ()⟩, initialSizes, true, 0, []⟩

theorem dummyStart_outOfPages : OutOfPages dummyAllocator () :=
  ⟨⟨0, pgSize, 0⟩, (), rfl, rfl⟩

theorem dummyStart_needsPage : NeedsPage dummyStart 100 :=
  ⟨rfl, by decide, 2, ⟨0, 128, 31, 0, 0, 0, 0⟩, rfl, rfl, .inl rfl⟩

/-- The dummy allocator has no page. Yet `simple_alloc` answers a block at
`0x17`, `walkpgdir` an entry at `0xffffffff`, and `init_pgindex` a directory at
`0x7fffffff`. -/
theorem outOfPages_answers : OutOfPages dummyAllocator () ∧
    returned (simpleAlloc dummyAllocator 100) dummyStart (fun a _ => a) = some 0x17 ∧
    returned (walkpgdir (pager dummyAllocator) kernBase 0 true) dummyStart.phys
      (fun a _ => a) = some 0xffffffff ∧
    returned (initPgindex (pager dummyAllocator)) dummyStart.phys (fun a _ => a) =
      some 0x7fffffff := by
  refine ⟨dummyStart_outOfPages, ?_, ?_, ?_⟩ <;> decide +kernel

theorem outOfPages_unreported_dummy :
    ¬ Reports (simpleAlloc dummyAllocator 100) dummyStart 0
        (fun s s' => s'.phys.mem = s.phys.mem ∧ s'.sizes = s.sizes) ∧
    ¬ Reports (simpleAllocLoop dummyAllocator 2 100 1) dummyStart 0
        (fun s s' => s'.phys.mem = s.phys.mem ∧ s'.sizes = s.sizes) ∧
    ¬ Reports (walkpgdir (pager dummyAllocator) kernBase 0 true) dummyStart.phys 0
        (fun s s' => s'.mem = s.mem) ∧
    ¬ Reports (initPgindex (pager dummyAllocator)) dummyStart.phys 0
        (fun s s' => s'.mem = s.mem) := by
  obtain ⟨halloc, htry, hwalk, hinit⟩ := outOfPages_unreported dummyAllocator
  refine ⟨?_, ?_, ?_, ?_⟩
  · exact halloc dummyStart 100 dummyStart_outOfPages dummyStart_needsPage
  · exact htry dummyStart 100 2 0 ⟨0, 128, 31, 0, 0, 0, 0⟩ dummyStart_outOfPages rfl rfl
      (.inl rfl)
  · exact hwalk dummyStart.phys kernBase 0 dummyStart_outOfPages (by decide +kernel)
  · exact hinit dummyStart.phys dummyStart_outOfPages

end Aim.Kern
