import Aim.Kern.Vmm
import Aim.Proofs.PageFill
import Aim.Proofs.SimpleStep

/-!
# The object allocator over whole runs

`simpleCalls P` is the object allocator on top of a page allocator `P`, with
its clients: it starts with `simple_allocator_init` and empty lists, blocks of
up to 4096 bytes are asked for, live ones are given back, and memory is written
to wherever it is not the allocator's: in the payload of a live block, or in a
page that is not held. Two lists are kept beside the state and read by no code.
`held` has the pages that were handed out by `P` and not given back; it is kept
by `tracked`, which wraps `P` and looks at nothing but its requests and
answers. `live` has the blocks that are out.

`P` is asked to do what is documented of a page allocator: `Grants` when a page
is asked for, `TakesBack` when one is given back.

`SimpleInv` is the invariant. It says that there are free lists and lists of
pages such that `HeldPages` and `ClassLists` hold; the calls of the source are
taken apart into the rules of those two.
-/

namespace Aim.Kern

open Aim.Lib Mem

variable {σ : Type} {P : PageAllocator σ}

/-! ## Keeping track of pages -/

/-- The state of a page allocator, with the pages that are out. -/
structure Tracked (σ : Type) where
  inner : σ
  held : List Nat

namespace Tracked

def call {α : Type} (x : EStateM Stop σ α) : EStateM Stop (Tracked σ) α :=
  zoom inner (fun a t => { t with inner := a }) x

theorem run_call {α : Type} {t : Tracked σ} {x : EStateM Stop σ α} {a : α} {inner : σ}
    (h : x.run t.inner = .ok a inner) :
    (call x).run t = .ok a { t with inner := inner } := run_zoom_ok h

end Tracked

theorem run_onPhys {α : Type} {s : Simple σ} {x : EStateM Stop (Phys σ) α} {a : α}
    {phys : Phys σ} (h : x.run s.phys = .ok a phys) :
    (onPhys x).run s = .ok a { s with phys := phys } := run_zoom_ok h

/-- The page allocator `P`, with a record of the pages it handed out. -/
def tracked (P : PageAllocator σ) : PageAllocator (Tracked σ) where
  alloc pages := do
    let (result, p) ← Tracked.call (P.alloc pages)
    if result = 0 then
      modify fun t => { t with held := p.paddr % 2 ^ 32 :: t.held }
    return (result, p)
  free pages := do
    let p ← Tracked.call (P.free pages)
    modify fun t => { t with held := t.held.filter (· ≠ pages.paddr % 2 ^ 32) }
    return p
  getFree := Tracked.call P.getFree

/-- A request for a page is met: the page is a page below `KERN_BASE`, where its
address taken as a pointer is the page, it is not null, and it is not out
already. -/
def Grants (P : PageAllocator σ) (t : Tracked σ) : Prop :=
  match (P.alloc ⟨0, pgSize, 0⟩).run t.inner with
  | .ok (result, p) _ => result = 0 ∧ p.flags = 0 ∧ p.paddr % 4096 = 0 ∧
      p.paddr % 2 ^ 32 ≠ 0 ∧ p.paddr % 2 ^ 32 < kernBase ∧ p.paddr % 2 ^ 32 ∉ t.held
  | .error _ _ => False

/-- A page that is given back is taken. -/
def TakesBack (P : PageAllocator σ) (t : Tracked σ) (paddr : Nat) : Prop :=
  match (P.free ⟨paddr, pgSize, 0⟩).run t.inner with
  | .ok _ _ => True
  | .error _ _ => False

instance (P : PageAllocator σ) (t : Tracked σ) : Decidable (Grants P t) := by
  unfold Grants
  split <;> infer_instance

instance (P : PageAllocator σ) (t : Tracked σ) (paddr : Nat) :
    Decidable (TakesBack P t paddr) := by
  unfold TakesBack
  split <;> infer_instance

/-- `page` was handed out between `t` and `t'`. -/
def Drawn (P : PageAllocator σ) (t t' : Tracked σ) (page : Nat) : Prop :=
  ∃ p inner, (P.alloc ⟨0, pgSize, 0⟩).run t.inner = .ok (0, p) inner ∧
    page = p.paddr % 2 ^ 32 ∧ t' = ⟨inner, page :: t.held⟩

/-- The page at `paddr` was given back between `t` and `t'`. -/
def GaveBack (P : PageAllocator σ) (t t' : Tracked σ) (paddr : Nat) : Prop :=
  ∃ p inner, (P.free ⟨paddr, pgSize, 0⟩).run t.inner = .ok p inner ∧
    t' = ⟨inner, t.held.filter (· ≠ paddr % 2 ^ 32)⟩

theorem pgalloc_spec {s : Phys (Tracked σ)} (h : Grants P s.pmm) :
    ∃ a t', (pgalloc (tracked P)).run s = .ok a { s with pmm := t' } ∧
      Drawn P s.pmm t' (a % 2 ^ 32) ∧
      a % 4096 = 0 ∧ a % 2 ^ 32 ≠ 0 ∧ a % 2 ^ 32 < kernBase ∧ a % 2 ^ 32 ∉ s.pmm.held := by
  unfold Grants at h
  cases hrun : (P.alloc ⟨0, pgSize, 0⟩).run s.pmm.inner with
  | error e inner => rw [hrun] at h; exact absurd h id
  | ok x inner =>
      obtain ⟨result, p⟩ := x
      rw [hrun] at h
      obtain ⟨h0, hflags, hpage⟩ := h
      have hcall : ((tracked P).alloc ⟨0, pgSize, 0⟩).run s.pmm =
          .ok (0, p) ⟨inner, p.paddr % 2 ^ 32 :: s.pmm.held⟩ := by
        rw [tracked]
        simp only
        rw [run_bind_ok (Tracked.run_call hrun), if_pos h0, h0]
        rfl
      have hpages : (allocPages (tracked P) ⟨0, pgSize, 0⟩).run s =
          .ok (0, p) { s with pmm := ⟨inner, p.paddr % 2 ^ 32 :: s.pmm.held⟩ } := by
        rw [allocPages, run_bind_ok (run_onPmm hcall)]
        simp only [hflags]
        rfl
      refine ⟨p.paddr, _, ?_, ⟨p, inner, by rw [hrun, h0], rfl, rfl⟩, hpage⟩
      rw [pgalloc, run_bind_ok hpages]
      rfl

theorem pgfree_spec {s : Phys (Tracked σ)} {paddr : Nat} (h : TakesBack P s.pmm paddr) :
    ∃ t', (pgfree (tracked P) paddr).run s =
        .ok () ⟨kfill s.mem (pa2kva paddr) junkByte pgSize, t'⟩ ∧
      GaveBack P s.pmm t' paddr := by
  unfold TakesBack at h
  cases hrun : (P.free ⟨paddr, pgSize, 0⟩).run s.pmm.inner with
  | error e inner => rw [hrun] at h; exact absurd h id
  | ok p inner =>
      have hcall : ((tracked P).free ⟨paddr, pgSize, 0⟩).run s.pmm =
          .ok p ⟨inner, s.pmm.held.filter (· ≠ paddr % 2 ^ 32)⟩ := by
        rw [tracked]
        simp only
        rw [run_bind_ok (Tracked.run_call hrun)]
        rfl
      have hpages : (freePages (tracked P) ⟨paddr, pgSize, 0⟩).run s = .ok p
          ⟨kfill s.mem (pa2kva paddr) junkByte pgSize,
            ⟨inner, s.pmm.held.filter (· ≠ paddr % 2 ^ 32)⟩⟩ := by
        rw [freePages, if_pos (show 0 &&& gfpUnsafe = 0 by decide), run_bind_ok (pmemset_page _ _ _)]
        exact run_onPmm hcall
      refine ⟨_, ?_, p, inner, hrun, rfl⟩
      rw [pgfree, run_bind_ok hpages]
      rfl

/-! ## The invariant -/

structure SimpleInv (s : Simple (Tracked σ)) (live : List (Nat × Nat)) : Prop where
  on : s.isPageAllocOn = true
  shape : Shape s.sizes
  heap : ∃ ord free lists,
    Heap s.phys.mem (firstOf s.sizes) s.phys.pmm.held live ord free lists

/-- The invariant, with the classes of the held pages. -/
structure SimpleAt (s : Simple (Tracked σ)) (live : List (Nat × Nat)) (ord : Nat → Nat) :
    Prop where
  on : s.isPageAllocOn = true
  shape : Shape s.sizes
  heap : ∃ free lists,
    Heap s.phys.mem (firstOf s.sizes) s.phys.pmm.held live ord free lists

section Calls

variable {s : Simple (Tracked σ)} {live : List (Nat × Nat)} {ord first : Nat → Nat}
  {free lists : Nat → List Nat} {held : List Nat} {m : Mem} {e : Nat × Nat} {o size page ptr : Nat}

theorem SimpleAt.inv (h : SimpleAt s live ord) : SimpleInv s live := ⟨h.on, h.shape, ord, h.heap⟩

theorem SimpleInv.classes (h : SimpleInv s live) : ∃ ord, SimpleAt s live ord := by
  obtain ⟨ord, hheap⟩ := h.heap
  exact ⟨ord, h.on, h.shape, hheap⟩

/-- The page of a block is found by `PAGE_DESC`. -/
theorem HeldPages.pageDesc_eq {page b : Nat} (h : HeldPages m held live ord free) (hp : page ∈ held)
    (hb : IsBlock page (classSize (ord page)) (classBlocks (ord page)) b) :
    pageDesc b = page := by
  have hbd := h.block_bounds hp hb
  have hpage := h.page page hp
  unfold pageDesc
  omega

/-! ## `simple_alloc` -/

/-- The first page of a class has a free block. -/
theorem simpleAllocLoop_first {s : Simple σ} {o page b : Nat} {fs : List Nat} (size : Nat)
    (hshape : Shape s.sizes) (ho : o < 8) (hfirst : firstOf s.sizes o = page)
    (hpage : 0 < page ∧ page + 4096 ≤ 2 ^ 32)
    (hat : PageAt s.phys.mem page (classSize o) (classBlocks o) o (b :: fs)) (tries : Nat) :
    ∃ s', (simpleAllocLoop P (o : Int) size (tries + 1)).run s = .ok (b + 8) s' ∧
      Taken s s' o page b fs.length ∧ load32 s'.phys.mem (b + 4) = size % 2 ^ 32 := by
  obtain ⟨d, hd, _, _⟩ := hshape.get (show o < 9 by omega)
  rw [firstOf_eq hd] at hfirst
  have hL := class_layout ho
  have hsz := hL.header
  have hbd := (hat.block b List.mem_cons_self).bounds hL
  have hp : load32 s.phys.mem (page + 4) = b := hat.chain.1
  have hnfree := hat.nfree
  rw [List.length_cons] at hnfree
  obtain ⟨s', hrun, hT, hlength⟩ := takeBlock_spec size hshape (show o < 9 by omega)
    (show page + 16 ≤ b by omega) (by omega) (hat.unused b List.mem_cons_self) hnfree
  refine ⟨s', ?_, hT, hlength⟩
  rw [simpleAllocLoop, run_bind_ok (run_sizeAt hd), hfirst, if_pos (by omega),
    run_bind_ok (run_load _ _), hp]
  have hne0 : page ≠ 0 ∧ b ≠ 0 := by omega
  beta_reduce
  rw [if_pos hne0]
  exact hrun

/-- A class has no page, and `getPage` answers one. -/
theorem simpleAllocLoop_add {s s₀ : Simple σ} (size : Nat) (hshape : Shape s.sizes) (ho : o < 8)
    (hfirst : firstOf s.sizes o = 0) (hget : (getPage P).run s = .ok page s₀)
    (hsizes : s₀.sizes = s.sizes) (hpage : 0 < page ∧ page + 4096 ≤ 2 ^ 32) (tries : Nat) :
    ∃ s₁, (simpleAllocLoop P (o : Int) size (tries + 1)).run s =
        (simpleAllocLoop P (o : Int) size tries).run s₁ ∧ Added s₀ s₁ o page := by
  obtain ⟨d, hd, _, _⟩ := hshape.get (show o < 9 by omega)
  have hnull : d.firstfree = 0 := by rw [← firstOf_eq hd]; exact hfirst
  obtain ⟨s₁, hadd, hA⟩ := addPage_spec (s := s₀) (o := o) (by rw [hsizes]; exact hshape) ho
    hpage (by rw [hsizes, hfirst]; decide)
  refine ⟨s₁, ?_, hA⟩
  rw [simpleAllocLoop, run_bind_ok (run_sizeAt hd), hnull, if_neg (fun h => h rfl),
    run_bind_ok (by rfl)]
  beta_reduce
  rw [if_neg (fun h : 0 ≠ 0 ∧ 0 ≠ 0 => h.1 rfl), run_bind_ok hget,
    if_neg (show ¬ page = 0 by omega), run_bind_ok hadd]

/-- A class with a page on its list serves a request from there. -/
theorem simpleAllocLoop_take (hon : s.isPageAllocOn = true) (hshape : Shape s.sizes)
    (hheap : Heap s.phys.mem (firstOf s.sizes) s.phys.pmm.held live ord free lists) (ho : o < 8)
    (hsize : size + 8 ≤ classSize o) {l : List Nat} (hl : lists o = page :: l) (tries : Nat) :
    ∃ p s', (simpleAllocLoop (tracked P) (o : Int) size (tries + 1)).run s = .ok p s' ∧
      p ≠ 0 ∧ pageDesc (p - 8) = page ∧ s'.phys.pmm = s.phys.pmm ∧
      SimpleAt s' ((p, size) :: live) ord ∧
      LengthSet s.phys.mem s'.phys.mem live p size := by
  have hmem : page ∈ lists o := by rw [hl]; exact List.mem_cons_self
  obtain ⟨hheld, hord, hne⟩ := (hheap.lists.mem_iff o ho page).mp hmem
  have hpage := hheap.pages.page page hheld
  have hat := hheap.pages.at_page page hheld
  have hfirst : firstOf s.sizes o = page := by
    have hchain := hheap.lists.chain o ho
    rw [hl] at hchain
    exact hchain.1
  obtain ⟨b, fs, hf⟩ := List.exists_cons_of_ne_nil hne
  rw [hf] at hat
  have hb := hat.block b List.mem_cons_self
  rw [hord] at hat
  obtain ⟨s', hrun, hT, hlength⟩ := simpleAllocLoop_first (P := tracked P) size hshape ho hfirst
    (by omega) hat tries
  obtain ⟨lists', hheap'⟩ := hheap.take ho hl hf hT.same hT.first hT.nfree hT.used hT.link hsize
  refine ⟨b + 8, s', hrun, by omega, hheap.pages.pageDesc_eq hheld hb, hT.rest.pmm,
    ⟨hT.rest.on.trans hon, hT.shape, Function.update free page fs, lists', ?_⟩, ?_⟩
  · rw [hT.rest.pmm, hT.head]
    exact hheap'
  · have hle := classSize_le ho
    refine ⟨hlength.trans (Nat.mod_eq_of_lt (by omega)), ?_⟩
    have hsame := hheap.pages.sameLengths_of_written hheld hb hT.same
    rwa [hheap'.pages.filter_live] at hsame

/-- A class without a page on its list is given one. -/
theorem simpleAllocLoop_grow (hon : s.isPageAllocOn = true) (hshape : Shape s.sizes)
    (hheap : Heap s.phys.mem (firstOf s.sizes) s.phys.pmm.held live ord free lists)
    (ho : o < 8) (hl : lists o = []) (hgrant : Grants P s.phys.pmm) (tries : Nat) :
    ∃ s₁ page, (simpleAllocLoop (tracked P) (o : Int) size (tries + 1)).run s =
        (simpleAllocLoop (tracked P) (o : Int) size tries).run s₁ ∧
      s₁.isPageAllocOn = true ∧ Shape s₁.sizes ∧ Drawn P s.phys.pmm s₁.phys.pmm page ∧
      SameLengths s.phys.mem s₁.phys.mem live ∧ ∃ free lists', lists' o = page :: [] ∧
        Heap s₁.phys.mem (firstOf s₁.sizes) s₁.phys.pmm.held live (Function.update ord page o)
          free lists' := by
  have hfirst : firstOf s.sizes o = 0 := by
    have hchain := hheap.lists.chain o ho
    rw [hl] at hchain
    exact hchain
  obtain ⟨a, t, hpg, hdrawn, hal, hne, hlow, hnew⟩ := pgalloc_spec hgrant
  have hget : (getPage (tracked P)).run s = .ok (a % 2 ^ 32)
      { s with phys := { s.phys with pmm := t } } := by
    rw [getPage, run_bind_ok (EStateM.run_get s), if_pos hon, run_bind_ok (run_onPhys hpg)]
    rfl
  have hheld : t.held = a % 2 ^ 32 :: s.phys.pmm.held := by
    obtain ⟨_, _, _, _, rfl⟩ := hdrawn
    rfl
  have hpage : 0 < a % 2 ^ 32 ∧ a % 2 ^ 32 % 4096 = 0 ∧ a % 2 ^ 32 < 2 ^ 31 := by
    rw [kernBase] at hlow
    omega
  obtain ⟨s₁, hrun, hA⟩ := simpleAllocLoop_add size hshape ho hfirst hget rfl (by omega) tries
  refine ⟨s₁, a % 2 ^ 32, hrun, hA.rest.on.trans hon, hA.shape, ?_, ?_, _, _, ?_,
    by rw [hA.rest.pmm, hheld, hA.head]
       exact hheap.add ho hnew hpage hA.fresh hA.link hA.other⟩
  · rw [hA.rest.pmm]
    exact hdrawn
  · refine hheap.pages.sameLengths ?_
    intro q hq w hw
    have hbd := hw.bounds (hheap.pages.layout hq)
    have hqpage := hheap.pages.page q hq
    have hne : q ≠ a % 2 ^ 32 := fun heq => hnew (heq ▸ hq)
    exact hA.other w (by omega) (by omega)
  · rw [Function.update_self, hl]

/-- Printing changes nothing the invariant speaks of. -/
theorem SimpleAt.print (h : SimpleAt s live ord) (console : List (String × List Int)) :
    SimpleAt { s with console := console } live ord := by
  obtain ⟨hon, hshape, free, lists, hheap⟩ := h
  exact ⟨hon, hshape, free, lists, hheap⟩

/-- The request for `size` bytes was met with the block `p`, from a page that
was there or from a new one. -/
structure Served (P : PageAllocator σ) (s s' : Simple (Tracked σ)) (live : List (Nat × Nat))
    (ord : Nat → Nat) (size p : Nat) : Prop where
  ne_null : p ≠ 0
  heap : ∃ ord', SimpleAt s' ((p, size) :: live) ord' ∧
    ∀ q, ord' q = ord q ∨ ord' q = orderOf size
  pmm : s'.phys.pmm = s.phys.pmm ∨ Drawn P s.phys.pmm s'.phys.pmm (pageDesc (p - 8))

/-- `simple_alloc` answers null or a new live block. -/
theorem simpleAlloc_spec (h : SimpleAt s live ord) (hsize : size ≤ 4096)
    (hgrant : Grants P s.phys.pmm) :
    ∃ p s', (simpleAlloc (tracked P) size).run s = .ok p s' ∧
      (p = 0 ∧ 4080 < size + 8 ∧ SimpleAt s' live ord ∨
        Served P s s' live ord size p ∧ LengthSet s.phys.mem s'.phys.mem live p size) := by
  have hsmall : ¬ size > maxKmallocK * 1024 := by
    unfold maxKmallocK
    omega
  unfold simpleAlloc
  rw [if_neg hsmall]
  rcases getOrder_spec h.shape size with ⟨horder, hlarge⟩ | ⟨ho, hfits, horder⟩
  · rw [run_bind_ok horder, if_pos (by decide)]
    exact ⟨0, _, rfl, Or.inl ⟨rfl, hlarge, h.print _⟩⟩
  · rw [run_bind_ok horder, if_neg (by omega), show maxGetFreePageTries = 3 + 1 from rfl]
    obtain ⟨free, lists, hheap⟩ := h.heap
    cases hl : lists (orderOf size) with
    | cons page l =>
        obtain ⟨p, s', hrun, hne, _, hpmm, hat, hlength⟩ :=
          simpleAllocLoop_take h.on h.shape hheap ho hfits hl 3
        exact ⟨p, s', hrun,
          Or.inr ⟨⟨hne, ⟨ord, hat, fun q => Or.inl rfl⟩, Or.inl hpmm⟩, hlength⟩⟩
    | nil =>
        obtain ⟨s₁, page, hgrow, hon₁, hshape₁, hdrawn, hsame, free₁, lists₁, hl₁, hheap₁⟩ :=
          simpleAllocLoop_grow h.on h.shape hheap ho hl hgrant 3
        obtain ⟨p, s', hrun, hne, hpage, hpmm, hat, hlength⟩ :=
          simpleAllocLoop_take hon₁ hshape₁ hheap₁ ho hfits hl₁ 2
        refine ⟨p, s', hgrow.trans hrun,
          Or.inr ⟨⟨hne, ⟨_, hat, ?_⟩, Or.inr ?_⟩, hlength.after hsame⟩⟩
        · intro q
          by_cases hq : q = page
          · rw [hq, Function.update_self]
            exact Or.inr rfl
          · rw [Function.update_of_ne hq]
            exact Or.inl rfl
        · rw [hpage, hpmm]
          exact hdrawn

/-! ## `kmalloc` -/

theorem Heap.load_fill {q w : Nat} (h : Heap m first held live ord free lists) (hq : q ∈ held)
    (hw : w = q ∨ IsMeta q (classSize (ord q)) (classBlocks (ord q)) w) (he : e ∈ live)
    (v : UInt8) : load32 (m.fill e.1 v e.2) w = load32 m w := by
  obtain ⟨page, hp, b, hb, heq⟩ := (h.pages.live_iff e.1).mp (List.mem_map_of_mem he)
  have hbd := h.pages.block_bounds hp hb.1
  have hpage := h.pages.page page hp
  have hsize := h.pages.live_size e he page hp (by omega) (by omega)
  have hwbd := h.word_bounds hq hw
  have hqpage := h.pages.page q hq
  have hoff := h.word_off_payload hq hw he
  exact load32_fill_ne (by omega) (by omega) (by omega)

/-- The payload of a live block is filled. -/
theorem SimpleAt.fill (h : SimpleAt s live ord) (he : e ∈ live) (v : UInt8) :
    SimpleAt { s with phys := { s.phys with mem := s.phys.mem.fill e.1 v e.2 } } live ord := by
  obtain ⟨hon, hshape, free, lists, hheap⟩ := h
  exact ⟨hon, hshape, free, lists, hheap.congr fun q hq w hw => hheap.load_fill hq hw he v⟩

theorem SimpleAt.fill_lengths (h : SimpleAt s live ord) (he : e ∈ live) (v : UInt8) :
    SameLengths s.phys.mem (s.phys.mem.fill e.1 v e.2) live := by
  obtain ⟨_, _, free, lists, hheap⟩ := h
  exact hheap.pages.sameLengths fun q hq w hw => hheap.load_fill hq (Or.inr hw) he v

theorem kmalloc_spec (flags : Nat) (h : SimpleAt s live ord) (hsize : size ≤ 2048)
    (hgrant : Grants P s.phys.pmm) :
    ∃ p s', (Vmm.kmalloc (simpleAllocator (tracked P)) size flags).run s = .ok p s' ∧
      Served P s s' live ord size p ∧ LengthSet s.phys.mem s'.phys.mem live p size := by
  obtain ⟨p, s', hrun, ⟨_, hlarge, _⟩ | ⟨hserved, hlength⟩⟩ :=
    simpleAlloc_spec h (show size ≤ 4096 by omega) hgrant
  · omega
  have halloc : ((simpleAllocator (tracked P)).alloc size flags).run s = .ok p s' := hrun
  rw [Vmm.kmalloc, if_neg (by unfold pgSize; omega), run_bind_ok halloc]
  by_cases hzero : flags &&& gfpZero ≠ 0
  · rw [if_pos hzero]
    obtain ⟨ord', hat, hord⟩ := hserved.heap
    have hkept := hat.fill_lengths List.mem_cons_self 0
    exact ⟨p, _, rfl,
      ⟨hserved.ne_null, ⟨ord', hat.fill List.mem_cons_self 0, hord⟩, hserved.pmm⟩,
      (hkept _ List.mem_cons_self).trans hlength.new,
      fun e he => (hkept e (List.mem_cons_of_mem _ he)).trans (hlength.old e he)⟩
  · rw [if_neg hzero]
    exact ⟨p, s', rfl, hserved, hlength⟩

/-! ## `simple_free` -/

theorem kfree_eq (P : PageAllocator σ) (h : ptr ≠ 0) :
    Vmm.kfree (simpleAllocator P) ptr = simpleFree P ptr := if_pos h

/-- The address a page is given back by. -/
def givenBack (page : Nat) : Nat := (toInt32 page % 2 ^ 64).toNat

/-- The live blocks of a page are those it has in use. -/
theorem HeldPages.live_of_page (h : HeldPages m held live ord free) (he : e ∈ live)
    (hpe : pageDesc (e.1 - 8) = page) :
    ∃ b, InUse ord free page b ∧ e.1 = b + 8 := by
  obtain ⟨q, hq, b, hb, heb⟩ := (h.live_iff e.1).mp (List.mem_map_of_mem he)
  rw [heb, Nat.add_sub_cancel, h.pageDesc_eq hq hb.1] at hpe
  subst hpe
  exact ⟨b, hb, heb⟩

theorem HeldPages.live_of_inUse {b : Nat} (h : HeldPages m held live ord free) (hp : page ∈ held)
    (hb : InUse ord free page b) :
    ∃ e ∈ live, e.1 = b + 8 ∧ pageDesc (e.1 - 8) = page := by
  obtain ⟨e, he, heb⟩ := List.mem_map.mp ((h.live_iff (b + 8)).mpr ⟨page, hp, b, hb, rfl⟩)
  refine ⟨e, he, heb, ?_⟩
  rw [heb, Nat.add_sub_cancel]
  exact h.pageDesc_eq hp hb.1

/-- The link of a page is null or another page. -/
theorem Heap.link_aligned (h : Heap m first held live ord free lists) (hp : page ∈ held) :
    load32 m page % 4096 = 0 := by
  by_cases hf : free page = []
  · rw [h.lists.full page ⟨hp, hf⟩]
  · have ho := h.pages.ord_lt page hp
    have hmem := (h.lists.mem_iff _ ho page).mpr ⟨hp, rfl, hf⟩
    obtain ⟨l₁, l₂, hl⟩ := List.append_of_mem hmem
    have hchain := h.lists.chain _ ho
    rw [hl] at hchain
    have hnext := hchain.next_eq
    cases l₂ with
    | nil => rw [show load32 m page = 0 from hnext]
    | cons q l₂ =>
        have hq : q ∈ lists (ord page) := by rw [hl]; simp
        have hheld := ((h.lists.mem_iff _ ho q).mp hq).1
        rw [hnext.1]
        exact (h.pages.page q hheld).2.1

/-- The page is taken off its list before it is given back, whatever the page
allocator is. In the state `s₁` the other pages are in order without it. -/
theorem releasePage_unlinks (hshape : Shape s.sizes)
    (hheap : Heap s.phys.mem (firstOf s.sizes) s.phys.pmm.held live ord free lists)
    (hp : page ∈ s.phys.pmm.held) (hf : free page ≠ [])
    (hall : ∀ b, ¬ InUse ord free page b) :
    ∃ s₁, (∀ P' : PageAllocator (Tracked σ), (releasePage P' (ord page : Int) page).run s =
        (onPhys (pgfree P' (givenBack page))).run s₁) ∧
      SameRest s s₁ ∧ Shape s₁.sizes ∧ SameLengths s.phys.mem s₁.phys.mem live ∧
      ∃ lists', Heap s₁.phys.mem (firstOf s₁.sizes) (s.phys.pmm.held.filter (· ≠ page)) live ord
        free lists' := by
  have ho := hheap.pages.ord_lt page hp
  have hpage := hheap.pages.page page hp
  obtain ⟨d, hd, _, _⟩ := hshape.get (show ord page < 9 by omega)
  have hmem := (hheap.lists.mem_iff _ ho page).mpr ⟨hp, rfl, hf⟩
  obtain ⟨l₁, l₂, hl⟩ := List.append_of_mem hmem
  have hchain := hheap.lists.chain _ ho
  have hnodup := hheap.lists.nodup _ ho
  rw [firstOf_eq hd] at hchain
  rcases List.eq_nil_or_concat l₁ with rfl | ⟨l₁, prev, rfl⟩
  · -- The page is the first of its class.
    rw [List.nil_append] at hl
    rw [hl] at hchain
    refine ⟨s.setSize (ord page) { d with firstfree := load32 s.phys.mem page }, ?_,
      .setSize _ _ _, ?_, fun _ _ => rfl, Function.update lists (ord page) l₂, ?_⟩
    · intro P'
      rw [releasePage, run_bind_ok (run_sizeAt hd), if_pos hchain.1, run_bind_ok (run_load _ _),
        run_bind_ok (run_modifySize hd _)]
      rfl
    · rw [Simple.sizes_setSize]
      exact hshape.set hd rfl rfl
    · rw [Simple.sizes_setSize, Simple.mem_setSize, firstOf_set hd]
      exact hheap.release_first ho hl hall fun _ _ _ _ _ _ => rfl
  · -- The page in front of it is linked to the one behind.
    have hl' : lists (ord page) = l₁ ++ prev :: page :: l₂ := by
      rw [hl, List.concat_eq_append, List.append_assoc]
      rfl
    rw [hl'] at hchain hnodup
    have hprevmem : prev ∈ lists (ord page) := by rw [hl']; simp
    have hprevheld := ((hheap.lists.mem_iff _ ho prev).mp hprevmem).1
    have hprevpage := hheap.pages.page prev hprevheld
    have hsplit : l₁ ++ prev :: page :: l₂ = (l₁ ++ [prev]) ++ page :: l₂ := by simp
    have hnot : page ∉ l₁ ++ [prev] := by
      rw [hsplit, List.nodup_middle, List.nodup_cons] at hnodup
      exact fun hmem => hnodup.1 (List.mem_append_left _ hmem)
    have hhead : d.firstfree ≠ page := by
      intro heq
      rw [heq] at hchain
      refine hnot ?_
      cases l₁ with
      | nil => rw [hchain.1]; exact List.mem_cons_self
      | cons q l₁ => rw [hchain.1]; exact List.mem_cons_self
    have hfuel : l₁.length < 2 ^ 32 := by
      have hle := hheap.length_le ho
      rw [hl', List.length_append, List.length_cons] at hle
      omega
    have hnext := load32_lt s.phys.mem page
    refine ⟨s.write prev (load32 s.phys.mem page), ?_, .write _ _ _, ?_, ?_,
      Function.update lists (ord page) (l₁ ++ prev :: l₂), ?_⟩
    · intro P'
      rw [releasePage, run_bind_ok (run_sizeAt hd), if_neg hhead,
        run_bind_ok (findPrev_spec hchain hnot hfuel), if_pos (by omega),
        run_bind_ok (run_load _ _), run_bind_ok (run_store _ _ _)]
      rfl
    · rw [Simple.sizes_write]
      exact hshape
    · rw [Simple.mem_write]
      refine hheap.pages.sameLengths ?_
      intro q hq w hw
      have hbd := hw.bounds (hheap.pages.layout hq)
      have hqpage := hheap.pages.page q hq
      exact load32_store32_ne (by omega) (by omega) (by omega)
    · rw [Simple.sizes_write, Simple.mem_write]
      refine hheap.release_later ho hl' hall ?_ ?_ ?_
      · rw [load32_store32_self, Nat.mod_eq_of_lt hnext]
      · intro q hq hne a hlo hhi
        have hqpage := hheap.pages.page q hq
        exact load32_store32_ne (by omega) (by omega) (by omega)
      · intro q hq hne hne'
        have hqpage := hheap.pages.page q hq
        exact load32_store32_ne (by omega) (by omega) (by omega)

/-- A write to the counters of a class. -/
theorem SimpleAt.count {d d' : SizeDescriptor} (h : SimpleAt s live ord) (hd : s.sizes[o]? = some d)
    (hfirst : d'.firstfree = d.firstfree) (hsize : d'.size = d.size)
    (hblocks : d'.nblocks = d.nblocks) :
    SimpleAt (s.setSize o d') live ord := by
  obtain ⟨hon, hshape, free, lists, hheap⟩ := h
  refine ⟨hon, hshape.set hd hsize hblocks, free, lists, ?_⟩
  rw [Simple.sizes_setSize, firstOf_set_stat hd hfirst]
  exact hheap

/-- The statistics at the end of `simple_free`. -/
def countFree (size : Nat) (d : SizeDescriptor) : SizeDescriptor :=
  { d with nfrees := d.nfrees + 1, nbytesmalloced := d.nbytesmalloced - toInt32 size }

/-- The block was not the last of its page, and no page allocator was called. -/
structure BlockBack (s s' : Simple (Tracked σ)) (live : List (Nat × Nat)) (ord : Nat → Nat)
    (ptr : Nat) : Prop where
  other : ∃ e ∈ live, e.1 ≠ ptr ∧ pageDesc (e.1 - 8) = pageDesc (ptr - 8)
  run : ∀ P' : PageAllocator (Tracked σ), (simpleFree P' ptr).run s = .ok () s'
  pmm : s'.phys.pmm = s.phys.pmm
  heap : SimpleAt s' (live.filter fun e => e.1 ≠ ptr) ord

/-- The block was the last of its page. `s₁` is the state in which `pgfree` is
called, once: what comes after it are the statistics. -/
structure PageEmptied (s s₁ : Simple (Tracked σ)) (live : List (Nat × Nat)) (ord : Nat → Nat)
    (ptr : Nat) : Prop where
  last : ∀ e ∈ live, pageDesc (e.1 - 8) = pageDesc (ptr - 8) → e.1 = ptr
  run : ∃ size, ∀ P' : PageAllocator (Tracked σ), (simpleFree P' ptr).run s =
    (onPhys (pgfree P' (givenBack (pageDesc (ptr - 8)))) >>= fun _ =>
      modifySize (ord (pageDesc (ptr - 8)) : Int) (countFree size)).run s₁
  pmm : s₁.phys.pmm = s.phys.pmm
  on : s₁.isPageAllocOn = true
  shape : Shape s₁.sizes
  heap : ∃ free lists, Heap s₁.phys.mem (firstOf s₁.sizes)
    (s.phys.pmm.held.filter (· ≠ pageDesc (ptr - 8))) (live.filter fun e => e.1 ≠ ptr) ord free
    lists

/-- `simple_free` of a live block does one of two things. -/
theorem simpleFree_cases (h : SimpleAt s live ord) (hptr : ptr ∈ live.map Prod.fst) :
    pageDesc (ptr - 8) ∈ s.phys.pmm.held ∧
      ((∃ s', BlockBack s s' live ord ptr ∧
          SameLengths s.phys.mem s'.phys.mem (live.filter fun e => e.1 ≠ ptr)) ∨
        ∃ s₁, PageEmptied s s₁ live ord ptr ∧
          SameLengths s.phys.mem s₁.phys.mem (live.filter fun e => e.1 ≠ ptr)) := by
  obtain ⟨hon, hshape, free, lists, hheap⟩ := h
  obtain ⟨page, hp, b, hb, rfl⟩ := (hheap.pages.live_iff ptr).mp hptr
  have ho := hheap.pages.ord_lt page hp
  have hpage := hheap.pages.page page hp
  have hbd := hheap.pages.block_bounds hp hb.1
  have hat := hheap.pages.at_page page hp
  have hb' : (b + 8 + 2 ^ 32 - 8) % 2 ^ 32 = b := by omega
  have hdesc := hheap.pages.pageDesc_eq hp hb.1
  have hord : toInt32 (load32 s.phys.mem (page + 8)) = ord page := by
    rw [hat.order]
    exact toInt32_of_lt (by omega)
  have hlink := hheap.link_aligned hp
  have hflag := hat.used b hb.1 hb.2
  have hlen := hat.length_le
  have hblocks := classBlocks_lt ho
  have hvalid : ¬ ((ord page : Int) < 0 ∨ (ord page : Int) > 9 ∨
      load32 s.phys.mem page % 4096 ≠ 0 ∨ load32 s.phys.mem b ≠ mfUsed) := by
    rw [hflag]
    omega
  obtain ⟨s₁, hput, hR⟩ := putBlock_spec (p := b) hshape (show ord page < 9 by omega)
    (show page + 16 ≤ b by omega) (by omega) (by omega) (hheap.first_lt ho) hat.nfree
    (fun h0 => hheap.lists.full page ⟨hp, List.eq_nil_of_length_eq_zero h0⟩)
  have hlengths := hheap.pages.sameLengths_of_written hp hb.1 hR.same
  obtain ⟨lists₁, hheap₁⟩ := hheap.put hp hb hR.same hR.first hR.next hR.nfree hR.free hR.link
  rw [← hR.rest.pmm, ← hR.head] at hheap₁
  have hp₁ : page ∈ s₁.phys.pmm.held := by rw [hR.rest.pmm]; exact hp
  have hat₁ := hheap₁.pages.at_page page hp₁
  rw [Function.update_self] at hat₁
  have hord₁ : toInt32 (load32 s₁.phys.mem (page + 8)) = ord page := by
    rw [hat₁.order]
    exact toInt32_of_lt (by omega)
  obtain ⟨d₁, hd₁, _, hblocks₁⟩ := hR.shape.get (show ord page < 9 by omega)
  -- Up to here the call is the same in both cases.
  have hrun : ∀ P' : PageAllocator (Tracked σ), (simpleFree P' (b + 8)).run s =
      (do
        if (free page).length + 1 = classBlocks (ord page) then
          releasePage P' (ord page : Int) page
        modifySize (ord page : Int) (countFree (load32 s.phys.mem (b + 4)))).run s₁ := by
    intro P'
    rw [simpleFree, run_bind_ok (EStateM.run_get s), if_pos hon]
    simp only [hb', hdesc]
    rw [run_bind_ok (run_load _ _), run_bind_ok (run_load _ _), run_bind_ok (run_load _ _), hord,
      if_neg hvalid, run_bind_ok (run_load _ _), run_bind_ok hput, run_bind_ok (run_load _ _),
      run_bind_ok (run_load _ _), hord₁, run_bind_ok (run_sizeAt hd₁), hR.nfree, hblocks₁]
    rfl
  rw [Nat.add_sub_cancel, hdesc]
  refine ⟨hp, ?_⟩
  by_cases hempty : (free page).length + 1 = classBlocks (ord page)
  · -- No block of the page is in use any more.
    have hall : ∀ c, ¬ InUse ord (Function.update free page (b :: free page)) page c := by
      intro c hc
      rw [InUse, Function.update_self] at hc
      exact hc.2 (hat₁.mem_of_full hempty hc.1)
    obtain ⟨s₂, hrel, hrest, hshape₂, hlengths₂, lists₂, hheap₂⟩ := releasePage_unlinks hR.shape
      hheap₁ hp₁ (by rw [Function.update_self]; exact List.cons_ne_nil _ _) hall
    refine Or.inr ⟨s₂, ⟨?_, ⟨load32 s.phys.mem (b + 4), ?_⟩, hrest.pmm.trans hR.rest.pmm,
      hrest.on.trans (hR.rest.on.trans hon), hshape₂,
      Function.update free page (b :: free page), lists₂, ?_⟩,
      fun e he => (hlengths₂ e he).trans (hlengths e he)⟩
    · intro e he hpe
      rw [Nat.add_sub_cancel, hdesc] at hpe
      obtain ⟨c, hc, hec⟩ := hheap.pages.live_of_page he hpe
      by_contra hne
      refine hall c ?_
      rw [InUse, Function.update_self, List.mem_cons]
      exact ⟨hc.1, fun hor => hor.elim (fun heq => hne (by omega)) hc.2⟩
    · intro P'
      rw [hrun P', if_pos hempty, EStateM.run_bind, EStateM.run_bind, hrel P',
        Nat.add_sub_cancel, hdesc]
    · rw [Nat.add_sub_cancel, hdesc, ← hR.rest.pmm]
      exact hheap₂
  · have hat' : SimpleAt s₁ (live.filter fun e => e.1 ≠ b + 8) ord :=
      ⟨hR.rest.on.trans hon, hR.shape, _, _, hheap₁⟩
    refine Or.inl ⟨s₁.setSize (ord page) (countFree (load32 s.phys.mem (b + 4)) d₁), ⟨?_, ?_,
      hR.rest.pmm, hat'.count hd₁ rfl rfl rfl⟩, hlengths⟩
    · obtain ⟨c, hc, hnot⟩ := hat₁.exists_used (hheap.pages.layout hp) hempty
      rw [List.mem_cons, not_or] at hnot
      obtain ⟨hcb, hcfree⟩ := hnot
      obtain ⟨e, he, hec, hpe⟩ := hheap.pages.live_of_inUse hp ⟨hc, hcfree⟩
      refine ⟨e, he, by omega, ?_⟩
      rw [hpe, Nat.add_sub_cancel, hdesc]
    · intro P'
      rw [hrun P', if_neg hempty]
      exact run_modifySize hd₁ _

/-- `simple_free` takes a live block back, and with the last block of a page
the page is given back. -/
theorem simpleFree_spec (h : SimpleAt s live ord) (hptr : ptr ∈ live.map Prod.fst)
    (htake : TakesBack P s.phys.pmm (givenBack (pageDesc (ptr - 8)))) :
    ∃ s', (simpleFree (tracked P) ptr).run s = .ok () s' ∧
      SimpleAt s' (live.filter fun e => e.1 ≠ ptr) ord ∧
      SameLengths s.phys.mem s'.phys.mem (live.filter fun e => e.1 ≠ ptr) ∧
      (BlockBack s s' live ord ptr ∨ (∃ s₁, PageEmptied s s₁ live ord ptr) ∧
        GaveBack P s.phys.pmm s'.phys.pmm (givenBack (pageDesc (ptr - 8)))) := by
  obtain ⟨hheld, ⟨s', hk, hlengths⟩ | ⟨s₁, he, hlengths⟩⟩ := simpleFree_cases h hptr
  · exact ⟨s', hk.run _, hk.heap, hlengths, Or.inl hk⟩
  · obtain ⟨_, _, _, _, hheap⟩ := h
    have hpage := hheap.pages.page _ hheld
    have ho := hheap.pages.ord_lt _ hheld
    obtain ⟨size, hrun⟩ := he.run
    obtain ⟨free₁, lists₁, hheap₁⟩ := he.heap
    rw [← he.pmm] at htake
    obtain ⟨t', hpg, hgave⟩ := pgfree_spec htake
    rw [he.pmm] at hgave
    generalize hpg' : pageDesc (ptr - 8) = page at *
    have hlow : givenBack page % 2 ^ 32 = page := by
      rw [givenBack, toInt32_low, Nat.mod_eq_of_lt (hheap.pages.page_lt hheld)]
    have hjunkAt : kfill s₁.phys.mem (pa2kva (givenBack page)) junkByte pgSize =
        s₁.phys.mem.put page pgSize fun _ => junkByte := by
      have hkva : pa2kva (givenBack page) % 2 ^ 32 = pa2kva page % 2 ^ 32 := by
        rw [pa2kva, pa2kva]
        omega
      rw [kfill_congr _ _ _ hkva, kfill_eq_put (by rw [kernBase, pgSize]; omega)]
    rw [hjunkAt] at hpg
    obtain ⟨d, hd, _, _⟩ := he.shape.get (show ord page < 9 by omega)
    have hheld' : t'.held = s.phys.pmm.held.filter (· ≠ page) := by
      obtain ⟨_, _, _, rfl⟩ := hgave
      rw [hlow]
    have hjunk : ∀ q ∈ s.phys.pmm.held.filter (· ≠ page), ∀ a,
        a = q ∨ IsMeta q (classSize (ord q)) (classBlocks (ord q)) a →
        load32 (s₁.phys.mem.put page pgSize fun _ => junkByte) a = load32 s₁.phys.mem a := by
      intro q hq a ha
      have hbd := hheap₁.word_bounds hq ha
      have hqpage := hheap₁.pages.page q hq
      have hne : q ≠ page := of_decide_eq_true (List.mem_filter.mp hq).2
      exact load32_congr (by omega) fun x hlo hhi => put_of_outside (by unfold pgSize; omega)
    have hat : SimpleAt { s₁ with phys := ⟨s₁.phys.mem.put page pgSize fun _ => junkByte, t'⟩ }
        (live.filter fun e => e.1 ≠ ptr) ord := by
      refine ⟨he.on, he.shape, free₁, lists₁, ?_⟩
      show Heap (s₁.phys.mem.put page pgSize fun _ => junkByte) (firstOf s₁.sizes) t'.held _ _ _ _
      rw [hheld']
      exact hheap₁.congr hjunk
    have hlengths' : SameLengths s.phys.mem (s₁.phys.mem.put page pgSize fun _ => junkByte)
        (live.filter fun e => e.1 ≠ ptr) := fun e hmem =>
      (hheap₁.pages.sameLengths (fun q hq a ha => hjunk q hq a (Or.inr ha)) e hmem).trans
        (hlengths e hmem)
    generalize hs₂ : ({ s₁ with phys := ⟨s₁.phys.mem.put page pgSize fun _ => junkByte, t'⟩ } :
      Simple (Tracked σ)) = s₂ at hat
    have hd₂ : s₂.sizes[ord page]? = some d := by rw [← hs₂]; exact hd
    refine ⟨s₂.setSize (ord page) (countFree size d), ?_, hat.count hd₂ rfl rfl rfl, ?_,
      Or.inr ⟨⟨s₁, he⟩, ?_⟩⟩
    · rw [hrun, run_bind_ok (run_onPhys hpg), hs₂]
      exact run_modifySize hd₂ _
    · rw [Simple.mem_setSize, ← hs₂]
      exact hlengths'
    · rw [← hs₂]
      exact hgave

end Calls

/-! ## The component -/

/-- The allocator and the blocks that are out, each with the pointer to its
payload and the size that was asked for. -/
structure SimpleRun (σ : Type) where
  s : Simple (Tracked σ)
  live : List (Nat × Nat)

inductive SimpleCall where
  | alloc (size : Nat)
  | free (ptr : Nat)
  | write (a : Nat) (v : UInt8)

namespace SimpleRun

def mem (r : SimpleRun σ) : Mem := r.s.phys.mem

def held (r : SimpleRun σ) : List Nat := r.s.phys.pmm.held

def call {α : Type} (x : EStateM Stop (Simple (Tracked σ)) α) : EStateM Stop (SimpleRun σ) α :=
  zoom s (fun a r => { r with s := a }) x

theorem run_call {α : Type} {r : SimpleRun σ} {x : EStateM Stop (Simple (Tracked σ)) α} {a : α}
    {s' : Simple (Tracked σ)} (h : x.run r.s = .ok a s') :
    (call x).run r = .ok a { r with s := s' } := run_zoom_ok h

def step (P : PageAllocator σ) : SimpleCall → EStateM Stop (SimpleRun σ) Unit
  | .alloc size => do
      let p ← call (simpleAlloc (tracked P) size)
      if p ≠ 0 then modify fun r => { r with live := (p, size) :: r.live }
  | .free ptr => do
      call (simpleFree (tracked P) ptr)
      modify fun r => { r with live := r.live.filter fun e => e.1 ≠ ptr }
  | .write a v =>
      call (modify fun s => { s with phys := { s.phys with mem := s.phys.mem.store8 a v } })

end SimpleRun

variable {s : Simple (Tracked σ)} {live : List (Nat × Nat)} {ord first : Nat → Nat}
  {free lists : Nat → List Nat} {held : List Nat} {m : Mem}

def simpleCalls (P : PageAllocator σ) : Machine Stop (SimpleRun σ) SimpleCall where
  init r := (∃ s₀, simpleAllocatorInit.run s₀ = .ok 0 r.s) ∧ Shape r.s.sizes ∧
    (∀ d ∈ r.s.sizes, d.firstfree = 0) ∧ r.held = [] ∧ r.live = []
  legal r
    | .alloc size => size ≤ 4096 ∧ Grants P r.s.phys.pmm
    | .free ptr => ptr ∈ r.live.map Prod.fst ∧
        TakesBack P r.s.phys.pmm (givenBack (pageDesc (ptr - 8)))
    | .write a _ => a < 2 ^ 32 ∧ ((∃ e ∈ r.live, e.1 ≤ a ∧ a < e.1 + e.2) ∨
        ∀ page ∈ r.held, a < page ∨ page + 4096 ≤ a)
  step := SimpleRun.step P

instance (P : PageAllocator σ) (r : SimpleRun σ) :
    ∀ i, Decidable ((simpleCalls P).legal r i)
  | .alloc _ => inferInstanceAs (Decidable (_ ∧ _))
  | .free _ => inferInstanceAs (Decidable (_ ∧ _))
  | .write _ _ => inferInstanceAs (Decidable (_ ∧ (_ ∨ _)))

/-- No page is held, and no list has one. -/
theorem heap_nil (m : Mem) (ord : Nat → Nat) (hfirst : ∀ o < 8, first o = 0) :
    Heap m first [] [] ord (fun _ => []) (fun _ => []) := by
  constructor
  · constructor
    · exact List.nodup_nil
    · intro page hp; cases hp
    · intro page hp; cases hp
    · intro page hp; cases hp
    · exact List.nodup_nil
    · intro p
      refine iff_of_false (by simp) ?_
      intro hp
      obtain ⟨page, hp, _⟩ := hp
      cases hp
    · intro e he; cases he
  · constructor
    · exact fun o ho => hfirst o ho
    · exact fun o ho => List.nodup_nil
    · intro o ho page
      refine iff_of_false (by simp) ?_
      intro hp
      cases hp.1
    · intro page hp
      cases hp.1

theorem simpleInv_init {r : SimpleRun σ} (h : (simpleCalls P).init r) : SimpleInv r.s r.live := by
  obtain ⟨⟨s₀, hinit⟩, hshape, hnull, hheld, hlive⟩ := h
  have hon : r.s.isPageAllocOn = true := by
    injection hinit with _ hs
    rw [← hs]
  refine ⟨hon, hshape, fun _ => 0, fun _ => [], fun _ => [], ?_⟩
  rw [show r.s.phys.pmm.held = [] from hheld, hlive]
  refine heap_nil _ _ ?_
  intro o ho
  obtain ⟨d, hd, _, _⟩ := hshape.get (show o < 9 by omega)
  rw [firstOf_eq hd]
  exact hnull d (List.mem_of_getElem? hd)

/-- A write to a payload, or to a page that is not held, leaves the words of the
allocator alone. -/
theorem Heap.load_store8 {q w a : Nat} {v : UInt8} (h : Heap m first held live ord free lists)
    (hq : q ∈ held) (hw : w = q ∨ IsMeta q (classSize (ord q)) (classBlocks (ord q)) w)
    (ha : a < 2 ^ 32)
    (hout : (∃ e ∈ live, e.1 ≤ a ∧ a < e.1 + e.2) ∨ ∀ page ∈ held, a < page ∨ page + 4096 ≤ a) :
    load32 (m.store8 a v) w = load32 m w := by
  have hbd := h.word_bounds hq hw
  have hqpage := h.pages.page q hq
  refine load32_store8_ne ha (by omega) ?_
  rcases hout with ⟨e, he, hlo, hhi⟩ | hout
  · have hoff := h.word_off_payload hq hw he
    omega
  · have hq' := hout q hq
    omega

theorem SimpleAt.write
    (h : SimpleAt s live ord) {a : Nat} {v : UInt8} (ha : a < 2 ^ 32)
    (hout : (∃ e ∈ live, e.1 ≤ a ∧ a < e.1 + e.2) ∨
      ∀ page ∈ s.phys.pmm.held, a < page ∨ page + 4096 ≤ a) :
    SimpleAt { s with phys := { s.phys with mem := s.phys.mem.store8 a v } } live ord := by
  obtain ⟨hon, hshape, free, lists, hheap⟩ := h
  exact ⟨hon, hshape, free, lists, hheap.congr fun q hq w hw => hheap.load_store8 hq hw ha hout⟩

theorem simpleInv_invariant (P : PageAllocator σ) :
    (simpleCalls P).Invariant fun r => SimpleInv r.s r.live where
  init r hr := simpleInv_init hr
  step r i h hl := by
    cases i with
    | alloc size =>
        obtain ⟨ord, hat⟩ := SimpleInv.classes h
        obtain ⟨p, s', hrun, ⟨hp, _, hat'⟩ | ⟨hserved, _⟩⟩ := simpleAlloc_spec hat hl.1 hl.2
        · refine ⟨⟨s', r.live⟩, ?_, hat'.inv⟩
          show (SimpleRun.step P (.alloc size)).run r = _
          rw [SimpleRun.step, run_bind_ok (SimpleRun.run_call hrun), if_neg (fun h => h hp)]
          rfl
        · obtain ⟨ord', hat', _⟩ := hserved.heap
          refine ⟨⟨s', (p, size) :: r.live⟩, ?_, hat'.inv⟩
          show (SimpleRun.step P (.alloc size)).run r = _
          rw [SimpleRun.step, run_bind_ok (SimpleRun.run_call hrun), if_pos hserved.ne_null]
          rfl
    | free ptr =>
        obtain ⟨ord, hat⟩ := SimpleInv.classes h
        obtain ⟨s', hrun, hat', _⟩ := simpleFree_spec hat hl.1 hl.2
        refine ⟨⟨s', r.live.filter fun e => e.1 ≠ ptr⟩, ?_, hat'.inv⟩
        show (SimpleRun.step P (.free ptr)).run r = _
        rw [SimpleRun.step, run_bind_ok (SimpleRun.run_call hrun)]
        rfl
    | write a v =>
        obtain ⟨ord, hat⟩ := SimpleInv.classes h
        exact ⟨_, rfl, (hat.write hl.1 hl.2).inv⟩

end Aim.Kern
