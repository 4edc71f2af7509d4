import Aim.Proofs.SimplePark
import Aim.Proofs.SimpleBlocks

/-!
# The object allocator before there are pages

Between `simple_allocator_bootstrap` and `simple_allocator_init` every class
that needs a page is given the same one, the buffer `pt`: it is cut into blocks
again for each class, and again when a class has used it up. And it stays on
the list of its class when pages come from the page allocator, so blocks are
handed out from it when it is gone.

So the blocks are in order only in runs that are careful (`Spared`): before
`simple_allocator_init` all requests are of one class and no more than a page
of them is made, after it that class is left alone unless the buffer is used
up, and the early blocks are not freed. In such a run the buffer is a page of
blocks in the first phase (`BootPage`). In the second phase it is parked: the
rest of the allocator is in the state it would be in without it.
-/

namespace Aim.Kern

open Aim.Lib Mem

variable {σ : Type}

/-! ## The component -/

/-- The allocator, the bootstrap buffer, and the live blocks that were handed
out before and after `simple_allocator_init`. -/
structure BootRun (σ : Type) where
  pt : Nat
  s : Simple (Tracked σ)
  early : List (Nat × Nat)
  late : List (Nat × Nat)

inductive BootCall where
  | kmalloc (size flags : Nat)
  | init
  | kfree (ptr : Nat)
  | write (a : Nat) (v : UInt8)

namespace BootRun

def held (r : BootRun σ) : List Nat := r.s.phys.pmm.held

def live (r : BootRun σ) : List (Nat × Nat) := r.early ++ r.late

def call {α : Type} (x : EStateM Stop (Simple (Tracked σ)) α) : EStateM Stop (BootRun σ) α :=
  zoom s (fun a r => { r with s := a }) x

variable {r : BootRun σ}

theorem run_call {α : Type} {x : EStateM Stop (Simple (Tracked σ)) α} {a : α}
    {s' : Simple (Tracked σ)} (h : x.run r.s = .ok a s') :
    (call x).run r = .ok a { r with s := s' } := run_zoom_ok h

/-- A block was handed out. -/
def add (e : Nat × Nat) (r : BootRun σ) : BootRun σ :=
  if r.s.isPageAllocOn then { r with late := e :: r.late } else { r with early := e :: r.early }

theorem add_late {e : Nat × Nat} (h : r.s.isPageAllocOn = true) :
    r.add e = { r with late := e :: r.late } := by rw [add, if_pos h]

theorem add_early {e : Nat × Nat} (h : r.s.isPageAllocOn = false) :
    r.add e = { r with early := e :: r.early } := by
  rw [add, if_neg (by rw [h]; decide)]

/-- A block was taken back. -/
def drop (ptr : Nat) (r : BootRun σ) : BootRun σ :=
  { r with
    early := r.early.filter fun e => e.1 ≠ ptr
    late := r.late.filter fun e => e.1 ≠ ptr }

def step (P : PageAllocator σ) : BootCall → EStateM Stop (BootRun σ) Unit
  | .kmalloc size flags => do
      let p ← call (Vmm.kmalloc (simpleAllocator (tracked P)) size flags)
      if p ≠ 0 then modify (add (p, size))
  | .init => do
      let _ ← call simpleAllocatorInit
  | .kfree ptr => do
      call (Vmm.kfree (simpleAllocator (tracked P)) ptr)
      modify (drop ptr)
  | .write a v =>
      call (modify fun s => { s with phys := { s.phys with mem := s.phys.mem.store8 a v } })

end BootRun

/-- A request for a page is met, and the page is not part of the buffer. -/
def GrantsOff (P : PageAllocator σ) (t : Tracked σ) (pt : Nat) : Prop :=
  Grants P t ∧
    match (P.alloc ⟨0, pgSize, 0⟩).run t.inner with
    | .ok (_, p) _ => p.paddr % 2 ^ 32 + 4096 ≤ pt ∨ pt + 4096 ≤ p.paddr % 2 ^ 32
    | .error _ _ => False

instance (P : PageAllocator σ) (t : Tracked σ) (pt : Nat) : Decidable (GrantsOff P t pt) :=
  have : Decidable (match (P.alloc ⟨0, pgSize, 0⟩).run t.inner with
      | .ok (_, p) _ => p.paddr % 2 ^ 32 + 4096 ≤ pt ∨ pt + 4096 ≤ p.paddr % 2 ^ 32
      | .error _ _ => False) :=
    match (P.alloc ⟨0, pgSize, 0⟩).run t.inner with
    | .ok (_, _) _ => inferInstanceAs (Decidable (_ ∨ _))
    | .error _ _ => inferInstanceAs (Decidable False)
  inferInstanceAs (Decidable (_ ∧ _))

theorem GrantsOff.drawn {P : PageAllocator σ} {t t' : Tracked σ} {pt page : Nat}
    (h : GrantsOff P t pt) (hd : Drawn P t t' page) : page + 4096 ≤ pt ∨ pt + 4096 ≤ page := by
  obtain ⟨p, inner, hrun, rfl, _⟩ := hd
  have hoff := h.2
  rw [hrun] at hoff
  exact hoff

/-- From `simple_allocator_bootstrap` on. Pages are asked for, and blocks can
be freed, after `simple_allocator_init`; memory is written to in the payloads
of live blocks and outside of the allocator's pages. -/
def bootCalls (P : PageAllocator σ) : Machine Stop (BootRun σ) BootCall where
  init r := (∃ s₀, s₀.sizes = initialSizes ∧ (simpleAllocatorBootstrap r.pt).run s₀ = .ok 0 r.s) ∧
    0 < r.pt ∧ r.pt + 4096 ≤ 2 ^ 32 ∧ r.held = [] ∧ r.early = [] ∧ r.late = []
  legal r
    | .kmalloc size _ => size ≤ 2048 ∧
        (r.s.isPageAllocOn = true → GrantsOff P r.s.phys.pmm r.pt)
    | .init => r.s.isPageAllocOn = false
    | .kfree ptr => r.s.isPageAllocOn = true ∧ ptr ∈ r.live.map Prod.fst ∧
        TakesBack P r.s.phys.pmm (givenBack (pageDesc (ptr - 8)))
    | .write a _ => a < 2 ^ 32 ∧ ((∃ e ∈ r.live, e.1 ≤ a ∧ a < e.1 + e.2) ∨
        (∀ page ∈ r.held, a < page ∨ page + 4096 ≤ a) ∧ (a < r.pt ∨ r.pt + 4096 ≤ a))
  step := BootRun.step P

instance (P : PageAllocator σ) (r : BootRun σ) : ∀ i, Decidable ((bootCalls P).legal r i)
  | .kmalloc _ _ => inferInstanceAs (Decidable (_ ∧ (_ → _)))
  | .init => inferInstanceAs (Decidable (_ = _))
  | .kfree _ => inferInstanceAs (Decidable (_ ∧ _ ∧ _))
  | .write _ _ => inferInstanceAs (Decidable (_ ∧ (_ ∨ _)))

/-- Two blocks, with their headers, do not overlap. -/
def BlocksApart (e f : Nat × Nat) : Prop := e.1 + e.2 ≤ f.1 - 8 ∨ f.1 + f.2 ≤ e.1 - 8

structure BootOk (r : BootRun σ) : Prop where
  disjoint : r.live.Pairwise BlocksApart
  outside : ∀ e ∈ r.late, e.1 + e.2 ≤ r.pt ∨ r.pt + 4096 ≤ e.1 - 8

/-- What is asked of a call for the blocks to stay in order. -/
def Spared (r : BootRun σ) : BootCall → Prop
  | .kmalloc size _ =>
      if r.s.isPageAllocOn then
        ∀ e ∈ r.early, orderOf e.2 = orderOf size → r.early.length = classBlocks (orderOf size)
      else
        (∀ e ∈ r.early, orderOf e.2 = orderOf size) ∧
          r.early.length < classBlocks (orderOf size)
  | .kfree ptr => ptr ∉ r.early.map Prod.fst
  | _ => True

instance (r : BootRun σ) : ∀ i, Decidable (Spared r i)
  | .kmalloc _ _ => inferInstanceAs (Decidable (if r.s.isPageAllocOn then _ else _ ∧ _))
  | .init => inferInstanceAs (Decidable True)
  | .kfree _ => inferInstanceAs (Decidable (_ ∉ _))
  | .write _ _ => inferInstanceAs (Decidable True)

/-! ## The buffer as a page of blocks -/

/-- The buffer `pt` has the early blocks and the free blocks `free`, all of
the class `o`, and is on the list of that class as long as there are any. -/
structure BootPage (s : Simple (Tracked σ)) (pt : Nat) (early : List (Nat × Nat)) (o : Nat)
    (free : List Nat) : Prop where
  ord_lt : o < 8
  page : PageAt s.phys.mem pt (classSize o) (classBlocks o) o free
  link : load32 s.phys.mem pt = 0
  head : ∀ o' < 8, firstOf s.sizes o' = if o' = o ∧ free ≠ [] then pt else 0
  used : ∀ e ∈ early, ∃ b, IsBlock pt (classSize o) (classBlocks o) b ∧ b ∉ free ∧
    e.1 = b + 8 ∧ e.2 + 8 ≤ classSize o
  order : ∀ e ∈ early, orderOf e.2 = o
  nodup : (early.map Prod.fst).Nodup
  count : early.length + free.length = classBlocks o

section Buffer

variable {s s' : Simple (Tracked σ)} {pt o b size : Nat} {early : List (Nat × Nat)}
  {free fs : List Nat}

/-- The buffer was just cut into blocks. -/
theorem Added.bootPage (h : Added s s' o pt) (ho : o < 8)
    (hfirst : ∀ o' < 8, firstOf s.sizes o' = 0) :
    BootPage s' pt [] o (pageBlocks pt (classSize o) (classBlocks o)) := by
  have hlen : (pageBlocks pt (classSize o) (classBlocks o)).length = classBlocks o := by
    rw [pageBlocks, List.length_map, List.length_range]
  have hpos := (class_layout ho).pos
  have hne : pageBlocks pt (classSize o) (classBlocks o) ≠ [] :=
    List.ne_nil_of_length_pos (by omega)
  refine ⟨ho, h.fresh, h.link.trans (hfirst o ho), ?_, ?_, ?_, List.nodup_nil, ?_⟩
  · intro o' ho'
    rw [h.head]
    by_cases heq : o' = o
    · rw [heq, Function.update_self, if_pos ⟨rfl, hne⟩]
    · rw [Function.update_of_ne heq, if_neg fun hand => heq hand.1]
      exact hfirst o' ho'
  · intro e he; cases he
  · intro e he; cases he
  · rw [hlen, List.length_nil, Nat.zero_add]

/-- A block of the buffer is handed out. -/
theorem BootPage.take (h : BootPage s pt early o (b :: fs)) (hpt : pt + 4096 ≤ 2 ^ 32)
    (hT : Taken s s' o pt b fs.length) (hsize : size + 8 ≤ classSize o)
    (horder : orderOf size = o) : BootPage s' pt ((b + 8, size) :: early) o fs := by
  have hL := class_layout h.ord_lt
  have hb := h.page.block b List.mem_cons_self
  have hnot : b ∉ fs := (List.nodup_cons.mp h.page.nodup).1
  refine ⟨h.ord_lt, h.page.take hL hpt hT.same hT.first hT.nfree hT.used, ?_, ?_, ?_, ?_, ?_, ?_⟩
  · rw [hT.link, h.link, ite_self]
  · intro o' ho'
    have hhead := h.head o' ho'
    rw [hT.head]
    by_cases heq : o' = o
    · subst heq
      rw [if_pos ⟨rfl, List.cons_ne_nil _ _⟩] at hhead
      by_cases hfs : fs = []
      · rw [if_pos (by rw [hfs]; rfl), Function.update_self, h.link,
          if_neg fun hand => hand.2 hfs]
      · rw [if_neg (fun h0 => hfs (List.eq_nil_of_length_eq_zero h0)), if_pos ⟨rfl, hfs⟩]
        exact hhead
    · rw [if_neg fun hand => heq hand.1] at hhead
      rw [if_neg (show ¬ (o' = o ∧ fs ≠ []) from fun hand => heq hand.1)]
      by_cases hfs : fs.length = 0
      · rw [if_pos hfs, Function.update_of_ne heq]
        exact hhead
      · rw [if_neg hfs]
        exact hhead
  · intro e he
    rcases List.mem_cons.mp he with rfl | he
    · exact ⟨b, hb, hnot, rfl, hsize⟩
    · obtain ⟨c, hc, hcf, hec, hes⟩ := h.used e he
      exact ⟨c, hc, fun hmem => hcf (List.mem_cons_of_mem _ hmem), hec, hes⟩
  · intro e he
    rcases List.mem_cons.mp he with rfl | he
    · exact horder
    · exact h.order e he
  · rw [List.map_cons, List.nodup_cons]
    refine ⟨?_, h.nodup⟩
    intro hmem
    obtain ⟨e, he, hec⟩ := List.mem_map.mp hmem
    obtain ⟨c, _, hcf, hec', _⟩ := h.used e he
    have hcb : c = b := by
      have h8 : b + 8 = c + 8 := hec.symm.trans hec'
      omega
    exact hcf (by rw [hcb]; exact List.mem_cons_self)
  · have hcount := h.count
    rw [List.length_cons] at hcount ⊢
    omega

/-- Writes that leave the descriptor and the headers alone. -/
theorem BootPage.congr {m' : Mem} (h : BootPage s pt early o free)
    (hsame : ∀ a, a = pt ∨ IsMeta pt (classSize o) (classBlocks o) a →
      load32 m' a = load32 s.phys.mem a) :
    BootPage { s with phys := { s.phys with mem := m' } } pt early o free where
  ord_lt := h.ord_lt
  page := h.page.congr fun a ha => hsame a (Or.inr ha)
  link := (hsame pt (Or.inl rfl)).trans h.link
  head := h.head
  used := h.used
  order := h.order
  nodup := h.nodup
  count := h.count

/-- The early blocks are in the buffer, and do not overlap. -/
theorem BootPage.blocks (h : BootPage s pt early o free) :
    (∀ e ∈ early, pt + 16 ≤ e.1 - 8 ∧ e.1 + e.2 ≤ pt + 4096) ∧ early.Pairwise BlocksApart := by
  have hL := class_layout h.ord_lt
  constructor
  · intro e he
    obtain ⟨b, hb, _, heb, hes⟩ := h.used e he
    have hbd := hb.bounds hL
    omega
  · have hne : early.Pairwise fun e f => e.1 ≠ f.1 := List.pairwise_map.mp h.nodup
    refine hne.imp_of_mem ?_
    intro e f he hf hef
    obtain ⟨b, hb, _, heb, hes⟩ := h.used e he
    obtain ⟨c, hc, _, hfc, hfs⟩ := h.used f hf
    have hap := hb.apart hc (by omega)
    unfold BlocksApart
    omega

/-- A byte or more of one payload is written. -/
theorem BootPage.payload {m' : Mem} (h : BootPage s pt early o free) {e : Nat × Nat}
    (he : e ∈ early) (hsame : ∀ a, pt ≤ a → a + 4 ≤ pt + 4096 → a + 4 ≤ e.1 ∨ e.1 + e.2 ≤ a →
      load32 m' a = load32 s.phys.mem a) :
    BootPage { s with phys := { s.phys with mem := m' } } pt early o free := by
  have hL := class_layout h.ord_lt
  refine h.congr ?_
  intro a ha
  obtain ⟨b, hb, _, heb, hes⟩ := h.used e he
  have hoff := IsMeta.off_payload hL hb hes ha
  have hbd : pt ≤ a ∧ a + 4 ≤ pt + 4096 := by
    rcases ha with rfl | ha
    · omega
    · have hbd := ha.bounds hL
      omega
  exact hsame a hbd.1 hbd.2 (by omega)

end Buffer

/-! ## The first phase -/

structure EarlyPhase (r : BootRun σ) : Prop where
  off : r.s.isPageAllocOn = false
  shape : Shape r.s.sizes
  held : r.held = []
  late : r.late = []
  buffer : r.s.tmpMemPt = r.pt
  bounds : 0 < r.pt ∧ r.pt + 4096 ≤ 2 ^ 32
  page : (r.early = [] ∧ ∀ o < 8, firstOf r.s.sizes o = 0) ∨
    ∃ o free, r.early ≠ [] ∧ BootPage r.s r.pt r.early o free

section First

variable {P : PageAllocator σ} {r : BootRun σ} {size : Nat}

/-- A buffer with a free block serves a request of its class. -/
theorem BootPage.serve {s : Simple (Tracked σ)} {pt o : Nat} {early : List (Nat × Nat)}
    {free : List Nat} (h : BootPage s pt early o free) (hshape : Shape s.sizes)
    (hpt : 0 < pt ∧ pt + 4096 ≤ 2 ^ 32) (hfree : free ≠ []) (hsize : size + 8 ≤ classSize o)
    (horder : orderOf size = o) (tries : Nat) :
    ∃ p s' fs, (simpleAllocLoop (tracked P) (o : Int) size (tries + 1)).run s = .ok p s' ∧
      p ≠ 0 ∧ SameRest s s' ∧ Shape s'.sizes ∧ BootPage s' pt ((p, size) :: early) o fs := by
  obtain ⟨b, fs, rfl⟩ := List.exists_cons_of_ne_nil hfree
  have hfirst : firstOf s.sizes o = pt := by
    rw [h.head o h.ord_lt, if_pos ⟨rfl, List.cons_ne_nil _ _⟩]
  obtain ⟨s', hrun, hT, _⟩ := simpleAllocLoop_first (P := tracked P) size hshape h.ord_lt hfirst hpt
    h.page tries
  exact ⟨b + 8, s', fs, hrun, by omega, hT.rest, hT.shape, h.take hpt.2 hT hsize horder⟩

/-- Before there are pages, a request is met from the buffer. -/
theorem EarlyPhase.serve (h : EarlyPhase r) (hsize : size ≤ 2048)
    (hsame : ∀ e ∈ r.early, orderOf e.2 = orderOf size)
    (hroom : r.early.length < classBlocks (orderOf size)) :
    ∃ p s' fs, (simpleAlloc (tracked P) size).run r.s = .ok p s' ∧ p ≠ 0 ∧ SameRest r.s s' ∧
      Shape s'.sizes ∧ BootPage s' r.pt ((p, size) :: r.early) (orderOf size) fs := by
  unfold simpleAlloc
  rw [if_neg (show ¬ size > maxKmallocK * 1024 by unfold maxKmallocK; omega)]
  rcases getOrder_spec h.shape size with ⟨_, hlarge⟩ | ⟨ho, hfits, horder⟩
  · omega
  rw [run_bind_ok horder, if_neg (by omega), show maxGetFreePageTries = 3 + 1 from rfl]
  rcases h.page with ⟨hnil, hfirst⟩ | ⟨o, free, hne, hpage⟩
  · -- The class is the first to ask.
    have hget : (getPage (tracked P)).run r.s = .ok r.pt r.s := by
      rw [getPage, run_bind_ok (EStateM.run_get r.s), h.off, h.buffer]
      rfl
    obtain ⟨s₁, hgrow, hA⟩ := simpleAllocLoop_add size h.shape ho (hfirst _ ho) hget rfl h.bounds 3
    have hpage := hA.bootPage ho hfirst
    have hpos := (class_layout ho).pos
    obtain ⟨p, s', fs, hrun, hp, hrest, hshape, hpage'⟩ := hpage.serve (P := P) hA.shape h.bounds
      (List.ne_nil_of_length_pos (by rw [pageBlocks, List.length_map, List.length_range]; exact hpos))
      hfits rfl 2
    refine ⟨p, s', fs, hgrow.trans hrun, hp, hA.rest.trans hrest, hshape, ?_⟩
    rw [hnil]
    exact hpage'
  · have heq : orderOf size = o := by
      obtain ⟨e, l, hl⟩ := List.exists_cons_of_ne_nil hne
      have he : e ∈ r.early := by rw [hl]; exact List.mem_cons_self
      rw [← hsame e he]
      exact hpage.order e he
    have hcount := hpage.count
    rw [heq] at hroom hfits ⊢
    have hfree : free ≠ [] := by
      intro hnil
      rw [hnil, List.length_nil] at hcount
      omega
    obtain ⟨p, s', fs, hrun, hp, hrest, hshape, hpage'⟩ :=
      hpage.serve (P := P) h.shape h.bounds hfree hfits heq 3
    exact ⟨p, s', fs, hrun, hp, hrest, hshape, hpage'⟩

theorem EarlyPhase.kmalloc (h : EarlyPhase r) (flags : Nat) (hsize : size ≤ 2048)
    (hsame : ∀ e ∈ r.early, orderOf e.2 = orderOf size)
    (hroom : r.early.length < classBlocks (orderOf size)) :
    ∃ r', ((bootCalls P).step (.kmalloc size flags)).run r = .ok () r' ∧ EarlyPhase r' := by
  obtain ⟨p, s', fs, hrun, hp, hrest, hshape, hpage⟩ := h.serve (P := P) hsize hsame hroom
  -- What is left is `GFP_ZERO`.
  obtain ⟨s₂, hrun₂, hrest₂, hshape₂, hpage₂⟩ : ∃ s₂,
      (Vmm.kmalloc (simpleAllocator (tracked P)) size flags).run r.s = .ok p s₂ ∧
      SameRest r.s s₂ ∧ Shape s₂.sizes ∧ BootPage s₂ r.pt ((p, size) :: r.early) (orderOf size) fs := by
    have halloc : ((simpleAllocator (tracked P)).alloc size flags).run r.s = .ok p s' := hrun
    rw [Vmm.kmalloc, if_neg (by unfold pgSize; omega), run_bind_ok halloc]
    by_cases hzero : flags &&& gfpZero ≠ 0
    · rw [if_pos hzero]
      refine ⟨{ s' with phys := { s'.phys with mem := s'.phys.mem.fill p 0 size } }, rfl,
        ⟨hrest.pmm, hrest.on, hrest.pt, hrest.console⟩, hshape,
        hpage.payload List.mem_cons_self ?_⟩
      intro a hlo hhi hout
      have hin := hpage.blocks.1 (p, size) List.mem_cons_self
      have hbounds := h.bounds
      exact load32_fill_ne (by omega) (by omega) (by omega)
    · rw [if_neg hzero]
      exact ⟨s', rfl, hrest, hshape, hpage⟩
  have hoff : s₂.isPageAllocOn = false := hrest₂.on.trans h.off
  refine ⟨⟨r.pt, s₂, (p, size) :: r.early, r.late⟩, ?_, ?_⟩
  · show (BootRun.step P (.kmalloc size flags)).run r = _
    rw [BootRun.step, run_bind_ok (BootRun.run_call hrun₂), if_pos hp, EStateM.run_modify,
      BootRun.add_early (by exact hoff)]
  · refine ⟨hoff, hshape₂, ?_, h.late, hrest₂.pt.trans h.buffer, h.bounds,
      Or.inr ⟨_, fs, List.cons_ne_nil _ _, hpage₂⟩⟩
    show s₂.phys.pmm.held = []
    rw [hrest₂.pmm]
    exact h.held

theorem EarlyPhase.write (h : EarlyPhase r) {a : Nat} (v : UInt8) (ha : a < 2 ^ 32)
    (hout : (∃ e ∈ r.early, e.1 ≤ a ∧ a < e.1 + e.2) ∨ a < r.pt ∨ r.pt + 4096 ≤ a) :
    EarlyPhase { r with
      s := { r.s with phys := { r.s.phys with mem := r.s.phys.mem.store8 a v } } } := by
  have hbounds := h.bounds
  refine ⟨h.off, h.shape, h.held, h.late, h.buffer, h.bounds, ?_⟩
  rcases h.page with hstart | ⟨o, free, hne, hpage⟩
  · exact Or.inl hstart
  · refine Or.inr ⟨o, free, hne, ?_⟩
    rcases hout with ⟨e, he, hlo, hhi⟩ | hout
    · refine hpage.payload he ?_
      intro w hw hw' hoff
      exact load32_store8_ne ha (by omega) (by omega)
    · refine hpage.congr ?_
      intro w hw
      have hbd : r.pt ≤ w ∧ w + 4 ≤ r.pt + 4096 := by
        rcases hw with rfl | hw
        · omega
        · have hbd := hw.bounds (class_layout hpage.ord_lt)
          omega
      exact load32_store8_ne ha (by omega) (by omega)

end First

/-! ## The second phase -/

structure LatePhase (r : BootRun σ) : Prop where
  on : r.s.isPageAllocOn = true
  inside : ∀ e ∈ r.early, r.pt + 16 ≤ e.1 - 8 ∧ e.1 + e.2 ≤ r.pt + 4096
  apart : r.early.Pairwise BlocksApart
  off_buffer : ∀ page ∈ r.held, page + 4096 ≤ r.pt ∨ r.pt + 4096 ≤ page
  /-- Without the head of the class `o` the allocator is in order. Nothing is
  parked with `o = 8`, which is no class. -/
  parked : ∃ o x s₀ ord, r.s = s₀.park o x ∧ SimpleAt s₀ r.late ord ∧ (∀ q, ord q ≠ o) ∧
    (o = 8 ∨ ∃ e ∈ r.early, orderOf e.2 = o ∧ r.early.length ≠ classBlocks o)

section Second

variable {P : PageAllocator σ} {r : BootRun σ} {size : Nat}

/-- A class of pages that is not the one that is parked. -/
theorem exists_ord_ne (o : Nat) : ∃ ord : Nat → Nat, ∀ q, ord q ≠ o :=
  ⟨fun _ => o + 1, fun _ => Nat.succ_ne_self o⟩

/-- `simple_allocator_init` parks the buffer, unless it is used up. -/
theorem EarlyPhase.init (h : EarlyPhase r) :
    LatePhase { r with s := { r.s with isPageAllocOn := true } } := by
  have hheld : r.s.phys.pmm.held = [] := h.held
  have hlate := h.late
  -- The list of the class `o` is the only one that is not empty.
  have hparked : ∀ o, (∀ o' < 8, o' ≠ o → firstOf r.s.sizes o' = 0) → ∃ ord, SimpleAt
      (Simple.park o 0 { r.s with isPageAllocOn := true }) r.late ord ∧ ∀ q, ord q ≠ o := by
    intro o hfirst
    obtain ⟨ord, hord⟩ := exists_ord_ne o
    refine ⟨ord, ⟨rfl, Shape.park h.shape, fun _ => [], fun _ => [], ?_⟩, hord⟩
    rw [hlate]
    show Heap r.s.phys.mem _ r.s.phys.pmm.held [] ord _ _
    rw [hheld]
    refine heap_nil _ _ ?_
    intro o' ho'
    by_cases heq : o' = o
    · subst heq
      obtain ⟨d, hd, _, _⟩ := h.shape.get (show o' < 9 by omega)
      exact firstOf_park_self hd
    · rw [firstOf_park_ne heq]
      exact hfirst o' ho' heq
  have hunpark : ∀ o, ({ r.s with isPageAllocOn := true } : Simple (Tracked σ)) =
      (Simple.park o 0 { r.s with isPageAllocOn := true }).park o (firstOf r.s.sizes o) := by
    intro o
    rw [park_park]
    exact (park_self rfl).symm
  have hoff : ∀ page ∈ r.s.phys.pmm.held, page + 4096 ≤ r.pt ∨ r.pt + 4096 ≤ page := by
    intro page hp
    rw [hheld] at hp
    cases hp
  rcases h.page with ⟨hnil, hfirst⟩ | ⟨o, free, hne, hpage⟩
  · obtain ⟨ord, hat, hord⟩ := hparked 8 fun o' ho' _ => hfirst o' ho'
    refine ⟨rfl, ?_, ?_, hoff, 8, _, _, ord, hunpark 8, hat, hord, Or.inl rfl⟩
    · intro e he
      rw [show r.early = [] from hnil] at he
      cases he
    · rw [show r.early = [] from hnil]
      exact List.Pairwise.nil
  · have hblocks := hpage.blocks
    by_cases hfree : free = []
    · obtain ⟨ord, hat, hord⟩ := hparked 8 fun o' ho' _ => by
        rw [hpage.head o' ho', if_neg fun hand => hand.2 hfree]
      exact ⟨rfl, hblocks.1, hblocks.2, hoff, 8, _, _, ord, hunpark 8, hat, hord, Or.inl rfl⟩
    · obtain ⟨ord, hat, hord⟩ := hparked o fun o' ho' hne' => by
        rw [hpage.head o' ho', if_neg fun hand => hne' hand.1]
      obtain ⟨e, l, hl⟩ := List.exists_cons_of_ne_nil hne
      have he : e ∈ r.early := by rw [hl]; exact List.mem_cons_self
      have hroom : r.early.length ≠ classBlocks o := by
        have hcount := hpage.count
        have hpos := List.length_pos_of_ne_nil hfree
        omega
      exact ⟨rfl, hblocks.1, hblocks.2, hoff, o, _, _, ord, hunpark o, hat, hord,
        Or.inr ⟨e, he, hpage.order e he, hroom⟩⟩

theorem LatePhase.kmalloc (h : LatePhase r) (flags : Nat) (hsize : size ≤ 2048)
    (hgrant : GrantsOff P r.s.phys.pmm r.pt)
    (hspared : ∀ e ∈ r.early, orderOf e.2 = orderOf size →
      r.early.length = classBlocks (orderOf size)) :
    ∃ r', ((bootCalls P).step (.kmalloc size flags)).run r = .ok () r' ∧ LatePhase r' := by
  obtain ⟨o, x, s₀, ord, hs, hat, hord, hparked⟩ := h.parked
  have hpmm : s₀.phys.pmm = r.s.phys.pmm := by rw [hs]; rfl
  rw [← hpmm] at hgrant
  obtain ⟨p, s', hrun, hserved, _⟩ := kmalloc_spec flags hat hsize hgrant.1
  obtain ⟨ord', hat', hord'⟩ := hserved.heap
  have horder : orderOf size ≠ o := by
    intro heq
    rcases hparked with rfl | ⟨e, he, heo, hlen⟩
    · rcases getOrder_spec hat.shape size with ⟨_, hlarge⟩ | ⟨ho, _⟩
      · omega
      · omega
    · exact hlen (heq ▸ hspared e he (heo.trans heq.symm))
  have hrun' := (commutes_kmalloc (x := x) (tracked P) hat.shape horder flags).ok hrun
  rw [← hs] at hrun'
  refine ⟨⟨r.pt, s'.park o x, r.early, (p, size) :: r.late⟩, ?_, hat'.on, h.inside, h.apart, ?_,
    o, x, s', ord', rfl, hat', ?_, hparked⟩
  · show (BootRun.step P (.kmalloc size flags)).run r = _
    rw [BootRun.step, run_bind_ok (BootRun.run_call hrun'), if_pos hserved.ne_null,
      EStateM.run_modify, BootRun.add_late (by exact hat'.on)]
  · intro page hp
    have hp' : page ∈ s'.phys.pmm.held := hp
    rcases hserved.pmm with hsame | hdrawn
    · rw [hsame, hpmm] at hp'
      exact h.off_buffer page hp'
    · have hoff := hgrant.drawn hdrawn
      obtain ⟨_, _, _, _, ht⟩ := hdrawn
      rw [ht] at hp'
      rcases List.mem_cons.mp hp' with rfl | hp'
      · exact hoff
      · rw [hpmm] at hp'
        exact h.off_buffer page hp'
  · intro q
    rcases hord' q with heq | heq
    · rw [heq]
      exact hord q
    · rw [heq]
      exact horder

theorem LatePhase.kfree (h : LatePhase r) {ptr : Nat} (hptr : ptr ∈ r.live.map Prod.fst)
    (hlate : ptr ∉ r.early.map Prod.fst)
    (htake : TakesBack P r.s.phys.pmm (givenBack (pageDesc (ptr - 8)))) :
    ∃ r', ((bootCalls P).step (.kfree ptr)).run r = .ok () r' ∧ LatePhase r' := by
  obtain ⟨o, x, s₀, ord, hs, hat, hord, hparked⟩ := h.parked
  have hpmm : s₀.phys.pmm = r.s.phys.pmm := by rw [hs]; rfl
  have hmem : ptr ∈ r.late.map Prod.fst := by
    rw [BootRun.live, List.map_append, List.mem_append] at hptr
    exact hptr.resolve_left hlate
  have hearly : (r.early.filter fun e => e.1 ≠ ptr) = r.early := by
    refine List.filter_eq_self.mpr ?_
    intro e he
    refine decide_eq_true ?_
    intro heq
    exact hlate (heq ▸ List.mem_map_of_mem he)
  rw [← hpmm] at htake
  obtain ⟨s', hrun, hat', _, hcases⟩ := simpleFree_spec hat hmem htake
  -- The page of the block is not of the class that is parked.
  obtain ⟨_, _, hheap⟩ := hat.heap
  obtain ⟨page, hp, b, hb, heq⟩ := (hheap.pages.live_iff ptr).mp hmem
  have hbd := hheap.pages.block_bounds hp hb.1
  have hpage := hheap.pages.page page hp
  have hword : toInt32 (load32 s₀.phys.mem (pageDesc ((ptr + 2 ^ 32 - 8) % 2 ^ 32) + 8)) =
      (ord page : Int) := by
    rw [show (ptr + 2 ^ 32 - 8) % 2 ^ 32 = b by omega, hheap.pages.pageDesc_eq hp hb.1]
    exact hheap.pages.pageOrder_eq hp
  have hrun' := (commutes_simpleFree (x := x) (tracked P) (hord page) hword).ok hrun
  rw [← hs, ← kfree_eq _ (by omega)] at hrun'
  refine ⟨⟨r.pt, s'.park o x, r.early, r.late.filter fun e => e.1 ≠ ptr⟩, ?_, hat'.on, h.inside,
    h.apart, ?_, o, x, s', ord, rfl, hat', hord, hparked⟩
  · show (BootRun.step P (.kfree ptr)).run r = _
    rw [BootRun.step, run_bind_ok (BootRun.run_call hrun'), EStateM.run_modify, BootRun.drop]
    simp only [hearly]
  · intro q hq
    refine h.off_buffer q ?_
    have hq' : q ∈ s'.phys.pmm.held := hq
    show q ∈ r.s.phys.pmm.held
    rw [← hpmm]
    rcases hcases with hback | ⟨_, hgave⟩
    · rw [hback.pmm] at hq'
      exact hq'
    · obtain ⟨_, _, _, ht⟩ := hgave
      rw [ht] at hq'
      exact (List.mem_filter.mp hq').1

theorem LatePhase.write (h : LatePhase r) {a : Nat} (v : UInt8) (ha : a < 2 ^ 32)
    (hout : (∃ e ∈ r.live, e.1 ≤ a ∧ a < e.1 + e.2) ∨
      ∀ page ∈ r.held, a < page ∨ page + 4096 ≤ a) :
    LatePhase { r with
      s := { r.s with phys := { r.s.phys with mem := r.s.phys.mem.store8 a v } } } := by
  obtain ⟨o, x, s₀, ord, hs, hat, hord, hparked⟩ := h.parked
  have hheld : s₀.phys.pmm.held = r.held := by rw [BootRun.held, hs]; rfl
  refine ⟨h.on, h.inside, h.apart, h.off_buffer, o, x, _, ord, ?_, hat.write (v := v) ha ?_, hord,
    hparked⟩
  · rw [hs]
    rfl
  · rw [hheld]
    rcases hout with ⟨e, he, hlo, hhi⟩ | hout
    · rcases List.mem_append.mp he with he | he
      · -- An early block is in no page.
        refine Or.inr ?_
        intro page hp
        have hin := h.inside e he
        have hoff := h.off_buffer page hp
        omega
      · exact Or.inl ⟨e, he, hlo, hhi⟩
    · exact Or.inr hout

end Second

/-! ## Every run -/

variable {r : BootRun σ}

theorem earlyPhase_init {P : PageAllocator σ} (h : (bootCalls P).init r) : EarlyPhase r := by
  obtain ⟨⟨s₀, hsizes, hrun⟩, hpos, hend, hheld, hearly, hlate⟩ := h
  have hcheck : (simpleAllocatorBootstrap r.pt).run s₀ =
      .ok 0 { s₀ with isPageAllocOn := false, tmpMemPt := r.pt } := by
    rw [simpleAllocatorBootstrap, run_bind_ok (EStateM.run_modify _ _),
      run_bind_ok (EStateM.run_get _), hsizes]
    rfl
  rw [hcheck] at hrun
  injection hrun with _ hs
  have hsizes' : r.s.sizes = initialSizes := by rw [← hs]; exact hsizes
  refine ⟨by rw [← hs], by rw [hsizes']; rfl, hheld, hlate, by rw [← hs], ⟨hpos, hend⟩,
    Or.inl ⟨hearly, ?_⟩⟩
  rw [hsizes']
  decide

/-- The buffer is a page of blocks, or it is parked. -/
theorem boot_invariant (P : PageAllocator σ) :
    ((bootCalls P).restrict Spared).Invariant fun r => EarlyPhase r ∨ LatePhase r where
  init r hr := Or.inl (earlyPhase_init (P := P) hr)
  step r i h hl := by
    obtain ⟨hl, hspared⟩ := hl
    cases i with
    | kmalloc size flags =>
        rcases h with h | h
        · simp only [Spared, h.off, Bool.false_eq_true, if_false] at hspared
          obtain ⟨r', hrun, hr'⟩ := h.kmalloc (P := P) flags hl.1 hspared.1 hspared.2
          exact ⟨r', hrun, Or.inl hr'⟩
        · simp only [Spared, h.on, if_true] at hspared
          obtain ⟨r', hrun, hr'⟩ := h.kmalloc (P := P) flags hl.1 (hl.2 h.on) hspared
          exact ⟨r', hrun, Or.inr hr'⟩
    | init =>
        rcases h with h | h
        · exact ⟨_, rfl, Or.inr h.init⟩
        · have hoff : r.s.isPageAllocOn = false := hl
          rw [h.on] at hoff
          cases hoff
    | kfree ptr =>
        rcases h with h | h
        · have hon : r.s.isPageAllocOn = true := hl.1
          rw [h.off] at hon
          cases hon
        · obtain ⟨r', hrun, hr'⟩ := h.kfree (P := P) hl.2.1 hspared hl.2.2
          exact ⟨r', hrun, Or.inr hr'⟩
    | write a v =>
        rcases h with h | h
        · refine ⟨_, rfl, Or.inl (h.write v hl.1 ?_)⟩
          have hlive : r.live = r.early := by rw [BootRun.live, h.late, List.append_nil]
          rw [← hlive]
          exact hl.2.imp id fun hout => hout.2
        · exact ⟨_, rfl, Or.inr (h.write v hl.1 (hl.2.imp id fun hout => hout.1))⟩

theorem LatePhase.ok (h : LatePhase r) : BootOk r := by
  obtain ⟨o, x, s₀, ord, hs, hat, _, _⟩ := h.parked
  obtain ⟨_, _, hheap⟩ := hat.heap
  have hheld : s₀.phys.pmm.held = r.held := by rw [BootRun.held, hs]; rfl
  -- A late block is in a page, and no page meets the buffer.
  have hout : ∀ e ∈ r.late, e.1 + e.2 ≤ r.pt ∨ r.pt + 4096 ≤ e.1 - 8 := by
    intro e he
    obtain ⟨page, hp, b, hb, heb, hesize⟩ := hheap.pages.block_of_live he
    have hbd := hheap.pages.block_bounds hp hb.1
    rw [hheld] at hp
    have hoff := h.off_buffer page hp
    omega
  refine ⟨List.pairwise_append.mpr ⟨h.apart, hheap.pages.live_apart, ?_⟩, hout⟩
  intro e he f hf
  have hin := h.inside e he
  have hf' := hout f hf
  unfold BlocksApart
  omega

theorem EarlyPhase.ok (h : EarlyPhase r) : BootOk r := by
  have hlive : r.live = r.early := by rw [BootRun.live, h.late, List.append_nil]
  constructor
  · rw [hlive]
    rcases h.page with ⟨hnil, _⟩ | ⟨o, free, _, hpage⟩
    · rw [hnil]
      exact List.Pairwise.nil
    · exact hpage.blocks.2
  · intro e he
    rw [h.late] at he
    cases he

/-- In a run of careful calls the live blocks stay apart, and no late block is
in the buffer. -/
theorem boot_run_ok {P : PageAllocator σ} {r : BootRun σ}
    (h : ((bootCalls P).restrict Spared).Reachable r) :
    BootOk r ∧ ((bootCalls P).restrict Spared).Returns r := by
  have hinv := Machine.reachable_of_inv (boot_invariant P) h
  refine ⟨?_, (boot_invariant P).returns hinv⟩
  rcases hinv with hinv | hinv
  · exact hinv.ok
  · exact hinv.ok

/-- A buffer below the pages of `bumpPages`, after `simple_allocator_bootstrap`. -/
def bootStart : BootRun Nat where
  pt := 0x8010
  s := ⟨⟨fun _ => 0x20, ⟨0x100000, []⟩⟩, initialSizes, false, 0x8010, []⟩
  early := []
  late := []

theorem bootStart_init : (bootCalls bumpPages).init bootStart :=
  ⟨⟨bootStart.s, rfl, rfl⟩, by decide, by decide, rfl, rfl, rfl⟩

/-- Two requests of one class before `simple_allocator_init`, and two of other
classes after it. -/
theorem boot_run_ok_careful : ∃ r, ((bootCalls bumpPages).restrict Spared).Reachable r ∧
    r.early = [(0x8048, 20), (0x8028, 24)] ∧ r.late = [(0x101018, 50)] ∧
    BootOk r ∧ ((bootCalls bumpPages).restrict Spared).Returns r := by
  have h₀ : ((bootCalls bumpPages).restrict Spared).Reachable bootStart := .init bootStart_init
  obtain ⟨r, hreach, hseen⟩ := h₀.sees
    [.kmalloc 24 0, .kmalloc 20 0, .init, .kmalloc 100 0, .kmalloc 50 2, .kfree 0x100018]
    (fun r => (r.early, r.late)) ([(0x8048, 20), (0x8028, 24)], [(0x101018, 50)])
    (by decide +kernel) (by decide +kernel)
  obtain ⟨hearly, hlate⟩ := Prod.mk.inj hseen
  exact ⟨r, hreach, hearly, hlate, boot_run_ok hreach⟩

/-- Requests of two classes before `simple_allocator_init` are answered with one
block. A request after it is answered with a block of the buffer. -/
theorem boot_buffer_reused :
    (∃ r, (bootCalls bumpPages).Reachable r ∧ r.early = [(0x8028, 100), (0x8028, 24)] ∧
      ¬ BootOk r) ∧
    ∃ r, (bootCalls bumpPages).Reachable r ∧ r.late = [(0x8048, 24)] ∧
      (∀ e ∈ r.late, r.pt ≤ e.1 - 8 ∧ e.1 + e.2 ≤ r.pt + 4096) ∧ ¬ BootOk r := by
  have h₀ := Machine.Reachable.init bootStart_init
  obtain ⟨r₁, hr₁, hv₁⟩ := h₀.sees [.kmalloc 24 0, .kmalloc 100 0] (fun r => (r.early, r.late))
    ([(0x8028, 100), (0x8028, 24)], []) (by decide +kernel) (by decide +kernel)
  obtain ⟨r₂, hr₂, hv₂⟩ := h₀.sees [.kmalloc 24 0, .init, .kmalloc 24 0] (fun r => (r.late, r.pt))
    ([(0x8048, 24)], 0x8010) (by decide +kernel) (by decide +kernel)
  obtain ⟨hearly, hlate⟩ := Prod.mk.inj hv₁
  obtain ⟨hlate₂, hpt⟩ := Prod.mk.inj hv₂
  refine ⟨⟨r₁, hr₁, hearly, ?_⟩, ⟨r₂, hr₂, hlate₂, ?_, ?_⟩⟩
  · intro hok
    have hdis := hok.disjoint
    rw [BootRun.live, hearly, hlate, List.append_nil, List.pairwise_cons] at hdis
    have hap := hdis.1 _ List.mem_cons_self
    rcases hap with hap | hap
    · exact absurd hap (by decide)
    · exact absurd hap (by decide)
  · rw [hlate₂, hpt]
    decide
  · intro hok
    have hout := hok.outside (0x8048, 24) (by simp [hlate₂])
    rw [hpt] at hout
    exact absurd hout (by decide)

end Aim.Kern
