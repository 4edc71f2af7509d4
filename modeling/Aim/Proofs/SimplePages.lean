import Aim.Proofs.SimpleBlocks

/-!
# Pages that come and go

A page is asked for when a class has no free block, and it goes back with the
last of its blocks. Here the page allocator is asked to write down what is
asked of it: `logged P` does what `P` does and keeps a list of the pages it
handed out and of those it was given. `replay` reads such a list: it follows
the pages that are out, and refuses a page that is handed out while it is out,
or given back while it is not.

What `simple_free` does to a page is decided by the other live blocks of the
page, and is taken from `simpleFree_cases`. That the page is off its list
before it is given back cannot be read off from the states between calls; it
is said of the state `s₁` in which the call gets to `pgfree`, which is the same
for every page allocator.
-/

namespace Aim.Kern

open Aim.Lib Mem

variable {σ : Type} {P : PageAllocator σ}

/-! ## The log -/

inductive PageEvent where
  | got (page : Nat)
  | gave (page : Nat)
  deriving DecidableEq

structure Logged (σ : Type) where
  inner : σ
  /-- The last event first. -/
  events : List PageEvent

namespace Logged

def call {α : Type} (x : EStateM Stop σ α) : EStateM Stop (Logged σ) α :=
  zoom inner (fun a t => { t with inner := a }) x

end Logged

/-- The page allocator `P`, with a log of its requests. -/
def logged (P : PageAllocator σ) : PageAllocator (Logged σ) where
  alloc pages := do
    let (result, p) ← Logged.call (P.alloc pages)
    if result = 0 then modify fun t => { t with events := .got (p.paddr % 2 ^ 32) :: t.events }
    return (result, p)
  free pages := do
    let p ← Logged.call (P.free pages)
    modify fun t => { t with events := .gave (pages.paddr % 2 ^ 32) :: t.events }
    return p
  getFree := Logged.call P.getFree

/-- The pages that are out after the events. -/
def replay : List PageEvent → Option (List Nat)
  | [] => some []
  | .got page :: es => do
      let held ← replay es
      if page ∈ held then none else some (page :: held)
  | .gave page :: es => do
      let held ← replay es
      if page ∈ held then some (held.filter (· ≠ page)) else none

theorem replay_got {es : List PageEvent} {held : List Nat} {page : Nat}
    (h : replay es = some held) (hp : page ∉ held) :
    replay (.got page :: es) = some (page :: held) := by
  rw [replay, h, Option.bind_eq_bind, Option.bind_some, if_neg hp]

theorem replay_gave {es : List PageEvent} {held : List Nat} {page : Nat}
    (h : replay es = some held) (hp : page ∈ held) :
    replay (.gave page :: es) = some (held.filter (· ≠ page)) := by
  rw [replay, h, Option.bind_eq_bind, Option.bind_some, if_pos hp]

section Events

variable {P : PageAllocator σ} {t t' : Tracked (Logged σ)} {page : Nat}

theorem Drawn.events (h : Drawn (logged P) t t' page) :
    t'.inner.events = .got page :: t.inner.events ∧ t'.held = page :: t.held := by
  obtain ⟨p, inner, hrun, rfl, rfl⟩ := h
  refine ⟨?_, rfl⟩
  rw [logged] at hrun
  simp only [EStateM.run_bind, Logged.call] at hrun
  cases hP : (P.alloc ⟨0, pgSize, 0⟩).run t.inner.inner with
  | error e s =>
      rw [run_zoom_error hP] at hrun
      cases hrun
  | ok x s =>
      obtain ⟨result, p'⟩ := x
      rw [run_zoom_ok hP] at hrun
      by_cases h0 : result = 0
      · simp only [if_pos h0] at hrun
        injection hrun with hx hs
        obtain ⟨_, rfl⟩ := Prod.mk.inj hx
        rw [← hs]
      · simp only [if_neg h0] at hrun
        injection hrun with hx hs
        exact absurd (Prod.mk.inj hx).1 h0

theorem GaveBack.events {paddr : Nat} (h : GaveBack (logged P) t t' paddr) :
    t'.inner.events = .gave (paddr % 2 ^ 32) :: t.inner.events ∧
      t'.held = t.held.filter (· ≠ paddr % 2 ^ 32) := by
  obtain ⟨p, inner, hrun, rfl⟩ := h
  refine ⟨?_, rfl⟩
  rw [logged] at hrun
  simp only [EStateM.run_bind, Logged.call] at hrun
  cases hP : (P.free ⟨paddr, pgSize, 0⟩).run t.inner.inner with
  | error e s =>
      rw [run_zoom_error hP] at hrun
      cases hrun
  | ok x s =>
      rw [run_zoom_ok hP] at hrun
      injection hrun with _ hs
      rw [← hs]

end Events

/-! ## The component -/

inductive KmallocCall where
  | kmalloc (size flags : Nat)
  | kfree (ptr : Nat)
  | write (a : Nat) (v : UInt8)

def SimpleRun.events (r : SimpleRun (Logged σ)) : List PageEvent := r.s.phys.pmm.inner.events

def SimpleRun.kstep (P : PageAllocator σ) : KmallocCall → EStateM Stop (SimpleRun σ) Unit
  | .kmalloc size flags => do
      let p ← call (Vmm.kmalloc (simpleAllocator (tracked P)) size flags)
      if p ≠ 0 then modify fun r => { r with live := (p, size) :: r.live }
  | .kfree ptr => do
      call (Vmm.kfree (simpleAllocator (tracked P)) ptr)
      modify fun r => { r with live := r.live.filter fun e => e.1 ≠ ptr }
  | .write a v => step P (.write a v)

/-- The calls of clients, from `simple_allocator_init` on. A request that is
too large is permitted, and stops the machine. -/
def kmallocCalls (P : PageAllocator σ) : Machine Stop (SimpleRun (Logged σ)) KmallocCall where
  init r := (simpleCalls (logged P)).init r ∧ r.events = []
  legal r
    | .kmalloc _ _ => Grants (logged P) r.s.phys.pmm
    | .kfree ptr => ptr = 0 ∨ (simpleCalls (logged P)).legal r (.free ptr)
    | .write a v => (simpleCalls (logged P)).legal r (.write a v)
  step := SimpleRun.kstep (logged P)

instance (P : PageAllocator σ) (r : SimpleRun (Logged σ)) :
    ∀ i, Decidable ((kmallocCalls P).legal r i)
  | .kmalloc _ _ => inferInstanceAs (Decidable (Grants _ _))
  | .kfree _ => inferInstanceAs (Decidable (_ ∨ _))
  | .write a v => inferInstanceAs (Decidable ((simpleCalls (logged P)).legal r (.write a v)))

section Calls

variable {P : PageAllocator σ} {r : SimpleRun (Logged σ)} {s' : Simple (Tracked (Logged σ))}

theorem kstep_kmalloc {size flags p : Nat}
    (h : (Vmm.kmalloc (simpleAllocator (tracked (logged P))) size flags).run r.s = .ok p s')
    (hp : p ≠ 0) :
    ((kmallocCalls P).step (.kmalloc size flags)).run r = .ok () ⟨s', (p, size) :: r.live⟩ := by
  show (SimpleRun.kstep (logged P) (.kmalloc size flags)).run r = _
  rw [SimpleRun.kstep, run_bind_ok (SimpleRun.run_call h), if_pos hp]
  rfl

/-- `kmalloc` panics on a size that is too large. -/
theorem kstep_kmalloc_large {size : Nat} (flags : Nat) (hsize : ¬ size ≤ 2048) :
    ((kmallocCalls P).step (.kmalloc size flags)).run r =
      .error (.panic "kmalloc: size %lu too large\n" [size]) r := by
  refine run_bind_error (run_zoom_error ?_)
  rw [Vmm.kmalloc, if_pos (show size > pgSize / 2 by unfold pgSize; omega)]
  rfl

theorem kstep_kfree {ptr : Nat} (hptr : ptr ≠ 0)
    (h : (simpleFree (tracked (logged P)) ptr).run r.s = .ok () s') :
    ((kmallocCalls P).step (.kfree ptr)).run r =
      .ok () ⟨s', r.live.filter fun e => e.1 ≠ ptr⟩ := by
  show (SimpleRun.kstep (logged P) (.kfree ptr)).run r = _
  rw [SimpleRun.kstep, kfree_eq _ hptr, run_bind_ok (SimpleRun.run_call h)]
  rfl

end Calls

/-- No block is at `NULL`. -/
theorem SimpleInv.ne_null {s : Simple (Tracked σ)} {live : List (Nat × Nat)} {p : Nat}
    (h : SimpleInv s live) (hp : p ∈ live.map Prod.fst) : p ≠ 0 := by
  obtain ⟨_, _, _, _, _, hheap⟩ := h
  obtain ⟨_, _, b, _, rfl⟩ := (hheap.pages.live_iff p).mp hp
  omega

/-- The page of a live block. -/
def pageOf (e : Nat × Nat) : Nat := pageDesc (e.1 - 8)

/-- Every held page has a live block, and the log is that of the held pages. -/
structure PagesInv (r : SimpleRun (Logged σ)) : Prop where
  inv : SimpleInv r.s r.live
  occupied : ∀ page ∈ r.held, ∃ e ∈ r.live, pageOf e = page
  replayed : replay r.events = some r.held

section Steps

variable {P : PageAllocator σ} {r : SimpleRun (Logged σ)}

/-- A request is met from a page that was there, or from one new page. -/
theorem PagesInv.kmalloc (h : PagesInv r) {size : Nat} (flags : Nat) (hsize : size ≤ 2048)
    (hgrant : Grants (logged P) r.s.phys.pmm) :
    ∃ r', ((kmallocCalls P).step (.kmalloc size flags)).run r = .ok () r' ∧ PagesInv r' ∧
      (r'.events = r.events ∧ r'.held = r.held ∨ ∃ page, page ∉ r.held ∧
        r'.events = .got page :: r.events ∧ r'.held = page :: r.held) := by
  obtain ⟨ord, hat⟩ := h.inv.classes
  obtain ⟨p, s', hrun, hserved, _⟩ := kmalloc_spec flags hat hsize hgrant
  obtain ⟨ord', hat', _⟩ := hserved.heap
  have hold : ∀ page ∈ r.held, ∃ e ∈ (p, size) :: r.live, pageOf e = page := by
    intro page hp
    obtain ⟨e, he, hpe⟩ := h.occupied page hp
    exact ⟨e, List.mem_cons_of_mem _ he, hpe⟩
  refine ⟨_, kstep_kmalloc hrun hserved.ne_null, ?_⟩
  rcases hserved.pmm with hpmm | hdrawn
  · have hevents : SimpleRun.events ⟨s', (p, size) :: r.live⟩ = r.events := by
      rw [SimpleRun.events, hpmm]
      rfl
    have hheld : SimpleRun.held ⟨s', (p, size) :: r.live⟩ = r.held := by
      rw [SimpleRun.held, hpmm]
      rfl
    refine ⟨⟨hat'.inv, ?_, ?_⟩, Or.inl ⟨hevents, hheld⟩⟩
    · rw [hheld]
      exact hold
    · rw [hevents, hheld]
      exact h.replayed
  · obtain ⟨hevents, hheld⟩ := hdrawn.events
    obtain ⟨_, _, hheap⟩ := hat'.heap
    have hnodup := hheap.pages.nodup
    rw [hheld, List.nodup_cons] at hnodup
    refine ⟨⟨hat'.inv, ?_, ?_⟩, Or.inr ⟨pageDesc (p - 8), hnodup.1, hevents, hheld⟩⟩
    · intro page hp
      rw [SimpleRun.held, hheld] at hp
      rcases List.mem_cons.mp hp with hpage | hp
      · exact ⟨_, List.mem_cons_self, hpage.symm⟩
      · exact hold page hp
    · rw [SimpleRun.events, hevents, SimpleRun.held, hheld]
      exact replay_got h.replayed hnodup.1

/-- No list points to the page any more. -/
def Unlinked (s : Simple (Tracked σ)) (page : Nat) : Prop :=
  (∀ o < 8, firstOf s.sizes o ≠ page) ∧
    ∀ q ∈ s.phys.pmm.held, q ≠ page → load32 s.phys.mem q ≠ page

/-- The call gets to `pgfree`, with `page`, in the state `s₁`. It calls no
function of the page allocator before that, and none after it. -/
def GivesBackAt (s s₁ : Simple (Tracked σ)) (ptr page : Nat) : Prop :=
  ∃ k : EStateM Stop (Simple (Tracked σ)) Unit, ∀ P' : PageAllocator (Tracked σ),
    (Vmm.kfree (simpleAllocator P') ptr).run s =
      (onPhys (pgfree P' (givenBack page)) >>= fun _ => k).run s₁

/-- What a `kfree` of the live block at `ptr` does to its page. -/
inductive FreedPage (r r' : SimpleRun (Logged σ)) (ptr : Nat) : Prop where
  /-- Another block of the page is live. -/
  | stays (e : Nat × Nat) (he : e ∈ r.live) (hne : e.1 ≠ ptr)
      (hpage : pageOf e = pageDesc (ptr - 8)) (events : r'.events = r.events)
      (held : r'.held = r.held)
  /-- This was the last one. -/
  | goes (s₁ : Simple (Tracked (Logged σ)))
      (last : ∀ e ∈ r.live, pageOf e = pageDesc (ptr - 8) → e.1 = ptr)
      (at_pgfree : GivesBackAt r.s s₁ ptr (pageDesc (ptr - 8)))
      (unlinked : Unlinked s₁ (pageDesc (ptr - 8)))
      (events : r'.events = .gave (pageDesc (ptr - 8)) :: r.events)
      (held : r'.held = r.held.filter (· ≠ pageDesc (ptr - 8)))

theorem PagesInv.kfree (h : PagesInv r) {ptr : Nat}
    (hl : (simpleCalls (logged P)).legal r (.free ptr)) :
    ∃ r', ((kmallocCalls P).step (.kfree ptr)).run r = .ok () r' ∧ PagesInv r' ∧
      pageDesc (ptr - 8) ∈ r.held ∧ FreedPage r r' ptr := by
  obtain ⟨ord, hat⟩ := h.inv.classes
  obtain ⟨s', hrun, hat', _, hcases⟩ := simpleFree_spec hat hl.1 hl.2
  have hheld := (simpleFree_cases hat hl.1).1
  obtain ⟨_, _, hheap⟩ := hat.heap
  have hptr := h.inv.ne_null hl.1
  have hkeep : ∀ e ∈ r.live, e.1 ≠ ptr → e ∈ r.live.filter fun e => e.1 ≠ ptr :=
    fun e he hne => List.mem_filter.mpr ⟨he, decide_eq_true hne⟩
  refine ⟨_, kstep_kfree hptr hrun, ?_⟩
  rcases hcases with hback | ⟨⟨s₁, hempty⟩, hgave⟩
  · have hevents : SimpleRun.events ⟨s', r.live.filter fun e => e.1 ≠ ptr⟩ = r.events := by
      rw [SimpleRun.events, hback.pmm]
      rfl
    have hheld' : SimpleRun.held ⟨s', r.live.filter fun e => e.1 ≠ ptr⟩ = r.held := by
      rw [SimpleRun.held, hback.pmm]
      rfl
    obtain ⟨f, hf, hne, hpage⟩ := hback.other
    refine ⟨⟨hat'.inv, ?_, ?_⟩, hheld, .stays f hf hne hpage hevents hheld'⟩
    · intro page hp
      rw [hheld'] at hp
      obtain ⟨e, he, hpe⟩ := h.occupied page hp
      by_cases heq : e.1 = ptr
      · exact ⟨f, hkeep f hf hne, by rw [pageOf, hpage, ← heq]; exact hpe⟩
      · exact ⟨e, hkeep e he heq, hpe⟩
    · rw [hevents, hheld']
      exact h.replayed
  · have hpage := hheap.pages.page _ hheld
    have hlow : givenBack (pageDesc (ptr - 8)) % 2 ^ 32 = pageDesc (ptr - 8) := by
      rw [givenBack, toInt32_low, Nat.mod_eq_of_lt (hheap.pages.page_lt hheld)]
    obtain ⟨hevents, hheld'⟩ := hgave.events
    rw [hlow] at hevents hheld'
    refine ⟨⟨hat'.inv, ?_, ?_⟩, hheld, .goes s₁ hempty.last ?_ ?_ hevents hheld'⟩
    · intro page hp
      rw [SimpleRun.held, hheld', List.mem_filter, decide_eq_true_eq] at hp
      obtain ⟨e, he, hpe⟩ := h.occupied page hp.1
      refine ⟨e, hkeep e he ?_, hpe⟩
      intro heq
      rw [pageOf, heq] at hpe
      exact hp.2 hpe.symm
    · rw [SimpleRun.events, hevents, SimpleRun.held, hheld']
      exact replay_gave h.replayed hheld
    · obtain ⟨size, hrun₁⟩ := hempty.run
      exact ⟨_, fun P' => by rw [kfree_eq P' hptr]; exact hrun₁ P'⟩
    · obtain ⟨_, _, hheap₁⟩ := hempty.heap
      have hnot : pageDesc (ptr - 8) ∉
          r.s.phys.pmm.held.filter (· ≠ pageDesc (ptr - 8)) := by
        rw [List.mem_filter]
        exact fun hmem => absurd rfl (of_decide_eq_true hmem.2)
      obtain ⟨hfirst, hlink⟩ := hheap₁.unlinked hnot hpage.1
      refine ⟨hfirst, ?_⟩
      intro q hq hne
      rw [hempty.pmm] at hq
      exact hlink q (List.mem_filter.mpr ⟨hq, decide_eq_true hne⟩)

end Steps

/-! ## Every run -/

variable {r : SimpleRun (Logged σ)}

theorem pagesInv_init (h : (kmallocCalls P).init r) : PagesInv r := by
  obtain ⟨hinit, hevents⟩ := h
  refine ⟨simpleInv_init hinit, ?_, ?_⟩
  · intro page hp
    rw [hinit.2.2.2.1] at hp
    cases hp
  · rw [hevents, hinit.2.2.2.1]
    rfl

theorem pagesInv_step {r r' : SimpleRun (Logged σ)} {i : KmallocCall} (h : PagesInv r)
    (hl : (kmallocCalls P).legal r i) (hs : ((kmallocCalls P).step i).run r = .ok () r') :
    PagesInv r' := by
  cases i with
  | kmalloc size flags =>
      by_cases hsize : size ≤ 2048
      · obtain ⟨r₁, hrun, hinv, _⟩ := h.kmalloc flags hsize hl
        rw [hrun] at hs
        injection hs with _ hr
        exact hr ▸ hinv
      · rw [kstep_kmalloc_large flags hsize] at hs
        cases hs
  | kfree ptr =>
      rcases hl with rfl | hl
      · -- `kfree(NULL)`: no live block is at `NULL`.
        have hnone : (r.live.filter fun e => e.1 ≠ 0) = r.live := by
          refine List.filter_eq_self.mpr ?_
          intro e he
          exact decide_eq_true (h.inv.ne_null (List.mem_map_of_mem he))
        have hrun : ((kmallocCalls P).step (.kfree 0)).run r =
            .ok () ⟨r.s, r.live.filter fun e => e.1 ≠ 0⟩ := rfl
        rw [hrun, hnone] at hs
        injection hs with _ hr
        exact hr ▸ h
      · obtain ⟨r₁, hrun, hinv, _⟩ := h.kfree hl
        rw [hrun] at hs
        injection hs with _ hr
        exact hr ▸ hinv
  | write a v =>
      obtain ⟨ord, hat⟩ := h.inv.classes
      injection hs with _ hr
      rw [← hr]
      exact ⟨(hat.write hl.1 hl.2).inv, h.occupied, h.replayed⟩

theorem pagesInv_of_reachable (h : (kmallocCalls P).Reachable r) : PagesInv r :=
  Machine.reachable_of_kept (fun _ hi => pagesInv_init hi)
    (fun _ _ _ hI hl hs => pagesInv_step hI hl hs) h

/-- The pages of the object allocator, between two calls and across the next
one. -/
structure PagesOk (P : PageAllocator σ) (r : SimpleRun (Logged σ)) : Prop where
  /-- A held page has a live block. -/
  occupied : ∀ page ∈ r.held, ∃ e ∈ r.live, pageOf e = page
  /-- A live block is in a held page. -/
  homed : ∀ e ∈ r.live, pageOf e ∈ r.held
  /-- Every page that was handed out and is not held was given back, once. -/
  replayed : replay r.events = some r.held
  /-- Without live blocks there are no pages, and the lists are empty. -/
  cleared : r.live = [] → r.held = [] ∧ ∀ o < 8, firstOf r.s.sizes o = 0
  /-- `kmalloc` gives no page back. -/
  kmalloc : ∀ size flags, (kmallocCalls P).legal r (.kmalloc size flags) → size ≤ 2048 →
    ∃ r', ((kmallocCalls P).step (.kmalloc size flags)).run r = .ok () r' ∧
      (r'.events = r.events ∧ r'.held = r.held ∨ ∃ page, page ∉ r.held ∧
        r'.events = .got page :: r.events ∧ r'.held = page :: r.held)
  /-- `kfree` gives the page of the block back if no other block of it is live,
  and no page otherwise. -/
  kfree : ∀ ptr, ptr ≠ 0 → (kmallocCalls P).legal r (.kfree ptr) →
    ∃ r', ((kmallocCalls P).step (.kfree ptr)).run r = .ok () r' ∧
      pageDesc (ptr - 8) ∈ r.held ∧ FreedPage r r' ptr

theorem PagesInv.cleared (h : PagesInv r) (hlive : r.live = []) :
    r.held = [] ∧ ∀ o < 8, firstOf r.s.sizes o = 0 := by
  have hheld : r.held = [] := by
    refine List.eq_nil_iff_forall_not_mem.mpr ?_
    intro page hp
    obtain ⟨e, he, _⟩ := h.occupied page hp
    rw [hlive] at he
    cases he
  obtain ⟨_, _, _, _, lists, hheap⟩ := h.inv
  refine ⟨hheld, ?_⟩
  intro o ho
  rcases (hheap.lists.chain o ho).start with h0 | hmem
  · exact h0
  · have hin := ((hheap.lists.mem_iff o ho _).mp hmem).1
    rw [show r.s.phys.pmm.held = [] from hheld] at hin
    cases hin

/-- `bumpRun`, with an empty log. -/
def bumpLogged : SimpleRun (Logged Nat) where
  s := ⟨⟨fun _ => 0x20, ⟨⟨0x100000, []⟩, []⟩⟩, initialSizes, true, 0, []⟩
  live := []

/-- `highRun`, with an empty log. -/
def highLogged : SimpleRun (Logged (List Nat)) where
  s := ⟨⟨fun _ => 0, ⟨⟨[0x10000000, 0x90000000], []⟩, []⟩⟩, initialSizes, true, 0, []⟩
  live := []

end Aim.Kern
