import Aim.Kern.Vmm
import Aim.Proofs.SimplePages

/-!
# The length of a block

`simple_alloc` writes the length of a block into its header, behind the flags
and in front of the payload. The word is a link while the block is free, and
the length of the block from the time it is handed out to the time it comes
back: that is an invariant of the calls of clients (`hasLengths_of_reachable`).

`simple_size` is given the pointer to the payload and reads the word at the same
place relative to that. So what `ksize` answers is not the length but a word of
the payload, and the owner of the block decides what it is.
-/

namespace Aim.Kern

open Aim.Lib Mem

variable {σ : Type}

/-- A byte is written to memory. -/
def SimpleRun.poke (r : SimpleRun σ) (a : Nat) (v : UInt8) : SimpleRun σ :=
  { r with s := { r.s with phys := { r.s.phys with mem := r.s.phys.mem.store8 a v } } }

/-! ## The header has it -/

/-- Every live block has the length that was asked for in its header. -/
def HasLengths (r : SimpleRun σ) : Prop := ∀ e ∈ r.live, load32 r.mem (e.1 - 4) = e.2

theorem HasLengths.of_same {r r' : SimpleRun σ} (h : HasLengths r)
    (hlive : ∀ e ∈ r'.live, e ∈ r.live) (hsame : SameLengths r.mem r'.mem r'.live) :
    HasLengths r' :=
  fun e he => (hsame e he).trans (h e (hlive e he))

theorem hasLengths_step {P : PageAllocator σ} {r r' : SimpleRun (Logged σ)} {i : KmallocCall}
    (hinv : PagesInv r) (h : HasLengths r) (hl : (kmallocCalls P).legal r i)
    (hs : ((kmallocCalls P).step i).run r = .ok () r') : HasLengths r' := by
  obtain ⟨ord, hat⟩ := hinv.inv.classes
  cases i with
  | kmalloc size flags =>
      by_cases hsize : size ≤ 2048
      · obtain ⟨p, s', hrun, hserved, hlength⟩ := kmalloc_spec flags hat hsize hl
        rw [kstep_kmalloc hrun hserved.ne_null] at hs
        injection hs with _ hr
        subst hr
        intro e he
        rcases List.mem_cons.mp he with rfl | he
        · exact hlength.new
        · exact (hlength.old e he).trans (h e he)
      · rw [kstep_kmalloc_large flags hsize] at hs
        cases hs
  | kfree ptr =>
      rcases hl with rfl | hl
      · injection hs with _ hr
        subst hr
        exact h.of_same (fun e he => List.mem_of_mem_filter he) fun _ _ => rfl
      · obtain ⟨s', hrun, _, hlengths, _⟩ := simpleFree_spec hat hl.1 hl.2
        rw [kstep_kfree (hinv.inv.ne_null hl.1) hrun] at hs
        injection hs with _ hr
        subst hr
        exact h.of_same (fun e he => List.mem_of_mem_filter he) hlengths
  | write a v =>
      injection hs with _ hr
      subst hr
      obtain ⟨_, _, free, lists, hheap⟩ := hat
      refine h.of_same (fun _ he => he) (hheap.pages.sameLengths ?_)
      exact fun q hq w hw => hheap.load_store8 hq (Or.inr hw) hl.1 hl.2

theorem hasLengths_of_reachable {P : PageAllocator σ} {r : SimpleRun (Logged σ)}
    (h : (kmallocCalls P).Reachable r) : HasLengths r := by
  have hboth : PagesInv r ∧ HasLengths r := by
    refine Machine.reachable_of_kept (I := fun r => PagesInv r ∧ HasLengths r) ?_ ?_ h
    · intro r hi
      refine ⟨pagesInv_init hi, ?_⟩
      rw [HasLengths, hi.1.2.2.2.2]
      intro e he
      cases he
    · intro r i r' hI hl hs
      exact ⟨pagesInv_step hI.1 hl hs, hasLengths_step hI.1 hI.2 hl hs⟩
  exact hboth.2

/-! ## `ksize` does not read it -/

theorem run_ksize (P : PageAllocator σ) {p : Nat} (hp : p ≠ 0) (s : Simple σ) :
    (Vmm.ksize (simpleAllocator P) p).run s = .ok (load32 s.phys.mem (p + 4)) s := by
  rw [Vmm.ksize, if_pos hp]
  rfl

section Poke

variable {P : PageAllocator σ} {r : SimpleRun (Logged σ)} {p n a : Nat}

/-- The payload of a live block does not reach the end of memory. -/
theorem live_end (hr : (kmallocCalls P).Reachable r) (hlive : (p, n) ∈ r.live) :
    p ≠ 0 ∧ p + n ≤ 2 ^ 32 := by
  have hinv := (pagesInv_of_reachable hr).inv
  refine ⟨hinv.ne_null (List.mem_map_of_mem hlive), ?_⟩
  obtain ⟨_, _, _, _, _, hheap⟩ := hinv
  obtain ⟨page, hp, b, hb, heq⟩ := (hheap.pages.live_iff p).mp (List.mem_map_of_mem hlive)
  have hbd := hheap.pages.block_bounds hp hb.1
  have hpage := hheap.pages.page page hp
  have hsize := hheap.pages.live_size (p, n) hlive page hp (by simp only []; omega)
    (by simp only []; omega)
  simp only [] at hsize
  omega

/-- The owner of a block writes a byte of its payload. -/
theorem reachable_poke (hr : (kmallocCalls P).Reachable r) (hlive : (p, n) ∈ r.live)
    (hlo : p ≤ a) (hhi : a < p + n) (v : UInt8) : (kmallocCalls P).Reachable (r.poke a v) := by
  have hend := live_end hr hlive
  refine Machine.Reachable.step (i := .write a v) hr ?_ rfl
  exact ⟨by omega, Or.inl ⟨(p, n), hlive, hlo, hhi⟩⟩

/-- The owner writes a word. -/
theorem reachable_word (hr : (kmallocCalls P).Reachable r) (hlive : (p, n) ∈ r.live)
    (hlo : p ≤ a) (hhi : a + 4 ≤ p + n) {v : Nat} (hv : v < 2 ^ 32) :
    ∃ r', (kmallocCalls P).Reachable r' ∧ r'.live = r.live ∧ load32 r'.mem a = v := by
  refine ⟨(((r.poke a (UInt8.ofNat v)).poke (a + 1) (UInt8.ofNat (v / 2 ^ 8))).poke (a + 2)
    (UInt8.ofNat (v / 2 ^ 16))).poke (a + 3) (UInt8.ofNat (v / 2 ^ 24)), ?_, rfl,
    load32_store8_bytes r.mem a hv⟩
  have h₁ := reachable_poke hr hlive hlo (by omega) (UInt8.ofNat v)
  have h₂ := reachable_poke (a := a + 1) h₁ hlive (by omega) (by omega) (UInt8.ofNat (v / 2 ^ 8))
  have h₃ := reachable_poke (a := a + 2) h₂ hlive (by omega) (by omega)
    (UInt8.ofNat (v / 2 ^ 16))
  exact reachable_poke h₃ hlive (by omega) (by omega) _

end Poke

/-- `ksize` answers the second word of the payload. That is the length if the
owner wrote the length there; the length itself is in the header, whatever was
called and written since. -/
theorem ksize_eq_iff (P : PageAllocator σ) :
    (∀ (s : Simple σ) (p n : Nat), p ≠ 0 →
      ((Vmm.ksize (simpleAllocator P) p).run s = .ok n s ↔ load32 s.phys.mem (p + 4) = n)) ∧
    ∀ r, (kmallocCalls P).Reachable r → ∀ p n, (p, n) ∈ r.live →
      load32 r.mem (p - 4) = n ∧
      (8 ≤ n → ∀ v < 2 ^ 32, ∃ r', (kmallocCalls P).Reachable r' ∧ r'.live = r.live ∧
        (Vmm.ksize (simpleAllocator (tracked (logged P))) p).run r'.s = .ok v r'.s) := by
  constructor
  · intro s p n hp
    rw [run_ksize P hp]
    constructor
    · intro h
      injection h
    · intro h
      rw [h]
  · intro r hr p n hlive
    refine ⟨hasLengths_of_reachable hr (p, n) hlive, ?_⟩
    intro hn v hv
    obtain ⟨r', hr', hlive', hword⟩ :=
      reachable_word (a := p + 4) hr hlive (by omega) (by omega) hv
    refine ⟨r', hr', hlive', ?_⟩
    rw [run_ksize _ (live_end hr hlive).1]
    exact congrArg (EStateM.Result.ok · r'.s) hword

/-- A cleared block of sixteen bytes is said to have none. -/
theorem ksize_cleared : ∃ r, (kmallocCalls bumpPages).Reachable r ∧ (0x100018, 16) ∈ r.live ∧
    (Vmm.ksize (simpleAllocator (tracked (logged bumpPages))) 0x100018).run r.s = .ok 0 r.s := by
  have h₀ : (kmallocCalls bumpPages).Reachable bumpLogged :=
    .init ⟨⟨⟨bumpLogged.s, rfl⟩, rfl, by decide, rfl, rfl⟩, rfl⟩
  obtain ⟨r, hreach, hseen⟩ := h₀.sees [.kmalloc 16 2]
    (fun r => (r.live, load32 r.mem (0x100018 + 4))) ([(0x100018, 16)], 0) (by decide +kernel)
    (by decide +kernel)
  obtain ⟨hlive, hword⟩ := Prod.mk.inj hseen
  refine ⟨r, hreach, by simp [hlive], ?_⟩
  rw [run_ksize _ (by decide)]
  exact congrArg (EStateM.Result.ok · r.s) hword

end Aim.Kern
