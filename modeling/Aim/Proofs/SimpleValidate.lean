import Aim.Proofs.SimpleRun

/-!
# What `simple_free` accepts

Before it writes anything, `simple_free` looks at the header in front of the
pointer and at the descriptor of the page the header is in. It takes the block
if the header is marked as used, the link is a page, and the order is not
negative and not above the number of entries of `sizes`. The table has nine
entries, of which the last one ends it, so the check lets two orders through
that are no class: `8`, the terminating entry, and `9`, behind the table.

For these the call does not get by without a trace. The first byte of the header
is `0x55` when the call starts, and is something else when the block was put on
its list. The pointer may be any number, so the header can overlap the descriptor;
that the words that were checked agree leaves few places for it (`past_offset`).
One more word is written when the page is taken off its list. Below `KERN_BASE`
there is junk on top of it, and above it does not reach another byte that has
changed (`Spoilt`).
-/

namespace Aim.Kern

open Aim.Lib Mem

variable {σ : Type}

/-! ## The check -/

/-- `((struct block_header *)ptr) - 1`. -/
def headerOf (ptr : Nat) : Nat := (ptr + 2 ^ 32 - 8) % 2 ^ 32

/-- The order in the descriptor of the page of the header. -/
def freedOrder (s : Simple σ) (ptr : Nat) : Int :=
  toInt32 (load32 s.phys.mem (pageDesc (headerOf ptr) + 8))

/-- The order is that of one of the classes, and the header is marked. -/
def RealBlock (s : Simple σ) (ptr : Nat) : Prop :=
  0 ≤ freedOrder s ptr ∧ freedOrder s ptr < 8 ∧
    load32 s.phys.mem (headerOf ptr) = mfUsed

/-- The call leaves memory and the lists of the classes as they were. -/
def Untouched (P : PageAllocator σ) (s : Simple σ) (ptr : Nat) : Prop :=
  (stateLeft (simpleFree P ptr) s).phys.mem = s.phys.mem ∧
    (stateLeft (simpleFree P ptr) s).sizes = s.sizes

/-- The check passes, with an order that is no class. -/
structure PastClasses (s : Simple σ) (ptr : Nat) : Prop where
  on : s.isPageAllocOn = true
  order : freedOrder s ptr = 8 ∨ freedOrder s ptr = 9
  next : load32 s.phys.mem (pageDesc (headerOf ptr)) % 4096 = 0
  flags : load32 s.phys.mem (headerOf ptr) = mfUsed

theorem headerOf_lt (ptr : Nat) : headerOf ptr < 2 ^ 32 := Nat.mod_lt _ (by decide)

theorem pageDesc_bounds (p : Nat) :
    pageDesc p ≤ p ∧ p < pageDesc p + 4096 ∧ pageDesc p % 4096 = 0 := by
  unfold pageDesc
  omega

/-- A call that does not pass the check prints. -/
theorem simpleFree_refuses (P : PageAllocator σ) {s : Simple σ} {ptr : Nat}
    (hon : s.isPageAllocOn = true)
    (h : freedOrder s ptr < 0 ∨ freedOrder s ptr > 9 ∨
      load32 s.phys.mem (pageDesc (headerOf ptr)) % 4096 ≠ 0 ∨
      load32 s.phys.mem (headerOf ptr) ≠ mfUsed) :
    ∃ console, (simpleFree P ptr).run s = .ok () { s with console := console } := by
  unfold freedOrder headerOf at h
  rw [simpleFree, run_bind_ok (EStateM.run_get s), if_pos hon]
  simp only []
  rw [run_bind_ok (run_load _ _), run_bind_ok (run_load _ _), run_bind_ok (run_load _ _),
    if_pos h]
  exact ⟨_, rfl⟩

/-! ## Where the header can be -/

theorem order_word {w n : Nat} (hw : w < 2 ^ 32) (hn : n < 2 ^ 31) (h : toInt32 w = n) : w = n := by
  unfold toInt32 at h
  rw [BitVec.toInt_eq_toNat_cond, BitVec.toNat_ofNat] at h
  split at h <;> omega

/-- A marked header that overlaps a link to a page, or an order of `8` or `9`,
would need one byte to have two values. -/
theorem past_offset {m : Mem} {p page : Nat} (hpage : page % 4096 = 0) (hlo : page ≤ p)
    (hflags : load32 m p = mfUsed) (horder : load32 m (page + 8) = 8 ∨ load32 m (page + 8) = 9)
    (hnext : load32 m page % 4096 = 0) :
    p = page + 2 ∨ p = page + 3 ∨ p = page + 4 ∨ page + 12 ≤ p := by
  have hused : mfUsed = 0xffaa0055 := rfl
  have hfirst := byte_of_load32 hflags (show 0 < 4 by decide)
  rw [Nat.add_zero] at hfirst
  by_contra hnot
  have hcases : p = page ∨ p = page + 1 ∨ (page + 5 ≤ p ∧ p ≤ page + 8) ∨
      (page + 9 ≤ p ∧ p ≤ page + 11) := by omega
  rcases hcases with rfl | rfl | ⟨h5, h8⟩ | ⟨h9, h11⟩
  · omega
  · have hbyte := byte_of_load32 (m := m) (a := page) rfl (show 1 < 4 by decide)
    omega
  · -- the lowest byte of the order is one of the header
    obtain ⟨i, hi, heq⟩ : ∃ i < 4, p + i = page + 8 := ⟨page + 8 - p, by omega, by omega⟩
    have hbyte := byte_of_load32 hflags hi
    have hlow : (m ((page + 8) % 2 ^ 32)).toNat = load32 m (page + 8) % 256 := by
      have h := byte_of_load32 (m := m) (a := page + 8) rfl (show 0 < 4 by decide)
      rw [Nat.add_zero] at h
      omega
    rw [heq, hlow, hused] at hbyte
    rcases (by omega : i = 0 ∨ i = 1 ∨ i = 2 ∨ i = 3) with rfl | rfl | rfl | rfl <;> omega
  · -- the lowest byte of the header is one of the order
    obtain ⟨i, hi, heq⟩ : ∃ i < 4, page + 8 + i = p := ⟨p - (page + 8), by omega, by omega⟩
    have hbyte := byte_of_load32 (m := m) (a := page + 8) rfl hi
    rw [heq, hfirst, hused] at hbyte
    rcases (by omega : i = 1 ∨ i = 2 ∨ i = 3) with rfl | rfl | rfl <;> omega

/-! ## What becomes of its bytes -/

/-- The words `simple_free` writes to a block and its page, read as they are
written. -/
def linkBlock (m : Mem) (page p : Nat) : Mem :=
  let m₁ := m.store32 p mfFree
  let m₂ := m₁.store32 (p + 4) (load32 m₁ (page + 4))
  let m₃ := m₂.store32 (page + 4) p
  m₃.store32 (page + 12) (load32 m₃ (page + 12) + 1)

section Bytes

variable {m : Mem} {p page : Nat}

theorem store32_first (m : Mem) {p : Nat} (hp : p < 2 ^ 32) (v : Nat) :
    (store32 m p v p).toNat = v % 256 := by
  have h := store32_at m p v (show 0 < 4 by decide)
  rw [Nat.add_zero, Nat.mod_eq_of_lt hp] at h
  rw [h, UInt8.toNat_ofNat', Nat.mul_zero, Nat.pow_zero, Nat.div_one]

/-- A byte of a number and of the next one. -/
theorem byte_succ {n i : Nat} (hi : i < 4) (h : n / 2 ^ (8 * i) % 256 = 0xaa) :
    (n + 1) / 2 ^ (8 * i) % 256 = 0xaa ∨ (n + 1) / 2 ^ (8 * i) % 256 = 0xab := by
  rcases (by omega : i = 0 ∨ i = 1 ∨ i = 2 ∨ i = 3) with rfl | rfl | rfl | rfl <;> omega

theorem linkBlock_byte (m : Mem) (hp : p < 2 ^ 32) (hpage : page + 4096 ≤ 2 ^ 32)
    (hoff : p = page + 2 ∨ p = page + 3 ∨ p = page + 4 ∨ page + 12 ≤ p)
    (hal : page % 4096 = 0) :
    (linkBlock m page p p).toNat = 4 ∨ (linkBlock m page p p).toNat = 0xaa ∨
      (linkBlock m page p p).toNat = 0xab := by
  unfold linkBlock
  generalize hm₁ : m.store32 p mfFree = m₁
  have h₁ : (m₁ p).toNat = 0xaa := by
    rw [← hm₁, store32_first m hp]
    rfl
  generalize hm₂ : m₁.store32 (p + 4) (load32 m₁ (page + 4)) = m₂
  have h₂ : (m₂ p).toNat = 0xaa := by
    have hd : ¬ Mem.dist (p + 4) p < 4 := by
      unfold Mem.dist
      omega
    rw [← hm₂, store32, if_neg hd]
    exact h₁
  generalize hm₃ : m₂.store32 (page + 4) p = m₃
  by_cases hfour : p = page + 4
  · -- the header is the field `firstfree`, and gets its own address
    have h₃ : (m₃ p).toNat = 4 := by
      rw [← hm₃, ← hfour, store32_first m₂ hp]
      omega
    left
    rw [store32_of_outside (by omega) hp (by omega)]
    exact h₃
  have h₃ : (m₃ p).toNat = 0xaa := by
    rw [← hm₃, store32_of_outside (by omega) hp (by omega)]
    exact h₂
  right
  by_cases hcount : page + 12 ≤ p ∧ p < page + 16
  · -- it overlaps the number of free blocks, which grows by one
    obtain ⟨i, hi, heq⟩ : ∃ i < 4, page + 12 + i = p := ⟨p - (page + 12), by omega, by omega⟩
    have hmod : (page + 12 + i) % 2 ^ 32 = p := by omega
    have hold := byte_of_load32 (m := m₃) (a := page + 12) rfl hi
    have hnew := store32_at m₃ (page + 12) (load32 m₃ (page + 12) + 1) hi
    rw [hmod] at hold hnew
    rw [hnew, UInt8.toNat_ofNat']
    exact byte_succ hi (hold.symm.trans h₃)
  · left
    rw [store32_of_outside (by omega) hp (by omega)]
    exact h₃

/-- The number of free blocks, where the header is in front of it. -/
theorem linkBlock_count (m : Mem) (hlo : page + 2 ≤ p) (hhi : p ≤ page + 4)
    (hpage : page + 4096 ≤ 2 ^ 32) : linkBlock m page p (page + 12) ≠ m (page + 12) := by
  have hold := byte_of_load32 (m := m) (a := page + 12) rfl (show 0 < 4 by decide)
  rw [Nat.add_zero, Nat.mod_eq_of_lt (by omega)] at hold
  have hnew : (linkBlock m page p (page + 12)).toNat = (load32 m (page + 12) + 1) % 256 := by
    rw [linkBlock, store32_first _ (by omega), load32_store32_ne (by omega) (by omega) (by omega),
      load32_store32_ne (by omega) (by omega) (by omega),
      load32_store32_ne (by omega) (by omega) (by omega)]
  intro heq
  rw [heq] at hnew
  omega

/-- The last byte of the header, where it is not in front of the number. -/
theorem linkBlock_last (m : Mem) (hpage : page + 4096 ≤ 2 ^ 32)
    (hlo : page + 12 ≤ p) (hhi : p < page + 4096) :
    (linkBlock m page p ((p + 3) % 2 ^ 32)).toNat = 0 := by
  have hout : ∀ {a v : Nat} {m' : Mem}, 4 ≤ Mem.dist a ((p + 3) % 2 ^ 32) →
      store32 m' a v ((p + 3) % 2 ^ 32) = m' ((p + 3) % 2 ^ 32) :=
    fun hd => if_neg (Nat.not_lt.mpr hd)
  rw [linkBlock]
  generalize hm₃ : Mem.store32 _ (page + 4) p = m₃
  by_cases hcount : p = page + 12
  · have hword : load32 m₃ (page + 12) = mfFree := by
      rw [← hm₃, load32_store32_ne (by omega) (by omega) (by omega),
        load32_store32_ne (by omega) (by omega) (by omega), hcount, load32_store32_self]
      rfl
    rw [hword, hcount, store32_at _ _ _ (show 3 < 4 by decide)]
    rfl
  · rw [hout (by unfold Mem.dist; omega), ← hm₃, hout (by unfold Mem.dist; omega),
      hout (by unfold Mem.dist; omega), store32_at _ _ _ (show 3 < 4 by decide)]
    rfl

end Bytes

/-- What is left of the marked header at `p` in a page of `m`: its first byte has
changed, and another one that is in no word with that. -/
structure Spoilt (m : Mem) (page p : Nat) (m' : Mem) : Prop where
  first : (m' p).toNat = 4 ∨ (m' p).toNat = 0xaa ∨ (m' p).toNat = 0xab
  count : p ≤ page + 4 → m' (page + 12) ≠ m (page + 12)
  last : page + 12 ≤ p → (m' ((p + 3) % 2 ^ 32)).toNat = 0

theorem linkBlock_spoilt (m : Mem) {page p : Nat} (hp : p < 2 ^ 32)
    (hpage : page + 4096 ≤ 2 ^ 32) (hhi : p < page + 4096)
    (hoff : p = page + 2 ∨ p = page + 3 ∨ p = page + 4 ∨ page + 12 ≤ p)
    (hal : page % 4096 = 0) : Spoilt m page p (linkBlock m page p) where
  first := linkBlock_byte m hp hpage hoff hal
  count h := linkBlock_count m (by omega) h hpage
  last h := linkBlock_last m hpage h hhi

section Junk

variable {paddr page x : Nat} (m : Mem)

theorem kfill_page_of_mem (hpaddr : paddr % 2 ^ 32 = page) (hlow : page < 2 ^ 31)
    (hal : page % 4096 = 0) (hlo : page ≤ x) (hhi : x < page + 4096) :
    kfill m (pa2kva paddr) junkByte pgSize x = junkByte := by
  rw [kfill, if_pos]
  rw [windowDist_pa2kva, kernBase, pgSize]
  omega

/-- Above `KERN_BASE` another page is filled. -/
theorem kfill_page_of_high (hpaddr : paddr % 2 ^ 32 = page) (hhigh : 2 ^ 31 ≤ page)
    (hal : page % 4096 = 0) (hx : 2 ^ 31 ≤ x ∨ x + 4096 ≤ page - 2 ^ 31) :
    kfill m (pa2kva paddr) junkByte pgSize x = m x := by
  rw [kfill, if_neg]
  rw [windowDist_pa2kva, kernBase, pgSize]
  omega

end Junk

namespace Spoilt

variable {m m' : Mem} {page p : Nat}

theorem ne (h : Spoilt m page p m') (hflags : (m p).toNat = 0x55) (paddr : Nat) :
    kfill m' (pa2kva paddr) junkByte pgSize ≠ m := by
  intro heq
  rw [← heq, kfill] at hflags
  have hfirst := h.first
  split at hflags
  · exact absurd hflags (by decide)
  · omega

/-- A word that was the address of the page is written over. -/
theorem store_ne (h : Spoilt m page p m') (hflags : load32 m p = mfUsed) (hp : p < 2 ^ 32)
    (hal : page % 4096 = 0) (hlo : page ≤ p) (hhi : p < page + 4096)
    (hoff : p = page + 2 ∨ p = page + 3 ∨ p = page + 4 ∨ page + 12 ≤ p) {paddr pg2 : Nat}
    (hpaddr : paddr % 2 ^ 32 = page) (hpg2 : load32 m' pg2 = page) (next : Nat) :
    kfill (store32 m' pg2 next) (pa2kva paddr) junkByte pgSize ≠ m := by
  intro heq
  have hfirst := byte_of_load32 hflags (show 0 < 4 by decide)
  rw [Nat.add_zero, Nat.mod_eq_of_lt hp] at hfirst
  by_cases hlow : page < 2 ^ 31
  · rw [← heq, kfill_page_of_mem _ hpaddr hlow hal hlo hhi] at hfirst
    exact absurd hfirst (by decide)
  have hkeep : ∀ x, 2 ^ 31 ≤ x ∨ x + 4096 ≤ page - 2 ^ 31 → m x = store32 m' pg2 next x := by
    intro x hx
    rw [← heq, kfill_page_of_high _ hpaddr (by omega) hal hx]
  have hbyte := h.first
  by_cases hd : Mem.dist pg2 p < 4
  · have hin := byte_of_load32 hpg2 hd
    have hat : (pg2 + Mem.dist pg2 p) % 2 ^ 32 = p := by
      unfold Mem.dist
      omega
    rw [hat] at hin
    -- the lower bytes of the address of a page are none of those
    have hhigh : 2 ≤ Mem.dist pg2 p := by
      by_contra hlt
      rcases (by omega : Mem.dist pg2 p = 0 ∨ Mem.dist pg2 p = 1) with h0 | h1
      · rw [h0] at hin
        omega
      · rw [h1] at hin
        omega
    by_cases hfront : p ≤ page + 4
    · have hout : ¬ Mem.dist pg2 (page + 12) < 4 := by
        unfold Mem.dist at hhigh hd ⊢
        omega
      have hsame := hkeep (page + 12) (by omega)
      rw [store32, if_neg hout] at hsame
      exact h.count hfront hsame.symm
    · have hout : ¬ Mem.dist pg2 ((p + 3) % 2 ^ 32) < 4 := by
        unfold Mem.dist at hhigh hd ⊢
        omega
      have hsame := hkeep ((p + 3) % 2 ^ 32) (by omega)
      rw [store32, if_neg hout] at hsame
      have hlast := byte_of_load32 hflags (show 3 < 4 by decide)
      rw [hsame, h.last (by omega)] at hlast
      exact absurd hlast (by decide)
  · have hsame := hkeep p (by omega)
    rw [store32, if_neg hd] at hsame
    rw [hsame, mfUsed] at hfirst
    omega

end Spoilt

section Calls

variable {s : Simple σ} {p page : Nat}

theorem stateLeft_sizeAt (order : Int) (s : Simple σ) : stateLeft (sizeAt order) s = s := by
  rw [sizeAt, stateLeft_bind_ok (EStateM.run_get s)]
  split
  · cases s.sizes[order.toNat]? <;> rfl
  · rfl

theorem mem_stateLeft_modifySize (order : Int) (f : SizeDescriptor → SizeDescriptor)
    (s : Simple σ) : (stateLeft (modifySize order f) s).phys.mem = s.phys.mem := by
  rw [modifySize]
  refine stateLeft_bind (Q := fun s' : Simple σ => s'.phys.mem = s.phys.mem) ?_ ?_
  · rw [stateLeft_sizeAt]
  · intro d
    rw [stateLeft_sizeAt]
    rfl

/-- The walk only reads, and stops at `NULL` or at a page with this link. -/
theorem findPrev_cases (page : Nat) : ∀ (fuel pg2 : Nat) (s : Simple σ),
    (findPrev page fuel pg2).run s = .error .fuel s ∨
      ∃ q, (findPrev page fuel pg2).run s = .ok q s ∧ (q ≠ 0 → load32 s.phys.mem q = page) := by
  intro fuel
  induction fuel with
  | zero => exact fun _ _ => Or.inl rfl
  | succ fuel ih =>
      intro pg2 s
      rw [findPrev]
      split
      · exact Or.inr ⟨0, rfl, fun h => absurd rfl h⟩
      · rw [run_bind_ok (run_load _ _)]
        split
        · exact ih _ s
        · next hlink => exact Or.inr ⟨pg2, rfl, fun _ => not_not.mp hlink⟩

theorem mem_stateLeft_pgfree (P : PageAllocator σ) (paddr : Nat) (s : Simple σ) :
    (stateLeft (onPhys (pgfree P paddr)) s).phys.mem =
      kfill s.phys.mem (pa2kva paddr) junkByte pgSize := by
  have hfree : (stateLeft (freePages P ⟨paddr, pgSize, 0⟩) s.phys).mem =
      kfill s.phys.mem (pa2kva paddr) junkByte pgSize := by
    rw [freePages, if_pos (show 0 &&& gfpUnsafe = 0 by decide),
      stateLeft_bind_ok (pmemset_page _ _ _), onPmm, stateLeft_zoom]
  rw [onPhys, stateLeft_zoom]
  exact stateLeft_bind
    (Q := fun t : Phys σ => t.mem = kfill s.phys.mem (pa2kva paddr) junkByte pgSize) hfree
    fun _ => hfree

theorem releasePage_spoils {m : Mem} (P : PageAllocator σ) (order : Int)
    (h : Spoilt m page p s.phys.mem) (hflags : load32 m p = mfUsed) (hp : p < 2 ^ 32)
    (hal : page % 4096 = 0) (hlo : page ≤ p) (hhi : p < page + 4096)
    (hoff : p = page + 2 ∨ p = page + 3 ∨ p = page + 4 ∨ page + 12 ≤ p) :
    (stateLeft (releasePage P order page) s).phys.mem ≠ m := by
  have hfirst := byte_of_load32 hflags (show 0 < 4 by decide)
  rw [Nat.add_zero, Nat.mod_eq_of_lt hp] at hfirst
  have hplain : s.phys.mem ≠ m := by
    intro heq
    have hbyte := h.first
    rw [heq, hfirst, mfUsed] at hbyte
    omega
  have hjunk := fun (s' : Simple σ) (hs : s'.phys.mem = s.phys.mem) (paddr : Nat) =>
    (mem_stateLeft_pgfree P paddr s').symm ▸ hs ▸ h.ne hfirst paddr
  rw [releasePage]
  refine stateLeft_bind (Q := fun s' : Simple σ => s'.phys.mem ≠ m)
    (by rw [stateLeft_sizeAt]; exact hplain) ?_
  intro d
  rw [stateLeft_sizeAt]
  split
  · rw [stateLeft_bind_ok (run_load _ _)]
    refine stateLeft_bind (Q := fun s' : Simple σ => s'.phys.mem ≠ m) ?_
      fun _ => hjunk _ (mem_stateLeft_modifySize _ _ _) _
    rw [mem_stateLeft_modifySize]
    exact hplain
  · rcases findPrev_cases page (2 ^ 32) d.firstfree s with hrun | ⟨pg2, hrun, hlink⟩
    · rw [stateLeft_error (run_bind_error hrun)]
      exact hplain
    · rw [stateLeft_bind_ok hrun]
      split
      · next hpg2 =>
          rw [stateLeft_bind_ok (run_load _ _), stateLeft_bind_ok (run_store _ _ _),
            mem_stateLeft_pgfree, Simple.mem_write]
          have hpaddr : (toInt32 page % 2 ^ 64).toNat % 2 ^ 32 = page := by
            rw [toInt32_low, Nat.mod_eq_of_lt (by omega)]
          exact h.store_ne hflags hp hal hlo hhi hoff hpaddr (hlink hpg2) _
      · exact hjunk { s with console := _ :: s.console } rfl _

theorem putBlock_spoils (order : Int) (s : Simple σ) (hp : p < 2 ^ 32) (hal : page % 4096 = 0)
    (hhi : p < page + 4096)
    (hoff : p = page + 2 ∨ p = page + 3 ∨ p = page + 4 ∨ page + 12 ≤ p) :
    Spoilt s.phys.mem page p (stateLeft (putBlock order page p) s).phys.mem := by
  have h₄ := linkBlock_spoilt s.phys.mem hp (by omega) hhi hoff hal
  rw [putBlock, stateLeft_bind_ok (run_store _ _ _), stateLeft_bind_ok (run_load _ _),
    stateLeft_bind_ok (run_store _ _ _), stateLeft_bind_ok (run_store _ _ _),
    stateLeft_bind_ok (run_load _ _), stateLeft_bind_ok (run_store _ _ _),
    stateLeft_bind_ok (run_load _ _)]
  generalize hs₄ : Simple.write _ (page + 12) _ = s₄
  have hmem₄ : s₄.phys.mem = linkBlock s.phys.mem page p := by
    rw [← hs₄]
    simp only [Simple.mem_write]
    rfl
  rw [← hmem₄] at h₄
  split
  · rw [stateLeft_bind_ok (run_load _ _)]
    split
    · exact h₄
    · next hnull =>
        rw [not_not] at hnull
        refine stateLeft_bind (Q := fun s' : Simple σ => Spoilt s.phys.mem page p s'.phys.mem)
          (by rw [stateLeft_sizeAt]; exact h₄) ?_
        intro d
        rw [stateLeft_sizeAt, stateLeft_bind_ok (run_store _ _ _), mem_stateLeft_modifySize,
          Simple.mem_write]
        -- a link that is null has no byte of the header
        have hout : page + 4 ≤ p := by
          by_contra hin
          obtain ⟨i, hi, heq⟩ : ∃ i < 4, page + i = p := ⟨p - page, by omega, by omega⟩
          have hlink := byte_of_load32 hnull hi
          rw [heq, Nat.mod_eq_of_lt hp, Nat.zero_div, Nat.zero_mod] at hlink
          have hfirst := h₄.first
          omega
        have hkeep : ∀ x, 4 ≤ Mem.dist page x →
            store32 s₄.phys.mem page d.firstfree x = s₄.phys.mem x :=
          fun x hx => if_neg (Nat.not_lt.mpr hx)
        constructor
        · rw [hkeep p (by unfold Mem.dist; omega)]
          exact h₄.first
        · intro hfront
          rw [hkeep _ (by unfold Mem.dist; omega)]
          exact h₄.count hfront
        · intro hback
          rw [hkeep _ (by unfold Mem.dist; omega)]
          exact h₄.last hback
  · exact h₄

end Calls

/-- With such an order memory does not stay as it was. -/
theorem simpleFree_spoils (P : PageAllocator σ) {s : Simple σ} {ptr : Nat}
    (h : PastClasses s ptr) : (stateLeft (simpleFree P ptr) s).phys.mem ≠ s.phys.mem := by
  have hp := headerOf_lt ptr
  obtain ⟨hlo, hhi, hal⟩ := pageDesc_bounds (headerOf ptr)
  have hword : load32 s.phys.mem (pageDesc (headerOf ptr) + 8) = 8 ∨
      load32 s.phys.mem (pageDesc (headerOf ptr) + 8) = 9 := by
    have hlt := load32_lt s.phys.mem (pageDesc (headerOf ptr) + 8)
    rcases h.order with h8 | h9
    · exact Or.inl (order_word hlt (by decide) h8)
    · exact Or.inr (order_word hlt (by decide) h9)
  have hoff := past_offset hal hlo h.flags hword h.next
  have hvalid : ¬ (freedOrder s ptr < 0 ∨ freedOrder s ptr > 9 ∨
      load32 s.phys.mem (pageDesc (headerOf ptr)) % 4096 ≠ 0 ∨
      load32 s.phys.mem (headerOf ptr) ≠ mfUsed) := by
    have horder := h.order
    have hnext := h.next
    have hflags := h.flags
    omega
  have hheader : (ptr + 2 ^ 32 - 8) % 2 ^ 32 = headerOf ptr := rfl
  have horder : toInt32 (load32 s.phys.mem (pageDesc (headerOf ptr) + 8)) = freedOrder s ptr := rfl
  rw [simpleFree, stateLeft_bind_ok (EStateM.run_get s), if_pos h.on]
  simp only [hheader]
  rw [stateLeft_bind_ok (run_load _ _), stateLeft_bind_ok (run_load _ _),
    stateLeft_bind_ok (run_load _ _), horder, if_neg hvalid, stateLeft_bind_ok (run_load _ _)]
  have hput := putBlock_spoils (freedOrder s ptr) s hp hal hhi hoff
  have hne : (stateLeft (putBlock (freedOrder s ptr) (pageDesc (headerOf ptr)) (headerOf ptr))
      s).phys.mem ≠ s.phys.mem := by
    intro heq
    have hfirst := byte_of_load32 h.flags (show 0 < 4 by decide)
    have hbyte := hput.first
    rw [Nat.add_zero, Nat.mod_eq_of_lt hp] at hfirst
    rw [heq, hfirst, mfUsed] at hbyte
    omega
  refine stateLeft_bind (Q := fun s' : Simple σ => s'.phys.mem ≠ s.phys.mem) hne ?_
  intro _
  generalize stateLeft _ s = s₁ at hput hne
  rw [stateLeft_bind_ok (run_load _ _), stateLeft_bind_ok (run_load _ _)]
  refine stateLeft_bind (Q := fun s' : Simple σ => s'.phys.mem ≠ s.phys.mem)
    (by rw [stateLeft_sizeAt]; exact hne) ?_
  intro d
  rw [stateLeft_sizeAt]
  split
  · have hrel := releasePage_spoils P (freedOrder s ptr) hput h.flags hp hal hlo hhi hoff
    refine stateLeft_bind (Q := fun s' : Simple σ => s'.phys.mem ≠ s.phys.mem) hrel fun _ => ?_
    rw [mem_stateLeft_modifySize]
    exact hrel
  · rw [mem_stateLeft_modifySize]
    exact hne

/-! ## The result -/

/-- A block of a held page that is not out is refused. -/
theorem SimpleAt.free_unused {s : Simple (Tracked σ)} {live : List (Nat × Nat)}
    {ord : Nat → Nat} {page b : Nat} (h : SimpleAt s live ord) (hp : page ∈ s.phys.pmm.held)
    (hb : IsBlock page (classSize (ord page)) (classBlocks (ord page)) b)
    (hout : b + 8 ∉ live.map Prod.fst) (P : PageAllocator (Tracked σ)) :
    ∃ console, (simpleFree P (b + 8)).run s = .ok () { s with console := console } := by
  obtain ⟨hon, _, free, lists, hheap⟩ := h
  have hfree : b ∈ free page := by
    by_contra hnot
    exact hout ((hheap.pages.live_iff (b + 8)).mpr ⟨page, hp, b, ⟨hb, hnot⟩, rfl⟩)
  have hbd := hheap.pages.block_bounds hp hb
  have hpage := hheap.pages.page page hp
  have hheader : headerOf (b + 8) = b := by
    unfold headerOf
    omega
  refine simpleFree_refuses P hon (Or.inr (Or.inr (Or.inr ?_)))
  rw [hheader, (hheap.pages.at_page page hp).unused b hfree]
  decide

/-- `simple_free` looks at what it is given as it should, but for the two orders
behind the classes; a block that is freed again while its page is held is not
taken. -/
theorem simpleFree_validates_iff (P : PageAllocator σ) :
    (∀ (s : Simple σ) (ptr : Nat),
      (Untouched P s ptr ∨ RealBlock s ptr) ↔ ¬ PastClasses s ptr) ∧
    ∀ r, (simpleCalls P).Reachable r → ∀ ptr r', (simpleCalls P).legal r (.free ptr) →
      ((simpleCalls P).step (.free ptr)).run r = .ok () r' → pageDesc (ptr - 8) ∈ r'.held →
      ∃ console, (simpleFree (tracked P) ptr).run r'.s =
        .ok () { r'.s with console := console } := by
  constructor
  · intro s ptr
    constructor
    · rintro (hsame | hreal) hpast
      · exact simpleFree_spoils P hpast hsame.1
      · have horder := hpast.order
        have hlt := hreal.2.1
        omega
    · intro hpast
      by_cases hon : s.isPageAllocOn = true
      · by_cases hbad : freedOrder s ptr < 0 ∨ freedOrder s ptr > 9 ∨
            load32 s.phys.mem (pageDesc (headerOf ptr)) % 4096 ≠ 0 ∨
            load32 s.phys.mem (headerOf ptr) ≠ mfUsed
        · obtain ⟨console, hrun⟩ := simpleFree_refuses P hon hbad
          left
          rw [Untouched, stateLeft_ok hrun]
          exact ⟨rfl, rfl⟩
        · simp only [not_or, not_not] at hbad
          obtain ⟨hlo, hhi, hnext, hflags⟩ := hbad
          refine Or.inr ⟨by omega, ?_, hflags⟩
          by_contra hge
          exact hpast ⟨hon, by omega, hnext, hflags⟩
      · left
        rw [Untouched, simpleFree, stateLeft_bind_ok (EStateM.run_get s), if_neg hon]
        exact ⟨rfl, rfl⟩
  · intro r hr ptr r' hl hs hheld
    obtain ⟨ord, hat⟩ := (Machine.reachable_of_inv (simpleInv_invariant P) hr).classes
    obtain ⟨s', hrun, hat', _⟩ := simpleFree_spec hat hl.1 hl.2
    have hstep : ((simpleCalls P).step (.free ptr)).run r =
        .ok () ⟨s', r.live.filter fun e => e.1 ≠ ptr⟩ := by
      show (SimpleRun.step P (.free ptr)).run r = _
      rw [SimpleRun.step, run_bind_ok (SimpleRun.run_call hrun)]
      rfl
    rw [hstep] at hs
    injection hs with _ hr'
    subst hr'
    obtain ⟨_, _, _, _, hheap⟩ := hat
    obtain ⟨page, hp, b, hb, rfl⟩ := (hheap.pages.live_iff ptr).mp hl.1
    rw [Nat.add_sub_cancel, hheap.pages.pageDesc_eq hp hb.1] at hheld
    refine hat'.free_unused hheld hb.1 ?_ (tracked P)
    simp

/-- Memory with a page that has the order `8` and a header behind its
descriptor that is marked. -/
def strayBlock : Simple Unit :=
  ⟨⟨(Mem.store32 (fun _ => 0) 0x100008 8).store32 0x100010 mfUsed, ()⟩, initialSizes, true, 0, []⟩

/-- The page is put on a list of the entry that ends the table. -/
theorem simpleFree_links_stray :
    ((stateLeft (simpleFree dummyAllocator 0x100018) strayBlock).sizes[8]?).map
      SizeDescriptor.firstfree = some 0x100000 ∧
    ¬ (Untouched dummyAllocator strayBlock 0x100018 ∨ RealBlock strayBlock 0x100018) := by
  have hlist : ((stateLeft (simpleFree dummyAllocator 0x100018) strayBlock).sizes[8]?).map
      SizeDescriptor.firstfree = some 0x100000 := by decide +kernel
  refine ⟨hlist, ?_⟩
  rintro (hsame | hreal)
  · rw [hsame.2] at hlist
    exact absurd hlist (by decide)
  · have horder : freedOrder strayBlock 0x100018 = 8 := by decide +kernel
    have hlt := hreal.2.1
    omega

end Aim.Kern
