import Aim.Proofs.AlignedPages
import Aim.Proofs.Contents
import Aim.Proofs.UserAddr
import Aim.Proofs.UvmSearch

/-!
# The two paths of `__copy_fill_uvm`

Copying to a user, copying from a user and filling are one body with two paths, and all
of it comes down to `Written`: bytes at places, in order. Where they go and where they
are from is `destAt` and `srcByte`, in terms of the physical addresses `user i` and
`buf i` of the user's byte `i` and of the buffer's.

On the direct path the MMU finds both, and all bytes go at once. The other path
takes page after page through the window. A page is written from its first byte on, so
the range has to start with a page; and from the last page of the address space the next
one is at zero, so it must not get that far.
-/

namespace Aim.Kern

open Aim.Lib Mem

variable {σ : Type}

/-- Where the bytes go. -/
def destAt (fill touser : Bool) (user buf : Nat → Nat) (i : Nat) : Nat :=
  if fill || touser then user i else buf i

/-- What the bytes are, with the memory `m` before the call. -/
def srcByte (fill touser : Bool) (user buf : Nat → Nat) (c : UInt8) (m : Mem) (i : Nat) :
    UInt8 :=
  if fill then c else if touser then m (buf i) else m (user i)

/-- The buffer is one stretch of the window, and no byte of the user's. -/
structure BufferAt (fill : Bool) (vaddr b len : Nat) (user : Nat → Nat) : Prop where
  sees : fill = false → Sees vaddr b
  le : fill = false → b + len ≤ kernBase
  apart : fill = false → ∀ i < len, ∀ j < len, user i ≠ b + j

section Both

variable {fill touser : Bool} {user : Nat → Nat} {b vaddr len : Nat} {c : UInt8} {m m' : Mem}

theorem destAt_inj (hinj : ∀ i < len, ∀ j < len, user i = user j → i = j) :
    ∀ i < len, ∀ j < len,
      destAt fill touser user (b + ·) i = destAt fill touser user (b + ·) j → i = j := by
  intro i hi j hj he
  rw [destAt, destAt] at he
  split at he
  · exact hinj i hi j hj he
  · omega

/-- The bytes still to be read have not been written. -/
theorem srcByte_eq {k : Nat} (hb : BufferAt fill vaddr b len user)
    (hw : Written m m' (destAt fill touser user (b + ·)) (srcByte fill touser user (b + ·) c m) k)
    (hk : k ≤ len) {i : Nat} (hi : i < len) :
    srcByte fill touser user (b + ·) c m' i = srcByte fill touser user (b + ·) c m i := by
  cases fill with
  | true => rfl
  | false =>
      cases touser with
      | true => exact hw.rest (b + i) fun j hj he => hb.apart rfl j (by omega) i hi he.symm
      | false => exact hw.rest (user i) fun j hj he => hb.apart rfl i hi j (by omega) he

/-- One page through the window. -/
theorem copyFillPage_run (s : Phys σ) (touser : Bool) (c : UInt8) {k f l : Nat} (hk : Sees k f)
    (hf : f + l ≤ kernBase) (hv : fill = false → Sees vaddr b ∧ b + l ≤ kernBase) :
    ∃ m', (copyFillPage k vaddr c l fill touser).run s = .ok () { s with mem := m' } ∧
      Written s.mem m' (destAt fill touser (f + ·) (b + ·))
        (srcByte fill touser (f + ·) (b + ·) c s.mem) l := by
  cases fill with
  | true => exact ⟨_, rfl, kfill_written hk hf⟩
  | false =>
      obtain ⟨hsees, hle⟩ := hv rfl
      cases touser with
      | true => exact ⟨_, rfl, kcopy_written hk hsees hf hle⟩
      | false => exact ⟨_, rfl, kcopy_written hsees hk hle hf⟩

end Both

/-! ## The direct path -/

section Direct

variable {m : Mem} {dir va n : Nat} {write : Bool} {user : Nat → Nat} {s : Phys σ}

theorem userIndex_some (hacc : ∀ i < n, kernelAccess m dir ((va + i) % 2 ^ 32) write =
    some (user i)) (hinj : ∀ i < n, ∀ j < n, user i = user j → i = j) {i : Nat} (hi : i < n) :
    userIndex m dir va n write (user i) = some i := by
  rw [userIndex]
  cases hfind : (List.range n).find? fun i' =>
      kernelAccess m dir ((va + i') % 2 ^ 32) write = some (user i) with
  | none =>
      have hnone := List.find?_eq_none.mp hfind i (List.mem_range.mpr hi)
      exact absurd (decide_eq_true (hacc i hi)) hnone
  | some j =>
      have hj : j < n := List.mem_range.mp (List.mem_of_find?_eq_some hfind)
      have hat := List.find?_some hfind
      rw [decide_eq_true_eq, hacc j hj, Option.some.injEq] at hat
      rw [hinj j hj i hi hat]

theorem userIndex_none (hacc : ∀ i < n, kernelAccess m dir ((va + i) % 2 ^ 32) write =
    some (user i)) {x : Nat} (hx : ∀ i < n, x ≠ user i) :
    userIndex m dir va n write x = none := by
  refine List.find?_eq_none.mpr fun i hi hat => ?_
  have hi := List.mem_range.mp hi
  rw [decide_eq_true_eq, hacc i hi, Option.some.injEq] at hat
  exact hx i hi hat.symm

theorem touchUser_run
    (hacc : ∀ i < n, kernelAccess s.mem dir ((va + i) % 2 ^ 32) write = some (user i)) :
    (touchUser dir va n write).run s = .ok () s := by
  have hnone : (List.range n).find? (fun i =>
      (kernelAccess s.mem dir ((va + i) % 2 ^ 32) write).isNone) = none := by
    refine List.find?_eq_none.mpr fun i hi => ?_
    rw [hacc i (List.mem_range.mp hi)]
    exact Bool.false_ne_true
  have hget : (get : EStateM Stop (Phys σ) (Phys σ)).run s = .ok s s := rfl
  rw [touchUser, run_bind_ok hget, hnone]
  rfl

theorem umemset_run {c : UInt8}
    (hacc : ∀ i < n, kernelAccess s.mem dir ((va + i) % 2 ^ 32) true = some (user i))
    (hinj : ∀ i < n, ∀ j < n, user i = user j → i = j) :
    ∃ m', (umemset dir va c n).run s = .ok () { s with mem := m' } ∧
      Written s.mem m' user (fun _ => c) n := by
  rw [umemset, run_bind_ok (touchUser_run hacc)]
  refine ⟨_, rfl, fun i hi => ?_, fun x hx => ?_⟩
  · rw [ufill, userIndex_some hacc hinj hi]
    rfl
  · rw [ufill, userIndex_none hacc hx]
    rfl

/-- All bytes are read before one is written. -/
theorem umemmove_run {src : Nat} {buf : Nat → Nat}
    (hacc : ∀ i < n, kernelAccess s.mem dir ((va + i) % 2 ^ 32) true = some (user i))
    (hsrc : ∀ i < n, kernelAccess s.mem dir ((src + i) % 2 ^ 32) false = some (buf i))
    (hinj : ∀ i < n, ∀ j < n, user i = user j → i = j) :
    ∃ m', (umemmove dir va src n).run s = .ok () { s with mem := m' } ∧
      Written s.mem m' user (fun i => s.mem (buf i)) n := by
  rw [umemmove, run_bind_ok (touchUser_run hsrc), run_bind_ok (touchUser_run hacc)]
  refine ⟨_, rfl, fun i hi => ?_, fun x hx => ?_⟩
  · rw [ucopy, userIndex_some hacc hinj hi, Option.elim_some, hsrc i hi]
    rfl
  · rw [ucopy, userIndex_none hacc hx]
    rfl

variable {fill touser : Bool} {vaddr len : Nat} {buf : Nat → Nat}

/-- The accesses through the page index that is loaded. -/
theorem copyFillDirect_run {cur : Current} (c : UInt8)
    (hacc : ∀ i < len, kernelAccess s.mem cur.cr3 ((va + i) % 2 ^ 32) (fill || touser) =
      some (user i))
    (hinj : ∀ i < len, ∀ j < len, user i = user j → i = j)
    (hbuf : fill = false → ∀ i < len,
      kernelAccess s.mem cur.cr3 ((vaddr + i) % 2 ^ 32) (!touser) = some (buf i))
    (hbinj : fill = false → ∀ i < len, ∀ j < len, buf i = buf j → i = j) :
    ∃ m', (copyFillDirect cur va vaddr c len fill touser).run s = .ok () { s with mem := m' } ∧
      Written s.mem m' (destAt fill touser user buf) (srcByte fill touser user buf c s.mem)
        len := by
  cases fill with
  | true => exact umemset_run hacc hinj
  | false =>
      cases touser with
      | true => exact umemmove_run hacc (hbuf rfl) hinj
      | false => exact umemmove_run (hbuf rfl) hacc (hbinj rfl)

end Direct

/-! ## Page after page -/

/-- The address of the page behind, and the end of a range in pages. -/
theorem ptrAlignAbove_eq {p : Nat} (hpos : 0 < p) (hp : p ≤ 2 ^ 32) :
    ptrAlignAbove (p % 2 ^ 32) = ((p + 4095) / 4096 * 4096) % 2 ^ 32 := by
  have hprev : (p % 2 ^ 32 + 2 ^ 32 - 1) % 2 ^ 32 = p - 1 := by omega
  have hmask : (pgSize - 1 : Nat) = 2 ^ 12 - 1 := rfl
  rw [ptrAlignAbove, hprev, hmask, or_mask]
  omega

theorem ptrAlignNext_eq {p : Nat} (hal : p % pgSize = 0) (hp : p + pgSize < 2 ^ 32) :
    ptrAlignNext p = p + pgSize := by
  rw [pgSize] at *
  rw [ptrAlignNext, ptrAlignAbove_eq (Nat.succ_pos p) (by omega)]
  omega

/-- The pages of the range, as `uva2kva` finds them while the words of the page index,
in the frames `Q`, are those of `m₀`. -/
structure UserPages (G : Pager σ) (g uvaddr len : Nat) (Q : Set Nat) (m₀ : Mem)
    (user : Nat → Nat) : Prop where
  frames : ∀ a ∈ Q, IsFrame a
  page : ∀ j < len, j % pgSize = 0 → ∃ f, IsFrame f ∧
    (∀ i < pgSize, j + i < len → user (j + i) = f + i) ∧
    ∀ s : Phys σ, SameWords Q m₀ s.mem → (uva2kva G g (uvaddr + j)).run s = .ok (postmapAddr f) s
  inj : ∀ i < len, ∀ j < len, user i = user j → i = j

theorem sees_postmap {f : Nat} (hf : IsFrame f) : Sees (postmapAddr f) f :=
  sees_postmapAddr.mpr (sees_low hf.2)

section Loop

variable {G : Pager σ} {g uvaddr len mm b vaddr : Nat} {Q : Set Nat} {m₀ : Mem}
  {user : Nat → Nat} {fill touser : Bool} {c : UInt8}

/-- The first `n` bytes are copied, between the user's bytes and the buffer at `b`. -/
abbrev CopiedTo (fill touser : Bool) (user : Nat → Nat) (b : Nat) (c : UInt8) (m₀ m : Mem)
    (n : Nat) : Prop :=
  Written m₀ m (destAt fill touser user (b + ·)) (srcByte fill touser user (b + ·) c m₀) n

/-- The bytes of a page, in the frame `f`, after those in front of it. -/
theorem Written.page {m m₁ : Mem} {f j n : Nat} (hb : BufferAt fill vaddr b len user)
    (hinj : ∀ i < len, ∀ j < len, user i = user j → i = j) (hn : j + n ≤ len)
    (huser : ∀ i < n, user (j + i) = f + i)
    (hw : CopiedTo fill touser user b c m₀ m j)
    (hpage : Written m m₁ (destAt fill touser (f + ·) (b + j + ·))
      (srcByte fill touser (f + ·) (b + j + ·) c m) n) :
    CopiedTo fill touser user b c m₀ m₁ (j + n) := by
  have hdest : ∀ i < n, destAt fill touser (f + ·) (b + j + ·) i =
      destAt fill touser user (b + ·) (j + i) := by
    intro i hi
    rw [destAt, destAt, huser i hi, Nat.add_assoc]
  have hsrc : ∀ i < n, srcByte fill touser (f + ·) (b + j + ·) c m i =
      srcByte fill touser user (b + ·) c m₀ (j + i) := by
    intro i hi
    rw [← srcByte_eq hb hw (by omega) (show j + i < len by omega), srcByte, srcByte, huser i hi,
      Nat.add_assoc]
  have hrange : Written m m₁ (fun i => destAt fill touser user (b + ·) (j + i))
      (fun i => srcByte fill touser user (b + ·) c m₀ (j + i)) n := by
    refine ⟨fun i hi => ?_, fun x hx => hpage.rest x fun i hi => ?_⟩
    · show m₁ (destAt fill touser user (b + ·) (j + i)) = _
      rw [← hdest i hi, ← hsrc i hi]
      exact hpage.written i hi
    · rw [hdest i hi]
      exact hx i hi
  exact hw.append hrange fun x hx y hy => destAt_inj hinj x (by omega) y (by omega)

/-- A round of the loop, for the page at `uvaddr + j`. -/
theorem copyFillLoop_round (hp : UserPages G g uvaddr len Q m₀ user)
    (hb : BufferAt fill vaddr b len user) (hal : uvaddr % pgSize = 0)
    (htop : uvaddr + len ≤ 0xfffff000)
    (hapart : ∀ i < len, ∀ a ∈ Q, destAt fill touser user (b + ·) i < a ∨
      a + pgSize ≤ destAt fill touser user (b + ·) i) {j : Nat} (fuel : Nat) {u : Uvm (Phys σ)}
    (hlive : u.live mm = true) (hg : u.pgindex mm = g) (hj : j % pgSize = 0) (hlt : j < len)
    (hw : CopiedTo fill touser user b c m₀ u.env.mem j) :
    ∃ m₁, (copyFillLoop G mm c fill touser (uvaddr + len) (fuel + 1) (uvaddr + j)
        ((vaddr + j) % 2 ^ 32)).run u =
        (copyFillLoop G mm c fill touser (uvaddr + len) fuel (uvaddr + (j + pgSize))
          ((vaddr + min (j + pgSize) len) % 2 ^ 32)).run
          { u with env := { u.env with mem := m₁ } } ∧
      CopiedTo fill touser user b c m₀ m₁ (min (j + pgSize) len) := by
  obtain ⟨f, hf, huser, hkva⟩ := hp.page j hlt hj
  -- The page index is as it was.
  have hwords : SameWords Q m₀ u.env.mem :=
    hw.sameWords hp.frames fun i hi => hapart i (by omega)
  have hnext : ptrAlignNext (uvaddr + j) = uvaddr + (j + pgSize) := by
    rw [ptrAlignNext_eq, Nat.add_assoc]
    · rw [pgSize] at *
      omega
    · rw [pgSize] at *
      omega
  have hl : (min (uvaddr + (j + pgSize)) (uvaddr + len) + 2 ^ 32 - (uvaddr + j)) % 2 ^ 32 =
      min pgSize (len - j) := by
    rw [pgSize] at *
    omega
  have hlen : j + min pgSize (len - j) = min (j + pgSize) len := by omega
  have hbuf : fill = false → Sees ((vaddr + j) % 2 ^ 32) (b + j) ∧
      b + j + min pgSize (len - j) ≤ kernBase := by
    intro hfill
    have hle := hb.le hfill
    exact ⟨(hb.sees hfill).add (by omega), by omega⟩
  have hfl : f + min pgSize (len - j) ≤ kernBase := by
    have := hf.le
    omega
  obtain ⟨m₁, hpage, hw₁⟩ := copyFillPage_run u.env touser c (sees_postmap hf) hfl hbuf
  have hfind : (onEnv (uva2kva G (u.pgindex mm) (uvaddr + j))).run u =
      .ok (postmapAddr f) u := by
    rw [hg]
    exact run_zoom_ok (hkva u.env hwords)
  have hpage : (onEnv (copyFillPage (postmapAddr f) ((vaddr + j) % 2 ^ 32) c
      (min pgSize (len - j)) fill touser)).run u =
      .ok () { u with env := { u.env with mem := m₁ } } := run_zoom_ok hpage
  refine ⟨m₁, ?_, ?_⟩
  · rw [copyFillLoop, if_pos (by omega), run_bind_ok (touch_run (live_one hlive)), run_get_bind,
      run_bind_ok hfind, hnext, hl, if_neg (postmapAddr_ne_zero f), run_bind_ok hpage,
      Nat.mod_add_mod, Nat.add_assoc vaddr, hlen]
  · rw [← hlen]
    exact hw.page hb hp.inj (by omega) (fun i hi => huser i (by omega) (by omega)) hw₁

/-- The loop from the page at `uvaddr + j` on, the bytes in front of it being done. -/
theorem copyFillLoop_run (hp : UserPages G g uvaddr len Q m₀ user)
    (hb : BufferAt fill vaddr b len user) (hal : uvaddr % pgSize = 0)
    (htop : uvaddr + len ≤ 0xfffff000)
    (hapart : ∀ i < len, ∀ a ∈ Q, destAt fill touser user (b + ·) i < a ∨
      a + pgSize ≤ destAt fill touser user (b + ·) i) {n fuel j : Nat} {u : Uvm (Phys σ)}
    (hlive : u.live mm = true) (hg : u.pgindex mm = g) (hj : j % pgSize = 0)
    (hn : len ≤ j + pgSize * n) (hfuel : n < fuel)
    (hw : CopiedTo fill touser user b c m₀ u.env.mem (min j len)) :
    ∃ m', (copyFillLoop G mm c fill touser (uvaddr + len) fuel (uvaddr + j)
        ((vaddr + min j len) % 2 ^ 32)).run u =
        .ok 0 { u with env := { u.env with mem := m' } } ∧
      CopiedTo fill touser user b c m₀ m' len := by
  induction n generalizing fuel j u with
  | zero =>
      obtain ⟨fuel, rfl⟩ := Nat.exists_eq_add_one_of_ne_zero (Nat.ne_zero_of_lt hfuel)
      rw [Nat.mul_zero, Nat.add_zero] at hn
      rw [Nat.min_eq_right hn] at hw
      rw [copyFillLoop, if_neg (by omega)]
      exact ⟨u.env.mem, rfl, hw⟩
  | succ n ih =>
      obtain ⟨fuel, rfl⟩ := Nat.exists_eq_add_one_of_ne_zero (Nat.ne_zero_of_lt hfuel)
      by_cases hlt : j < len
      · rw [Nat.min_eq_left hlt.le] at hw ⊢
        obtain ⟨m₁, hround, hw₁⟩ := copyFillLoop_round hp hb hal htop hapart fuel hlive hg hj hlt hw
        rw [hround]
        refine ih (u := { u with env := { u.env with mem := m₁ } }) hlive hg ?_ ?_
          (Nat.lt_of_succ_lt_succ hfuel) hw₁
        · rw [Nat.add_mod_right]
          exact hj
        · rw [Nat.mul_add, Nat.mul_one] at hn
          omega
      · rw [Nat.min_eq_right (not_lt.mp hlt)] at hw
        rw [copyFillLoop, if_neg (by omega)]
        exact ⟨u.env.mem, rfl, hw⟩

end Loop

end Aim.Kern
