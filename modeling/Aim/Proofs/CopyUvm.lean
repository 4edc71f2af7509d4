import Aim.Proofs.CopyPaths
import Aim.Proofs.DeepCopy

/-!
# Copying to and from user memory

In a state of a run, the pages of the areas are where both paths of `__copy_fill_uvm`
need them: in frames of their own, apart from every page index, each with an entry that
has the frame and the flags of its area. So the bytes of the user are the places that
`CopyPaths` asks for, and both paths have the effect that the MMU would say they have.

What has to be added is where the paths are not good for all ranges. Page after page,
`uva2kva` drops the offset in the page, and the page behind the last one is at zero.
With the page index loaded, a page that may not be written faults, as it should, and so
does every buffer that is not in an area: the page index maps nothing else.
-/

namespace Aim.Kern

open Aim.Lib Mem

variable {σ : Type}

/-- The physical address of the byte at `va`. -/
def userAddr (m : Mem) (d va : Nat) : Nat := (translate m d va).getD 0

/-- Where the bytes from `va` on are, through the page index of `mm`. -/
def Uvm.byteAt (u : Uvm (Phys σ)) (mm va i : Nat) : Nat :=
  userAddr u.env.mem (premapAddr (u.pgindex mm)) (va + i)

/-- The call returns, and has written `byte` to `dest` and nothing else. The addresses
are translated as before. -/
structure CopyRight (call : EStateM Stop (Uvm (Phys σ)) Int) (u : Uvm (Phys σ))
    (d uvaddr len : Nat) (dest : Nat → Nat) (byte : Nat → UInt8) : Prop where
  mapped : ∀ i < len, (translate u.env.mem d (uvaddr + i)).isSome
  effect : ∃ c m', call.run u = .ok c { u with env := { u.env with mem := m' } } ∧
    (0 < len → c = 0) ∧ (∀ va, translate m' d va = translate u.env.mem d va) ∧
    Written u.env.mem m' dest byte len

/-! ## Entries -/

section Entries

variable {m m' : Mem} {d g f flags start va e : Nat} {Q : Set Nat}

/-- The low bits of an entry are the flags. -/
theorem entry_and {b : Nat} (hf : IsFrame f) (hflags : flags < pgSize) (hb : b < 2 ^ 12) :
    (f ||| flags ||| pteP) % 2 ^ 32 &&& b = (flags ||| pteP) &&& b := by
  rw [Nat.mod_eq_of_lt (page_entry_lt hf.isPage hflags), Nat.or_assoc, Nat.and_or_distrib_right,
    aligned_and hf.1 hb, Nat.zero_or]

theorem entry_bit {b : Nat} (hf : IsFrame f) (hflags : flags < pgSize) (hb : b < 2 ^ 12)
    (hbit : flags &&& b ≠ 0) : (f ||| flags ||| pteP) % 2 ^ 32 &&& b ≠ 0 := by
  rw [entry_and hf hflags hb, Nat.and_or_distrib_right]
  intro h0
  exact hbit (Nat.or_eq_zero_iff.mp h0).1

theorem TwoLevel.translate_same (h : TwoLevel m d Q) (hs : SameWords Q m m') (va : Nat) :
    translate m' d va = translate m d va := by
  have h' := h.keep (hs d h.dir)
  rw [h'.translate_eq, h.translate_eq, h'.pageEntry_eq, h.pageEntry_eq, h.rawEntry_eq hs]

/-- `uva2kva` at the start of a page, while the words of the page index are the same. -/
theorem TwoLevel.uva2kva_run {G : Pager σ} {s : Phys σ} (h : TwoLevel m d Q) (hg : Sees g d)
    (he : pageEntry m d va = some e) (hs : SameWords Q m s.mem) :
    (uva2kva G g va).run s = .ok (kvaOf e) s := by
  obtain ⟨t, ht, hw⟩ := h.tableAt_of_pageEntry he
  have htQ := (h.table _ (pdx_lt va) t ht).1
  have ht' : tableAt s.mem d (pdx va) = some t :=
    (tableAt_congr (hs d h.dir _ (pdx_lt va))).trans ht
  rw [uva2kva_some (h.frame d h.dir) hg ht' (h.frame t htQ), hs t htQ _ (ptx_lt va), hw]

end Entries

/-! ## The user's bytes in a run -/

section Inv

variable {B : Base σ} {S : BaseSpec B} {K : Set Nat} {H : Others} {u : Uvm (Phys σ)}
  {mms : List Nat} {vmas : Nat → List Nat} {R : Res} {mm v va uvaddr len : Nat}

/-- Areas that a user may read. -/
def Readable (u : Uvm σ) (l : List Nat) : Prop :=
  ∀ v ∈ l, (u.vma v).flags < 0x1000 ∧ (u.vma v).flags &&& vmaRead ≠ 0

/-- Areas that a user may write. -/
def Writable (u : Uvm σ) (l : List Nat) : Prop := ∀ v ∈ l, (u.vma v).flags &&& vmaWrite ≠ 0

variable (h : UvmInv (i386Spec S False K) H u mms vmas R) (hm : mm ∈ mms)
  (hread : Readable u (vmas mm))

include h hm hread

theorem UvmInv.translate_eq (hv : v ∈ vmas mm) (hlo : (u.vma v).start ≤ va)
    (hhi : va < (u.vma v).start + (u.vma v).size) :
    translate u.env.mem (premapAddr (u.pgindex mm)) va =
      some (u.frameOf v + (va - (u.vma v).start)) := by
  have harea := h.spaces.area mm hm v hv
  rw [harea.size] at hhi
  exact (h.directory hm).2.twoLevel.translate_area ⟨harea.aligned, harea.lt⟩
    (h.frame_of hm hv).2 (hread v hv).1 (h.pageEntry_start hm hv) hlo hhi

/-- Every byte of the range is a byte of the frame of an area. -/
theorem UvmInv.userAddr_eq (hcov : Covered u (vmas mm) uvaddr len) {i : Nat} (hi : i < len) :
    ∃ v ∈ vmas mm, ∃ o < pgSize, uvaddr + i = (u.vma v).start + o ∧
      translate u.env.mem (premapAddr (u.pgindex mm)) (uvaddr + i) = some (u.frameOf v + o) ∧
      u.byteAt mm uvaddr i = u.frameOf v + o := by
  obtain ⟨v, hv, hlo, hhi⟩ := hcov (uvaddr + i) (by omega) (by omega)
  have htr := h.translate_eq hm hread hv hlo hhi
  rw [(h.spaces.area mm hm v hv).size] at hhi
  refine ⟨v, hv, uvaddr + i - (u.vma v).start, by omega, by omega, htr, ?_⟩
  rw [Uvm.byteAt, userAddr, htr]
  rfl

theorem UvmInv.userAddr_inj (hcov : Covered u (vmas mm) uvaddr len) :
    ∀ i < len, ∀ j < len, u.byteAt mm uvaddr i =
      u.byteAt mm uvaddr j → i = j := by
  intro i hi j hj he
  obtain ⟨v, hv, o, ho, hvo, -, hvu⟩ := h.userAddr_eq hm hread hcov hi
  obtain ⟨w, hw, p, hp, hwp, -, hwu⟩ := h.userAddr_eq hm hread hcov hj
  have hfv := (h.frame_of hm hv).2.1
  have hfw := (h.frame_of hm hw).2.1
  rw [hvu, hwu] at he
  have hframe : u.frameOf v = u.frameOf w := by
    rw [pgSize] at *
    omega
  obtain rfl := h.owned.frameInj v w (.of_mem hm hv) (.of_mem hm hw) hframe
  omega

/-- What the loop over the pages needs. -/
theorem UvmInv.userPages (hcov : Covered u (vmas mm) uvaddr len) (hal : uvaddr % pgSize = 0) :
    UserPages B.pager (u.pgindex mm) uvaddr len (R.inner (u.pgindex mm)) u.env.mem
      (u.byteAt mm uvaddr) := by
  obtain ⟨hsees, hidx⟩ := h.directory hm
  refine ⟨hidx.frame, fun j hj hjal => ?_, h.userAddr_inj hm hread hcov⟩
  obtain ⟨v, hv, o, ho, hvo, -, -⟩ := h.userAddr_eq hm hread hcov hj
  have harea := h.spaces.area mm hm v hv
  have hf := (h.frame_of hm hv).2
  obtain ⟨hflags, hbit⟩ := hread v hv
  have hstart : (u.vma v).start = uvaddr + j := by
    have := harea.aligned
    rw [pgSize] at *
    omega
  refine ⟨u.frameOf v, hf, fun i hi hji => ?_, fun s hs => ?_⟩
  · have hhi : uvaddr + (j + i) < (u.vma v).start + (u.vma v).size := by
      rw [harea.size]
      omega
    have htr := h.translate_eq hm hread hv (by omega) hhi
    rw [Uvm.byteAt, userAddr, htr, hstart, Option.getD_some]
    omega
  · have he := h.pageEntry_start hm hv
    rw [hstart] at he
    have hentry : UserEntry ((u.frameOf v ||| (u.vma v).flags ||| pteP) % 2 ^ 32) :=
      ⟨page_present _ _, entry_bit hf hflags (by decide) hbit⟩
    rw [hidx.twoLevel.uva2kva_run hsees he hs, kvaOf, if_pos hentry,
      pgRoundDown_entry hf hflags]

/-- What the direct path needs. -/
theorem UvmInv.kernelAccess_eq (hcov : Covered u (vmas mm) uvaddr len) {write : Bool}
    (hwrite : write = true → Writable u (vmas mm)) (hend : uvaddr + len ≤ 2 ^ 32) {i : Nat}
    (hi : i < len) :
    kernelAccess u.env.mem (premapAddr (u.pgindex mm)) ((uvaddr + i) % 2 ^ 32) write =
      some (u.byteAt mm uvaddr i) := by
  obtain ⟨v, hv, o, ho, hvo, htr, hua⟩ := h.userAddr_eq hm hread hcov hi
  have harea := h.spaces.area mm hm v hv
  obtain ⟨-, hidx⟩ := h.directory hm
  have hf := (h.frame_of hm hv).2
  have hlt : uvaddr + i < 2 ^ 32 := by omega
  obtain ⟨hpdx, hptx⟩ := (samePage_iff ⟨harea.aligned, harea.lt⟩ hlt).mpr ⟨by omega, by omega⟩
  have hentry := h.pageEntry_start hm hv
  have hsame : pageEntry u.env.mem (premapAddr (u.pgindex mm)) (uvaddr + i) =
      some ((u.frameOf v ||| (u.vma v).flags ||| pteP) % 2 ^ 32) := by
    rw [← hentry, pageEntry, pageEntry, hpdx, hptx]
  obtain ⟨t, ht, -⟩ := hidx.twoLevel.tableAt_of_pageEntry hsame
  obtain ⟨hdir, htX, -⟩ := hidx.tableAt_eq (pdx_lt _) ht
  have hdir : u.env.mem.load32 (premapAddr (u.pgindex mm) + 4 * pdx (uvaddr + i)) = t + 7 := hdir
  rw [Nat.mod_eq_of_lt hlt, kernelAccess, hsame, Option.bind_some, if_neg, htr, hua]
  rintro ⟨hw, h0 | h0⟩
  · exact entry_bit hf (hread v hv).1 (by decide) (hwrite hw v hv) h0
  · have htf := hidx.frame t htX
    rw [hdir, ← aligned_or htf.1 (by decide : 7 < 2 ^ 12), Nat.and_or_distrib_right,
      aligned_and htf.1 (by decide : pteW < 2 ^ 12)] at h0
    exact absurd h0 (by decide)

end Inv

/-! ## The search -/

section Search

variable {u : Uvm σ} {m addr len : Nat} {l : List Nat}

/-- For no pages at all, an area at `addr` is asked for. -/
theorem findContinuousVma_zero (h : AreasOf u m l) (haddr : addr % pgSize = 0) :
    ∃ ans, (findContinuousVma m addr 0).run u = .ok ans u ∧ (AreaAt u l addr → ans ≠ none) := by
  rcases findContinuousVma_first h haddr (Nat.zero_mod pgSize) with
    ⟨hnone, hrun⟩ | ⟨l₁, v, l₂, -, -, hrun⟩
  · exact ⟨none, hrun, fun hat => absurd hat hnone⟩
  · rw [hrun, run_bind_ok (continuousLoop_done (Nat.not_lt_zero _))]
    exact ⟨_, rfl, fun _ => Option.some_ne_none _⟩

/-- The search returns, and finds a range that is covered. -/
theorem findContinuousVma_pages (h : AreasOf u m l) (hs : Ascending u l)
    (haddr : addr % pgSize = 0) (hlen : len % pgSize = 0) (hlen32 : len < 2 ^ 32)
    (hend : addr + len ≤ 2 ^ 32) :
    ∃ ans, (findContinuousVma m addr len).run u = .ok ans u ∧
      (AreaAt u l addr → PagesAt u l addr (len / pgSize) → ans ≠ none) := by
  have hdiv : len = pgSize * (len / pgSize) := by
    have := Nat.div_add_mod len pgSize
    omega
  cases hk : len / pgSize with
  | zero =>
      rw [hk, Nat.mul_zero] at hdiv
      subst hdiv
      obtain ⟨ans, hrun, hans⟩ := findContinuousVma_zero h haddr
      exact ⟨ans, hrun, fun hat _ => hans hat⟩
  | succ k =>
      rw [hk] at hdiv
      obtain ⟨ans, hrun, -, hans⟩ := findContinuousVma_run h hs haddr hdiv hlen32 hend
      exact ⟨ans, hrun, fun hat hp => hans.mpr ⟨hat, .inl hp⟩⟩

/-- The pages that a covered range touches are areas. -/
theorem Covered.pagesAt {uvaddr n : Nat} (h : AreasOf u m l) (hc : Covered u l uvaddr len)
    (hpos : 0 < len) (hn : pgRoundDown uvaddr + pgSize * n < uvaddr + len + pgSize) :
    PagesAt u l (pgRoundDown uvaddr) n := by
  intro j hj
  have hle := Nat.mul_le_mul_left pgSize (Nat.succ_le_of_lt hj)
  rw [Nat.mul_succ] at hle
  have hround : pgRoundDown uvaddr ≤ uvaddr ∧ uvaddr < pgRoundDown uvaddr + pgSize := by
    rw [pgRoundDown, pgSize]
    omega
  have hal : pgRoundDown uvaddr % pgSize = 0 := Nat.mul_mod_left _ _
  have hjal : (pgSize * j) % pgSize = 0 := Nat.mul_mod_right _ _
  obtain ⟨v, hv, hlo, hhi⟩ := hc (max uvaddr (pgRoundDown uvaddr + pgSize * j)) (by omega)
    (by omega)
  have hstart := h.aligned v hv
  rw [h.size v hv] at hhi
  refine ⟨v, hv, ?_⟩
  generalize pgSize * j = p at *
  rw [pgSize] at *
  omega

end Search

/-! ## The calls -/

/-- Where the bytes of the buffer at `vaddr` are. If the page index of `mm` is loaded it
is asked, and otherwise they are in the window, from the physical address `b` on. -/
def bufAddr (cur : Current) (u : Uvm (Phys σ)) (mm vaddr b i : Nat) : Nat :=
  if cur.procMm = some mm then u.byteAt mm vaddr i else b + i

/-- A buffer that the kernel can access: in the window, apart from all frames that are
out, or with the page index of `mm` loaded in the areas `l`. -/
structure KernelBuffer {B : Base σ} (S : BaseSpec B) (cur : Current) (u : Uvm (Phys σ))
    (mm : Nat) (l : List Nat) (vaddr b len : Nat) : Prop where
  lt : vaddr < 2 ^ 32
  window : cur.procMm ≠ some mm → Sees vaddr b ∧ b + len ≤ kernBase ∧
    ∀ O U P, S.Out u.env O U P → ∀ i < len, ∀ a ∈ U ∪ P, b + i < a ∨ a + pgSize ≤ b + i
  areas : cur.procMm = some mm → vaddr + len ≤ 2 ^ 32 ∧ Covered u l vaddr len

/-- If the address space is that of the running process, its page index is loaded; if it
is not, the range starts with a page and stays below the last one. -/
structure PathFits (cur : Current) (u : Uvm (Phys σ)) (mm uvaddr len : Nat) : Prop where
  loaded : cur.procMm = some mm → cur.cr3 = premapAddr (u.pgindex mm)
  pages : cur.procMm ≠ some mm → 0 < len → uvaddr % pgSize = 0 ∧ uvaddr + len ≤ 0xfffff000

section Call

variable {B : Base σ} {S : BaseSpec B} {K : Set Nat} {H : Others} {u : Uvm (Phys σ)}
  {mms : List Nat} {vmas : Nat → List Nat} {R : Res} {mm uvaddr vaddr b len : Nat} {c : UInt8}
  {fill touser : Bool} {cur : Current}

theorem bufAddr_areas (h : cur.procMm = some mm) :
    bufAddr cur u mm vaddr b = u.byteAt mm vaddr := funext fun _ => if_pos h

theorem bufAddr_window (h : cur.procMm ≠ some mm) : bufAddr cur u mm vaddr b = (b + ·) :=
  funext fun _ => if_neg h

/-- The pages that the search is asked for. -/
theorem searchRange_eq (huv : uvaddr < 2 ^ 32) (hend : uvaddr + len ≤ 2 ^ 32) :
    ∃ n, (ptrAlignAbove ((uvaddr + len) % 2 ^ 32) + 2 ^ 32 - pgRoundDown uvaddr) % 2 ^ 32 =
        pgSize * n ∧ pgSize * n < 2 ^ 32 ∧ pgRoundDown uvaddr + pgSize * n ≤ 2 ^ 32 ∧
      (0 < len → pgRoundDown uvaddr + pgSize * n < uvaddr + len + pgSize) := by
  by_cases h0 : uvaddr + len = 0
  · obtain rfl : uvaddr = 0 := by omega
    obtain rfl : len = 0 := by omega
    exact ⟨0, by decide, by decide, by decide, fun hpos => absurd hpos (lt_irrefl 0)⟩
  rw [ptrAlignAbove_eq (by omega) hend]
  refine ⟨(((uvaddr + len + 4095) / 4096 * 4096) % 2 ^ 32 + 2 ^ 32 - pgRoundDown uvaddr) %
    2 ^ 32 / 4096, ?_, ?_, ?_, ?_⟩
  all_goals
    rw [pgRoundDown, pgSize]
    omega

/-- The search returns, and a covered range is found. -/
theorem AreasOf.range_found (hl : AreasOf u mm (vmas mm)) (hs : Ascending u (vmas mm))
    (huv : uvaddr < 2 ^ 32) (hend : uvaddr + len ≤ 2 ^ 32)
    (hcov : Covered u (vmas mm) uvaddr len) :
    ∃ ans, (findContinuousVma mm (pgRoundDown uvaddr)
        ((ptrAlignAbove ((uvaddr + len) % 2 ^ 32) + 2 ^ 32 - pgRoundDown uvaddr) % 2 ^ 32)).run u =
        .ok ans u ∧ (0 < len → ans ≠ none) := by
  obtain ⟨n, hn, hn32, hnend, hnlen⟩ := searchRange_eq huv hend
  obtain ⟨ans, hfind, hans⟩ := findContinuousVma_pages hl hs (pgRoundDown_aligned uvaddr)
    (Nat.mul_mod_right pgSize n) hn32 hnend
  rw [Nat.mul_div_cancel_left _ (by decide)] at hans
  rw [hn]
  refine ⟨ans, hfind, fun hpos => ?_⟩
  have hpages := hcov.pagesAt hl hpos (hnlen hpos)
  have hfirst : PagesAt u (vmas mm) (pgRoundDown uvaddr) 1 := by
    refine hcov.pagesAt hl hpos ?_
    have := pgRoundDown_le uvaddr
    omega
  have hat := hfirst 0 (by decide)
  rw [Nat.mul_zero, Nat.add_zero] at hat
  exact hans hat hpages

variable (h : UvmInv (i386Spec S False K) H u mms vmas R) (hm : mm ∈ mms)
  (hread : Readable u (vmas mm)) (hcov : Covered u (vmas mm) uvaddr len)

include h hm hread hcov

/-- The bytes of the areas are in no page index. -/
theorem UvmInv.byteAt_apart {i a : Nat} (hi : i < len) (ha : a ∈ R.inner (u.pgindex mm)) :
    u.byteAt mm uvaddr i < a ∨ a + pgSize ≤ u.byteAt mm uvaddr i := by
  obtain ⟨P, hacc⟩ := h.rep
  have hg := ((h.indexed trivial).indexes (u.pgindex mm)).mpr (.inr ⟨mm, hm, rfl⟩)
  have haP := hacc.inner _ hg a ha
  obtain ⟨v, hv, o, ho, -, -, hua⟩ := h.userAddr_eq hm hread hcov hi
  obtain ⟨hvU, hvf⟩ := h.frame_of hm hv
  have hne : u.frameOf v ≠ a := fun he => S.apart _ _ _ _ hacc.out _ hvU (he ▸ haP)
  have hdisj := (BaseSpec.page hacc.out haP).disjoint hvf hne
  rw [hua]
  omega

/-- Nothing is written to a page index. -/
theorem UvmInv.destAt_apart (touser : Bool)
    (hbuf : fill = false → KernelBuffer S cur u mm (vmas mm) vaddr b len) :
    ∀ i < len, ∀ a ∈ R.inner (u.pgindex mm),
      destAt fill touser (u.byteAt mm uvaddr) (bufAddr cur u mm vaddr b) i < a ∨
        a + pgSize ≤ destAt fill touser (u.byteAt mm uvaddr) (bufAddr cur u mm vaddr b) i := by
  intro i hi a ha
  rw [destAt]
  by_cases hdest : (fill || touser) = true
  · rw [if_pos hdest]
    exact h.byteAt_apart hm hread hcov hi ha
  · rw [if_neg hdest]
    have hfill : fill = false := by
      cases fill with
      | false => rfl
      | true => exact absurd rfl hdest
    by_cases hcur : cur.procMm = some mm
    · rw [bufAddr_areas hcur]
      exact h.byteAt_apart hm hread ((hbuf hfill).areas hcur).2 hi ha
    · rw [bufAddr_window hcur]
      obtain ⟨P, hacc⟩ := h.rep
      have hg := ((h.indexed trivial).indexes (u.pgindex mm)).mpr (.inr ⟨mm, hm, rfl⟩)
      exact ((hbuf hfill).window hcur).2.2 _ _ _ hacc.out i hi a (.inr (hacc.inner _ hg a ha))

theorem UvmInv.bufferAt (hcur : cur.procMm ≠ some mm)
    (hbuf : fill = false → KernelBuffer S cur u mm (vmas mm) vaddr b len) :
    BufferAt fill vaddr b len (u.byteAt mm uvaddr) := by
  refine ⟨fun hf => ((hbuf hf).window hcur).1, fun hf => ((hbuf hf).window hcur).2.1,
    fun hf i hi j hj he => ?_⟩
  obtain ⟨P, hacc⟩ := h.rep
  obtain ⟨v, hv, o, ho, -, -, hua⟩ := h.userAddr_eq hm hread hcov hi
  have hout := ((hbuf hf).window hcur).2.2 _ _ _ hacc.out j hj _ (.inl (h.frame_of hm hv).1)
  rw [hua] at he
  omega

/-- The path through the page index that is loaded. -/
theorem UvmInv.direct_right (c : UInt8) (hend : uvaddr + len ≤ 2 ^ 32)
    (hcr3 : cur.cr3 = premapAddr (u.pgindex mm)) (hwrite : Writable u (vmas mm))
    (hbuf : fill = false → vaddr + len ≤ 2 ^ 32 ∧ Covered u (vmas mm) vaddr len) :
    u.pgindex mm = getPgindex cur ∧
      ∃ m', (onEnv (copyFillDirect cur uvaddr vaddr c len fill touser)).run u =
          .ok () { u with env := { u.env with mem := m' } } ∧
        Written u.env.mem m' (destAt fill touser (u.byteAt mm uvaddr) (u.byteAt mm vaddr))
          (srcByte fill touser (u.byteAt mm uvaddr) (u.byteAt mm vaddr) c u.env.mem) len := by
  constructor
  · obtain ⟨d, hd, hidx⟩ := h.indexAt hm
    have hlt := (hidx.frame d hidx.dir).2
    rw [getPgindex, hcr3, hd, premapAddr_high]
    rw [kernBase] at *
    omega
  · have hacc : ∀ {va : Nat} (write : Bool), va + len ≤ 2 ^ 32 → Covered u (vmas mm) va len →
        ∀ i < len, kernelAccess u.env.mem cur.cr3 ((va + i) % 2 ^ 32) write =
          some (u.byteAt mm va i) := by
      intro va write hva hva' i hi
      rw [hcr3]
      exact h.kernelAccess_eq hm hread hva' (fun _ => hwrite) hva hi
    obtain ⟨m', hdirect, hw⟩ := copyFillDirect_run (s := u.env) c (hacc _ hend hcov)
      (h.userAddr_inj hm hread hcov) (fun hf => hacc _ (hbuf hf).1 (hbuf hf).2)
      (fun hf => h.userAddr_inj hm hread (hbuf hf).2)
    exact ⟨m', run_zoom_ok hdirect, hw⟩

/-- The path from page to page. -/
theorem UvmInv.pages_right (c : UInt8) (hlive : u.live mm = true) (huv : uvaddr < 2 ^ 32)
    (hv : vaddr < 2 ^ 32) (hcur : cur.procMm ≠ some mm)
    (hpages : 0 < len → uvaddr % pgSize = 0 ∧ uvaddr + len ≤ 0xfffff000)
    (hbuf : fill = false → KernelBuffer S cur u mm (vmas mm) vaddr b len) :
    ∃ m', (copyFillLoop B.pager mm c fill touser ((uvaddr + len) % 2 ^ 32) (2 ^ 20 + 1) uvaddr
          vaddr).run u = .ok 0 { u with env := { u.env with mem := m' } } ∧
        Written u.env.mem m' (destAt fill touser (u.byteAt mm uvaddr) (b + ·))
          (srcByte fill touser (u.byteAt mm uvaddr) (b + ·) c u.env.mem) len := by
  rcases Nat.eq_zero_or_pos len with rfl | hpos
  · refine ⟨u.env.mem, ?_, .none _ _ _⟩
    rw [Nat.add_zero, Nat.mod_eq_of_lt huv, show 2 ^ 20 + 1 = 1048576 + 1 from rfl, copyFillLoop,
      if_neg (lt_irrefl _)]
    rfl
  · obtain ⟨hal, htop⟩ := hpages hpos
    have hfuel : len / pgSize + 1 < 2 ^ 20 + 1 := by
      rw [pgSize]
      omega
    have hn : len ≤ 0 + pgSize * (len / pgSize + 1) := by
      rw [pgSize]
      omega
    have hapart := h.destAt_apart hm hread hcov touser hbuf
    rw [bufAddr_window hcur] at hapart
    obtain ⟨m', hrun, hw⟩ := copyFillLoop_run (u := u) (j := 0) (c := c)
      (h.userPages hm hread hcov hal) (h.bufferAt hm hread hcov hcur hbuf) hal htop hapart
      hlive rfl rfl hn hfuel (by rw [Nat.zero_min]; exact .none _ _ _)
    rw [Nat.zero_min, Nat.add_zero uvaddr, Nat.add_zero vaddr, Nat.mod_eq_of_lt hv] at hrun
    rw [Nat.mod_eq_of_lt (by omega : uvaddr + len < 2 ^ 32)]
    exact ⟨m', hrun, hw⟩

/-- The body of the three calls. -/
theorem UvmInv.copyFillUvm_right (hl : AreasOf u mm (vmas mm)) (hs : Ascending u (vmas mm))
    (huv : uvaddr < 2 ^ 32) (hend : uvaddr + len ≤ 2 ^ 32) (hv : vaddr < 2 ^ 32)
    (hfits : PathFits cur u mm uvaddr len)
    (hwrite : cur.procMm = some mm → Writable u (vmas mm))
    (hbuf : fill = false → KernelBuffer S cur u mm (vmas mm) vaddr b len) :
    CopyRight (copyFillUvm B.pager cur mm uvaddr vaddr c len fill touser) u
      (premapAddr (u.pgindex mm)) uvaddr len
      (destAt fill touser (u.byteAt mm uvaddr) (bufAddr cur u mm vaddr b))
      (srcByte fill touser (u.byteAt mm uvaddr) (bufAddr cur u mm vaddr b) c u.env.mem) := by
  obtain ⟨-, hidx⟩ := h.directory hm
  have hlive : u.live mm = true := hl.live _ List.mem_cons_self
  refine ⟨fun i hi => ?_, ?_⟩
  · obtain ⟨v, -, o, -, -, htr, -⟩ := h.userAddr_eq hm hread hcov hi
    rw [htr]
    rfl
  -- Nothing is written to the page index, so the range stays where it is.
  have hapart := h.destAt_apart hm hread hcov touser hbuf
  obtain ⟨ans, hfind, hfound⟩ := hl.range_found hs huv hend hcov
  rw [copyFillUvm, run_bind_ok hfind]
  cases ans with
  | none =>
      have hlen : len = 0 := Nat.eq_zero_of_not_pos fun hpos => hfound hpos rfl
      subst hlen
      exact ⟨-efault, u.env.mem, rfl, fun hpos => absurd hpos (lt_irrefl 0), fun _ => rfl,
        .none _ _ _⟩
  | some q =>
      by_cases hcur : cur.procMm = some mm
      · obtain ⟨hpg, m', hdirect, hw⟩ := h.direct_right hm hread hcov c hend (hfits.loaded hcur)
          (hwrite hcur) fun hf => (hbuf hf).areas hcur
        rw [bufAddr_areas hcur] at hapart ⊢
        have hassert : (kassert "__copy_fill_uvm" "mm->pgindex == get_pgindex()" 489
            (decide (u.pgindex mm = getPgindex cur))).run u = .ok () u := by
          rw [decide_eq_true hpg]
          rfl
        refine ⟨0, m', ?_, fun _ => rfl,
          hidx.twoLevel.translate_same (hw.sameWords hidx.frame hapart), hw⟩
        simp only [if_pos hcur]
        rw [run_bind_ok (touch_run (live_one hlive)), run_get_bind, run_bind_ok hassert,
          run_bind_ok hdirect]
        rfl
      · obtain ⟨m', hrun, hw⟩ := h.pages_right hm hread hcov c hlive huv hv hcur
          (hfits.pages hcur) hbuf
        rw [bufAddr_window hcur] at hapart ⊢
        refine ⟨0, m', ?_, fun _ => rfl,
          hidx.twoLevel.translate_same (hw.sameWords hidx.frame hapart), hw⟩
        simp only [if_neg hcur]
        exact hrun

end Call

section OnePage

variable {r : UvmRun (Phys Supply)} {uvaddr len : Nat}
  (h : r.u.vma 0x1019 = ⟨0x400000, 0x1000, 7, 0x1000, 0x1046⟩)

include h

theorem oneArea_readable : Readable r.u [0x1019] := by
  intro v hv
  rw [List.mem_singleton.mp hv, h]
  decide

theorem oneArea_writable : Writable r.u [0x1019] := by
  intro v hv
  rw [List.mem_singleton.mp hv, h]
  decide

theorem oneArea_covered (hlo : 0x400000 ≤ uvaddr) (hhi : uvaddr + len ≤ 0x401000) :
    Covered r.u [0x1019] uvaddr len := by
  intro va hva hva'
  refine ⟨0x1019, List.mem_cons_self, ?_⟩
  rw [h]
  exact ⟨hlo.trans hva, lt_of_lt_of_le hva' hhi⟩

end OnePage

end Aim.Kern
