import Aim.Proofs.AreaRun

/-!
# The counter `page_num`

`page_num` serves three purposes. It is what `page_get_free` reports, it is
the capacity `page_alloc` compares `buddy_num` with before it opens another
buddy, and `page_allocator_init` computes the length of the table from it. The
three agree only as long as it counts free pages, and it does not:
`page_alloc` takes off the number of pages asked for where a power of two was
handed out, and `page_free` adds bytes.

Both results below follow one run and say exactly which of its calls the
property survives. For the bounds of the area the only dangerous call is a
request when every buddy of the table is open and none has room, made while
the counter stands higher than the area is large (`area_bounds_iff`). For what
`page_get_free` reports, a request for a number of pages that is not a power
of two already does it, and every `page_free` does (`free_law_iff`).
-/

namespace Aim.Kern

open Aim.Lib

/-! ## The bounds of the area -/

/-- Every block ever handed out lies in the area, and the opened buddies are
entries of the table. -/
def InArea (N : Nat) (r : AreaRun) : Prop :=
  (∀ g ∈ r.given, r.area.baseAddr ≤ g.paddr ∧
    g.paddr + 4096 * g.pages ≤ r.area.baseAddr + 4096 * N) ∧
  r.area.buddyNum ≤ N / 1024

/-- A request stays within bounds: it is larger than a buddy, an opened buddy
has room for it, the table has an entry left, or the counter does not exceed
the area. -/
def BoundedCall (N : Nat) (r : AreaRun) : AreaCall → Prop
  | .alloc pages => 1024 < blockPages pages.size ∨ HasRoom r pages.size ∨
      r.area.buddyNum < N / 1024 ∨ r.area.pageNum / 1024 ≤ N / 1024
  | .free _ => True

variable {r : AreaRun} {N : Nat}

theorem Ledger.inArea {bs : List Blk} (hL : Ledger N r bs)
    (hfit : r.area.baseAddr + 4096 * N ≤ 2 ^ 32) : InArea N r := by
  refine ⟨fun g hg => ?_, hL.buddyNum_le⟩
  have hplace := hL.place_bounds hg
  have haddr := hL.addr g hg
  have hnum := hL.buddyNum_le
  generalize areaPage r.area.baseAddr g.paddr = q at hplace haddr
  unfold areaAddr at haddr
  omega

/-- A run keeps to the area exactly when each of its requests does. -/
theorem area_bounds_iff {N : Nat} {r : AreaRun} {calls : List AreaCall}
    (hinit : (areaCalls N).init r) (hfit : r.area.baseAddr + 4096 * N ≤ 2 ^ 32)
    (hp : (areaCalls N).Permits calls r) :
    (areaCalls N).Always (InArea N) calls r ↔
      (areaCalls N).EachStep (BoundedCall N) calls r := by
  refine Machine.always_iff
    (I := fun r => (∃ bs, Ledger N r bs) ∧ r.area.baseAddr + 4096 * N ≤ 2 ^ 32)
    ?_ ?_ ?_ ⟨⟨[], ledger_init hinit⟩, hfit⟩ hp
  · rintro r ⟨⟨bs, hL⟩, hfit⟩
    exact hL.inArea hfit
  · rintro r i ⟨⟨bs, hL⟩, hfit⟩ hl hC
    cases i with
    | alloc pages =>
        cases ledger_alloc hL hl with
        | granted run result small fits ledger opens live freed count =>
            exact Or.inl ⟨_, run, ⟨_, ledger⟩, by rw [opens.baseAddr]; exact hfit⟩
        | refused run result full ledger opens live freed count =>
            exact Or.inl ⟨_, run, ⟨_, ledger⟩, by rw [opens.baseAddr]; exact hfit⟩
        | overrun run result small full grow last =>
            rcases hC with hlarge | hroom | hleft | hcount
            · omega
            · exact absurd hroom full
            · omega
            · omega
    | free pages =>
        cases ledger_free hL hl with
        | freed run above ledger base opened live freed count =>
            exact Or.inl ⟨_, run, ⟨_, ledger⟩, by rw [base]; exact hfit⟩
        | stopped run below => exact Or.inr ⟨_, _, run, hL.inArea hfit⟩
  · rintro r i ⟨⟨bs, hL⟩, hfit⟩ hl hC hP
    cases i with
    | free pages => exact hC trivial
    | alloc pages =>
        simp only [BoundedCall, not_or, not_lt, not_le] at hC
        obtain ⟨hsmall, hroom, hopen, hcount⟩ := hC
        cases ledger_alloc hL hl with
        | granted run result small fits ledger opens live freed count =>
            rcases fits with hfits | hfits
            · exact hroom hfits
            · omega
        | refused run result full ledger opens live freed count =>
            have hfull := (full hsmall).2
            have hnum := hL.buddyNum_le
            omega
        | overrun run result small full grow last =>
            -- One buddy more than the table has.
            have hleft : (areaCalls N).left (.alloc pages) r = _ :=
              Machine.left_of_error run
            have hnum := hP.2
            rw [hleft] at hnum
            have hgrown : r.area.buddyNum + 1 ≤ N / 1024 := hnum
            omega

/-- Four megabytes, in an area of one buddy, twice with a `page_free` in
between. -/
def fillTwice : List AreaCall :=
  [ask 0x400000, giveBack 0x100000, ask 0x400000]

/-- The second request opens a second buddy, for which the table has no
entry. -/
theorem area_overrun : (areaCalls 1024).init (sampleRun 0x400000) ∧
    (areaCalls 1024).Permits fillTwice (sampleRun 0x400000) ∧
    ¬ (areaCalls 1024).Always (InArea 1024) fillTwice (sampleRun 0x400000) := by
  refine ⟨sampleRun_init (by decide), by decide +kernel, fun h => ?_⟩
  have hnum : ((areaCalls 1024).after [ask 0x400000, giveBack 0x100000]
      (sampleRun 0x400000)).map (fun r =>
        ((areaCalls 1024).left (ask 0x400000) r).area.buddyNum) = some 2 := by
    decide +kernel
  obtain ⟨r, hr, hnum⟩ := Option.map_eq_some_iff.mp hnum
  have hlast := (Machine.Always.last [ask 0x400000, giveBack 0x100000] h hr).2
  rw [hnum] at hlast
  exact absurd hlast (by decide)

/-- Without the `page_free` the second request is refused. -/
theorem area_bounds_iff_fills :
    (areaCalls 1024).Always (InArea 1024) [ask 0x400000, ask 0x400000]
        (sampleRun 0x400000) ↔
      (areaCalls 1024).EachStep (BoundedCall 1024) [ask 0x400000, ask 0x400000]
        (sampleRun 0x400000) :=
  area_bounds_iff (sampleRun_init (by decide)) (by decide) (by decide +kernel)

/-! ## What `page_get_free` reports -/

/-- `page_get_free` answers the bytes of the area that are not handed out. -/
def FreeLaw (N : Nat) (r : AreaRun) : Prop :=
  ∃ bytes, pageGetFree.run r.area = .ok bytes r.area ∧
    (bytes : Int) = 4096 * (N - (r.live.map Grant.pages).sum)

/-- A call the law survives: a request for a power of two of pages, a request
that is refused, or a `page_free` that does not come back because the address
of the block had wrapped around. -/
def LawfulCall (r : AreaRun) : AreaCall → Prop
  | .alloc pages => pageCount pages.size = blockPages pages.size ∨
      (blockPages pages.size ≤ 1024 → ¬ HasRoom r pages.size ∧
        r.area.pageNum / 1024 ≤ r.area.buddyNum)
  | .free pages => pages.paddr < r.area.baseAddr

theorem freeLaw_iff :
    FreeLaw N r ↔ ((r.area.pageNum * 2 ^ 12 % 2 ^ 32 : Nat) : Int) =
      4096 * (N - (r.live.map Grant.pages).sum) := by
  constructor
  · rintro ⟨bytes, hrun, hlaw⟩
    injection hrun with hbytes
    rw [← hlaw, ← hbytes]
  · intro h
    exact ⟨_, rfl, h⟩

/-- On a run without `page_free` the law is about the requests alone. -/
theorem Ledger.freeLaw_iff {bs : List Blk} (hL : Ledger N r bs) (hfreed : r.freed = []) :
    FreeLaw N r ↔ (r.live.map Grant.asked).sum = ((r.live.map Grant.pages).sum : Nat) := by
  have hcount := hL.count_of_no_free hfreed
  have hshort := hL.short
  rw [Kern.freeLaw_iff]
  omega

/-- What holds between the calls of a run that has kept the law. -/
def Lawful (N : Nat) (r : AreaRun) : Prop :=
  (∃ bs, Ledger N r bs) ∧ r.freed = [] ∧ FreeLaw N r

/-- A lawful run never asks for a buddy the table does not have. -/
theorem Lawful.not_overrun (h : Lawful N r) : ¬ N / 1024 < r.area.pageNum / 1024 := by
  obtain ⟨⟨bs, hL⟩, hfreed, _⟩ := h
  have hle := (hL.count_of_no_free hfreed).2
  omega

/-- A granted request keeps the law exactly when it is for a power of two. -/
theorem Lawful.granted_iff {r r' : AreaRun} {bs' : List Blk} {paddr size : Nat} (h : Lawful N r)
    (hL' : Ledger N r' bs') (hlive : r'.live = ⟨paddr, size⟩ :: r.live)
    (hfreed' : r'.freed = r.freed) :
    FreeLaw N r' ↔ pageCount size = blockPages size := by
  obtain ⟨⟨bs, hL⟩, hfreed, hlaw⟩ := h
  rw [hL.freeLaw_iff hfreed] at hlaw
  rw [hL'.freeLaw_iff (hfreed'.trans hfreed), hlive]
  simp only [List.map_cons, List.sum_cons, Grant.asked, Grant.pages]
  omega

/-- A block given back always breaks the law. -/
theorem Lawful.not_freed {r r' : AreaRun} {g : Grant} (h : Lawful N r)
    (hlive : r.live.Perm (g :: r'.live))
    (hcount : r'.area.pageNum = (r.area.pageNum + 4096 * g.pages) % 2 ^ 32) :
    ¬ FreeLaw N r' := by
  obtain ⟨⟨bs, hL⟩, hfreed, hlaw⟩ := h
  have hle := (hL.count_of_no_free hfreed).2
  have hshort := hL.short
  have hg : g ∈ r.given := List.mem_append_left _ (hlive.mem_iff.mpr List.mem_cons_self)
  have hplace := hL.place_bounds hg
  have hnum := hL.buddyNum_le
  have hsum := (hlive.map Grant.pages).sum_eq
  rw [List.map_cons, List.sum_cons] at hsum
  have hsmall := hL.pages_small hg
  rw [Kern.freeLaw_iff] at hlaw ⊢
  rw [hcount]
  -- The counter has gone up by `4096 * n` and not by `n`, and `4095 * n` is
  -- no multiple of `2 ^ 20`.
  omega

/-- A run keeps the law exactly when each of its calls does. -/
theorem free_law_iff {N : Nat} {r : AreaRun} {calls : List AreaCall}
    (hinit : (areaCalls N).init r) (hp : (areaCalls N).Permits calls r) :
    (areaCalls N).Always (FreeLaw N) calls r ↔
      (areaCalls N).EachStep LawfulCall calls r := by
  have hstart : Lawful N r := by
    have hL := ledger_init hinit
    obtain ⟨_, _, hN, hlive, hfreed⟩ := hinit
    refine ⟨⟨[], hL⟩, hfreed, ?_⟩
    rw [hL.freeLaw_iff hfreed, hlive]
    rfl
  refine Machine.always_iff (I := Lawful N) (fun r h => h.2.2) ?_ ?_ hstart hp
  · intro r i h hl hC
    obtain ⟨⟨bs, hL⟩, hfreed, hlaw⟩ := h
    cases i with
    | alloc pages =>
        cases ledger_alloc hL hl with
        | granted run result small fits ledger opens live freed count =>
            refine Or.inl ⟨_, run, ⟨_, ledger⟩, freed.trans hfreed, ?_⟩
            rw [Lawful.granted_iff ⟨⟨bs, hL⟩, hfreed, hlaw⟩ ledger live freed]
            rcases hC with hpow | hfull
            · exact hpow
            · obtain ⟨hroom, hnum⟩ := hfull small
              rcases fits with hfits | hfits
              · exact absurd hfits hroom
              · omega
        | refused run result full ledger opens live freed count =>
            refine Or.inl ⟨_, run, ⟨_, ledger⟩, freed.trans hfreed, ?_⟩
            rw [Kern.freeLaw_iff, live, count]
            exact Kern.freeLaw_iff.mp hlaw
        | overrun run result small full grow last =>
            exact absurd grow (Lawful.not_overrun ⟨⟨bs, hL⟩, hfreed, hlaw⟩)
    | free pages =>
        cases ledger_free hL hl with
        | freed run above ledger base opened live freed count =>
            exact absurd hC (Nat.not_lt.mpr above)
        | stopped run below => exact Or.inr ⟨_, _, run, hlaw⟩
  · intro r i h hl hC hP
    have h₀ := h
    obtain ⟨⟨bs, hL⟩, hfreed, hlaw⟩ := h
    cases i with
    | alloc pages =>
        simp only [LawfulCall, not_or] at hC
        cases ledger_alloc hL hl with
        | granted run result small fits ledger opens live freed count =>
            have hleft := Machine.left_of_ok (M := areaCalls N) (i := .alloc pages) run
            rw [hleft] at hP
            exact hC.1 ((h₀.granted_iff ledger live freed).mp hP)
        | refused run result full ledger opens live freed count => exact hC.2 full
        | overrun run result small full grow last => exact h₀.not_overrun grow
    | free pages =>
        cases ledger_free hL hl with
        | freed run above ledger base opened live freed count =>
            have hleft := Machine.left_of_ok (M := areaCalls N) (i := .free pages) run
            rw [hleft] at hP
            exact h₀.not_freed live count hP
        | stopped run below => exact hC below

/-- One page out and back: the counter ends up 4095 pages too high. -/
theorem free_law_broken : (areaCalls 1024).init (sampleRun 0x400000) ∧
    (areaCalls 1024).Permits [ask 4096, giveBack 0x100000] (sampleRun 0x400000) ∧
    ¬ (areaCalls 1024).Always (FreeLaw 1024) [ask 4096, giveBack 0x100000]
        (sampleRun 0x400000) := by
  refine ⟨sampleRun_init (by decide), by decide +kernel, fun h => ?_⟩
  have hnum : ((areaCalls 1024).after [ask 4096] (sampleRun 0x400000)).map (fun r =>
      let r' := (areaCalls 1024).left (giveBack 0x100000) r
      (r'.area.pageNum, r'.live)) = some (1023 + 4096, []) := by
    decide +kernel
  obtain ⟨r, hr, hval⟩ := Option.map_eq_some_iff.mp hnum
  simp only [Prod.mk.injEq] at hval
  have hlast := Machine.Always.last [ask 4096] h hr
  rw [freeLaw_iff, hval.1, hval.2] at hlast
  exact absurd hlast (by decide)

/-- Three pages cost the counter three and take four. -/
theorem free_law_iff_threePages :
    (areaCalls 1024).Always (FreeLaw 1024) [ask 8192, ask 12288]
        (sampleRun 0x400000) ↔
      (areaCalls 1024).EachStep LawfulCall [ask 8192, ask 12288]
        (sampleRun 0x400000) :=
  free_law_iff (sampleRun_init (by decide)) (by decide +kernel)

end Aim.Kern
