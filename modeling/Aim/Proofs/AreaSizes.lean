import Aim.Proofs.AreaRun
import Aim.Proofs.BuddyFit

/-!
# Sizes of every kind

A size of 64 bits is rounded up to pages, narrowed to an `int`, and rounded up
to a power of two by `buddy_alloc`. Up to four megabytes all of this is exact.
Above, the narrowed number can be anything: a number of pages that fits a buddy
and gets a block far too small, a number that is too large and is refused as it
should be, or a number `next_pow_of_2` has no power of two for. In the last
case the search looks for a block no node has the length of, and if there is a
free page at all it follows it down past the last level.

`pageHistory` is the page allocator under any arguments. Its states have a tree
for each opened buddy (`Sound`), which is all that is used of them, and what
decides about a request is read off the marks: `Room` is an unused node that is
large enough, in an opened buddy.
-/

namespace Aim.Kern

open Aim.Lib

/-! ## Room, by the marks -/

/-- A buddy has an unused node of `2 ^ k` pages or more. -/
def RoomFor (self : Buddy) (k : Nat) : Prop :=
  ∃ d i, Reached self.tree d i ∧ self.tree i = .unused ∧ d + k ≤ self.level

section RoomFor

variable {t : Int → Node} {L k : Nat} {b : Blk}

theorem exists_unused {h d : Nat} {i : Int} (hr : Reached t d i) (hL : d + h = L) (hk : k ≤ h)
    (hs : Stores t h i b) (ha : (Blk.alloc k h b).isSome) :
    ∃ d' j, Reached t d' j ∧ t j = .unused ∧ d' + k ≤ L := by
  induction h generalizing d i b with
  | zero =>
      obtain rfl : k = 0 := by omega
      cases b with
      | free => exact ⟨d, i, hr, (stores_free.mp hs).1, by omega⟩
      | used => rw [Blk.alloc_used] at ha; cases ha
      | node l r => exact absurd hs id
  | succ h ih =>
      cases b with
      | free => exact ⟨d, i, hr, (stores_free.mp hs).1, by omega⟩
      | used => rw [Blk.alloc_used] at ha; cases ha
      | node l r =>
          obtain ⟨_, hl, hrr⟩ := stores_node.mp hs
          by_cases hkh : k = h + 1
          · rw [hkh, Blk.alloc_self] at ha
            simp at ha
          · rw [Blk.alloc_node (by omega)] at ha
            cases hal : Blk.alloc k h l with
            | some p =>
                exact ih (hr.left hs.inner_mark) (by omega) (by omega) hl (by rw [hal]; rfl)
            | none =>
                simp only [hal, Option.isSome_map] at ha
                exact ih (hr.right hs.inner_mark) (by omega) (by omega) hrr ha

/-- Room at a node the marks lead to is room at the root. -/
theorem Reached.avail_root {d h : Nat} {i : Int} (hr : Reached t d i) (hst : Stores t L 0 b)
    (hwf : Blk.Wf L b) (hL : d + h = L) (hk : k ≤ h) (ha : avail t k h i = true) :
    avail t k L 0 = true := by
  induction hr generalizing h with
  | root =>
      obtain rfl : h = L := by omega
      exact ha
  | @left d i hr hm ih =>
      obtain ⟨h', base, b', hsub⟩ := hr.subAt hst hwf
      obtain ⟨h'', l, r, rfl, rfl⟩ := hsub.stores.inner_of_mark hm
      obtain rfl : h'' = h := by have := hsub.height; omega
      obtain ⟨_, hl, _⟩ := stores_node.mp hsub.stores
      rw [hl.avail_eq hk] at ha
      obtain ⟨p, hp⟩ := Option.isSome_iff_exists.mp ha
      refine ih (h := h'' + 1) (by omega) (by omega) ?_
      rw [hsub.stores.avail_eq (by omega), Blk.alloc_node hk, hp]
      rfl
  | @right d i hr hm ih =>
      obtain ⟨h', base, b', hsub⟩ := hr.subAt hst hwf
      obtain ⟨h'', l, r, rfl, rfl⟩ := hsub.stores.inner_of_mark hm
      obtain rfl : h'' = h := by have := hsub.height; omega
      obtain ⟨_, _, hrr⟩ := stores_node.mp hsub.stores
      rw [hrr.avail_eq hk] at ha
      refine ih (h := h'' + 1) (by omega) (by omega) ?_
      rw [hsub.stores.avail_eq (by omega), Blk.alloc_node hk]
      cases Blk.alloc k h'' l with
      | some p => rfl
      | none => simpa using ha

/-- The marks show room where the tree has it. -/
theorem roomFor_iff (hst : Stores t L 0 b) (hwf : Blk.Wf L b) (hk : k ≤ L) :
    RoomFor (ofTree L t) k ↔ (Blk.alloc k L b).isSome := by
  constructor
  · rintro ⟨d, i, hr, hu, hd⟩
    have hd' : d + k ≤ L := hd
    have havail : avail t k L 0 = true := hr.avail_root hst hwf (show d + (L - d) = L by omega) (by omega)
      (avail_unused (t := t) (k := k) (by omega) hu)
    rwa [hst.avail_eq hk] at havail
  · intro ha
    exact exists_unused .root (Nat.zero_add L) hk hst ha

end RoomFor

/-- An opened buddy of the area has such a node. -/
def Room (area : Area) (k : Nat) : Prop :=
  ∃ i p, i < area.buddyNum ∧ area.buddylist[i]? = some p ∧ RoomFor (area.heap p) k

variable {area : Area} {bs : List Blk}

theorem room_iff {k : Nat} (hH : Holds area bs) (hk : k ≤ 10) : Room area k ↔ Roomy k bs := by
  constructor
  · rintro ⟨i, p, hi, hp, hroom⟩
    rw [← hH.length] at hi
    obtain ⟨q, t, hq, hheap, hst, hwf⟩ := hH.get i bs[i] (List.getElem?_eq_getElem hi)
    obtain rfl : p = q := Option.some.inj (hp.symm.trans hq)
    rw [hheap, roomFor_iff hst hwf hk] at hroom
    exact ⟨bs[i], List.getElem_mem hi, hroom⟩
  · rintro ⟨b, hb, hsome⟩
    obtain ⟨i, hi⟩ := List.mem_iff_getElem?.mp hb
    obtain ⟨p, t, hp, hheap, hst, hwf⟩ := hH.get i b hi
    refine ⟨i, p, ?_, hp, ?_⟩
    · rw [← hH.length]
      exact (List.getElem?_eq_some_iff.mp hi).1
    · rw [hheap]
      exact (roomFor_iff hst hwf hk).mpr hsome

/-! ## A number of pages there is no power of two for -/

section Misfit

variable {area : Area} {bs : List Blk} {s : Int} (hH : Holds area bs) (hsize : blockSize s ≤ 0)
  {j : Nat} {b : Blk}

include hH hsize

theorem buddyAllocAt_misfit_full (hb : bs[j]? = some b) (hf : b.full = true) :
    (buddyAllocAt j s).run area = .ok (-1) area := by
  obtain ⟨p, t, hp, hheap, hst, _⟩ := hH.get j b hb
  have hrun := buddyAlloc_misfit_full hst hsize hf
  rw [← hheap] at hrun
  rw [buddyAllocAt, run_bind_ok (buddyAt_ok hp), onBuddy_ok hrun, Area.put_self]

theorem buddyAllocAt_misfit_room (hb : bs[j]? = some b) (hf : b.full = false) :
    Ends False (buddyAllocAt j s) area fun _ _ => False := by
  obtain ⟨p, t, hp, hheap, hst, _⟩ := hH.get j b hb
  have hrun := buddyAlloc_misfit_room hst hsize hf
  rw [← hheap] at hrun
  rw [buddyAllocAt]
  refine Ends.of_eq (run_bind_ok (buddyAt_ok hp)) ?_
  exact ends_zoom hrun fun _ _ h => h

/-- Full buddies are passed by. -/
theorem scanBuddies_misfit_full (hfull : ∀ b ∈ bs, b.full = true) :
    ∀ n i : Nat, i + n = area.buddyNum →
    (scanBuddies s n i (-1)).run area = .ok (area.buddyNum, -1) area := by
  intro n
  induction n with
  | zero =>
      intro i hi
      obtain rfl : i = area.buddyNum := by omega
      rfl
  | succ n ih =>
      intro i hi
      have hlt : i < bs.length := by have := hH.length; omega
      have hcall := buddyAllocAt_misfit_full hH hsize (List.getElem?_eq_getElem hlt)
        (hfull _ (List.getElem_mem hlt))
      rw [scanBuddies, run_bind_ok hcall, if_neg (by decide)]
      exact ih (i + 1) (by omega)

/-- At the first free page the search goes astray. -/
theorem scanBuddies_misfit_room (hb : bs[j]? = some b) (hf : b.full = false) :
    ∀ n i : Nat, i + n = area.buddyNum → i ≤ j →
    Ends False (scanBuddies s n i (-1)) area fun _ _ => False := by
  have hlen := hH.length
  have hj := (List.getElem?_eq_some_iff.mp hb).1
  intro n
  induction n with
  | zero =>
      intro i hi hij
      omega
  | succ n ih =>
      intro i hi hij
      have hlt : i < bs.length := by omega
      rw [scanBuddies]
      cases hfi : bs[i].full with
      | false =>
          exact (buddyAllocAt_misfit_room hH hsize (List.getElem?_eq_getElem hlt) hfi).bind
            fun _ _ h => h.elim
      | true =>
          have hcall := buddyAllocAt_misfit_full hH hsize (List.getElem?_eq_getElem hlt) hfi
          refine Ends.of_eq (run_bind_ok hcall) ?_
          rw [if_neg (by decide)]
          refine ih (i + 1) (by omega) ?_
          by_contra hlt'
          obtain rfl : i = j := by omega
          rw [List.getElem?_eq_getElem hlt, Option.some.injEq] at hb
          rw [hb, hf] at hfi
          cases hfi

end Misfit

/-! ## What a request comes to -/

/-- What the page allocator keeps under any calls. -/
structure Sound (area : Area) (bs : List Blk) : Prop where
  table : Table area
  holds : Holds area bs
  short : area.buddylist.length ≤ 512

theorem Sound.full_of_not_roomy (hS : Sound area bs) (hno : ¬ Roomy 0 bs) :
    ∀ b ∈ bs, b.full = true := by
  intro b hb
  obtain ⟨i, hi⟩ := List.mem_iff_getElem?.mp hb
  obtain ⟨_, _, _, _, _, hwf⟩ := hS.holds.get i b hi
  by_contra hf
  refine hno ⟨b, hb, ?_⟩
  rw [Blk.alloc_page_isSome hwf, Bool.eq_false_iff.mpr hf]
  rfl

section Misfit

variable {area : Area} {bs : List Blk} {pages : Pages} (hS : Sound area bs)
  (hsize : blockSize (pageCount pages.size) ≤ 0)

include hS hsize

/-- With a free page, or with a buddy to open, the call does not return. -/
theorem pageAlloc_misfit_room (hroom : Roomy 0 bs ∨ area.buddyNum < area.pageNum / 1024) :
    Ends False (pageAlloc pages) area fun _ _ => False := by
  by_cases hfree : Roomy 0 bs
  · obtain ⟨b, hb, hsome⟩ := hfree
    obtain ⟨j, hj⟩ := List.mem_iff_getElem?.mp hb
    obtain ⟨_, _, _, _, _, hwf⟩ := hS.holds.get j b hj
    rw [Blk.alloc_page_isSome hwf, Bool.not_eq_true'] at hsome
    rw [pageAlloc]
    refine ends_get_bind ?_
    exact (scanBuddies_misfit_room hS.holds hsize hj hsome area.buddyNum 0 (Nat.zero_add _)
      (Nat.zero_le j)).bind fun _ _ h => h.elim
  · have hgrow := hroom.resolve_left hfree
    have hscan := scanBuddies_misfit_full hS.holds hsize (hS.full_of_not_roomy hfree)
      area.buddyNum 0 (Nat.zero_add _)
    refine Ends.of_eq ((pageAlloc_of_scan rfl hscan).trans (if_pos rfl)) ?_
    rw [pageGrow]
    refine Ends.bind (Q := fun _ _ => False) ?_ fun _ _ h => h.elim
    rcases Nat.lt_or_ge area.buddyNum area.buddylist.length with hlt | hend
    · have hp := List.getElem?_eq_getElem hlt
      obtain ⟨t, hst, hgrown⟩ := growArea_init hS.table hS.holds hS.short hp hgrow
      have hopen := hS.holds.opened hS.table hp hst
      have hnew : (bs ++ [Blk.free])[area.buddyNum]? = some .free := by
        rw [← hS.holds.length, List.getElem?_append_right (Nat.le_refl _), Nat.sub_self]
        rfl
      refine Ends.of_eq (hgrown _) ?_
      exact (buddyAllocAt_misfit_room hopen hsize hnew rfl).bind fun _ _ h => h.elim
    · have hlast := Nat.le_antisymm hS.holds.le_length hend
      exact ends_of_stop (growArea_oob hS.short hgrow hlast) id

/-- Without either it is refused. -/
theorem pageAlloc_misfit_none (hno : ¬ Roomy 0 bs) (hfull : area.pageNum / 1024 ≤ area.buddyNum) :
    (pageAlloc pages).run area = .ok (eof, pages) area := by
  have hscan := scanBuddies_misfit_full hS.holds hsize (hS.full_of_not_roomy hno)
    area.buddyNum 0 (Nat.zero_add _)
  rw [pageAlloc_of_scan rfl hscan, if_pos rfl, pageGrow, run_bind_ok (growArea_eof hfull)]
  rfl

end Misfit

theorem toInt32_bounds (n : Nat) : -2 ^ 31 ≤ toInt32 n ∧ toInt32 n < 2 ^ 31 := by
  unfold toInt32
  rw [BitVec.toInt_eq_toNat_cond]
  have hlt := (BitVec.ofNat 32 n).isLt
  split <;> omega

theorem pageCount_misfit {size : Nat} (h : ¬ (0 ≤ pageCount size ∧ pageCount size ≤ 2 ^ 30)) :
    blockSize (pageCount size) ≤ 0 := by
  have hb := toInt32_bounds ((size + pgSize - 1) % 2 ^ 64 / 2 ^ 12)
  exact blockSize_nonpos hb.1 hb.2 (by unfold pageCount at h ⊢; omega)

/-- An opened buddy has a used node of `n` pages, the first of them at
`paddr`. -/
def Reserves (area : Area) (paddr n : Nat) : Prop :=
  ∃ i p d j, i < area.buddyNum ∧ area.buddylist[i]? = some p ∧
    Reached (area.heap p).tree d j ∧ (area.heap p).tree j = .used ∧ n = 2 ^ (10 - d) ∧
    paddr = areaAddr area.baseAddr (1024 * i + (indexOffset j d 10).toNat)

theorem Holds.reserves {q n : Nat} (hH : Holds area bs) (hq : (q, n) ∈ forest 0 bs) :
    Reserves area (areaAddr area.baseAddr q) n := by
  obtain ⟨i, b, hb, hmem⟩ := mem_forest.mp hq
  obtain ⟨p, t, hp, hheap, hst, _⟩ := hH.get i b hb
  rw [Nat.zero_add, ← Nat.add_zero (1024 * i), Blk.blocks_shift] at hmem
  obtain ⟨⟨o, m⟩, hom, heq⟩ := List.mem_map.mp hmem
  simp only [Prod.mk.injEq] at heq
  obtain ⟨rfl, rfl⟩ := heq
  obtain ⟨d, j, hr, hu, hplace⟩ := Reached.root.of_mem_blocks (Nat.zero_add 10) hst
    (by simp [indexOffset]) hom
  simp only [Prod.mk.injEq] at hplace
  have hstart : (o : Int) = indexOffset j d 10 := hplace.1
  have hlt := (List.getElem?_eq_some_iff.mp hb).1
  rw [hH.length] at hlt
  refine ⟨i, p, d, j, hlt, hp, by rw [hheap]; exact hr, by rw [hheap]; exact hu, ?_, ?_⟩
  · exact_mod_cast hplace.2
  · rw [← hstart, Int.toNat_natCast]

/-- The call returns, what it hands out is as large as it was asked to be, and
what no buddy can hold is refused. -/
def SizeRespected (area : Area) (pages : Pages) : Prop :=
  ∃ result p area', (pageAlloc pages).run area = .ok (result, p) area' ∧
    (result = 0 → ∃ n, Reserves area' p.paddr n ∧ pages.size ≤ n * pgSize) ∧
    (2 ^ 22 < pages.size → result = eof)

theorem SizeRespected.of_refused {area area' : Area} {pages : Pages}
    (h : (pageAlloc pages).run area = .ok (eof, pages) area') : SizeRespected area pages :=
  ⟨eof, pages, area', h, fun h0 => absurd h0 (by decide), fun _ => rfl⟩

theorem not_sizeRespected {pages : Pages} (h : Ends False (pageAlloc pages) area fun _ _ => False) :
    ¬ SizeRespected area pages := by
  rintro ⟨_, _, _, hrun, _⟩
  exact h.of_run hrun

/-- The height a free block needs for the search to turn to it: any free page
will do when the search is for a block of no size. -/
def searchHeight (s : Int) : Nat := if 0 ≤ s ∧ s ≤ 2 ^ 30 then Nat.clog 2 s.toNat else 0

/-- Nothing large enough is free, and the counter allows no other buddy. -/
def Exhausted (area : Area) (k : Nat) : Prop :=
  ¬ Room area k ∧ area.pageNum / 1024 ≤ area.buddyNum

/-- When `page_alloc` does justice to the size of a request: when there is
nothing to hand out; when the size is at most that of a buddy, and a buddy has
room or the table has another; or when the number of pages is too large for a
buddy and still a number `buddy_alloc` can round. -/
def SizeHandled (area : Area) (pages : Pages) : Prop :=
  Exhausted area (searchHeight (pageCount pages.size)) ∨
  pages.size ≤ 2 ^ 22 ∧ (Room area (searchHeight (pageCount pages.size)) ∨
    area.buddyNum < area.buddylist.length) ∨
  1024 < pageCount pages.size ∧ pageCount pages.size ≤ 2 ^ 30 ∧ area.buddylist ≠ []

section Handled

variable {area : Area} {bs : List Blk} {pages : Pages} (hS : Sound area bs)

include hS

/-- Without a table the size is never looked at. -/
theorem Sound.sizeRespected_nil (hnil : area.buddylist = []) :
    SizeRespected area pages ↔ SizeHandled area pages := by
  have hnum : area.buddyNum = 0 := by
    have hle := hS.holds.le_length
    rw [hnil] at hle
    exact Nat.le_zero.mp hle
  have hno : ∀ k, ¬ Room area k := by
    rintro k ⟨i, p, hi, _⟩
    omega
  have hscan : (scanBuddies (pageCount pages.size) area.buddyNum 0 (-1)).run area =
      .ok (area.buddyNum, -1) area := by
    rw [hnum]
    rfl
  have hrun : (pageAlloc pages).run area = _ := pageAlloc_of_scan rfl hscan
  rw [if_pos rfl, pageGrow] at hrun
  have hhandled : SizeHandled area pages ↔ area.pageNum / 1024 ≤ area.buddyNum := by
    simp [SizeHandled, Exhausted, hno, hnil]
  rw [hhandled]
  rcases Nat.lt_or_ge area.buddyNum (area.pageNum / 1024) with hgrow | hfull
  · have hlast : area.buddyNum = area.buddylist.length := by rw [hnil]; exact hnum
    rw [run_bind_error (growArea_oob hS.short hgrow hlast)] at hrun
    refine ⟨fun h => absurd h (not_sizeRespected (ends_of_stop hrun id)), fun h => by omega⟩
  · rw [run_bind_ok (growArea_eof hfull)] at hrun
    exact ⟨fun _ => hfull, fun _ => .of_refused hrun⟩

/-- A number of pages `buddy_alloc` cannot round. -/
theorem Sound.sizeRespected_misfit
    (hs : ¬ (0 ≤ pageCount pages.size ∧ pageCount pages.size ≤ 2 ^ 30)) :
    SizeRespected area pages ↔ SizeHandled area pages := by
  have hmis := pageCount_misfit hs
  have hlarge : ¬ pages.size ≤ 2 ^ 22 := by
    intro hle
    exact hs (pageCount_bounds (le_trans hle (by decide))).2
  have hcount : ¬ (1024 < pageCount pages.size ∧ pageCount pages.size ≤ 2 ^ 30 ∧
      area.buddylist ≠ []) := fun h => hs ⟨by omega, h.2.1⟩
  have hhandled : SizeHandled area pages ↔
      ¬ Roomy 0 bs ∧ area.pageNum / 1024 ≤ area.buddyNum := by
    rw [SizeHandled, searchHeight, if_neg hs, Exhausted, room_iff hS.holds (Nat.zero_le 10)]
    constructor
    · rintro (h | h | h)
      · exact h
      · exact absurd h.1 hlarge
      · exact absurd h hcount
    · exact Or.inl
  rw [hhandled]
  by_cases hroom : Roomy 0 bs ∨ area.buddyNum < area.pageNum / 1024
  · refine ⟨fun h => absurd h (not_sizeRespected (pageAlloc_misfit_room hS hmis hroom)), ?_⟩
    rintro ⟨hno, hfull⟩
    rcases hroom with h | h
    · exact absurd h hno
    · omega
  · rw [not_or, not_lt] at hroom
    exact ⟨fun _ => hroom, fun _ => .of_refused (pageAlloc_misfit_none hS hmis hroom.1 hroom.2)⟩

/-- A number of pages `buddy_alloc` can round. -/
theorem Sound.sizeRespected_fit (hnil : area.buddylist ≠ [])
    (hs : 0 ≤ pageCount pages.size ∧ pageCount pages.size ≤ 2 ^ 30) :
    SizeRespected area pages ↔ SizeHandled area pages := by
  obtain ⟨k, hk⟩ : ∃ k, k = Nat.clog 2 (pageCount pages.size).toNat := ⟨_, rfl⟩
  have hheight : searchHeight (pageCount pages.size) = k := by
    rw [searchHeight, if_pos hs, hk]
  have hcount : k ≤ 10 ↔ pageCount pages.size ≤ 1024 := by
    rw [hk, Nat.clog_le_iff_le_pow (by omega)]
    omega
  have hsmall : pages.size ≤ 2 ^ 22 → k ≤ 10 ∧ pages.size ≤ 2 ^ k * pgSize := by
    intro hle
    have hval := (pageCount_bounds (le_trans hle (by decide) : pages.size ≤ maxSize)).1
    have hpow : (pageCount pages.size).toNat ≤ 2 ^ k := by
      rw [hk]
      exact Nat.le_pow_clog (by omega) _
    refine ⟨hcount.mpr (by omega), ?_⟩
    have hmul : (pageCount pages.size).toNat * 4096 ≤ 2 ^ k * 4096 := Nat.mul_le_mul_right _ hpow
    show pages.size ≤ 2 ^ k * 4096
    omega
  have hout := pageAlloc_outcome hS.table hS.holds hS.short (Eq.refl (pageCount pages.size))
    hs.1 hs.2 hk
  rw [SizeHandled, hheight, Exhausted]
  generalize hrun : (pageAlloc pages).run area = res at hout
  cases hout with
  | @granted q area' bs' hk10 fits kept table holds blocks =>
      rw [room_iff hS.holds hk10]
      have hsome : ¬ (¬ Roomy k bs ∧ area.pageNum / 1024 ≤ area.buddyNum) := by
        rintro ⟨hno, hfull⟩
        rcases fits with h | h
        · exact hno h
        · omega
      have hle := hcount.mp hk10
      constructor
      · rintro ⟨result, p, area'', hrun', _, hlarge⟩
        rw [hrun] at hrun'
        injection hrun' with hres _
        obtain ⟨rfl, _⟩ := Prod.mk.inj hres
        refine Or.inr (Or.inl ⟨?_, fits.imp id And.right⟩)
        by_contra hbig
        exact absurd (hlarge (by omega)) (by decide)
      · rintro (h | h | h)
        · exact absurd h hsome
        · have hmem : (q, 2 ^ k) ∈ forest 0 bs' := blocks.mem_iff.mpr List.mem_cons_self
          have hholds : Holds { area' with
              pageNum := ((area'.pageNum - pageCount pages.size) % 2 ^ 32).toNat } bs' :=
            ⟨holds.length, holds.get⟩
          refine ⟨_, _, _, hrun, fun _ => ⟨2 ^ k, hholds.reserves hmem, (hsmall h.1).2⟩, ?_⟩
          intro hbig
          omega
        · omega
  | @refused area' bs' full kept table holds blocks =>
      refine ⟨fun _ => ?_, fun _ => .of_refused hrun⟩
      by_cases hk10 : k ≤ 10
      · rw [room_iff hS.holds hk10]
        exact Or.inl (full hk10)
      · exact Or.inr (Or.inr ⟨by omega, hs.2, hnil⟩)
  | overrun full small grow last =>
      refine ⟨fun h => absurd h (not_sizeRespected (ends_of_stop hrun id)), ?_⟩
      have hk10 : k ≤ 10 := by
        refine small.resolve_right fun h0 => hnil ?_
        rw [h0] at last
        exact List.length_eq_zero_iff.mp last.symm
      have hle := hcount.mp hk10
      rw [room_iff hS.holds hk10]
      rintro (h | h | h)
      · omega
      · rcases h.2 with hroom | hlt
        · exact absurd hroom (full hk10)
        · omega
      · omega

theorem Sound.sizeRespected_iff : SizeRespected area pages ↔ SizeHandled area pages := by
  by_cases hnil : area.buddylist = []
  · exact hS.sizeRespected_nil hnil
  · by_cases hs : 0 ≤ pageCount pages.size ∧ pageCount pages.size ≤ 2 ^ 30
    · exact hS.sizeRespected_fit hnil hs
    · exact hS.sizeRespected_misfit hs

end Handled

/-! ## Every call keeps the trees -/

/-- The page allocator after `page_allocator_init` under any arguments, over a
table that can be used. -/
def pageHistory : Machine Stop Area AreaCall where
  init area := (∃ boot area₀, (pageAllocatorInit boot).run area₀ = .ok 0 area) ∧ Table area
  legal _
    | .alloc pages => pages.size < 2 ^ 64
    | .free pages => pages.paddr < 2 ^ 64
  step
    | .alloc pages => discard (pageAlloc pages)
    | .free pages => discard (pageFree pages)

theorem Sound.count (hS : Sound area bs) (n : Nat) : Sound { area with pageNum := n } bs :=
  ⟨⟨hS.table.nodup, hS.table.nonnull, hS.table.room⟩, ⟨hS.holds.length, hS.holds.get⟩, hS.short⟩

theorem Sound.alloc {area area' : Area} {pages p : Pages} {result : Int} (hS : Sound area bs)
    (hrun : (pageAlloc pages).run area = .ok (result, p) area') :
    ∃ bs', Sound area' bs' := by
  by_cases hs : 0 ≤ pageCount pages.size ∧ pageCount pages.size ≤ 2 ^ 30
  · have hout := pageAlloc_outcome hS.table hS.holds hS.short (Eq.refl (pageCount pages.size))
      hs.1 hs.2 rfl
    rw [hrun] at hout
    cases hout with
    | granted hk fits kept table holds blocks =>
        exact ⟨_, Sound.count ⟨table, holds, kept.buddylist ▸ hS.short⟩ _⟩
    | refused full kept table holds blocks =>
        exact ⟨_, table, holds, kept.buddylist ▸ hS.short⟩
  · have hmis := pageCount_misfit hs
    by_cases hroom : Roomy 0 bs ∨ area.buddyNum < area.pageNum / 1024
    · exact ((pageAlloc_misfit_room hS hmis hroom).of_run hrun).elim
    · rw [not_or, not_lt] at hroom
      rw [pageAlloc_misfit_none hS hmis hroom.1 hroom.2] at hrun
      injection hrun with _ harea
      exact ⟨bs, harea ▸ hS⟩

theorem sound_of_reachable (h : pageHistory.Reachable area) : ∃ bs, Sound area bs := by
  refine Machine.reachable_of_kept (I := fun area => ∃ bs, Sound area bs) ?_ ?_ h
  · rintro area ⟨⟨boot, area₀, hinit⟩, hT⟩
    obtain ⟨hnum, hlen, hshort, _⟩ := pageAllocatorInit_ok hinit
    exact ⟨[], hT, ⟨hnum.symm, fun i b hb => by cases hb⟩, by omega⟩
  · intro area i area' hS hl hrun
    obtain ⟨bs, hS⟩ := hS
    cases i with
    | alloc pages =>
        have hends : Ends False (discard (pageAlloc pages)) area fun _ area' =>
            ∃ bs', Sound area' bs' := by
          refine ends_discard ?_
          rw [Ends]
          cases hcall : (pageAlloc pages).run area with
          | ok a area'' => exact hS.alloc hcall
          | error e area'' => exact False.elim
        exact hends.of_run hrun
    | free pages =>
        have hends : Ends False (discard (pageFree pages)) area fun _ area' =>
            ∃ bs', Sound area' bs' := by
          refine ends_discard ((pageFree_counts pages area).imp ?_)
          rintro _ _ ⟨n, rfl⟩
          exact ⟨bs, hS.count n⟩
        exact hends.of_run hrun

/-- In every state the page allocator gets into, a request for any number of
bytes comes out as it should exactly when `SizeHandled` says so. -/
theorem pageAlloc_size_iff {area : Area} (pages : Pages) (h : pageHistory.Reachable area) :
    SizeRespected area pages ↔ SizeHandled area pages := by
  obtain ⟨bs, hS⟩ := sound_of_reachable h
  exact hS.sizeRespected_iff

theorem pageHistory_sample : pageHistory.Reachable (sampleRun 0x400000).area := by
  obtain ⟨hinit, hT, _⟩ := @sampleRun_init 0x400000 (by decide)
  exact .init ⟨hinit, hT⟩

/-- One buddy to open, and three pages asked for. -/
theorem pageAlloc_size_iff_sample : SizeRespected (sampleRun 0x400000).area ⟨0, 0x3000, 0⟩ := by
  refine (pageAlloc_size_iff ⟨0, 0x3000, 0⟩ pageHistory_sample).mpr ?_
  exact Or.inr (Or.inl ⟨by decide, Or.inr (by decide)⟩)

/-- Sixteen terabytes are narrowed to no pages, and one page is handed out;
eight terabytes are narrowed to the least `int`, and the search leaves the
tree. -/
theorem pageAlloc_size_lost : pageHistory.Reachable (sampleRun 0x400000).area ∧
    returned (pageAlloc ⟨0, 2 ^ 44, 0⟩) (sampleRun 0x400000).area (fun r _ => r.1) = some 0 ∧
    stopped (pageAlloc ⟨0, 2 ^ 43, 0⟩) (sampleRun 0x400000).area = some (.oob 2047) ∧
    ¬ SizeRespected (sampleRun 0x400000).area ⟨0, 2 ^ 44, 0⟩ := by
  have hrun : returned (pageAlloc ⟨0, 2 ^ 44, 0⟩) (sampleRun 0x400000).area (fun r _ => r.1) =
      some 0 := by decide +kernel
  refine ⟨pageHistory_sample, hrun, by decide +kernel, ?_⟩
  rintro ⟨result, p, area', hrun', _, hlarge⟩
  rw [returned, hrun', Option.some.injEq] at hrun
  have hzero : eof = 0 := (hlarge (by decide)).symm.trans hrun
  exact absurd hzero (by decide)

end Aim.Kern
