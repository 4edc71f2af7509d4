import Aim.Proofs.AreaStep

/-!
# The page allocator over whole runs

`areaCalls N` is the page allocator with its clients: it starts after
`page_allocator_init` with `N` in `page_num`, over a table of distinct buddies
with large enough trees, up to `maxSize` bytes may be asked for at a time, and a
block may be given back while it is out. A larger request is narrowed to another
number of pages, or leaves the tree. Two lists are kept beside the area and read by
no code: the blocks that are out and those that have been given back.

`Ledger` ties the lists to the trees. Its main clause may look odd for an
allocator with a `page_free`: the blocks of the trees are the blocks that are
out *and* the blocks that have been given back. `page_free` never calls
`buddy_free`; all it does is to add the size of the block, in bytes, to the
counter of free pages.

`ledger_alloc` and `ledger_free` say what a call does to a run. The three
things that decide about a request are all visible before the call: whether an
opened buddy has room (`HasRoom`), and where `buddy_num` stands against the
counter and against the length of the table.
-/

namespace Aim.Kern

open Aim.Lib

/-! ## The component -/

/-- A block as its client knows it: its address and the size asked for. -/
structure Grant where
  paddr : Nat
  size : Nat
  deriving DecidableEq

/-- The number of pages a request of this size takes off the counter. -/
def Grant.asked (g : Grant) : Int := pageCount g.size

/-- The number of pages of the block a request of `size` bytes is given. -/
def blockPages (size : Nat) : Nat := (blockSize (pageCount size)).toNat

def Grant.pages (g : Grant) : Nat := blockPages g.size

structure AreaRun where
  area : Area
  live : List Grant
  freed : List Grant

/-- Everything that was ever handed out. -/
def AreaRun.given (r : AreaRun) : List Grant := r.live ++ r.freed

inductive AreaCall where
  | alloc (pages : Pages)
  | free (pages : Pages)

namespace AreaRun

def call {α : Type} (x : EStateM Stop Area α) : EStateM Stop AreaRun α :=
  zoom area (fun a r => { r with area := a }) x

def step : AreaCall → EStateM Stop AreaRun Unit
  | .alloc pages => do
      let (result, p) ← call (pageAlloc pages)
      if result = 0 then
        modify fun r => { r with live := ⟨p.paddr, pages.size⟩ :: r.live }
  | .free pages => do
      let _ ← call (pageFree pages)
      modify fun r => { r with
        live := r.live.filter fun g => g.paddr ≠ pages.paddr
        freed := (r.live.filter fun g => g.paddr = pages.paddr) ++ r.freed }

end AreaRun

/-- The largest size whose number of pages still fits the `int` arithmetic of
`buddy_alloc`: a page less than four terabytes. -/
def maxSize : Nat := 2 ^ 42 - 2 ^ 12

/-- A request is for `maxSize` bytes at most, and what is given back is out. -/
def areaCalls (N : Nat) : Machine Stop AreaRun AreaCall where
  init r := (∃ boot area₀, (pageAllocatorInit boot).run area₀ = .ok 0 r.area) ∧
    Table r.area ∧ r.area.pageNum = N ∧ r.live = [] ∧ r.freed = []
  legal r
    | .alloc pages => pages.size ≤ maxSize
    | .free pages => pages.paddr ∈ r.live.map Grant.paddr
  step := AreaRun.step

instance (N : Nat) (r : AreaRun) : ∀ i, Decidable ((areaCalls N).legal r i)
  | .alloc pages => inferInstanceAs (Decidable (pages.size ≤ maxSize))
  | .free pages => inferInstanceAs (Decidable (pages.paddr ∈ r.live.map Grant.paddr))

/-! ## Sizes -/

variable {size N : Nat} {bs : List Blk} {r : AreaRun} {g : Grant} {area' area : Area} {α : Type}
  {pages : Pages} {l : List Grant} {boot : Boot}

theorem pageCount_bounds (h : size ≤ maxSize) :
    pageCount size = ((size + 4095) / 4096 : Nat) ∧ 0 ≤ pageCount size ∧
      pageCount size ≤ 2 ^ 30 := by
  have hval : pageCount size = ((size + 4095) / 4096 : Nat) := by
    unfold pageCount pgSize
    unfold maxSize at h
    rw [toInt32_of_lt (by omega)]
    omega
  unfold maxSize at h
  rw [hval]
  omega

/-- The height of the block for a request. -/
def blockHeight (size : Nat) : Nat := Nat.clog 2 (pageCount size).toNat

theorem blockPages_eq (h : size ≤ maxSize) : blockPages size = 2 ^ blockHeight size := by
  obtain ⟨_, h0, hs⟩ := pageCount_bounds h
  rw [blockPages, blockSize_eq h0 hs, blockHeight]
  rfl

theorem pageCount_le_blockPages (h : size ≤ maxSize) : pageCount size ≤ blockPages size := by
  obtain ⟨_, h0, _⟩ := pageCount_bounds h
  have hle : (pageCount size).toNat ≤ 2 ^ blockHeight size :=
    Nat.le_pow_clog (by omega) _
  rw [blockPages_eq h]
  omega

theorem blockPages_le_iff (h : size ≤ maxSize) :
    blockPages size ≤ 1024 ↔ blockHeight size ≤ 10 := by
  rw [blockPages_eq h, show 1024 = 2 ^ 10 from rfl,
    Nat.pow_le_pow_iff_right (by omega)]

/-! ## Where blocks are -/

/-- The page number of an address, the other way round from `areaAddr`. -/
def areaPage (base paddr : Nat) : Nat := (((paddr : Int) - base) % 2 ^ 32).toNat / 4096

/-- The pages of a block, counted through the area. -/
def Grant.place (base : Nat) (g : Grant) : Nat × Nat := (areaPage base g.paddr, g.pages)

theorem areaPage_areaAddr {base q : Nat} (hq : q < 2 ^ 20) :
    areaPage base (areaAddr base q) = q := by
  unfold areaPage areaAddr
  omega

/-- The buddy `i` has an aligned run of `n` pages that were never handed
out. -/
def FreeRun (r : AreaRun) (n i : Nat) : Prop :=
  ∃ m, (m + 1) * n ≤ 1024 ∧
    ∀ g ∈ r.given, Blk.Apart (g.place r.area.baseAddr) (1024 * i + m * n, n)

/-- An opened buddy has room for a request of `size` bytes. -/
def HasRoom (r : AreaRun) (size : Nat) : Prop :=
  ∃ i < r.area.buddyNum, FreeRun r (blockPages size) i

/-! ## The ledger -/

structure Ledger (N : Nat) (r : AreaRun) (bs : List Blk) : Prop where
  table : Table r.area
  holds : Holds r.area bs
  length : r.area.buddylist.length = N / 1024
  short : N / 1024 ≤ 512
  base : r.area.baseAddr < 2 ^ 32
  /-- The trees hold what was ever handed out. -/
  places : (r.given.map (Grant.place r.area.baseAddr)).Perm (forest 0 bs)
  addr : ∀ g ∈ r.given, g.paddr = areaAddr r.area.baseAddr (areaPage r.area.baseAddr g.paddr)
  size : ∀ g ∈ r.given, g.size ≤ maxSize
  /-- The counter goes down by pages and up by bytes. -/
  count : (r.area.pageNum : Int) =
    (N - (r.given.map Grant.asked).sum + 4096 * (r.freed.map Grant.pages).sum) % 2 ^ 32

theorem forest_bounds {q : Nat × Nat} (hq : q ∈ forest 0 bs) :
    0 < q.2 ∧ q.1 + q.2 ≤ 1024 * bs.length := by
  obtain ⟨j, b, hb, hmem⟩ := mem_forest.mp hq
  rw [Nat.zero_add] at hmem
  obtain ⟨hn, _, hhi, _⟩ := Blk.blocks_bounds hmem
  have hlt := (List.getElem?_eq_some_iff.mp hb).1
  omega

theorem Ledger.buddyNum_le (hL : Ledger N r bs) : r.area.buddyNum ≤ N / 1024 := by
  rw [← hL.length]
  exact hL.holds.le_length

/-- A block that was handed out lies in an opened buddy. -/
theorem Ledger.place_bounds (hL : Ledger N r bs) (hg : g ∈ r.given) :
    0 < g.pages ∧
      areaPage r.area.baseAddr g.paddr + g.pages ≤ 1024 * r.area.buddyNum := by
  have hmem := hL.places.mem_iff.mp (List.mem_map_of_mem hg)
  have hb := forest_bounds hmem
  rw [hL.holds.length] at hb
  exact hb

/-- Room in the trees is room between the blocks. -/
theorem Ledger.freeRun_iff (hL : Ledger N r bs) {i k : Nat} {b : Blk} (hb : bs[i]? = some b)
    (hk : k ≤ 10) :
    FreeRun r (2 ^ k) i ↔ (Blk.alloc k 10 b).isSome := by
  obtain ⟨_, _, _, _, _, hwf⟩ := hL.holds.get i b hb
  have hpow : 2 ^ (10 - k) * 2 ^ k = 1024 := by
    rw [← Nat.pow_add, Nat.sub_add_cancel hk]
  have hpos : 0 < 2 ^ k := Nat.pow_pos (by omega)
  constructor
  · rintro ⟨m, hm, hfree⟩
    have hm' : m < 2 ^ (10 - k) := by
      rw [← hpow] at hm
      exact Nat.le_of_mul_le_mul_right hm hpos
    cases ha : Blk.alloc k 10 b with
    | some p => rfl
    | none =>
        obtain ⟨p, hp, hnot⟩ := Blk.alloc_none_blocked hk hwf ha hm' (1024 * i)
        have hmem : p ∈ forest 0 bs :=
          mem_forest.mpr ⟨i, b, hb, by rw [Nat.zero_add]; exact hp⟩
        obtain ⟨g, hg, rfl⟩ := List.mem_map.mp (hL.places.mem_iff.mpr hmem)
        exact absurd (hfree g hg) hnot
  · intro hsome
    obtain ⟨⟨o, b'⟩, ha⟩ := Option.isSome_iff_exists.mp hsome
    obtain ⟨m, hm, ho, _⟩ := Blk.alloc_first hk hwf ha
    have hend : (m + 1) * 2 ^ k ≤ 1024 := by
      rw [← hpow]
      exact Nat.mul_le_mul_right _ hm
    refine ⟨m, hend, fun g hg => ?_⟩
    obtain ⟨j, c, hc, hmem⟩ := mem_forest.mp
      (hL.places.mem_iff.mp (List.mem_map_of_mem hg))
    rw [Nat.zero_add] at hmem
    by_cases hij : j = i
    · subst hij
      rw [hb] at hc
      obtain rfl := Option.some.inj hc
      have hnb := Blk.alloc_not_blocked hk ha (1024 * j)
      rw [ho] at hnb
      by_contra hnot
      exact hnb ⟨_, hmem, hnot⟩
    · -- Another buddy.
      obtain ⟨_, hlo, hhi, _⟩ := Blk.blocks_bounds hmem
      rw [Nat.add_mul, Nat.one_mul] at hend
      rcases Nat.lt_or_ge j i with hlt | hge
      · exact Or.inl (by simp only; omega)
      · exact Or.inr (by simp only; omega)

/-- A buddy that is not open has not lost a page. -/
theorem Ledger.freeRun_unopened (hL : Ledger N r bs) {i n : Nat} (hi : r.area.buddyNum ≤ i)
    (hn : n ≤ 1024) :
    FreeRun r n i := by
  refine ⟨0, by omega, fun g hg => Or.inl ?_⟩
  have hb := (hL.place_bounds hg).2
  show areaPage r.area.baseAddr g.paddr + g.pages ≤ _
  omega

theorem Ledger.roomy_iff (hL : Ledger N r bs) (hs : size ≤ maxSize) (hk : blockHeight size ≤ 10) :
    Roomy (blockHeight size) bs ↔ HasRoom r size := by
  have hlen := hL.holds.length
  rw [HasRoom, blockPages_eq hs]
  constructor
  · rintro ⟨b, hb, hsome⟩
    obtain ⟨i, hi⟩ := List.mem_iff_getElem?.mp hb
    have hlt := (List.getElem?_eq_some_iff.mp hi).1
    exact ⟨i, by omega, (hL.freeRun_iff hi hk).mpr hsome⟩
  · rintro ⟨i, hi, hfree⟩
    have hb : bs[i]? = some bs[i] := List.getElem?_eq_getElem (by omega)
    exact ⟨bs[i], List.getElem_mem _, (hL.freeRun_iff hb hk).mp hfree⟩

/-! ## What a call does to a run -/

/-- The three outcomes of `page_alloc` on a run. -/
inductive AllocStep (N : Nat) (r : AreaRun) (pages : Pages) : Prop where
  | granted {r' : AreaRun} {bs' : List Blk} {paddr : Nat}
      (run : (AreaRun.step (.alloc pages)).run r = .ok () r')
      (result : ∃ p area', (pageAlloc pages).run r.area = .ok (0, p) area')
      (small : blockPages pages.size ≤ 1024)
      (fits : HasRoom r pages.size ∨ r.area.buddyNum < r.area.pageNum / 1024 ∧
        r.area.buddyNum < N / 1024)
      (ledger : Ledger N r' bs') (opens : Opens r.area r'.area)
      (live : r'.live = ⟨paddr, pages.size⟩ :: r.live) (freed : r'.freed = r.freed)
      (count : (r'.area.pageNum : Int) =
        (r.area.pageNum - pageCount pages.size) % 2 ^ 32)
  | refused {r' : AreaRun} {bs' : List Blk}
      (run : (AreaRun.step (.alloc pages)).run r = .ok () r')
      (result : ∃ area', (pageAlloc pages).run r.area = .ok (eof, pages) area')
      (full : blockPages pages.size ≤ 1024 → ¬ HasRoom r pages.size ∧
        r.area.pageNum / 1024 ≤ r.area.buddyNum)
      (ledger : Ledger N r' bs') (opens : Opens r.area r'.area)
      (live : r'.live = r.live) (freed : r'.freed = r.freed)
      (count : r'.area.pageNum = r.area.pageNum)
  | overrun
      (run : (AreaRun.step (.alloc pages)).run r =
        .error (.oob (N / 1024 : Nat)) { r with area := r.area.grown })
      (result : ∃ e area', (pageAlloc pages).run r.area = .error e area')
      (small : blockPages pages.size ≤ 1024) (full : ¬ HasRoom r pages.size)
      (grow : N / 1024 < r.area.pageNum / 1024) (last : r.area.buddyNum = N / 1024)

/-- The ledger after a block was handed out. -/
theorem Ledger.granted {bs bs' : List Blk} (hL : Ledger N r bs) {size q : Nat} (hs : size ≤ maxSize)
    (hkept : Kept r.area area') (hT : Table area') (hH : Holds area' bs')
    (hperm : (forest 0 bs').Perm ((q, 2 ^ blockHeight size) :: forest 0 bs)) :
    Ledger N ⟨{ area' with
        pageNum := ((area'.pageNum - pageCount size) % 2 ^ 32).toNat },
      ⟨areaAddr area'.baseAddr q, size⟩ :: r.live, r.freed⟩ bs' := by
  have hbase := hkept.baseAddr
  have hq : q < 2 ^ 20 := by
    have hb := forest_bounds (hperm.mem_iff.mpr List.mem_cons_self)
    have hle := hH.le_length
    have hshort := hL.short
    rw [hkept.buddylist, hL.length] at hle
    rw [hH.length] at hb
    simp only at hb
    omega
  have hpage : areaPage area'.baseAddr (areaAddr area'.baseAddr q) = q :=
    areaPage_areaAddr hq
  constructor
  · exact ⟨hT.nodup, hT.nonnull, hT.room⟩
  · exact ⟨hH.length, hH.get⟩
  · show area'.buddylist.length = _
    rw [hkept.buddylist]; exact hL.length
  · exact hL.short
  · show area'.baseAddr < _
    rw [hbase]; exact hL.base
  · refine List.Perm.trans ?_ hperm.symm
    show ((⟨areaAddr area'.baseAddr q, size⟩ :: r.given).map
      (Grant.place area'.baseAddr)).Perm _
    rw [List.map_cons, Grant.place, hpage, Grant.pages, blockPages_eq hs, hbase]
    exact hL.places.cons _
  · intro g hg
    show g.paddr = areaAddr area'.baseAddr (areaPage area'.baseAddr g.paddr)
    rcases List.mem_cons.mp hg with rfl | hg
    · rw [hpage]
    · rw [hbase]; exact hL.addr g hg
  · intro g hg
    rcases List.mem_cons.mp hg with rfl | hg
    · exact hs
    · exact hL.size g hg
  · have hcount := hL.count
    show (((((area'.pageNum : Int) - pageCount size) % 2 ^ 32).toNat : Nat) : Int) =
      ((N : Int) - (((⟨areaAddr area'.baseAddr q, size⟩ : Grant) :: r.given).map
        Grant.asked).sum + 4096 * (r.freed.map Grant.pages).sum) % 2 ^ 32
    rw [hkept.pageNum, List.map_cons, List.sum_cons, Grant.asked]
    simp only
    omega

/-- The ledger of a run in which only buddies were opened. -/
theorem Ledger.refused {bs bs' : List Blk} (hL : Ledger N r bs) (hkept : Kept r.area area')
    (hT : Table area') (hH : Holds area' bs') (heq : forest 0 bs' = forest 0 bs) :
    Ledger N ⟨area', r.live, r.freed⟩ bs' := by
  have hbase := hkept.baseAddr
  constructor
  · exact hT
  · exact hH
  · show area'.buddylist.length = _
    rw [hkept.buddylist]; exact hL.length
  · exact hL.short
  · show area'.baseAddr < _
    rw [hbase]; exact hL.base
  · show (r.given.map (Grant.place area'.baseAddr)).Perm _
    rw [hbase, heq]; exact hL.places
  · intro g hg
    show g.paddr = areaAddr area'.baseAddr (areaPage area'.baseAddr g.paddr)
    rw [hbase]; exact hL.addr g hg
  · exact hL.size
  · show (area'.pageNum : Int) = _
    rw [hkept.pageNum]; exact hL.count

theorem run_call_ok {x : EStateM Stop Area α} {a : α} (h : x.run r.area = .ok a area') :
    (AreaRun.call x).run r = .ok a { r with area := area' } := run_zoom_ok h

theorem run_call_error {x : EStateM Stop Area α} {e : Stop} (h : x.run r.area = .error e area') :
    (AreaRun.call x).run r = .error e { r with area := area' } := run_zoom_error h

/-- With nothing handed out the counter is where it started. -/
theorem Ledger.count_of_no_buddies (hL : Ledger N r bs) (h0 : r.area.buddyNum = 0) :
    r.area.pageNum = N := by
  have hbs : bs = [] := List.eq_nil_of_length_eq_zero (hL.holds.length.trans h0)
  have hgiven : r.given = [] := by
    have hnil := hL.places
    rw [hbs] at hnil
    exact List.map_eq_nil_iff.mp hnil.eq_nil
  have hfreed : r.freed = [] := (List.append_eq_nil_iff.mp hgiven).2
  have hcount := hL.count
  have hshort := hL.short
  rw [hgiven, hfreed] at hcount
  simp only [List.map_nil, List.sum_nil] at hcount
  omega

theorem ledger_alloc (hL : Ledger N r bs) (hs : pages.size ≤ maxSize) :
    AllocStep N r pages := by
  obtain ⟨_, h0, h30⟩ := pageCount_bounds hs
  have hsmall := blockPages_le_iff hs
  have hlen : r.area.buddylist.length ≤ 512 := by
    rw [hL.length]; exact hL.short
  have hout := pageAlloc_outcome hL.table hL.holds hlen (Eq.refl (pageCount pages.size))
    h0 h30 rfl
  generalize hX : (pageAlloc pages).run r.area = X at hout
  cases hout with
  | @granted q area' bs' hk fits kept table holds blocks =>
      have hfits : HasRoom r pages.size ∨ r.area.buddyNum < r.area.pageNum / 1024 ∧
          r.area.buddyNum < N / 1024 := by
        rw [← hL.length, ← hL.roomy_iff hs hk]; exact fits
      have hrun : (AreaRun.step (.alloc pages)).run r = .ok () ⟨{ area' with
            pageNum := ((area'.pageNum - pageCount pages.size) % 2 ^ 32).toNat },
          ⟨areaAddr area'.baseAddr q, pages.size⟩ :: r.live, r.freed⟩ := by
        rw [AreaRun.step, run_bind_ok (run_call_ok hX)]
        rfl
      refine .granted hrun ⟨_, _, hX⟩ (hsmall.mpr hk) hfits (hL.granted hs kept table holds blocks)
        ⟨kept.baseAddr, kept.buddylist, kept.buddyNum⟩ rfl rfl ?_
      show (((((area'.pageNum : Int) - pageCount pages.size) % 2 ^ 32).toNat : Nat) : Int) = _
      rw [kept.pageNum]
      omega
  | @refused area' bs' full kept table holds blocks =>
      have hrun : (AreaRun.step (.alloc pages)).run r =
          .ok () ⟨area', r.live, r.freed⟩ := by
        rw [AreaRun.step, run_bind_ok (run_call_ok hX)]
        rfl
      refine .refused hrun ⟨_, hX⟩ (fun hn => ?_) (hL.refused kept table holds blocks)
        kept.toOpens rfl rfl kept.pageNum
      have hk := hsmall.mp hn
      rw [← hL.roomy_iff hs hk]
      exact full hk
  | overrun full small grow last =>
      rw [hL.length] at last
      have hk : blockHeight pages.size ≤ 10 := by
        rcases small with hk | hz
        · exact hk
        · -- No buddy at all: the counter still says `N`.
          have hpn := hL.count_of_no_buddies hz
          omega
      have hrun : (AreaRun.step (.alloc pages)).run r =
          .error (.oob (N / 1024 : Nat)) { r with area := r.area.grown } := by
        rw [AreaRun.step, run_bind_error (run_call_error hX), last]
      refine .overrun hrun ⟨_, _, hX⟩ (hsmall.mpr hk) ?_ (by omega) last
      rw [← hL.roomy_iff hs hk]
      exact full hk

/-! ## `page_free` on a run -/

theorem forest_pairwise (i : Nat) (bs : List Blk) : (forest i bs).Pairwise Blk.Apart := by
  induction bs generalizing i with
  | nil => exact List.Pairwise.nil
  | cons b bs ih =>
      rw [forest, List.pairwise_append]
      refine ⟨Blk.blocks_pairwise _ _ _, ih (i + 1), fun p hp q hq => Or.inl ?_⟩
      obtain ⟨j, c, _, hmem⟩ := mem_forest.mp hq
      obtain ⟨_, _, hend, _⟩ := Blk.blocks_bounds hp
      obtain ⟨_, hstart, _, _⟩ := Blk.blocks_bounds hmem
      omega

/-- Blocks that were handed out share no page. -/
theorem Ledger.pairwise (hL : Ledger N r bs) :
    r.given.Pairwise fun g h =>
      Blk.Apart (g.place r.area.baseAddr) (h.place r.area.baseAddr) := by
  have hf := (hL.places.pairwise_iff (fun h => h.symm)).mpr (forest_pairwise 0 bs)
  exact List.pairwise_map.mp hf

/-- So their addresses differ. -/
theorem Ledger.paddr_ne (hL : Ledger N r bs) : r.given.Pairwise fun g h => g.paddr ≠ h.paddr := by
  refine hL.pairwise.imp_of_mem fun {g h} hg hh hap heq => ?_
  have hg0 := (hL.place_bounds hg).1
  have hh0 := (hL.place_bounds hh).1
  rcases hap with hap | hap <;> simp only [Grant.place, heq] at hap <;> omega

theorem filter_paddr (hp : l.Pairwise fun g h => g.paddr ≠ h.paddr) (hg : g ∈ l) :
    (l.filter fun h => h.paddr = g.paddr) = [g] := by
  induction l with
  | nil => cases hg
  | cons a l ih =>
      obtain ⟨ha, hp'⟩ := List.pairwise_cons.mp hp
      rcases List.mem_cons.mp hg with rfl | hg
      · rw [List.filter_cons_of_pos (by simp), List.filter_eq_nil_iff.mpr]
        intro h hh
        simpa using Ne.symm (ha h hh)
      · rw [List.filter_cons_of_neg (by simpa using ha g hg), ih hp' hg]

/-- The two outcomes of `page_free` on a run, by whether the address of the
block wrapped around when it was computed. -/
inductive FreeStep (N : Nat) (r : AreaRun) (pages : Pages) : Prop where
  | freed {r' : AreaRun} {bs : List Blk} {g : Grant}
      (run : (AreaRun.step (.free pages)).run r = .ok () r')
      (above : r.area.baseAddr ≤ pages.paddr) (ledger : Ledger N r' bs)
      (base : r'.area.baseAddr = r.area.baseAddr)
      (opened : r'.area.buddyNum = r.area.buddyNum)
      (live : r.live.Perm (g :: r'.live)) (freed : r'.freed = g :: r.freed)
      (count : r'.area.pageNum = (r.area.pageNum + 4096 * g.pages) % 2 ^ 32)
  | stopped {i : Int} (run : (AreaRun.step (.free pages)).run r = .error (.oob i) r)
      (below : pages.paddr < r.area.baseAddr)

/-- The ledger after a block was given back. -/
theorem Ledger.freed (hL : Ledger N r bs) {live : List Grant} (hlive : r.live.Perm (g :: live)) :
    Ledger N ⟨{ r.area with pageNum := (r.area.pageNum + 4096 * g.pages) % 2 ^ 32 },
      live, g :: r.freed⟩ bs := by
  have hgiven : (live ++ g :: r.freed).Perm r.given :=
    List.perm_middle.trans (hlive.symm.append_right _)
  constructor
  · exact ⟨hL.table.nodup, hL.table.nonnull, hL.table.room⟩
  · exact ⟨hL.holds.length, hL.holds.get⟩
  · exact hL.length
  · exact hL.short
  · exact hL.base
  · exact (hgiven.map _).trans hL.places
  · exact fun h hh => hL.addr h (hgiven.mem_iff.mp hh)
  · exact fun h hh => hL.size h (hgiven.mem_iff.mp hh)
  · have hcount := hL.count
    have hasked : ((live ++ g :: r.freed).map Grant.asked).sum =
        (r.given.map Grant.asked).sum := (hgiven.map _).sum_eq
    show (((r.area.pageNum + 4096 * g.pages) % 2 ^ 32 : Nat) : Int) =
      ((N : Int) - ((live ++ g :: r.freed).map Grant.asked).sum +
        4096 * (((g :: r.freed).map Grant.pages).sum : Nat)) % 2 ^ 32
    rw [hasked, List.map_cons, List.sum_cons]
    omega

theorem ledger_free (hL : Ledger N r bs) (hp : pages.paddr ∈ r.live.map Grant.paddr) :
    FreeStep N r pages := by
  obtain ⟨g, hg, hgp⟩ := List.mem_map.mp hp
  have hgiven : g ∈ r.given := List.mem_append_left _ hg
  have hmem := hL.places.mem_iff.mp (List.mem_map_of_mem hgiven)
  have hbound := hL.place_bounds hgiven
  have haddr := hL.addr g hgiven
  have hlen : r.area.buddylist.length ≤ 512 := by
    rw [hL.length]; exact hL.short
  have hle := hL.holds.le_length
  have hbase := hL.base
  rw [Grant.place] at hmem
  generalize areaPage r.area.baseAddr g.paddr = q at hmem hbound haddr
  rw [hgp] at haddr
  have hpos := hbound.1
  rcases Nat.lt_or_ge (r.area.baseAddr + 4096 * q) (2 ^ 32) with hlt | hge
  · have hrun := pageFree_ok hL.holds hlen hmem hbound.1 haddr hlt
    have hsingle := filter_paddr (List.pairwise_append.mp hL.paddr_ne).1 hg
    have hlive : r.live.Perm (g :: r.live.filter fun h => h.paddr ≠ g.paddr) := by
      have hsplit := List.filter_append_perm (fun h : Grant => h.paddr = g.paddr) r.live
      rw [hsingle] at hsplit
      simpa using hsplit.symm
    have hstep : (AreaRun.step (.free pages)).run r = .ok () ⟨{ r.area with
          pageNum := (r.area.pageNum + 4096 * g.pages) % 2 ^ 32 },
        r.live.filter fun h => h.paddr ≠ g.paddr, g :: r.freed⟩ := by
      rw [AreaRun.step, run_bind_ok (run_call_ok hrun), EStateM.run_modify, ← hgp, hsingle]
      rfl
    refine .freed hstep ?_ (hL.freed hlive) rfl rfl hlive rfl rfl
    rw [haddr, areaAddr]
    omega
  · obtain ⟨i, hrun⟩ := pageFree_oob hL.holds hlen hL.base hmem haddr hge
    have hstep : (AreaRun.step (.free pages)).run r = .error (.oob i) r := by
      rw [AreaRun.step, run_bind_error (run_call_error hrun)]
    refine .stopped hstep ?_
    rw [haddr, areaAddr]
    omega

/-! ## The start -/

theorem areaExtent_base_lt (boot : Boot) : (areaExtent boot).1 < 2 ^ 32 := by
  unfold areaExtent getMemInit
  simp only
  split
  · simp only [pgRoundUp, pgSize]
    omega
  · exact (boot.pmb (largestRegion boot)).baseAddrLow.toNat_lt

theorem kmallocCheck_ok (h : ¬ size > 2048) : (kmallocCheck size).run area = .ok () area := by
  rw [kmallocCheck, if_neg (show ¬ size > pgSize / 2 from h)]
  rfl

theorem kmallocCheck_panic (h : size > 2048) :
    (kmallocCheck size).run area =
      .error (.panic "kmalloc: size %lu too large\n" [size]) area := by
  rw [kmallocCheck, if_pos (show size > pgSize / 2 from h)]
  rfl

/-- Where the table fits into what `kmalloc` answers, the area is set up. -/
theorem pageAllocatorInit_run (boot : Boot) (area : Area)
    (h : (areaExtent boot).2 / 1024 ≤ 512) :
    (pageAllocatorInit boot).run area = .ok 0 { area with
      baseAddr := (areaExtent boot).1
      pageNum := (areaExtent boot).2
      buddyNum := 0
      buddylist := (List.range ((areaExtent boot).2 / 1024)).map boot.words } := by
  rw [pageAllocatorInit, run_bind_ok (EStateM.run_modify _ _),
    run_bind_ok (kmallocCheck_ok (by omega)), run_bind_ok (EStateM.run_modify _ _)]
  rfl

/-- And otherwise there is no area. -/
theorem pageAllocatorInit_eq {area₀ area : Area} {result : Int}
    (h : (pageAllocatorInit boot).run area₀ = .ok result area) :
    (areaExtent boot).2 / 1024 ≤ 512 ∧ area = { area₀ with
      baseAddr := (areaExtent boot).1
      pageNum := (areaExtent boot).2
      buddyNum := 0
      buddylist := (List.range ((areaExtent boot).2 / 1024)).map boot.words } := by
  by_cases hshort : (areaExtent boot).2 / 1024 ≤ 512
  · rw [pageAllocatorInit_run boot area₀ hshort] at h
    injection h with _ h
    exact ⟨hshort, h.symm⟩
  · rw [pageAllocatorInit, run_bind_ok (EStateM.run_modify _ _),
      run_bind_error (kmallocCheck_panic (by omega))] at h
    cases h

theorem pageAllocatorInit_ok {area₀ area : Area}
    (h : (pageAllocatorInit boot).run area₀ = .ok 0 area) :
    area.buddyNum = 0 ∧ area.buddylist.length = area.pageNum / 1024 ∧
      area.pageNum / 1024 ≤ 512 ∧ area.baseAddr < 2 ^ 32 := by
  have hbase := areaExtent_base_lt boot
  obtain ⟨hshort, rfl⟩ := pageAllocatorInit_eq h
  refine ⟨rfl, ?_, hshort, hbase⟩
  rw [List.length_map, List.length_range]

theorem ledger_init (h : (areaCalls N).init r) : Ledger N r [] := by
  obtain ⟨⟨boot, area₀, hinit⟩, hT, hN, hlive, hfreed⟩ := h
  obtain ⟨hnum, hlen, hshort, hbase⟩ := pageAllocatorInit_ok hinit
  have hgiven : r.given = [] := by rw [AreaRun.given, hlive, hfreed]; rfl
  rw [hN] at hlen hshort
  constructor
  · exact hT
  · exact ⟨hnum.symm, fun i b hb => by cases hb⟩
  · exact hlen
  · exact hshort
  · exact hbase
  · rw [hgiven]; exact List.Perm.refl _
  · intro g hg; rw [hgiven] at hg; cases hg
  · intro g hg; rw [hgiven] at hg; cases hg
  · rw [hgiven, hfreed, hN]
    simp only [List.map_nil, List.sum_nil]
    omega

/-- Every state the allocator gets into has a ledger. -/
theorem ledger_of_reachable (h : (areaCalls N).Reachable r) : ∃ bs, Ledger N r bs := by
  refine Machine.reachable_of_kept (I := fun r => ∃ bs, Ledger N r bs)
    (fun r hr => ⟨[], ledger_init hr⟩) ?_ h
  intro r i r' hL hl hrun
  obtain ⟨bs, hL⟩ := hL
  cases i with
  | alloc pages =>
      have hrun' : (AreaRun.step (.alloc pages)).run r = .ok () r' := hrun
      cases ledger_alloc hL hl with
      | granted run result small fits ledger opens live freed count =>
          rw [run] at hrun'
          injection hrun' with _ hr
          exact ⟨_, hr ▸ ledger⟩
      | refused run result full ledger opens live freed count =>
          rw [run] at hrun'
          injection hrun' with _ hr
          exact ⟨_, hr ▸ ledger⟩
      | overrun run result small full grow last =>
          rw [run] at hrun'
          cases hrun'
  | free pages =>
      have hrun' : (AreaRun.step (.free pages)).run r = .ok () r' := hrun
      cases ledger_free hL hl with
      | freed run above ledger base opened live freed count =>
          rw [run] at hrun'
          injection hrun' with _ hr
          exact ⟨_, hr ▸ ledger⟩
      | stopped run below =>
          rw [run] at hrun'
          cases hrun'

/-! ## The counter -/

theorem forest_total (i : Nat) (bs : List Blk) :
    ((forest i bs).map Prod.snd).sum ≤ 1024 * bs.length := by
  induction bs generalizing i with
  | nil => simp [forest]
  | cons b bs ih =>
      rw [forest, List.map_append, List.sum_append, List.length_cons]
      have hb := Blk.blocks_total 10 (1024 * i) b
      have hrest := ih (i + 1)
      omega

/-- What was handed out never exceeds the opened buddies. -/
theorem Ledger.pages_le (hL : Ledger N r bs) :
    (r.given.map Grant.pages).sum ≤ 1024 * r.area.buddyNum := by
  have hsum := (hL.places.map Prod.snd).sum_eq
  rw [List.map_map] at hsum
  have htotal := forest_total 0 bs
  rw [← hsum, hL.holds.length] at htotal
  exact htotal

/-- A block is part of one buddy. -/
theorem Ledger.pages_small (hL : Ledger N r bs) (hg : g ∈ r.given) : g.pages ≤ 1024 := by
  obtain ⟨j, b, _, hmem⟩ := mem_forest.mp
    (hL.places.mem_iff.mp (List.mem_map_of_mem hg))
  obtain ⟨_, hlo, hhi, _⟩ := Blk.blocks_bounds hmem
  simp only [Grant.place] at hlo hhi
  omega

theorem asked_sum_bounds (hl : ∀ g ∈ l, g.size ≤ maxSize) :
    0 ≤ (l.map Grant.asked).sum ∧
      (l.map Grant.asked).sum ≤ ((l.map Grant.pages).sum : Nat) := by
  induction l with
  | nil => exact ⟨Int.le_refl _, Int.le_refl _⟩
  | cons g l ih =>
      have hg := hl g List.mem_cons_self
      have hrest := ih fun h hh => hl h (List.mem_cons_of_mem _ hh)
      have h0 := (pageCount_bounds hg).2.1
      have hle := pageCount_le_blockPages hg
      simp only [List.map_cons, List.sum_cons, Grant.asked, Grant.pages] at hrest ⊢
      omega

/-- What was ever handed out is part of the area, and so was all that was asked for. -/
theorem Ledger.given_bounds (hL : Ledger N r bs) :
    0 ≤ (r.given.map Grant.asked).sum ∧
      (r.given.map Grant.asked).sum ≤ ((r.given.map Grant.pages).sum : Nat) ∧
      (r.given.map Grant.pages).sum ≤ N := by
  have hasked := asked_sum_bounds hL.size
  have hpages := hL.pages_le
  have hnum := hL.buddyNum_le
  omega

/-- As long as nothing was given back the counter is what it should be, up to
the rounding of the blocks. -/
theorem Ledger.count_of_no_free (hL : Ledger N r bs) (hfreed : r.freed = []) :
    (r.area.pageNum : Int) = N - (r.live.map Grant.asked).sum ∧
      r.area.pageNum ≤ N := by
  have hcount := hL.count
  have hgiven := hL.given_bounds
  have hshort := hL.short
  rw [AreaRun.given, hfreed, List.append_nil] at hgiven hcount
  simp only [List.map_nil, List.sum_nil] at hcount
  omega

/-! ## Areas to run things on -/

/-- One usable region of `bytes` bytes at one megabyte, a kernel below it, and
a table whose words happen to be good pointers. -/
def sampleBoot (bytes : UInt32) : Boot where
  num := 1
  pmb _ := ⟨0x100000, bytes, 1⟩
  kernelEnd := 0x100000
  words i := 0x200000 + 0x1000 * i

/-- Such a table can be used. -/
theorem table_sample {n : Nat} (hlist : area.buddylist = (List.range n).map (sampleBoot 0).words)
    (hroom : ∀ p, (area.heap p).size = 2 ^ 11 - 1) : Table area := by
  refine ⟨?_, ?_, fun p _ => hroom p⟩
  · rw [hlist]
    refine List.Nodup.map (fun i j hij => ?_) List.nodup_range
    simp only [sampleBoot] at hij
    omega
  · intro hmem
    rw [hlist] at hmem
    obtain ⟨i, _, hi⟩ := List.mem_map.mp hmem
    simp only [sampleBoot] at hi
    omega

/-- The area after `page_allocator_init` on such a machine. -/
def sampleRun (bytes : UInt32) : AreaRun where
  area :=
    { baseAddr := 0x100000
      pageNum := bytes.toNat / 4096
      buddyNum := 0
      buddylist := (List.range (bytes.toNat / 4096 / 1024)).map (sampleBoot bytes).words
      heap := fun _ => ⟨0, 2 ^ 11 - 1, fun _ => .unused⟩
      kmallocs := [] }
  live := []
  freed := []

/-- A request. -/
def ask (size : Nat) : AreaCall := .alloc ⟨0, size, 0⟩

/-- The block at `paddr` back. -/
def giveBack (paddr : Nat) : AreaCall := .free ⟨paddr, 0, 0⟩

theorem sampleRun_init {bytes : UInt32} (h : bytes.toNat / 4096 / 1024 ≤ 512) :
    (areaCalls (bytes.toNat / 4096)).init (sampleRun bytes) := by
  have hext : areaExtent (sampleBoot bytes) = (0x100000, bytes.toNat / 4096) := by
    have hregion : (sampleBoot bytes).pmb (largestRegion (sampleBoot bytes)) =
        ⟨0x100000, bytes, 1⟩ := rfl
    rw [areaExtent, getMemInit, hregion]
    rfl
  have hinit := pageAllocatorInit_run (sampleBoot bytes) (sampleRun bytes).area
    (by rw [hext]; exact h)
  rw [hext] at hinit
  exact ⟨⟨_, _, hinit⟩, table_sample rfl fun _ => rfl, rfl, rfl, rfl⟩

end Aim.Kern
