import Aim.Proofs.AreaRun

/-!
# The table of buddies

`page_allocator_init` takes memory for `buddylist` from `kmalloc` and leaves
its words as they are; `page_alloc` hands such a word to `buddy_init`, which
takes the pointer by value and so cannot put a better one in its place. The
words the table starts with are the words it keeps.

So everything depends on what that memory held. If its words are pointers to
buddies that do not touch each other, the allocator is sound: opened buddies
are initialised, opening one leaves the others alone, and no page is handed
out twice (`table_sound`). If they are zero, the first request already runs on
the null pointer (`table_null`).
-/

namespace Aim.Kern

open Aim.Lib

/-- The page allocator without `page_free`, over whatever table it finds. A request is
for `maxSize` bytes at most. -/
def tableCalls (N : Nat) : Machine Stop AreaRun AreaCall where
  init r := (∃ boot area₀, (pageAllocatorInit boot).run area₀ = .ok 0 r.area) ∧
    r.area.pageNum = N ∧ r.live = [] ∧ r.freed = []
  legal _
    | .alloc pages => pages.size ≤ maxSize
    | .free _ => False
  step := AreaRun.step

instance (N : Nat) (r : AreaRun) : ∀ i, Decidable ((tableCalls N).legal r i)
  | .alloc pages => inferInstanceAs (Decidable (pages.size ≤ maxSize))
  | .free _ => inferInstanceAs (Decidable False)

/-- The bytes of a `struct buddy` whose array has `entries` entries. -/
def buddyBytes (entries : Nat) : Nat := 4 + 4 + entries

/-- Two buddies share no byte. -/
def BuddiesApart (entries : Nat) (p q : Nat) : Prop :=
  p + buddyBytes entries ≤ q ∨ q + buddyBytes entries ≤ p

/-- The words of the table are pointers to buddies that do not touch, with
room for `2 ^ 11 - 1` marks each. -/
structure GoodTable (area : Area) : Prop where
  nonnull : ∀ p ∈ area.buddylist, p ≠ 0
  room : ∀ p ∈ area.buddylist, (area.heap p).size = 2 ^ 11 - 1
  apart : area.buddylist.Pairwise (BuddiesApart (2 ^ 11 - 1))

/-- A buddy that `buddy_init` has initialised and that has been in order
since. -/
def Initialised (self : Buddy) : Prop :=
  self.level = 10 ∧ ∃ live, BuddyOk 10 ⟨self, live⟩

/-- The addresses of the pages of a block. -/
def Grant.pageAddrs (g : Grant) : List Nat :=
  (List.range g.pages).map fun j => (g.paddr + 4096 * j) % 2 ^ 32

structure TableOk (r : AreaRun) : Prop where
  /-- The entries of the opened buddies are pointers to initialised buddies. -/
  opened : ∀ i < r.area.buddyNum, ∃ p, r.area.buddylist[i]? = some p ∧ p ≠ 0 ∧
    Initialised (r.area.heap p)
  /-- No two of them share a byte of the buddies as they are declared. -/
  apart : ∀ i < r.area.buddyNum, ∀ j < i, ∀ p q, r.area.buddylist[i]? = some p →
    r.area.buddylist[j]? = some q → BuddiesApart treeEntries p q
  /-- No page was handed out twice. -/
  once : (r.given.flatMap Grant.pageAddrs).Nodup

/-- What opening a buddy leaves alone. -/
def KeepsOpen (r r' : AreaRun) : Prop :=
  r.area.buddyNum < r'.area.buddyNum → ∀ i < r.area.buddyNum, ∀ p,
    r.area.buddylist[i]? = some p → r'.area.heap p = r.area.heap p

theorem GoodTable.table {area : Area} (h : GoodTable area) : Table area where
  nodup := h.apart.imp fun {p q} hpq heq => by
    rcases hpq with hpq | hpq <;> simp only [buddyBytes, heq] at hpq <;> omega
  nonnull hmem := h.nonnull 0 hmem rfl
  room := h.room

variable {r : AreaRun} {N : Nat}

/-- The page addresses of a block that was handed out. -/
theorem Ledger.pageAddrs_eq {bs : List Blk} (hL : Ledger N r bs) {g : Grant} (hg : g ∈ r.given) :
    g.pageAddrs = (List.range g.pages).map fun j =>
      areaAddr r.area.baseAddr (areaPage r.area.baseAddr g.paddr + j) := by
  refine List.map_congr_left fun j _ => ?_
  have haddr := hL.addr g hg
  generalize areaPage r.area.baseAddr g.paddr = q at haddr
  rw [haddr]
  unfold areaAddr
  omega

theorem areaAddr_inj {base q q' : Nat} (hq : q < 2 ^ 20) (hq' : q' < 2 ^ 20)
    (h : areaAddr base q = areaAddr base q') : q = q' := by
  unfold areaAddr at h
  omega

/-- Blocks that share no page share no page address. -/
theorem Ledger.pages_once {bs : List Blk} (hL : Ledger N r bs) :
    (r.given.flatMap Grant.pageAddrs).Nodup := by
  have hbound : ∀ g ∈ r.given,
      areaPage r.area.baseAddr g.paddr + g.pages ≤ 2 ^ 19 := by
    intro g hg
    have hplace := (hL.place_bounds hg).2
    have hnum := hL.buddyNum_le
    have hshort := hL.short
    omega
  rw [List.nodup_flatMap]
  constructor
  · intro g hg
    rw [hL.pageAddrs_eq hg]
    refine List.Nodup.map_on ?_ List.nodup_range
    intro i hi j hj hij
    rw [List.mem_range] at hi hj
    have hb := hbound g hg
    have heq := areaAddr_inj (by omega) (by omega) hij
    omega
  · refine hL.pairwise.imp_of_mem fun {g h} hg hh hap => ?_
    intro x hxg hxh
    rw [hL.pageAddrs_eq hg] at hxg
    rw [hL.pageAddrs_eq hh] at hxh
    obtain ⟨i, hi, rfl⟩ := List.mem_map.mp hxg
    obtain ⟨j, hj, hij⟩ := List.mem_map.mp hxh
    rw [List.mem_range] at hi hj
    have hbg := hbound g hg
    have hbh := hbound h hh
    have heq := areaAddr_inj (by omega) (by omega) hij
    rcases hap with hap | hap <;> simp only [Grant.place] at hap <;> omega

/-! ## Runs over a good table -/

/-- The invariant of a run without `page_free` over a good table. -/
structure TableInv (N : Nat) (r : AreaRun) : Prop where
  ledger : ∃ bs, Ledger N r bs
  freed : r.freed = []
  apart : r.area.buddylist.Pairwise (BuddiesApart (2 ^ 11 - 1))

theorem tableInv_init (h : (tableCalls N).init r) (hgood : GoodTable r.area) : TableInv N r where
  ledger := ⟨[], ledger_init ⟨h.1, hgood.table, h.2⟩⟩
  freed := h.2.2.2
  apart := hgood.apart

/-- A buddy that stores a tree is in order. -/
theorem initialised_ofTree {t : Int → Node} {b : Blk} (hst : Stores t 10 0 b)
    (hwf : Blk.Wf 10 b) : Initialised (ofTree 10 t) := by
  refine ⟨rfl, clientBlocks 10 b, ?_⟩
  exact Held.ok ⟨t, b, rfl, hst, hwf, List.Perm.refl _⟩

theorem TableInv.ok (h : TableInv N r) : TableOk r := by
  obtain ⟨bs, hL⟩ := h.ledger
  refine ⟨?_, ?_, hL.pages_once⟩
  · intro i hi
    rw [← hL.holds.length] at hi
    have hb : bs[i]? = some bs[i] := List.getElem?_eq_getElem hi
    obtain ⟨p, t, hp, hheap, hst, hwf⟩ := hL.holds.get i bs[i] hb
    have hmem := List.mem_of_getElem? hp
    refine ⟨p, hp, fun h0 => hL.table.nonnull (h0 ▸ hmem), ?_⟩
    rw [hheap]
    exact initialised_ofTree hst hwf
  · intro i _ j hji p q hp hq
    have hij : BuddiesApart (2 ^ 11 - 1) q p := by
      obtain ⟨hi, rfl⟩ := List.getElem?_eq_some_iff.mp hp
      obtain ⟨hj, rfl⟩ := List.getElem?_eq_some_iff.mp hq
      exact List.pairwise_iff_getElem.mp h.apart j i hj hi hji
    have hdecl : treeEntries ≤ 2 ^ 11 - 1 := by decide
    rcases hij with hij | hij <;> unfold buddyBytes at hij
    · exact Or.inr (by unfold buddyBytes; omega)
    · exact Or.inl (by unfold buddyBytes; omega)

theorem keepsOpen_of_opens {r r' : AreaRun} (h : Opens r.area r'.area) : KeepsOpen r r' := by
  intro hlt i hi p hp
  rcases h.buddyNum with heq | ⟨_, hkeep⟩
  · omega
  · exact hkeep i p hi hp

/-- Without `page_free` the counter never exceeds its first value, and the
call that would open one buddy too many does not happen. -/
theorem TableInv.alloc (h : TableInv N r) {pages : Pages} (hs : pages.size ≤ maxSize) :
    ∃ r', (AreaRun.step (.alloc pages)).run r = .ok () r' ∧ TableInv N r' ∧
      KeepsOpen r r' := by
  obtain ⟨bs, hL⟩ := h.ledger
  cases ledger_alloc hL hs with
  | @granted r' bs' paddr run result small fits ledger opens live freed count =>
      refine ⟨r', run, ⟨⟨bs', ledger⟩, freed.trans h.freed, ?_⟩, keepsOpen_of_opens opens⟩
      rw [opens.buddylist]
      exact h.apart
  | @refused r' bs' run result full ledger opens live freed count =>
      refine ⟨r', run, ⟨⟨bs', ledger⟩, freed.trans h.freed, ?_⟩, keepsOpen_of_opens opens⟩
      rw [opens.buddylist]
      exact h.apart
  | overrun run result small full grow last =>
      have hle := (hL.count_of_no_free h.freed).2
      omega

/-- Over a good table every run of `page_alloc` calls keeps the table in
order, and opening a buddy leaves the opened ones alone. -/
theorem table_sound {N : Nat} {r : AreaRun} {calls : List AreaCall}
    (hinit : (tableCalls N).init r) (hgood : GoodTable r.area)
    (hp : (tableCalls N).Permits calls r) :
    (tableCalls N).Always TableOk calls r ∧
      (tableCalls N).EachStep
        (fun r i => KeepsOpen r ((tableCalls N).left i r)) calls r := by
  refine Machine.always_of_inv (I := TableInv N) (fun r h => h.ok) ?_
    (tableInv_init hinit hgood) hp
  intro r i h hl
  cases i with
  | alloc pages =>
      obtain ⟨r', hrun, hinv, hkeep⟩ := h.alloc hl
      have hleft : (tableCalls N).left (.alloc pages) r = r' :=
        Machine.left_of_ok (M := tableCalls N) (i := .alloc pages) hrun
      exact ⟨r', hrun, hinv, by rw [hleft]; exact hkeep⟩
  | free pages => exact absurd hl id

/-- Two requests for a whole buddy, over two pointers a page apart. -/
theorem table_sound_twoBuddies :
    (tableCalls 4096).Always TableOk [ask 0x400000, ask 0x400000] (sampleRun 0x1000000) ∧
      (tableCalls 4096).EachStep
        (fun r i => KeepsOpen r ((tableCalls 4096).left i r))
        [ask 0x400000, ask 0x400000] (sampleRun 0x1000000) := by
  have hinit : (areaCalls 4096).init (sampleRun 0x1000000) := sampleRun_init (by decide)
  refine table_sound ⟨hinit.1, hinit.2.2⟩ ⟨?_, ?_, ?_⟩ (by decide +kernel)
  · intro p hp h0
    exact hinit.2.1.nonnull (h0 ▸ hp)
  · exact hinit.2.1.room
  · refine List.Pairwise.map _ ?_ List.pairwise_lt_range
    intro i j hij
    simp only [BuddiesApart, buddyBytes, sampleBoot]
    omega

/-! ## A table of zeros -/

/-- The machine of `sampleBoot 0x400000`, with a table of zeros. -/
def zeroBoot : Boot := { sampleBoot 0x400000 with words := fun _ => 0 }

def zeroRun : AreaRun where
  area := { (sampleRun 0x400000).area with buddylist := [0], kmallocs := [0x300000] }
  live := []
  freed := []

/-- The first request opens the buddy at the null pointer: `buddy_init` asks
`kmalloc` for a buddy, clears its tree and forgets it. -/
theorem table_null : (tableCalls 1024).init zeroRun ∧
    (tableCalls 1024).Permits [ask 4096] zeroRun ∧
    ¬ (tableCalls 1024).Always TableOk [ask 4096] zeroRun := by
  have hinit : (pageAllocatorInit zeroBoot).run zeroRun.area = .ok 0 zeroRun.area := rfl
  refine ⟨⟨⟨_, _, hinit⟩, rfl, rfl, rfl⟩, by decide +kernel, fun h => ?_⟩
  have hval : (fun r : AreaRun => (r.area.buddyNum, r.area.buddylist))
      ((tableCalls 1024).left (ask 4096) zeroRun) = (1, [0]) := by
    decide +kernel
  simp only [Prod.mk.injEq] at hval
  have hlast := Machine.Always.last [] h rfl
  obtain ⟨p, hp, hne, _⟩ := hlast.opened 0 (by omega)
  rw [hval.2] at hp
  exact hne (Option.some.inj hp).symm

end Aim.Kern
