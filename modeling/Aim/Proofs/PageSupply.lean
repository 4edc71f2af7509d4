import Aim.Proofs.I386Env
import Aim.Proofs.SimpleRun

/-!
# A supply that keeps the contract

A finite supply of frames, and an endless one of objects, handed out one after
the other. It keeps a record of what is out, and stops a call that gives back
something that is not. `unmapEntry` is an `unmap_pages` that unmaps the page it
is asked for and nothing else, so it breaks up an entry of four megabytes
before it clears the entry of the page.

`supplySpec` is the contract of `I386Env` for it: the assumptions there can be
met. It takes `Base.supplied`, in which `pgalloc` does not answer `-1` when the
frames have run out but stops.
-/

namespace Aim.Kern

open Aim.Lib Mem

variable {σ : Type}

/-- The same base, assuming that `pgalloc` does not fail. -/
def Base.supplied (B : Base σ) : Base σ :=
  { B with pager := { B.pager with
      pgalloc := do
        let a ← B.pager.pgalloc
        if a = 2 ^ 64 - 1 then throw .starved else return a } }

/-- A page table at `spare` that maps what `entry` of a directory maps. -/
def splitPage (m : Mem) (spare entry : Nat) : Mem := fun x =>
  if spare ≤ x ∧ x < spare + pgSize then
    UInt8.ofNat ((entry / 2 ^ 22 * 2 ^ 22 + (x - spare) / 4 * pgSize + 7) /
      2 ^ (8 * ((x - spare) % 4)))
  else m x

/-- `unmap_pages` of one page that is present. -/
def unmapEntry (spare pgindex va : Nat) : EStateM Stop (Phys σ) (Int × Nat) := do
  let pde := (pgindex + 4 * pdx va) % 2 ^ 32
  let entry ← kload pde
  if entry &&& ptePS ≠ 0 then
    modify fun s => { s with mem := splitPage s.mem spare entry }
    kstore pde (spare ||| pteP ||| pteW ||| pteU)
  let entry ← kload pde
  let pte := (postmapAddr (pgRoundDown entry) + 4 * ptx va) % 2 ^ 32
  let page ← kload pte
  kstore pte 0
  return (pgSize, pgRoundDown page)

/-- The frames that are left, and what is out. -/
structure Supply where
  nextObj : Nat
  free : List Nat
  objs : List Nat
  users : List Nat
  pages : List Nat
  deriving DecidableEq, Repr

/-- The page allocator: the frame that came back last is handed out next. -/
def supplyPages : PageAllocator Supply where
  alloc pages := do
    let s ← get
    match s.free with
    | [] => return (-1, pages)
    | a :: rest =>
        set { s with free := rest }
        return (0, { pages with paddr := a })
  free pages := do
    modify fun s => { s with free := pages.paddr :: s.free }
    return pages
  getFree := do
    let s ← get
    return s.free.length * pgSize

/-- One of the lists of what is out. -/
structure Record where
  out : Supply → List Nat
  put : List Nat → Supply → Supply

def recordObjs : Record := ⟨Supply.objs, fun l s => { s with objs := l }⟩

def recordUsers : Record := ⟨Supply.users, fun l s => { s with users := l }⟩

def recordPages : Record := ⟨Supply.pages, fun l s => { s with pages := l }⟩

def Record.add (k : Record) (x : Nat) : EStateM Stop (Phys Supply) Unit :=
  modify fun s => { s with pmm := k.put (x :: k.out s.pmm) s.pmm }

/-- What is given back has to be out. -/
def Record.remove (k : Record) (x : Nat) : EStateM Stop (Phys Supply) Unit := do
  let s ← get
  if x ∈ k.out s.pmm then
    set { s with pmm := k.put ((k.out s.pmm).erase x) s.pmm }
  else throw (.oob x)

def supplyBase : Base Supply where
  kmalloc n := do
    let s ← get
    set { s with pmm := { s.pmm with nextObj := s.pmm.nextObj + n + 1 } }
    recordObjs.add s.pmm.nextObj
    return s.pmm.nextObj
  kfree p := recordObjs.remove p
  allocPages pages := do
    let (result, pages) ← allocPages supplyPages pages
    if 0 ≤ result then recordUsers.add pages.paddr
    return (result, pages)
  freePages pages := do
    recordUsers.remove pages.paddr
    freePages supplyPages pages
  pager := {
    pgalloc := do
      let a ← pgalloc supplyPages
      if a ≠ 2 ^ 64 - 1 then recordPages.add a
      return a
    pgfree := fun a => do
      recordPages.remove a
      pgfree supplyPages a }
  unmapPages pgindex va _ := unmapEntry 0x300000 pgindex va

/-! ## The contract -/

/-- All frames there are. -/
def Supply.frames (s : Supply) : List Nat := s.free ++ s.users ++ s.pages

/-- No frame is twice on the lists, all of them are from `low` on, and objects are
handed out in ascending order. -/
structure Supply.Good (low : Nat) (s : Supply) : Prop where
  pos : 0 < s.nextObj
  below : ∀ x ∈ s.objs, x < s.nextObj
  once : s.objs.Nodup
  frame : ∀ a ∈ s.frames, IsFrame a
  from_low : ∀ a ∈ s.frames, low ≤ a
  nodup : s.frames.Nodup

structure SupplyOut (low : Nat) (s : Phys Supply) (O U P : Set Nat) : Prop where
  good : s.pmm.Good low
  objs : ∀ x, x ∈ O ↔ x ∈ s.pmm.objs
  users : ∀ x, x ∈ U ↔ x ∈ s.pmm.users
  pages : ∀ x, x ∈ P ↔ x ∈ s.pmm.pages

section

variable {low a : Nat} {s : Phys Supply} {O U P A : Set Nat} {l rest : List Nat}

/-- Frames only change lists. -/
theorem Supply.Good.move {s s' : Supply} (h : s.Good low) (hp : s'.frames.Perm s.frames)
    (hn : s'.nextObj = s.nextObj) (ho : s'.objs = s.objs) : s'.Good low where
  pos := hn ▸ h.pos
  below := by rw [ho, hn]; exact h.below
  once := ho ▸ h.once
  frame a ha := h.frame a (hp.mem_iff.mp ha)
  from_low a ha := h.from_low a (hp.mem_iff.mp ha)
  nodup := hp.nodup_iff.mpr h.nodup

theorem Supply.Good.apart {s : Supply} (h : s.Good low) :
    (∀ a ∈ s.free, a ∉ s.users ∧ a ∉ s.pages) ∧ ∀ a ∈ s.users, a ∉ s.pages := by
  obtain ⟨hfu, -, hdp⟩ := List.nodup_append'.mp h.nodup
  obtain ⟨-, -, hdu⟩ := List.nodup_append'.mp hfu
  refine ⟨fun a ha => ⟨hdu ha, hdp (List.mem_append_left _ ha)⟩, fun a ha => ?_⟩
  exact hdp (List.mem_append_right _ ha)

theorem Supply.Good.nodup_out {s : Supply} (h : s.Good low) : s.users.Nodup ∧ s.pages.Nodup := by
  obtain ⟨hfu, hp, -⟩ := List.nodup_append'.mp h.nodup
  exact ⟨(List.nodup_append'.mp hfu).2.1, hp⟩

/-- A set and a list with the same members, when one comes or goes. -/
theorem mem_insert_list (h : ∀ x, x ∈ A ↔ x ∈ l) (x : Nat) : x ∈ insert a A ↔ x ∈ a :: l := by
  rw [Set.mem_insert_iff, List.mem_cons, h x]

theorem mem_erase_list (h : ∀ x, x ∈ A ↔ x ∈ l) (hl : l.Nodup) (x : Nat) :
    x ∈ A \ {a} ↔ x ∈ l.erase a := by
  rw [Set.mem_sdiff, Set.mem_singleton_iff, hl.mem_erase_iff, h x, and_comm]

theorem SupplyOut.unique {O' U' P' : Set Nat} (h : SupplyOut low s O U P)
    (h' : SupplyOut low s O' U' P') : O' = O ∧ U' = U ∧ P' = P :=
  ⟨Set.ext fun x => (h'.objs x).trans (h.objs x).symm,
    Set.ext fun x => (h'.users x).trans (h.users x).symm,
    Set.ext fun x => (h'.pages x).trans (h.pages x).symm⟩

theorem SupplyOut.takeUser (h : SupplyOut low s O U P) (hfree : s.pmm.free = a :: rest) :
    a ∉ U ∧ SupplyOut low { s with pmm := { s.pmm with free := rest, users := a :: s.pmm.users } }
      O (insert a U) P := by
  refine ⟨fun hU => ?_, h.good.move ?_ rfl rfl, h.objs, mem_insert_list h.users, h.pages⟩
  · exact (h.good.apart.1 a (hfree ▸ List.mem_cons_self)).1 ((h.users a).mp hU)
  · rw [Supply.frames, Supply.frames, hfree]
    exact List.perm_middle.append_right _

theorem SupplyOut.takePage (h : SupplyOut low s O U P) (hfree : s.pmm.free = a :: rest) :
    a ∉ P ∧ SupplyOut low { s with pmm := { s.pmm with free := rest, pages := a :: s.pmm.pages } }
      O U (insert a P) := by
  refine ⟨fun hP => ?_, h.good.move ?_ rfl rfl, h.objs, h.users, mem_insert_list h.pages⟩
  · exact (h.good.apart.1 a (hfree ▸ List.mem_cons_self)).2 ((h.pages a).mp hP)
  · rw [Supply.frames, Supply.frames, hfree]
    exact List.perm_middle

theorem SupplyOut.giveUser {m : Mem} (h : SupplyOut low s O U P) (ha : a ∈ U) :
    SupplyOut low { mem := m, pmm := { s.pmm with
      users := s.pmm.users.erase a, free := a :: s.pmm.free } } O (U \ {a}) P := by
  refine ⟨h.good.move ?_ rfl rfl, h.objs, mem_erase_list h.users h.good.nodup_out.1, h.pages⟩
  have hp := List.perm_cons_erase ((h.users a).mp ha)
  exact (List.perm_middle.symm.trans (hp.symm.append_left _)).append_right _

theorem SupplyOut.givePage {m : Mem} (h : SupplyOut low s O U P) (ha : a ∈ P) :
    SupplyOut low { mem := m, pmm := { s.pmm with
      pages := s.pmm.pages.erase a, free := a :: s.pmm.free } } O U (P \ {a}) := by
  refine ⟨h.good.move ?_ rfl rfl, h.objs, h.users, mem_erase_list h.pages h.good.nodup_out.2⟩
  have hp := List.perm_cons_erase ((h.pages a).mp ha)
  exact List.perm_middle.symm.trans (hp.symm.append_left _)

theorem SupplyOut.user (h : SupplyOut low s O U P) (ha : a ∈ U) : IsFrame a := by
  refine h.good.frame a (List.mem_append_left _ (List.mem_append_right _ ?_))
  exact (h.users a).mp ha

theorem SupplyOut.page (h : SupplyOut low s O U P) (ha : a ∈ P) : IsFrame a :=
  h.good.frame a (List.mem_append_right _ ((h.pages a).mp ha))

theorem allocPages_frame (hfree : s.pmm.free = a :: rest) :
    (allocPages supplyPages ⟨0, pgSize, 0⟩).run s =
      .ok (0, ⟨a, pgSize, 0⟩) { s with pmm := { s.pmm with free := rest } } := by
  have halloc : (onPmm (supplyPages.alloc ⟨0, pgSize, 0⟩)).run s =
      .ok (0, ⟨a, pgSize, 0⟩) { s with pmm := { s.pmm with free := rest } } := by
    obtain ⟨m, nextObj, free, objs, users, pages⟩ := s
    cases hfree
    rfl
  have hflags : ¬ (0 &&& gfpZero ≠ 0) := by decide
  rw [allocPages, run_bind_ok halloc]
  show (if 0 &&& gfpZero ≠ 0 then _ else _ : EStateM Stop (Phys Supply) _).run _ = _
  rw [if_neg hflags]
  rfl

theorem allocPages_none (hfree : s.pmm.free = []) :
    (allocPages supplyPages ⟨0, pgSize, 0⟩).run s = .ok (-1, ⟨0, pgSize, 0⟩) s := by
  obtain ⟨m, nextObj, free, objs, users, pages⟩ := s
  cases hfree
  rfl

theorem supplied_allocPages_none (hfree : s.pmm.free = []) :
    (supplyBase.supplied.allocPages ⟨0, pgSize, 0⟩).run s = .ok (-1, ⟨0, pgSize, 0⟩) s :=
  run_bind_ok (allocPages_none hfree)

theorem supplied_pgalloc_none (hfree : s.pmm.free = []) :
    supplyBase.supplied.pager.pgalloc.run s = .error .starved s := by
  have hpage : (pgalloc supplyPages).run s = .ok (2 ^ 64 - 1) s :=
    run_bind_ok (allocPages_none hfree)
  have htake : supplyBase.pager.pgalloc.run s = .ok (2 ^ 64 - 1) s := run_bind_ok hpage
  exact run_bind_ok htake

theorem supplied_allocPages (hfree : s.pmm.free = a :: rest) :
    (supplyBase.supplied.allocPages ⟨0, pgSize, 0⟩).run s = .ok (0, ⟨a, pgSize, 0⟩)
      { s with pmm := { s.pmm with free := rest, users := a :: s.pmm.users } } :=
  run_bind_ok (allocPages_frame hfree)

theorem supplied_pgalloc (hfree : s.pmm.free = a :: rest) (ha : IsFrame a) :
    supplyBase.supplied.pager.pgalloc.run s = .ok a
      { s with pmm := { s.pmm with free := rest, pages := a :: s.pmm.pages } } := by
  have hlt : a ≠ 2 ^ 64 - 1 := by
    have hlow := ha.2
    rw [kernBase] at hlow
    omega
  have hpage : (pgalloc supplyPages).run s =
      .ok a { s with pmm := { s.pmm with free := rest } } := run_bind_ok (allocPages_frame hfree)
  have htake : supplyBase.pager.pgalloc.run s = .ok a
      { s with pmm := { s.pmm with free := rest, pages := a :: s.pmm.pages } } := by
    refine (run_bind_ok hpage).trans ?_
    rw [if_pos hlt]
    rfl
  refine (run_bind_ok htake).trans ?_
  rw [if_neg hlt]
  rfl

theorem freePages_supply (s : Phys Supply) (a : Nat) :
    (freePages supplyPages ⟨a, pgSize, 0⟩).run s = .ok ⟨a, pgSize, 0⟩
      { mem := kfill s.mem (pa2kva a) junkByte pgSize,
        pmm := { s.pmm with free := a :: s.pmm.free } } := by
  have hflags : 0 &&& gfpUnsafe = 0 := by decide
  rw [freePages, if_pos hflags, run_bind_ok (pmemset_page a junkByte s)]
  rfl

/-- Junk in a frame that is given back is not seen in others. -/
theorem sameWords_kfill (ha : IsFrame a) (hP : ∀ x ∈ P, IsFrame x ∧ x ≠ a) {b : UInt8}
    (m : Mem) : SameWords P m (kfill m (pa2kva a) b pgSize) := by
  intro x hx i hi
  obtain ⟨hxf, hne⟩ := hP x hx
  exact word_kfill_ne (sees_pa2kva ha.2) ha hxf hne hi

/-- `unmapEntry` of a page in a table. -/
theorem run_unmapEntry {σ : Type} {s : Phys σ} (spare : Nat) {d t va : Nat} (hd : IsFrame d)
    (ht : IsFrame t) (hw : word s.mem d (pdx va) = t + 7) :
    ∃ pte, Sees pte (t + 4 * ptx va) ∧ (unmapEntry spare (d + kernBase) va).run s =
      .ok (pgSize, pgRoundDown (word s.mem t (ptx va)))
        { s with mem := kstore32 s.mem pte 0 } := by
  have hpde : Sees ((d + kernBase + 4 * pdx va) % 2 ^ 32) (d + 4 * pdx va) :=
    sees_word (sees_high hd.2) hd (pdx_lt va)
  have hpte : Sees ((t + kernBase + 4 * ptx va) % 2 ^ 32) (t + 4 * ptx va) :=
    sees_word (sees_high ht.2) ht (ptx_lt va)
  have hload : (kload ((d + kernBase + 4 * pdx va) % 2 ^ 32)).run s = .ok (t + 7) s := by
    rw [← hw, ← kload32_word hpde hd (pdx_lt va)]
    rfl
  have hpost : postmapAddr t = t + kernBase := if_neg (not_le.mpr ht.2)
  refine ⟨_, hpte, ?_⟩
  rw [unmapEntry, run_bind_ok hload, if_neg (not_not.mpr (table_small ht)), run_bind_ok hload,
    table_addr ht, hpost, ← kload32_word hpte ht (ptx_lt va)]
  rfl

theorem Record.run_remove {k : Record} {x : Nat} (h : x ∈ k.out s.pmm) :
    (k.remove x).run s =
      .ok () { s with pmm := k.put ((k.out s.pmm).erase x) s.pmm } := by
  show (if x ∈ k.out s.pmm then _ else _ : EStateM Stop (Phys Supply) Unit).run s = _
  rw [if_pos h]
  rfl

/-! ### The calls of the supply -/

variable (h : SupplyOut low s O U P)

include h

theorem SupplyOut.write {m : Mem} :
    SupplyOut low { s with mem := m } O U P := ⟨h.good, h.objs, h.users, h.pages⟩

theorem SupplyOut.notMem_of_user (ha : a ∈ U) : a ∉ P := fun hP =>
  h.good.apart.2 a ((h.users a).mp ha) ((h.pages a).mp hP)

theorem SupplyOut.kmalloc_ends (n : Nat) :
    Ends True (supplyBase.supplied.kmalloc n) s fun p s' =>
      SameWords P s.mem s'.mem ∧ ((p = 0 ∧ SupplyOut low s' O U P) ∨
        (p ≠ 0 ∧ p ∉ O ∧ SupplyOut low s' (insert p O) U P)) := by
  have hg := h.good
  have hnew : s.pmm.nextObj ∉ s.pmm.objs := fun hmem => lt_irrefl _ (hg.below _ hmem)
  refine ends_of_ok rfl ⟨fun _ _ _ _ => rfl, .inr ⟨hg.pos.ne', ?_, ?_⟩⟩
  · exact fun hO => hnew ((h.objs _).mp hO)
  · refine ⟨⟨Nat.succ_pos _, ?_, List.nodup_cons.mpr ⟨hnew, hg.once⟩, hg.frame, hg.from_low,
      hg.nodup⟩,
      mem_insert_list h.objs, h.users, h.pages⟩
    intro x hx
    have hle : s.pmm.nextObj < s.pmm.nextObj + n + 1 := by omega
    rcases List.mem_cons.mp hx with rfl | hx
    · exact hle
    · exact (hg.below x hx).trans hle

theorem SupplyOut.kfree_ends {p : Nat} (hp : p ∈ O) :
    Ends True (supplyBase.supplied.kfree p) s fun _ s' =>
      SameWords P s.mem s'.mem ∧ SupplyOut low s' (O \ {p}) U P := by
  have hg := h.good
  refine ends_of_ok (Record.run_remove ((h.objs p).mp hp)) ⟨fun _ _ _ _ => rfl, ?_⟩
  exact ⟨⟨hg.pos, fun x hx => hg.below x (List.mem_of_mem_erase hx), hg.once.erase p, hg.frame,
    hg.from_low, hg.nodup⟩, mem_erase_list h.objs hg.once, h.users, h.pages⟩

theorem SupplyOut.allocPages_ends :
    Ends True (supplyBase.supplied.allocPages ⟨0, pgSize, 0⟩) s fun r s' =>
      SameWords P s.mem s'.mem ∧ ((r.1 < 0 ∧ SupplyOut low s' O U P) ∨
        (0 ≤ r.1 ∧ r.2.size = pgSize ∧ r.2.flags = 0 ∧ r.2.paddr ∉ U ∧
          SupplyOut low s' O (insert r.2.paddr U) P)) := by
  cases hfree : s.pmm.free with
  | nil =>
      exact ends_of_ok (supplied_allocPages_none hfree)
        ⟨fun _ _ _ _ => rfl, .inl ⟨by decide, h⟩⟩
  | cons a rest =>
      obtain ⟨hnew, hout⟩ := h.takeUser hfree
      exact ends_of_ok (supplied_allocPages hfree)
        ⟨fun _ _ _ _ => rfl, .inr ⟨le_refl _, rfl, rfl, hnew, hout⟩⟩

theorem SupplyOut.freePages_ends (ha : a ∈ U) :
    Ends True (supplyBase.supplied.freePages ⟨a, pgSize, 0⟩) s fun _ s' =>
      SameWords P s.mem s'.mem ∧ SupplyOut low s' O (U \ {a}) P := by
  have hcall : (supplyBase.freePages ⟨a, pgSize, 0⟩).run s = _ :=
    (run_bind_ok (Record.run_remove (k := recordUsers) ((h.users a).mp ha))).trans
      (freePages_supply _ a)
  refine ends_of_ok hcall ⟨sameWords_kfill (h.user ha) (fun x hx => ⟨h.page hx, ?_⟩) _, ?_⟩
  · intro hxa
    exact h.notMem_of_user ha (hxa ▸ hx)
  · exact h.giveUser ha

theorem SupplyOut.pgalloc_ends :
    Ends True supplyBase.supplied.pager.pgalloc s fun a s' =>
      SameWords P s.mem s'.mem ∧ a ∉ P ∧ SupplyOut low s' O U (insert a P) := by
  cases hfree : s.pmm.free with
  | nil => exact ends_of_excused (supplied_pgalloc_none hfree) rfl
  | cons a rest =>
      obtain ⟨hnew, hout⟩ := h.takePage hfree
      exact ends_of_ok (supplied_pgalloc hfree (hout.page (Set.mem_insert a P)))
        ⟨fun _ _ _ _ => rfl, hnew, hout⟩

theorem SupplyOut.pgfree_ends (ha : a ∈ P) :
    Ends True (supplyBase.supplied.pager.pgfree a) s fun _ s' =>
      SameWords (P \ {a}) s.mem s'.mem ∧ SupplyOut low s' O U (P \ {a}) := by
  have hpages : (pgfree supplyPages a).run
      { s with pmm := { s.pmm with pages := s.pmm.pages.erase a } } = _ :=
    run_bind_ok (freePages_supply _ a)
  have hcall : (supplyBase.pager.pgfree a).run s = _ :=
    (run_bind_ok (Record.run_remove (k := recordPages) ((h.pages a).mp ha))).trans hpages
  refine ends_of_ok hcall ⟨sameWords_kfill (h.page ha) (fun x hx => ⟨h.page hx.1, hx.2⟩) _, ?_⟩
  exact h.givePage ha

theorem SupplyOut.unmapPages_ends {d t va : Nat} (hd : d ∈ P) (ht : t ∈ P)
    (hw : word s.mem d (pdx va) = t + 7) :
    Ends True (supplyBase.supplied.unmapPages (d + kernBase) va pgSize) s fun r s' =>
      r.1 = pgSize ∧ r.2 = pgRoundDown (word s.mem t (ptx va)) ∧ SupplyOut low s' O U P ∧
        word s'.mem t (ptx va) &&& pteP = 0 ∧
        ∀ f ∈ P, ∀ j < 1024, f ≠ t ∨ j ≠ ptx va → word s'.mem f j = word s.mem f j := by
  have htf := h.page ht
  obtain ⟨pte, hsees, hrun⟩ := run_unmapEntry 0x300000 (h.page hd) htf hw
  refine ends_of_ok hrun ⟨rfl, rfl, h.write, ?_, ?_⟩
  · rw [word_kstore32_self hsees htf (ptx_lt va)]
    exact Nat.zero_and _
  · intro f hf j hj hne
    exact word_kstore32_ne hsees htf (ptx_lt va) (h.page hf) hj hne

end

/-- The supply keeps the contract, whatever the lowest frame is. -/
def supplySpec (low : Nat) : BaseSpec supplyBase.supplied where
  Out := SupplyOut low
  frame _ _ _ _ h _ ha := ha.elim h.user h.page
  apart _ _ _ _ h _ ha := h.notMem_of_user ha
  unique _ _ _ _ _ _ _ h h' := h.unique h'
  write _ _ _ _ _ h _ := h.write
  kmalloc _ _ _ _ n h := h.kmalloc_ends n
  kfree _ _ _ _ _ h hp := h.kfree_ends hp
  allocPages _ _ _ _ h := h.allocPages_ends
  freePages _ _ _ _ _ h ha := h.freePages_ends ha
  pgalloc _ _ _ _ h := h.pgalloc_ends
  pgfree _ _ _ _ _ h ha := h.pgfree_ends ha
  unmapPages _ _ _ _ _ _ _ h _ hd ht hw _ := h.unmapPages_ends hd ht hw

end Aim.Kern
