import Aim.Proofs.BuddyFit

/-!
# The marks say which blocks are live, and nothing else

A buddy does not remember how it got where it is. The array does: under every
node that is unused or used there is what earlier splits and merges left there.
But the marks that lead down from the root stop above it, and on the way they
store a well-formed tree, of which there is one for each set of live blocks
(`Blk.blocks_inj`). So two histories that end with the same live blocks end
with the same marks, on the nodes the marks lead to.

`buddy_free` and `buddy_size` descend by offset along these nodes. What they
do is said here for every offset: `buddy_free` panics, with nothing changed,
where no live block starts, and `buddy_size` answers with the length of the
live block the page is in.
-/

namespace Aim.Kern

open Aim.Lib

/-! ## Two arrays with one tree -/

/-- The mark of a node, by the block that is stored there. -/
def rootMark : Blk → Node
  | .free => .unused
  | .used => .used
  | .node l r => innerMark (l.full && r.full)

theorem Stores.mark {t : Int → Node} {h : Nat} {i : Int} {b : Blk} (hs : Stores t h i b) :
    t i = rootMark b := by
  cases b with
  | free => exact (stores_free.mp hs).1
  | used => exact (stores_used.mp hs).1
  | node l r =>
      cases h with
      | zero => exact absurd hs id
      | succ h => exact (stores_node.mp hs).1

/-- The marks lead to the same nodes in both arrays, and agree on them. -/
structure SameMarks (t t' : Int → Node) : Prop where
  reached : ∀ d i, Reached t d i ↔ Reached t' d i
  marks : ∀ d i, Reached t d i → t i = t' i

section Shared

variable {t t' : Int → Node} {L : Nat} {b : Blk}

/-- At a node the marks of one array lead to, both arrays store one tree. -/
theorem Reached.shared {d : Nat} {i : Int} (hr : Reached t d i) (hs : Stores t L 0 b)
    (hs' : Stores t' L 0 b) :
    Reached t' d i ∧ ∃ h b', Stores t h i b' ∧ Stores t' h i b' := by
  induction hr with
  | root => exact ⟨.root, L, b, hs, hs'⟩
  | @left d i _ hm ih =>
      obtain ⟨hr', h, b', hst, hst'⟩ := ih
      have hm' : t' i = .split ∨ t' i = .full := by rwa [hst'.mark, ← hst.mark]
      obtain ⟨h', l, r, rfl, rfl⟩ := hst.inner_of_mark hm
      exact ⟨hr'.left hm', h', l, (stores_node.mp hst).2.1, (stores_node.mp hst').2.1⟩
  | @right d i _ hm ih =>
      obtain ⟨hr', h, b', hst, hst'⟩ := ih
      have hm' : t' i = .split ∨ t' i = .full := by rwa [hst'.mark, ← hst.mark]
      obtain ⟨h', l, r, rfl, rfl⟩ := hst.inner_of_mark hm
      exact ⟨hr'.right hm', h', r, (stores_node.mp hst).2.2, (stores_node.mp hst').2.2⟩

theorem Stores.sameMarks (hs : Stores t L 0 b) (hs' : Stores t' L 0 b) : SameMarks t t' where
  reached _ _ := ⟨fun hr => (hr.shared hs hs').1, fun hr => (hr.shared hs' hs).1⟩
  marks _ _ hr := by
    obtain ⟨_, _, _, hst, hst'⟩ := hr.shared hs hs'
    rw [hst.mark, hst'.mark]

end Shared

variable {L : Nat} {r : BuddyRun}

theorem mem_clientBlocks {b : Blk} {p : Nat × Nat} :
    p ∈ Blk.blocks L 0 b ↔ ((p.1 : Int), (p.2 : Int)) ∈ clientBlocks L b := by
  have hinj : Function.Injective fun p : Nat × Nat => ((p.1 : Int), (p.2 : Int)) := by
    intro p q hpq
    simp only [Prod.mk.injEq, Nat.cast_inj] at hpq
    exact Prod.ext hpq.1 hpq.2
  exact (List.mem_map_of_injective hinj).symm

/-- The live blocks determine the marks. -/
theorem Held.sameMarks {r r' : BuddyRun} (hr : Held L r) (hr' : Held L r')
    (hlive : ∀ p, p ∈ r.live ↔ p ∈ r'.live) : SameMarks r.buddy.tree r'.buddy.tree := by
  obtain ⟨t, b, hbuddy, hst, hwf, hperm⟩ := hr
  obtain ⟨t', b', hbuddy', hst', hwf', hperm'⟩ := hr'
  have hblocks : ∀ p, p ∈ Blk.blocks L 0 b ↔ p ∈ Blk.blocks L 0 b' := by
    intro p
    rw [mem_clientBlocks, mem_clientBlocks, ← hperm.mem_iff, ← hperm'.mem_iff, hlive]
  obtain rfl := Blk.blocks_inj 0 hwf hwf' hblocks
  rw [hbuddy, hbuddy']
  exact hst.sameMarks hst'

/-- Live blocks are told apart by where they start. -/
theorem Held.starts_nodup (hr : Held L r) : (r.live.map Prod.fst).Nodup := by
  rw [List.Nodup, List.pairwise_map]
  refine hr.ok.disjoint.imp_of_mem ?_
  intro p q hp hq hap
  have hpos := (hr.ok.inside p hp).1
  have hpos' := (hr.ok.inside q hq).1
  omega

/-! ## `buddy_free` -/

/-- The descent to an offset where no block starts. -/
theorem buddyFreeLoop_panics {t : Int → Node} {offset : Int} :
    ∀ {n h d left : Nat} {i : Int} {b : Blk}, d + h = L → h < n → OnLevel d i →
    Stores t h i b → (∀ p ∈ Blk.blocks h left b, offset ≠ p.1) →
    ∃ fmt args, (buddyFreeLoop offset n left (2 ^ h) i).run (ofTree L t) =
      .error (.panic fmt args) (ofTree L t) := by
  intro n
  induction n with
  | zero =>
      intro h d left i b _ hn _ _ _
      exact absurd hn (Nat.not_lt_zero h)
  | succ n ih =>
      intro h d left i b hL hn hi hs hno
      have hget := treeGet_ofTree t hi (show d ≤ L by omega)
      cases b with
      | free =>
          refine ⟨"Trying to free an unused block!\n", [], ?_⟩
          rw [buddyFreeLoop, run_bind_ok hget, (stores_free.mp hs).1]
          rfl
      | used =>
          have hne : offset ≠ left := hno (left, 2 ^ h) (by simp)
          refine ⟨"offset(0x%x) != left(0x%x)!\n", [offset, left], ?_⟩
          rw [buddyFreeLoop, run_bind_ok hget, (stores_used.mp hs).1]
          simp only [if_pos hne]
          rfl
      | node l r =>
          cases h with
          | zero => exact absurd hs id
          | succ h =>
              obtain ⟨_, hl, hr⟩ := stores_node.mp hs
              rw [Blk.blocks_node] at hno
              rw [buddyFreeLoop_inner hs hi (by omega)]
              split
              · exact ih (d := d + 1) (by omega) (by omega) hi.left hl fun p hp =>
                  hno p (List.mem_append_left _ hp)
              · have hright := ih (d := d + 1) (by omega) (by omega) hi.right hr
                  fun p hp => hno p (List.mem_append_right _ hp)
                push_cast at hright
                exact hright

theorem Held.free_panics {o : Int} (hr : Held L r) (ho : o < 2 ^ L)
    (hno : o ∉ r.live.map Prod.fst) :
    ∃ fmt args, (buddyFree o).run r.buddy = .error (.panic fmt args) r.buddy := by
  obtain ⟨t, b, hbuddy, hst, -, hperm⟩ := hr
  have hstart : ∀ p ∈ Blk.blocks L 0 b, o ≠ p.1 := by
    intro p hp heq
    exact hno (List.mem_map.mpr ⟨_, hperm.mem_iff.mpr (mem_clientBlocks.mp hp), heq.symm⟩)
  rw [hbuddy, buddyFree_descends t ho]
  exact buddyFreeLoop_panics (Nat.zero_add L) (lt_ofTree_size t) Ctx.root.onLevel hst hstart

/-- After the last live block has been given back, in whatever order, the
whole range is one unused block. -/
theorem Held.free_all : ∀ {os : List Int} {r : BuddyRun}, Held L r →
    os.Perm (r.live.map Prod.fst) →
    ∃ self, (os.forM buddyFree).run r.buddy = .ok () self ∧ self.tree 0 = .unused := by
  intro os
  induction os with
  | nil =>
      intro r hr hperm
      obtain ⟨t, b, hbuddy, hst, hwf, hlive⟩ := hr
      have hnil : r.live = [] := List.map_eq_nil_iff.mp hperm.symm.eq_nil
      obtain rfl : b = .free := by
        refine Blk.free_of_no_blocks 0 hwf fun p hp => ?_
        have hmem := hlive.mem_iff.mpr (mem_clientBlocks.mp hp)
        rw [hnil] at hmem
        cases hmem
      refine ⟨r.buddy, rfl, ?_⟩
      rw [hbuddy]
      exact (stores_free.mp hst).1
  | cons o os ih =>
      intro r hr hperm
      obtain ⟨⟨o', n⟩, hn, ho⟩ := List.mem_map.mp (hperm.mem_iff.mp List.mem_cons_self)
      obtain rfl : o' = o := ho
      obtain ⟨self, hrun, hheld⟩ := held_release hr hn
      have hnot : o' ∉ os := (List.nodup_cons.mp (hperm.nodup_iff.mpr hr.starts_nodup)).1
      have hrest : os.Perm ((r.live.filter fun p => p.1 ≠ o').map Prod.fst) := by
        have hfil := hperm.filter (· ≠ o')
        have hself : os.filter (· ≠ o') = os := by
          rw [List.filter_eq_self]
          intro a ha
          exact decide_eq_true fun heq => hnot (heq ▸ ha)
        rw [List.filter_cons_of_neg (by simp), hself, List.filter_map] at hfil
        exact hfil
      obtain ⟨self', hrun', hroot⟩ := ih hheld hrest
      exact ⟨self', (run_bind_ok hrun).trans hrun', hroot⟩

/-- The marks a buddy of level `L` ends with are a matter of its live blocks
alone, whatever was asked of it before. -/
theorem buddy_marks_of_live {L : Nat} {r : BuddyRun} (h : (buddyHistory L).Reachable r) :
    (∀ r', (buddyHistory L).Reachable r' → (∀ p, p ∈ r.live ↔ p ∈ r'.live) →
      SameMarks r.buddy.tree r'.buddy.tree) ∧
    (∀ p ∈ r.live, ∃ self, (buddyFree p.1).run r.buddy = .ok () self ∧
      ∀ r', (buddyHistory L).Reachable r' → (∀ q, q ∈ r'.live ↔ q ∈ r.live ∧ q ≠ p) →
        SameMarks self.tree r'.buddy.tree) ∧
    (∀ os : List Int, os.Perm (r.live.map Prod.fst) →
      ∃ self, (os.forM buddyFree).run r.buddy = .ok () self ∧ self.tree 0 = .unused) ∧
    ∀ o, 0 ≤ o → o < 2 ^ L → o ∉ r.live.map Prod.fst →
      ∃ fmt args, (buddyFree o).run r.buddy = .error (.panic fmt args) r.buddy := by
  have hr := held_history h
  refine ⟨fun r' h' => hr.sameMarks (held_history h'), ?_, fun os => hr.free_all,
    fun o _ => hr.free_panics⟩
  intro p hp
  obtain ⟨self, hrun, hheld⟩ := held_release hr (o := p.1) (n := p.2) hp
  refine ⟨self, hrun, fun r' h' hlive => hheld.sameMarks (held_history h') fun q => ?_⟩
  rw [hlive q, List.mem_filter, decide_eq_true_eq]
  refine and_congr_right fun hq => not_congr ?_
  exact ⟨fun heq => List.inj_on_of_nodup_map hr.starts_nodup hq hp heq, fun heq => by rw [heq]⟩

/-- Two pages of four are live, and page 1 is not the start of their block. -/
theorem buddy_marks_of_live_fourPages : ∃ r, (buddyHistory 2).Reachable r ∧
    r.live = [(0, 2)] ∧
    (∃ self, (buddyFree 0).run r.buddy = .ok () self ∧
      SameMarks self.tree fourPages.buddy.tree) ∧
    ∃ fmt args, (buddyFree 1).run r.buddy = .error (.panic fmt args) r.buddy := by
  obtain ⟨r, hreach, hrl⟩ := fourPages_reachable.sees
    [.alloc 1, .alloc 1, .free 0, .free 1, .alloc 2] BuddyRun.live [(0, 2)] (by decide +kernel)
    (by decide +kernel)
  obtain ⟨_, hfree, _, hpanic⟩ := buddy_marks_of_live hreach
  obtain ⟨self, hrun, hsame⟩ := hfree (0, 2) (by rw [hrl]; decide)
  refine ⟨r, hreach, hrl, ⟨self, hrun, hsame _ fourPages_reachable fun q => ?_⟩,
    hpanic 1 (by decide) (by decide) (by rw [hrl]; decide)⟩
  rw [hrl, List.mem_singleton]
  exact ⟨fun hq => absurd hq List.not_mem_nil, fun hq => absurd hq.1 hq.2⟩

/-! ## `buddy_size` -/

/-- Page `o` belongs to the block `p`. -/
def HasPage (p : Int × Int) (o : Int) : Prop := p.1 ≤ o ∧ o < p.1 + p.2

/-- `buddy_size` returns the length of the live block the page is in, and `EOF`
for a page that is in none. -/
theorem Held.buddySize (hr : Held L r) {o : Int} (h0 : 0 ≤ o) (ho : o < 2 ^ L) :
    ∃ n, (buddySize o).run r.buddy = .ok n r.buddy ∧
      (n = eof ↔ ∀ p ∈ r.live, ¬ HasPage p o) ∧ ∀ p ∈ r.live, HasPage p o → n = p.2 := by
  obtain ⟨t, b, hbuddy, hst, hwf, hperm⟩ := hr
  obtain ⟨m, rfl⟩ := Int.eq_ofNat_of_zero_le h0
  have hm : m < 2 ^ L := by exact_mod_cast ho
  have hsize : ∀ p ∈ r.live, HasPage p m → ∃ k : Nat, Blk.sizeAt L b m = some k ∧ p.2 = k := by
    intro p hp hpage
    obtain ⟨q, hq, rfl⟩ := List.mem_map.mp (hperm.mem_iff.mp hp)
    obtain ⟨hlo, hhi⟩ := hpage
    simp only at hlo hhi
    exact ⟨q.2, (Blk.sizeAt_eq_some_iff 0 hm).mpr ⟨q, hq, rfl, by omega, by omega⟩, rfl⟩
  rw [hbuddy]
  refine ⟨_, buddySize_spec hst hm, ?_, ?_⟩
  · cases hk : Blk.sizeAt L b m with
    | none =>
        refine ⟨fun _ p hp hpage => ?_, fun _ => rfl⟩
        obtain ⟨k, hk', _⟩ := hsize p hp hpage
        rw [hk] at hk'
        cases hk'
    | some k =>
        obtain ⟨q, hq, rfl, hlo, hhi⟩ := (Blk.sizeAt_eq_some_iff 0 hm).mp hk
        refine ⟨fun heq => absurd heq ?_, fun hno => absurd ?_ (hno (q.1, q.2) ?_)⟩
        · show (q.2 : Int) ≠ -1
          omega
        · exact ⟨by simp only; omega, by simp only; omega⟩
        · exact hperm.mem_iff.mpr (mem_clientBlocks.mp hq)
  · intro p hp hpage
    obtain ⟨k, hk, hpk⟩ := hsize p hp hpage
    rw [hk, hpk]
    rfl

/-- In every state a buddy gets into `buddy_size` knows the live block of every
page, and after a `buddy_alloc` every page of the new block reports the size
that was looked for: one page for a request of none, and else the next power
of two. -/
theorem buddySize_of_live {L : Nat} {r : BuddyRun} (h : (buddyHistory L).Reachable r) :
    (∀ o, 0 ≤ o → o < 2 ^ L → ∃ n, (buddySize o).run r.buddy = .ok n r.buddy ∧
      (n = eof ↔ ∀ p ∈ r.live, ¬ HasPage p o) ∧ ∀ p ∈ r.live, HasPage p o → n = p.2) ∧
    ∀ s o self, IsInt s → (buddyAlloc s).run r.buddy = .ok o self → 0 ≤ o →
      ∀ page, o ≤ page → page < o + blockSize s →
        (buddySize page).run self = .ok (blockSize s) self := by
  refine ⟨fun o h0 ho => (held_history h).buddySize h0 ho, ?_⟩
  intro s o self hint hrun h0 page hlo hhi
  have hcall : (BuddyRun.call (buddyAlloc s)).run r = .ok o { r with buddy := self } :=
    run_zoom_ok hrun
  have hstep : ((buddyHistory L).step (.alloc s)).run r =
      .ok () ⟨self, (o, blockSize s) :: r.live⟩ := by
    show (BuddyRun.step (.alloc s)).run r = _
    rw [BuddyRun.step, run_bind_ok hcall, if_pos h0]
    rfl
  have hheld := held_history (h.step (i := .alloc s) hint hstep)
  have hin := hheld.ok.inside (o, blockSize s) List.mem_cons_self
  simp only at hin
  obtain ⟨n, hsize, _, hblock⟩ := hheld.buddySize (o := page) (by omega) (by omega)
  rw [hblock (o, blockSize s) List.mem_cons_self ⟨hlo, hhi⟩] at hsize
  exact hsize

/-- A block of two pages, asked about at its second page. -/
theorem buddySize_of_live_fourPages : (buddyHistory 2).Reachable fourPages ∧
    ∃ self, (buddyAlloc 2).run fourPages.buddy = .ok 0 self ∧
      (buddySize 1).run self = .ok 2 self := by
  have hrun : returned (buddyAlloc 2) fourPages.buddy (fun o _ => o) = some 0 := by
    decide +kernel
  obtain ⟨o, self, hrun, rfl⟩ := returned_eq_some hrun
  refine ⟨fourPages_reachable, self, hrun, ?_⟩
  exact (buddySize_of_live fourPages_reachable).2 2 0 self (by decide) hrun (by decide) 1
    (by decide) (by decide)

/-- `buddy_alloc(0)` hands out one page, and `next_pow_of_2(0)` is 0. -/
theorem buddySize_of_no_pages : (buddyHistory 2).Reachable fourPages ∧
    returned (buddyAlloc 0 >>= buddySize) fourPages.buddy (fun n _ => n) = some 1 ∧
    nextPowOf2 0 = 0 :=
  ⟨fourPages_reachable, by decide +kernel, by decide⟩

end Aim.Kern
