import Aim.Proofs.BuddyFree

/-!
# One buddy over whole runs

`buddyCalls L` is a buddy of level `L` with its clients: it starts after
`buddy_init`, any request up to `2 ^ 30` pages may be made at any time, and a
block may be given back as long as it is handed out. The list of live blocks
is bookkeeping and no code reads it.

The invariant of a run is one sentence: the array stores a well-formed tree
whose blocks are the live ones (`Held`). `held_alloc` and `held_free` say
that the two calls keep it, and everything a client or a reader of the array
can observe is read off it afterwards, in `BuddyOk`. The observations are
stated on the marks alone, so that no notion of the abstract tree is left in
them: `Reached` are the nodes the marks lead to.
-/

namespace Aim.Kern

open Aim.Lib

/-! ## The component -/

/-- A buddy and the blocks handed out, each with its offset and its number of
pages. -/
structure BuddyRun where
  buddy : Buddy
  live : List (Int × Int)

inductive BuddyCall where
  | alloc (s : Int)
  | free (o : Int)

namespace BuddyRun

def call {α : Type} (x : EStateM Stop Buddy α) : EStateM Stop BuddyRun α :=
  zoom buddy (fun self r => { r with buddy := self }) x

def step : BuddyCall → EStateM Stop BuddyRun Unit
  | .alloc s => do
      let o ← call (buddyAlloc s)
      if 0 ≤ o then modify fun r => { r with live := (o, blockSize s) :: r.live }
  | .free o => do
      call (buddyFree o)
      modify fun r => { r with live := r.live.filter fun p => p.1 ≠ o }

end BuddyRun

/-- The runs of a buddy of level `L` whose array has `2 ^ (L + 1) - 1`
entries. -/
def buddyCalls (L : Nat) : Machine Stop BuddyRun BuddyCall where
  init r := ∃ self : Buddy, self.size = 2 ^ (L + 1) - 1 ∧
    (buddyInit L).run self = .ok () r.buddy ∧ r.live = []
  legal r
    | .alloc s => 0 ≤ s ∧ s ≤ 2 ^ 30
    | .free o => o ∈ r.live.map Prod.fst
  step := BuddyRun.step

instance (L : Nat) (r : BuddyRun) : ∀ i, Decidable ((buddyCalls L).legal r i)
  | .alloc s => inferInstanceAs (Decidable (0 ≤ s ∧ s ≤ 2 ^ 30))
  | .free o => inferInstanceAs (Decidable (o ∈ r.live.map Prod.fst))

/-! ## The invariant -/

/-- The blocks of a tree as the clients know them. -/
def clientBlocks (L : Nat) (b : Blk) : List (Int × Int) :=
  (Blk.blocks L 0 b).map fun p => ((p.1 : Int), (p.2 : Int))

/-- The array stores a well-formed tree whose blocks are the live ones. -/
def Held (L : Nat) (r : BuddyRun) : Prop :=
  ∃ t b, r.buddy = ofTree L t ∧ Stores t L 0 b ∧ Blk.Wf L b ∧
    r.live.Perm (clientBlocks L b)

variable {t : Int → Node} {i j : Int} {self : Buddy} {L h d : Nat} {r : BuddyRun} {b : Blk}

theorem stale_of_unused (hu : ∀ j, InSub h i j → t j = .unused) : Stale t h i := by
  induction h generalizing i with
  | zero => trivial
  | succ h ih =>
      have hl := hu (i * 2 + 1) (Or.inr (Or.inl (inSub_self _ _)))
      have hr := hu (i * 2 + 2) (Or.inr (Or.inr (inSub_self _ _)))
      refine ⟨by simp [hl], by simp [hr], by simp [hl, hr], by simp [hl], ?_, ?_⟩
      · exact ih fun j hj => hu j (Or.inr (Or.inl hj))
      · exact ih fun j hj => hu j (Or.inr (Or.inr hj))

theorem treeClear_ok {n : Int} (h : n ≤ self.size) :
    (treeClear n).run self = .ok () { self with
      tree := fun i => if 0 ≤ i ∧ i < n then .unused else self.tree i } := by
  simp only [treeClear, EStateM.run_bind, EStateM.run_get]
  rw [if_pos h]
  rfl

theorem treeClear_oob {n : Int} (h : ¬ n ≤ self.size) :
    (treeClear n).run self = .error (.oob self.size) self := by
  simp only [treeClear, EStateM.run_bind, EStateM.run_get]
  rw [if_neg h]
  rfl

/-- After `buddy_init` the whole range is one free block. -/
theorem buddyInit_spec (hsz : self.size = 2 ^ (L + 1) - 1) :
    ∃ t, (buddyInit L).run self = .ok () (ofTree L t) ∧ Stores t L 0 .free := by
  have hpos : 1 ≤ 2 ^ (L + 1) := Nat.pow_pos (by omega)
  have hsize : ((2 : Int) ^ L * 2 - 1) ≤ (self.size : Int) := by
    rw [hsz, Nat.cast_sub hpos, ← pow_succ]
    push_cast
    omega
  refine ⟨fun i => if 0 ≤ i ∧ i < 2 ^ L * 2 - 1 then .unused else self.tree i,
    ?_, ?_⟩
  · rw [buddyInit, run_bind_ok (EStateM.run_modify _ _), ofTree, ← hsz]
    exact treeClear_ok hsize
  · have hu : ∀ j, InSub L 0 j → (if 0 ≤ j ∧ j < 2 ^ L * 2 - 1 then Node.unused
        else self.tree j) = .unused := by
      intro j hj
      have hlo := InSub.level Ctx.root.onLevel hj
      have hhi := InSub.lt_level Ctx.root.onLevel hj
      simp only [Ctx.depth, Nat.zero_add, pow_succ, pow_zero] at hlo hhi
      rw [if_pos ⟨by omega, by omega⟩]
    rw [stores_free]
    exact ⟨hu 0 (inSub_self _ _), stale_of_unused hu⟩

/-- A call of `buddy_alloc` keeps the invariant. -/
theorem held_alloc {s : Int} (hr : Held L r) (h0 : 0 ≤ s) (hs : s ≤ 2 ^ 30) :
    ∃ r', (BuddyRun.step (.alloc s)).run r = .ok () r' ∧ Held L r' := by
  obtain ⟨t, b, hbuddy, hst, hwf, hlive⟩ := hr
  have hcall : ∀ {o : Int} {t' : Int → Node},
      (buddyAlloc s).run (ofTree L t) = .ok o (ofTree L t') →
      (BuddyRun.call (buddyAlloc s)).run r =
        .ok o { r with buddy := ofTree L t' } := by
    intro o t' hrun
    rw [← hbuddy] at hrun
    exact run_zoom_ok hrun
  have hstay : Held L { r with buddy := ofTree L t } := ⟨t, b, rfl, hst, hwf, hlive⟩
  rcases buddyAlloc_cases h0 hs hst rfl with
    ⟨_, hrun⟩ | ⟨_, _, hrun⟩ | ⟨o, b', t', hk, ha, hst', hrun⟩
  · refine ⟨_, ?_, hstay⟩
    rw [BuddyRun.step, run_bind_ok (hcall hrun)]
    rfl
  · refine ⟨_, ?_, hstay⟩
    rw [BuddyRun.step, run_bind_ok (hcall hrun)]
    rfl
  · obtain ⟨_, _, hwf', hperm⟩ := Blk.alloc_spec hk ha
    refine ⟨⟨ofTree L t', ((o : Int), blockSize s) :: r.live⟩, ?_,
      t', b', rfl, hst', hwf' hwf, ?_⟩
    · rw [BuddyRun.step, run_bind_ok (hcall hrun), if_pos (by omega)]
      rfl
    · have hnew := (hperm 0).map fun p => ((p.1 : Int), (p.2 : Int))
      rw [List.map_cons, Nat.zero_add] at hnew
      push_cast at hnew
      rw [blockSize_eq h0 hs]
      exact (hlive.cons _).trans hnew.symm

/-- `buddy_free` takes a live block off the list and leaves the others. -/
theorem held_release {o n : Int} (hr : Held L r) (ho : (o, n) ∈ r.live) :
    ∃ self, (buddyFree o).run r.buddy = .ok () self ∧
      Held L ⟨self, r.live.filter fun p => p.1 ≠ o⟩ := by
  obtain ⟨t, b, hbuddy, hst, hwf, hlive⟩ := hr
  obtain ⟨⟨m, k⟩, hm, hmk⟩ := List.mem_map.mp (hlive.mem_iff.mp ho)
  simp only [Prod.mk.injEq] at hmk
  obtain ⟨rfl, rfl⟩ := hmk
  obtain ⟨hk, _, hend, _⟩ := Blk.blocks_bounds hm
  simp only [Nat.zero_add] at hk hend
  rw [← Nat.zero_add m] at hm
  obtain ⟨b', hrel, hwf', hperm⟩ := Blk.release_spec hwf hm
  obtain ⟨t', hrun, hst'⟩ := buddyFree_spec hst (by omega) hrel
  rw [hbuddy]
  refine ⟨ofTree L t', hrun, t', b', rfl, hst', hwf', ?_⟩
  · -- No other block starts where this one does.
    have hapart := (hperm.pairwise_iff (fun h => h.symm)).mp
      (Blk.blocks_pairwise L 0 b)
    rw [List.pairwise_cons, Nat.zero_add] at hapart
    have hother : ∀ p ∈ clientBlocks L b', p.1 ≠ (m : Int) := by
      intro p hp
      obtain ⟨q, hq, rfl⟩ := List.mem_map.mp hp
      have hq0 := (Blk.blocks_bounds hq).1
      have hmq := hapart.1 q hq
      rcases hmq with hmq | hmq <;> simp only at hmq ⊢ <;> omega
    have hnew : (clientBlocks L b).Perm (((m : Int), (k : Int)) :: clientBlocks L b') := by
      have hmap := hperm.map fun p => ((p.1 : Int), (p.2 : Int))
      rw [List.map_cons, Nat.zero_add] at hmap
      exact hmap
    have hfil := (hlive.trans hnew).filter fun p => p.1 ≠ (m : Int)
    have hself : (clientBlocks L b').filter (fun p => p.1 ≠ (m : Int)) =
        clientBlocks L b' := by
      rw [List.filter_eq_self]
      intro p hp
      simpa using hother p hp
    rw [List.filter_cons_of_neg (by simp), hself] at hfil
    exact hfil

/-- A call of `buddy_free` on a live block keeps the invariant. -/
theorem held_free {o n : Int} (hr : Held L r) (ho : (o, n) ∈ r.live) :
    ∃ r', (BuddyRun.step (.free o)).run r = .ok () r' ∧ Held L r' := by
  obtain ⟨self, hrun, hheld⟩ := held_release hr ho
  have hcall : (BuddyRun.call (buddyFree o)).run r = .ok () { r with buddy := self } :=
    run_zoom_ok hrun
  refine ⟨_, ?_, hheld⟩
  rw [BuddyRun.step, run_bind_ok hcall]
  rfl

theorem held_invariant (L : Nat) : (buddyCalls L).Invariant (Held L) where
  init r := by
    rintro ⟨self, hsz, hrun, hlive⟩
    obtain ⟨t, hinit, hst⟩ := buddyInit_spec hsz
    rw [hinit] at hrun
    injection hrun with _ hbuddy
    refine ⟨t, .free, hbuddy.symm, hst, Blk.wf_free _, ?_⟩
    rw [hlive, clientBlocks, Blk.blocks_free]
    exact List.Perm.refl _
  step r i hr hl := by
    cases i with
    | alloc s => exact held_alloc hr hl.1 hl.2
    | free o =>
        obtain ⟨⟨_, n⟩, hn, rfl⟩ := List.mem_map.mp hl
        exact held_free hr hn

/-! ## What the marks say -/

/-- The nodes the marks lead to from the root, with their depth: below a
split or a full node both children. -/
inductive Reached (t : Int → Node) : Nat → Int → Prop where
  | root : Reached t 0 0
  | left {d : Nat} {i : Int} (h : Reached t d i) (hm : t i = .split ∨ t i = .full) :
      Reached t (d + 1) (i * 2 + 1)
  | right {d : Nat} {i : Int} (h : Reached t d i) (hm : t i = .split ∨ t i = .full) :
      Reached t (d + 1) (i * 2 + 2)

theorem indexOffset_child (hd : d < L) (k : Int) :
    indexOffset (i * 2 + k) ((d + 1 : Nat) : Int) L =
      indexOffset i d L + (k - 1) * 2 ^ (L - (d + 1)) := by
  obtain ⟨h, rfl⟩ : ∃ h, L = d + 1 + h := ⟨L - (d + 1), by omega⟩
  have hlow : ((d + 1 + h : Nat) : Int) - ((d + 1 : Nat) : Int) = (h : Int) := by omega
  have hup : ((d + 1 + h : Nat) : Int) - (d : Int) = ((h + 1 : Nat) : Int) := by omega
  simp only [indexOffset, hlow, hup, Int.toNat_natCast, Nat.add_sub_cancel_left]
  rw [pow_succ, pow_succ]
  ring

theorem indexOffset_left (hd : d < L) :
    indexOffset (i * 2 + 1) ((d + 1 : Nat) : Int) L = indexOffset i d L := by
  rw [indexOffset_child hd, sub_self, zero_mul, add_zero]

theorem indexOffset_right (hd : d < L) :
    indexOffset (i * 2 + 2) ((d + 1 : Nat) : Int) L = indexOffset i d L + 2 ^ (L - (d + 1)) := by
  rw [indexOffset_child hd, show (2 : Int) - 1 = 1 from rfl, one_mul]

/-- The subtree at a node the marks lead to, with its place in the whole. -/
structure SubAt (t : Int → Node) (L : Nat) (b : Blk) (d : Nat) (i : Int) (h base : Nat)
    (b' : Blk) : Prop where
  height : d + h = L
  level : OnLevel d i
  start : indexOffset i d L = base
  stores : Stores t h i b'
  wf : Blk.Wf h b'
  mem : ∀ p ∈ Blk.blocks h base b', p ∈ Blk.blocks L 0 b

theorem Reached.subAt (hst : Stores t L 0 b) (hwf : Blk.Wf L b) (hr : Reached t d i) :
    ∃ h base b', SubAt t L b d i h base b' := by
  induction hr with
  | root =>
      refine ⟨L, 0, b, by omega, Ctx.root.onLevel, ?_, hst, hwf, fun p hp => hp⟩
      simp [indexOffset]
  | @left d i _ hm ih =>
      obtain ⟨h, base, b', hs⟩ := ih
      obtain ⟨h', l, r, rfl, rfl⟩ := hs.stores.inner_of_mark hm
      obtain ⟨_, hl, _⟩ := stores_node.mp hs.stores
      have hheight := hs.height
      refine ⟨h', base, l, by omega, hs.level.left, ?_, hl, hs.wf.2.1, fun p hp => ?_⟩
      · rw [indexOffset_left (by omega), hs.start]
      · exact hs.mem p (List.mem_append_left _ hp)
  | @right d i _ hm ih =>
      obtain ⟨h, base, b', hs⟩ := ih
      obtain ⟨h', l, r, rfl, rfl⟩ := hs.stores.inner_of_mark hm
      obtain ⟨_, _, hr⟩ := stores_node.mp hs.stores
      have hheight := hs.height
      refine ⟨h', base + 2 ^ h', r, by omega, hs.level.right, ?_, hr, hs.wf.2.2,
        fun p hp => ?_⟩
      · rw [indexOffset_right (by omega), hs.start, show L - (d + 1) = h' by omega]
        push_cast
        rfl
      · exact hs.mem p (List.mem_append_right _ hp)

/-- A block of a tree the marks lead to is a used node they lead to. -/
theorem Reached.of_mem_blocks {L h d base : Nat} {p : Nat × Nat} (hr : Reached t d i)
    (hd : d + h = L) (hs : Stores t h i b) (hstart : indexOffset i d L = base)
    (hp : p ∈ Blk.blocks h base b) :
    ∃ d' j, Reached t d' j ∧ t j = .used ∧
      ((p.1 : Int), (p.2 : Int)) = (indexOffset j d' L, 2 ^ (L - d')) := by
  induction b generalizing d i base h with
  | free => simp at hp
  | used =>
      rw [Blk.blocks_used, List.mem_singleton] at hp
      subst hp
      refine ⟨d, i, hr, (stores_used.mp hs).1, ?_⟩
      rw [hstart, show L - d = h by omega]
      push_cast
      rfl
  | node l r ihl ihr =>
      cases h with
      | zero => exact absurd hs id
      | succ h =>
          have hm := hs.inner_mark
          obtain ⟨_, hl, hrr⟩ := stores_node.mp hs
          rw [Blk.blocks_node, List.mem_append] at hp
          rcases hp with hp | hp
          · refine ihl (hr.left hm) (by omega) hl ?_ hp
            rw [indexOffset_left (by omega), hstart]
          · refine ihr (hr.right hm) (by omega) hrr ?_ hp
            rw [indexOffset_right (by omega), hstart, show L - (d + 1) = h by omega]
            push_cast
            rfl

/-- Every node of the deepest level is in the tree. -/
theorem inSub_of_onLevel (hi : OnLevel d i) (hj : OnLevel (d + h) j) (hlo : (i + 1) * 2 ^ h ≤ j + 1)
    (hhi : j + 1 < (i + 2) * 2 ^ h) : InSub h i j := by
  induction h generalizing d i with
  | zero => simp only [pow_zero, mul_one] at hlo hhi; exact (by omega : j = i)
  | succ h ih =>
      rw [show d + (h + 1) = d + 1 + h by omega] at hj
      rw [pow_succ, mul_comm ((2 : Int) ^ h) 2, ← mul_assoc] at hlo hhi
      rcases lt_or_ge (j + 1) ((i * 2 + 1 + 2) * 2 ^ h) with hlt | hge
      · exact Or.inr (Or.inl (ih hi.left hj (by
          rw [show i * 2 + 1 + 1 = (i + 1) * 2 by ring]; exact hlo) hlt))
      · exact Or.inr (Or.inr (ih hi.right hj (by
          rw [show i * 2 + 2 + 1 = i * 2 + 1 + 2 by ring]; exact hge) (by
          rw [show i * 2 + 2 + 2 = (i + 2) * 2 by ring]; exact hhi)))

/-- A mark that may stand at the deepest level. -/
def LeafMark (m : Node) : Prop := m ≠ .split ∧ m ≠ .full

theorem Stale.leafMark (hs : Stale t h i) (hi : OnLevel d i) (hself : h = 0 → LeafMark (t i))
    (hj : InSub h i j) (hlj : OnLevel (d + h) j) : LeafMark (t j) := by
  induction h generalizing d i with
  | zero => cases hj; exact hself rfl
  | succ h ih =>
      obtain ⟨hlf, hrf, hsp, -, hl, hr⟩ := hs
      rw [show d + (h + 1) = d + 1 + h by omega] at hlj
      rcases hj with rfl | hj | hj
      · -- The node itself is not on the deepest level.
        have hlt : (2 : Int) ^ (d + 1) ≤ 2 ^ (d + 1 + h) :=
          pow_le_pow_right₀ (by omega) (by omega)
        have h1 := hi.2
        have h2 := hlj.1
        omega
      · exact ih hl hi.left (fun h0 => ⟨(hsp h0).1, hlf⟩) hj hlj
      · exact ih hr hi.right (fun h0 => ⟨(hsp h0).2, hrf⟩) hj hlj

theorem Stores.leafMark (hs : Stores t h i b) (hi : OnLevel d i) (hj : InSub h i j)
    (hlj : OnLevel (d + h) j) : LeafMark (t j) := by
  induction h generalizing d i b with
  | zero =>
      cases hj
      cases b with
      | free => rw [(stores_free.mp hs).1]; exact ⟨by decide, by decide⟩
      | used => rw [(stores_used.mp hs).1]; exact ⟨by decide, by decide⟩
      | node l r => exact absurd hs id
  | succ h ih =>
      cases b with
      | free => exact (stores_free.mp hs).2.leafMark hi (fun h0 => by omega) hj hlj
      | used => exact (stores_used.mp hs).2.leafMark hi (fun h0 => by omega) hj hlj
      | node l r =>
          obtain ⟨_, hl, hr⟩ := stores_node.mp hs
          rw [show d + (h + 1) = d + 1 + h by omega] at hlj
          rcases hj with rfl | hj | hj
          · have hlt : (2 : Int) ^ (d + 1) ≤ 2 ^ (d + 1 + h) :=
              pow_le_pow_right₀ (by omega) (by omega)
            have h1 := hi.2
            have h2 := hlj.1
            omega
          · exact ih hl hi.left hj hlj
          · exact ih hr hi.right hj hlj

/-- What can be observed of a buddy of level `L` and its clients. -/
structure BuddyOk (L : Nat) (r : BuddyRun) : Prop where
  /-- Live blocks share no page. -/
  disjoint : r.live.Pairwise fun p q => p.1 + p.2 ≤ q.1 ∨ q.1 + q.2 ≤ p.1
  /-- They have pages, all of them in the range of the buddy. -/
  inside : ∀ p ∈ r.live, 0 < p.2 ∧ 0 ≤ p.1 ∧ p.1 + p.2 ≤ 2 ^ L
  aligned : ∀ p ∈ r.live, p.2 ∣ p.1
  /-- The used nodes the marks lead to are the live blocks. -/
  used_iff_live : ∀ p, p ∈ r.live ↔ ∃ d i, Reached r.buddy.tree d i ∧
    r.buddy.tree i = .used ∧ p = (indexOffset i d L, 2 ^ (L - d))
  /-- A full mark says that nothing below is free. -/
  full_iff : ∀ d i, Reached r.buddy.tree d i → d < L →
    (r.buddy.tree i = .full ↔
      (r.buddy.tree (i * 2 + 1) = .used ∨ r.buddy.tree (i * 2 + 1) = .full) ∧
      (r.buddy.tree (i * 2 + 2) = .used ∨ r.buddy.tree (i * 2 + 2) = .full))
  /-- Free halves are merged. -/
  merged : ∀ d i, Reached r.buddy.tree d i → r.buddy.tree i = .split →
    ¬(r.buddy.tree (i * 2 + 1) = .unused ∧ r.buddy.tree (i * 2 + 2) = .unused)
  /-- No page is cut in half, in all of the array. -/
  deepest : ∀ i, OnLevel L i → r.buddy.tree i ≠ .split ∧ r.buddy.tree i ≠ .full

/-- A full mark, on any node of a stored tree that has children. -/
theorem Stores.full_iff_children (hs : Stores t (h + 1) i b) :
    t i = .full ↔ (t (i * 2 + 1) = .used ∨ t (i * 2 + 1) = .full) ∧
      (t (i * 2 + 2) = .used ∨ t (i * 2 + 2) = .full) := by
  have hstale : Stale t (h + 1) i → ¬((t (i * 2 + 1) = .used ∨ t (i * 2 + 1) = .full) ∧
      (t (i * 2 + 2) = .used ∨ t (i * 2 + 2) = .full)) := by
    intro hst hb
    obtain ⟨hl, hr, -, hnb, -, -⟩ := hst
    exact hnb ⟨hb.1.resolve_right hl, hb.2.resolve_right hr⟩
  cases b with
  | free =>
      obtain ⟨hm, hst⟩ := stores_free.mp hs
      simp only [hm, reduceCtorEq, false_iff]
      exact hstale hst
  | used =>
      obtain ⟨hm, hst⟩ := stores_used.mp hs
      simp only [hm, reduceCtorEq, false_iff]
      exact hstale hst
  | node l r =>
      obtain ⟨hm, hl, hr⟩ := stores_node.mp hs
      rw [hl.full_iff, hr.full_iff, ← Bool.and_eq_true, hm, innerMark]
      split <;> simp_all

theorem Held.ok (hr : Held L r) : BuddyOk L r := by
  obtain ⟨t, b, hbuddy, hst, hwf, hlive⟩ := hr
  have htree : r.buddy.tree = t := by rw [hbuddy]; rfl
  have hmem : ∀ {p : Int × Int}, p ∈ r.live →
      ∃ q ∈ Blk.blocks L 0 b, p = ((q.1 : Int), (q.2 : Int)) := by
    intro p hp
    obtain ⟨q, hq, rfl⟩ := List.mem_map.mp (hlive.mem_iff.mp hp)
    exact ⟨q, hq, rfl⟩
  constructor
  · refine (hlive.pairwise_iff fun h => Or.symm h).mpr ?_
    rw [clientBlocks, List.pairwise_map]
    refine (Blk.blocks_pairwise L 0 b).imp fun {p q} hpq => ?_
    dsimp only
    exact_mod_cast hpq
  · intro p hp
    obtain ⟨q, hq, rfl⟩ := hmem hp
    obtain ⟨h0, _, hend, _⟩ := Blk.blocks_bounds hq
    rw [Nat.zero_add] at hend
    dsimp only
    exact ⟨by exact_mod_cast h0, by omega, by exact_mod_cast hend⟩
  · intro p hp
    obtain ⟨q, hq, rfl⟩ := hmem hp
    exact Int.natCast_dvd_natCast.mpr
      ((Blk.blocks_bounds hq).2.2.2 (Nat.dvd_zero _))
  · intro p
    rw [htree]
    constructor
    · intro hp
      obtain ⟨q, hq, rfl⟩ := hmem hp
      exact Reached.root.of_mem_blocks (by omega) hst (by simp [indexOffset]) hq
    · rintro ⟨d, i, hri, hu, rfl⟩
      obtain ⟨h, base, b', hs⟩ := hri.subAt hst hwf
      obtain rfl := hs.stores.eq_used hu
      have hb := hs.mem (base, 2 ^ h) (by simp)
      rw [hlive.mem_iff, clientBlocks, hs.start,
        show L - d = h by have := hs.height; omega]
      refine List.mem_map.mpr ⟨_, hb, ?_⟩
      push_cast
      rfl
  · intro d i hri hd
    rw [htree] at hri ⊢
    obtain ⟨h, base, b', hs⟩ := hri.subAt hst hwf
    obtain ⟨h', rfl⟩ : ∃ h', h = h' + 1 :=
      ⟨h - 1, by have := hs.height; omega⟩
    exact hs.stores.full_iff_children
  · intro d i hri hm hfree
    rw [htree] at hri hm hfree
    obtain ⟨h, base, b', hs⟩ := hri.subAt hst hwf
    obtain ⟨h', l, rr, rfl, rfl⟩ := hs.stores.inner_of_mark (Or.inl hm)
    obtain ⟨_, hl, hrr⟩ := stores_node.mp hs.stores
    exact hs.wf.1 ⟨hl.unused_iff.mp hfree.1, hrr.unused_iff.mp hfree.2⟩
  · intro i hi
    rw [htree]
    have hi' : OnLevel (0 + L) i := by rwa [Nat.zero_add]
    obtain ⟨hlo, hhi⟩ := hi
    refine hst.leafMark Ctx.root.onLevel ?_ hi'
    refine inSub_of_onLevel Ctx.root.onLevel hi' (by simpa using hlo) ?_
    rw [pow_succ] at hhi
    omega

/-- Every state a buddy gets into is in order, and every call its clients may
make there returns: in particular `buddy_free` never panics. -/
theorem buddy_run_ok {L : Nat} {r : BuddyRun} (h : (buddyCalls L).Reachable r) :
    BuddyOk L r ∧ (buddyCalls L).Returns r := by
  have hr := Machine.reachable_of_inv (held_invariant L) h
  exact ⟨hr.ok, (held_invariant L).returns hr⟩

/-- A buddy of four pages right after `buddy_init`, over an array of full
marks. -/
def fourPages : BuddyRun :=
  ⟨⟨2, 7, fun i => if 0 ≤ i ∧ i < 7 then .unused else .full⟩, []⟩

/-- One page, then two, then the first one back. -/
theorem buddy_run_ok_fourPages : ∃ r, (buddyCalls 2).Reachable r ∧
    r.live = [(2, 2)] ∧ BuddyOk 2 r ∧ (buddyCalls 2).Returns r := by
  have h₀ : (buddyCalls 2).Reachable fourPages :=
    .init ⟨⟨0, 7, fun _ => .full⟩, rfl, rfl, rfl⟩
  obtain ⟨r, hreach, hrl⟩ := h₀.sees [.alloc 1, .alloc 2, .free 0] BuddyRun.live [(2, 2)]
    (by decide +kernel) (by decide +kernel)
  exact ⟨r, hreach, hrl, buddy_run_ok hreach⟩

/-! ## The array as it is declared -/

/-- The calls that touch the array of a buddy. -/
inductive TreeCall where
  | alloc (s : Int)
  | free (offset : Int)
  | size (offset : Int)

def treeCall : TreeCall → EStateM Stop Buddy Unit
  | .alloc s => discard (buddyAlloc s)
  | .free offset => buddyFree offset
  | .size offset => discard (buddySize offset)

/-- A buddy as `page_alloc` creates it, and what is done with it. -/
def buddyLife (calls : List TreeCall) : EStateM Stop Buddy Unit := do
  buddyInit 10
  calls.forM treeCall

/-- No access goes outside the array. -/
def InBounds (x : EStateM Stop Buddy Unit) (self : Buddy) : Prop :=
  ∀ index self', x.run self ≠ .error (.oob index) self'

/-- The `memset` of `buddy_init` clears 2047 entries, and 1024 are declared. -/
theorem buddyInit_declared (level : Nat) (t : Int → Node) :
    (buddyInit 10).run ⟨level, treeEntries, t⟩ =
      .error (.oob 1024) ⟨10, treeEntries, t⟩ := by
  rw [buddyInit, run_bind_ok (EStateM.run_modify _ _)]
  have hlt : ¬ ((2 : Int) ^ 10 * 2 - 1) ≤ (treeEntries : Int) := by decide
  exact treeClear_oob hlt

/-- Every buddy `page_alloc` creates is written past the end of its array,
whatever is done with it later. -/
theorem buddyLife_not_inBounds (level : Nat) (t : Int → Node)
    (calls : List TreeCall) :
    ¬ InBounds (buddyLife calls) ⟨level, treeEntries, t⟩ := by
  intro h
  exact h 1024 _ (run_bind_error (buddyInit_declared level t))

/-- Already without a single call. -/
theorem buddyLife_overrun :
    (buddyLife []).run ⟨0, treeEntries, fun _ => .unused⟩ =
      .error (.oob 1024) ⟨10, 1024, fun _ => .unused⟩ :=
  run_bind_error (buddyInit_declared 0 _)

end Aim.Kern
