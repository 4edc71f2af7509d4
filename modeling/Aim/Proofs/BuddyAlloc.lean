import Aim.Proofs.BuddyRepr
import Aim.Proofs.PowOf2

/-!
# `buddy_alloc` is first fit

Three walks make up `buddy_alloc`. The search goes down into split nodes and
cuts unused ones; where it can go no further it moves to the sibling, and from
a right child it climbs until it can. `_mark_parent` runs once, after a node
was taken, and raises full marks on the way to the root.

The search is judged on the array alone first. `avail t k h i` is what the
marks below the node `i` say about room for a block of height `k`, and
`search_pass` states the one thing backtracking does: a node without room is
left exactly as it was found, and the walk goes on where it would have gone
on had the node been skipped (`searchNext`). Nothing there asks the array to
be sensible. That a node with room is found, taken and marked correctly does,
and that is `search_take`, an induction along the path to the block with the
rest of the tree held in a `Ctx`.

`buddyAlloc_found`, `buddyAlloc_none` and `buddyAlloc_large` put the pieces
together, and `buddyAlloc_cases` collects the three answers; callers use these
and never look at the loops.
-/

namespace Aim.Kern

open Aim.Lib Function

/-- The buddy of level `L` whose array is large enough and holds `t`. -/
def ofTree (L : Nat) (t : Int → Node) : Buddy := ⟨L, 2 ^ (L + 1) - 1, t⟩

theorem ofTree_size (L : Nat) (t : Int → Node) : ((ofTree L t).size : Int) = 2 ^ (L + 1) - 1 := by
  have hpos : 1 ≤ 2 ^ (L + 1) := Nat.pow_pos (by omega)
  simp only [ofTree]
  push_cast [Nat.cast_sub hpos]
  rfl

/-! ## Accesses that stay inside the array -/

variable {i : Int} {t : Int → Node} {c : Ctx} {b : Blk} {k h fuel L : Nat} {self : Buddy}

theorem treeGet_ofTree {L d : Nat} (t : Int → Node) (hi : OnLevel d i) (hd : d ≤ L) :
    (treeGet i).run (ofTree L t) = .ok (t i) (ofTree L t) := by
  have hlt := hi.lt_size hd
  rw [← ofTree_size L t] at hlt
  simp only [treeGet, EStateM.run_bind, EStateM.run_get]
  rw [if_pos ⟨hi.nonneg, hlt⟩]
  rfl

theorem treeSet_ofTree {L d : Nat} (t : Int → Node) (m : Node) (hi : OnLevel d i) (hd : d ≤ L) :
    (treeSet i m).run (ofTree L t) = .ok () (ofTree L (update t i m)) := by
  have hlt := hi.lt_size hd
  rw [← ofTree_size L t] at hlt
  simp only [treeSet, EStateM.run_bind, EStateM.run_get]
  rw [if_pos ⟨hi.nonneg, hlt⟩]
  rfl

/-! ## `_mark_parent` -/

/-- One round at a child of `p`. -/
theorem markParentLoop_step {L d n : Nat} {p : Int} (s : Side) (t : Int → Node)
    (hp : OnLevel d p) (hd : d + 1 ≤ L) :
    (markParentLoop (n + 1) (s.child p)).run (ofTree L t) =
      if t (s.flip.child p) = .used ∨ t (s.flip.child p) = .full then
        (markParentLoop n p).run (ofTree L (update t p .full))
      else .ok () (ofTree L t) := by
  have hpos : s.flip.child p > 0 := by
    have h0 := hp.nonneg
    cases s <;> simp only [Side.flip, Side.child] <;> omega
  rw [markParentLoop]
  simp only [Side.getBuddyIndex_child, Side.parentIndex_child]
  rw [if_pos hpos, run_bind_ok (treeGet_ofTree t (hp.child s.flip) hd)]
  split
  · rw [run_bind_ok (treeSet_ofTree t _ hp (by omega))]
  · rfl

/-- Raising a mark at a node leaves its context alone. -/
theorem StoresCtx.update {f : Bool} (hc : StoresCtx t h f c) {j : Int} (hj : InSub h c.index j)
    (m : Node) :
    StoresCtx (update t j m) h f c := by
  refine hc.congr fun k hk => update_of_ne ?_ _ _
  rintro rfl
  exact hk hj

/-- A mark outside the subtree of a node leaves what it stores alone. -/
theorem Stores.update {h d : Nat} (hs : Stores t h i b) (hi : OnLevel d i) {j : Int}
    (hj : ¬ InSub h i j) (m : Node) : Stores (update t j m) h i b := by
  refine hs.congr (fun k hk => update_of_ne ?_ _ _) hi
  rintro rfl
  exact hj hk

/-- The walk after a block was filled: from a full block inside a context
whose marks still say there is room, to a tree with every mark right. -/
theorem markParentLoop_spec : ∀ (c : Ctx) {h n : Nat} {b : Blk}
    {t : Int → Node}, h + c.depth = L → c.depth < n → b.full = true →
    StoresCtx t h false c → Stores t h c.index b →
    ∃ t', (markParentLoop n c.index).run (ofTree L t) = .ok () (ofTree L t') ∧
      Stores t' L 0 (c.plug b)
  | .root, h, n, b, t, hL, hn, hb, hc, hs => by
      obtain ⟨m, rfl⟩ : ∃ m, n = m + 1 := ⟨n - 1, by omega⟩
      refine ⟨t, rfl, ?_⟩
      simp only [Ctx.depth, Nat.add_zero] at hL
      subst hL
      exact hs
  | .step s sib c, h, n, b, t, hL, hn, hb, hc, hs => by
      obtain ⟨m, rfl⟩ : ∃ m, n = m + 1 := ⟨n - 1, by omega⟩
      simp only [Ctx.depth] at hL hn
      obtain ⟨hp, hsib, hup⟩ := hc
      have hl := c.onLevel
      rw [Ctx.index, markParentLoop_step s t hl (by omega)]
      by_cases hf : sib.full = true
      · -- The sibling is full too, so the parent becomes full.
        rw [if_pos (hsib.full_iff.mpr hf)]
        have hnode : Stores (update t c.index .full) (h + 1) c.index
            (s.node b sib) :=
          stores_side.mpr ⟨by simp [hb, hf, innerMark],
            hs.update (hl.child s) (not_inSub_side hl s) _,
            hsib.update (hl.child s.flip) (not_inSub_side hl s.flip) _⟩
        exact markParentLoop_spec c (by omega) (by omega)
          (by rw [Side.full_node, hb, hf]; rfl)
          (hup.update (inSub_self _ _) _) hnode
      · rw [if_neg (fun h => hf (hsib.full_iff.mp h))]
        refine ⟨t, rfl, ?_⟩
        simp only [Bool.not_eq_true] at hf
        rw [← hL]
        refine stores_plug (c := .step s sib c) ?_ hs
        rw [hb]
        simpa [StoresCtx, hf] using And.intro hp (And.intro hsib hup)

/-! ## The search, on any array -/

/-- What the marks at and below a node of height `h` say about room for a
block of height `k`. -/
def avail (t : Int → Node) (k : Nat) : Nat → Int → Bool
  | 0, i => k = 0 && t i = .unused
  | h + 1, i =>
      if k = h + 1 then t i = .unused
      else match t i with
        | .unused => true
        | .split => avail t k h (i * 2 + 1) || avail t k h (i * 2 + 2)
        | .used | .full => false

theorem avail_self : avail t k k i = decide (t i = .unused) := by
  cases k <;> simp [avail]

theorem avail_unused (hk : k ≤ h) (hm : t i = .unused) : avail t k h i = true := by
  cases h with
  | zero => rw [show k = 0 by omega, avail_self, hm]; rfl
  | succ h =>
      rw [avail]
      split
      · rw [hm]; rfl
      · simp only [hm]

/-- The code after a node was passed by: the sibling of a left child, else
the climb. -/
def searchNext (size : Int) (fuel : Nat) (index level length : Int) :
    EStateM Stop Buddy Int := do
  if index % 2 = 1 then buddySearch size fuel (index + 1) level length
  else
    match ← buddyClimb (level.toNat + 1) index level length with
    | none => return -1
    | some (index, level, length) => buddySearch size fuel index level length

theorem buddySearch_pass {size index level length : Int} (h0 : 0 ≤ index)
    (hv : (buddyVisit size index length).run self = .ok .pass self) :
    (buddySearch size (fuel + 1) index level length).run self =
      (searchNext size fuel index level length).run self := by
  rw [buddySearch, if_neg (by omega)]
  exact run_bind_ok hv

theorem buddySearch_down {size index level length : Int} {self self' : Buddy} (h0 : 0 ≤ index)
    (hv : (buddyVisit size index length).run self = .ok .down self') :
    (buddySearch size (fuel + 1) index level length).run self =
      (buddySearch size fuel (index * 2 + 1) (level + 1) (length / 2)).run
        self' := by
  rw [buddySearch, if_neg (by omega)]
  exact run_bind_ok hv

theorem searchNext_left {size p level length : Int} :
    searchNext size fuel (p * 2 + 1) level length =
      buddySearch size fuel (p * 2 + 2) level length := by
  rw [searchNext, if_pos (by omega), show p * 2 + 1 + 1 = p * 2 + 2 by omega]

/-- Past a right child the walk goes on where it goes on past the parent. -/
theorem searchNext_right {size p length : Int} {fuel d : Nat} (hp : 0 ≤ p) :
    (searchNext size fuel (p * 2 + 2) ((d + 1 : Nat) : Int) length).run self =
      (searchNext size fuel p (d : Int) (length * 2)).run self := by
  have hclimb : buddyClimb (((d + 1 : Nat) : Int).toNat + 1) (p * 2 + 2)
      ((d + 1 : Nat) : Int) length =
      if p % 2 = 1 then return some (p + 1, (d : Int), length * 2)
      else buddyClimb ((d : Int).toNat + 1) p d (length * 2) := by
    rw [buddyClimb, show parentIndex (p * 2 + 2) = p from Side.parentIndex_child .right p,
      if_neg (by omega),
      show ((d + 1 : Nat) : Int) - 1 = (d : Int) by omega, Int.toNat_natCast,
      Int.toNat_natCast]
  rw [searchNext, if_neg (by omega), hclimb, searchNext]
  split <;> rfl

/-- Past the root the search is over. -/
theorem searchNext_root {size length : Int} :
    (searchNext size fuel 0 0 length).run self = .ok (-1) self := rfl

theorem two_pow_ne (hkh : k ≠ h) : (2 : Int) ^ k ≠ 2 ^ h := by
  intro he
  exact hkh (pow_right_injective₀ (by omega) (by omega) he)

/-- What a look at a node without room answers, in all three cases. -/
theorem buddyVisit_of_not_avail {L k h d : Nat} (hk : k ≤ h) (hi : OnLevel d i) (hd : d ≤ L)
    (ha : avail t k h i = false) (hsplit : k = h ∨ t i ≠ .split) :
    (buddyVisit (2 ^ k) i (2 ^ h)).run (ofTree L t) =
      .ok .pass (ofTree L t) := by
  rw [buddyVisit, run_bind_ok (treeGet_ofTree t hi hd)]
  by_cases hkh : k = h
  · subst hkh
    rw [avail_self, decide_eq_false_iff_not] at ha
    rw [if_pos rfl, if_neg ha]
    rfl
  · rw [if_neg (two_pow_ne hkh)]
    obtain ⟨h', rfl⟩ : ∃ h', h = h' + 1 := ⟨h - 1, by omega⟩
    rw [avail, if_neg hkh] at ha
    cases hm : t i with
    | unused => simp [hm] at ha
    | split => exact absurd hm (hsplit.resolve_left hkh)
    | used => rfl
    | full => rfl

theorem buddyVisit_split {L k h d : Nat} (hk : k ≤ h) (hi : OnLevel d i) (hd : d ≤ L)
    (hm : t i = .split) :
    (buddyVisit (2 ^ k) i (2 ^ (h + 1))).run (ofTree L t) =
      .ok .down (ofTree L t) := by
  have hne : (2 : Int) ^ k ≠ 2 ^ (h + 1) := two_pow_ne (by omega)
  rw [buddyVisit, run_bind_ok (treeGet_ofTree t hi hd), if_neg hne, hm]
  rfl

/-- The array after an unused node was cut. -/
def cutAt (t : Int → Node) (i : Int) : Int → Node :=
  update (update (update t i .split) (i * 2 + 1) .unused)
    (i * 2 + 2) .unused

theorem cutAt_left (t : Int → Node) (i : Int) : cutAt t i (i * 2 + 1) = .unused := by
  rw [cutAt, update_of_ne (by omega), update_self]

/-- An unused node that is too large is cut, and the walk goes down. -/
theorem buddyVisit_unused {L h d : Nat} {size i : Int} (hne : size ≠ 2 ^ (h + 1)) (hi : OnLevel d i)
    (hd : d + 1 ≤ L) (hm : t i = .unused) :
    (buddyVisit size i (2 ^ (h + 1))).run (ofTree L t) = .ok .down (ofTree L (cutAt t i)) := by
  rw [buddyVisit, run_bind_ok (treeGet_ofTree t hi (by omega)), if_neg hne, hm]
  simp only []
  rw [run_bind_ok (treeSet_ofTree _ _ hi (by omega)),
    run_bind_ok (treeSet_ofTree _ _ hi.left hd), run_bind_ok (treeSet_ofTree _ _ hi.right hd)]
  rfl

/-- Backtracking: a node without room is left as it was found, and the walk
goes on past it. The cost counts the nodes looked at. -/
theorem search_pass : ∀ {h d : Nat} {i : Int},
    k ≤ h → OnLevel d i → d + h = L → avail t k h i = false →
    ∃ cost, cost + 1 ≤ 2 ^ (h + 1) ∧ ∀ fuel,
      (buddySearch (2 ^ k) (fuel + cost) i d (2 ^ h)).run (ofTree L t) =
        (searchNext (2 ^ k) fuel i d (2 ^ h)).run (ofTree L t) := by
  intro h
  induction h with
  | zero =>
      intro d i hk hi hd ha
      have hv := buddyVisit_of_not_avail (L := L) hk hi (by omega) ha (Or.inl (by omega))
      exact ⟨1, by omega, fun fuel => buddySearch_pass hi.nonneg hv⟩
  | succ h ih =>
      intro d i hk hi hd ha
      have hpos : 1 ≤ 2 ^ (h + 1) := Nat.pow_pos (by omega)
      by_cases hsplit : k = h + 1 ∨ t i ≠ .split
      · have hv := buddyVisit_of_not_avail (L := L) hk hi (by omega) ha hsplit
        refine ⟨1, ?_, fun fuel => buddySearch_pass hi.nonneg hv⟩
        rw [Nat.pow_succ]; omega
      · -- A split node: both halves are searched, one after the other.
        obtain ⟨hkh, hm⟩ := not_or.mp hsplit
        simp only [ne_eq, not_not] at hm
        have hk' : k ≤ h := by omega
        rw [avail, if_neg hkh, hm] at ha
        simp only [Bool.or_eq_false_iff] at ha
        obtain ⟨cl, hcl, hl⟩ := ih hk' hi.left (by omega) ha.1
        obtain ⟨cr, hcr, hr⟩ := ih hk' hi.right (by omega) ha.2
        have hv := buddyVisit_split (L := L) hk' hi (by omega) hm
        refine ⟨cl + cr + 1, ?_, fun fuel => ?_⟩
        · rw [Nat.pow_succ]; omega
        · rw [show fuel + (cl + cr + 1) = fuel + cr + cl + 1 by omega,
            buddySearch_down hi.nonneg hv,
            show (2 : Int) ^ (h + 1) / 2 = 2 ^ h by rw [pow_succ]; omega]
          have hleft := hl (fuel + cr)
          have hright := hr fuel
          rw [searchNext_left] at hleft
          rw [searchNext_right hi.nonneg] at hright
          push_cast at hleft hright
          rw [hleft, hright, pow_succ]

/-! ## The search, on a stored tree -/

theorem Stores.avail_self_eq (hs : Stores t k i b) : avail t k k i = (Blk.alloc k k b).isSome := by
  rw [avail_self, Blk.alloc_self]
  by_cases hb : b = .free
  · simp [hb, hs.unused_iff.mpr hb]
  · simp [hb, mt hs.unused_iff.mp hb]

/-- On a stored tree the marks are right about the room. -/
theorem Stores.avail_eq (hs : Stores t h i b) (hk : k ≤ h) :
    avail t k h i = (Blk.alloc k h b).isSome := by
  induction h generalizing i b with
  | zero =>
      obtain rfl : k = 0 := by omega
      exact hs.avail_self_eq
  | succ h ih =>
      by_cases hkh : k = h + 1
      · subst hkh
        exact hs.avail_self_eq
      · have hk' : k ≤ h := by omega
        rw [avail, if_neg hkh]
        cases b with
        | free =>
            obtain ⟨b', hb'⟩ := Blk.alloc_free (k := k) (h := h + 1) (by omega)
            rw [(stores_free.mp hs).1, hb']
            rfl
        | used =>
            rw [(stores_used.mp hs).1, Blk.alloc_used]
            rfl
        | node l r =>
            obtain ⟨hm, hl, hr⟩ := hs
            rw [hm, Blk.alloc_node hk']
            cases hf : l.full && r.full with
            | false =>
                show (avail t k h (i * 2 + 1) || avail t k h (i * 2 + 2)) = _
                rw [ih hl hk', ih hr hk']
                cases Blk.alloc k h l <;> simp
            | true =>
                -- A full half has no room, so neither branch of first fit answers.
                simp only [Bool.and_eq_true] at hf
                have hnone : ∀ {b : Blk}, b.full = true → Blk.alloc k h b = none := by
                  intro b hb
                  cases ha : Blk.alloc k h b with
                  | none => rfl
                  | some p => exact absurd hb (by simp [(Blk.alloc_spec hk' ha).1])
                rw [hnone hf.1, hnone hf.2]
                rfl

/-- A node of the right size: it is taken and marked, its ancestors are
marked, and its first page is answered. -/
theorem buddySearch_take {b b' : Blk} {o : Nat} (hL : k + c.depth = L) (hc : StoresCtx t k false c)
    (hs : Stores t k c.index b) (ha : Blk.alloc k k b = some (o, b')) :
    ∃ t', Stores t' L 0 (c.plug b') ∧ ∀ fuel,
      (buddySearch (2 ^ k) (fuel + 1) c.index c.depth (2 ^ k)).run (ofTree L t) =
        .ok ((c.base k + o : Nat) : Int) (ofTree L t') := by
  rw [Blk.alloc_self, Option.ite_none_right_eq_some] at ha
  obtain ⟨rfl, ha⟩ := ha
  simp only [Option.some.injEq, Prod.mk.injEq] at ha
  obtain ⟨rfl, rfl⟩ := ha
  have hi := c.onLevel
  obtain ⟨hm, hst⟩ := stores_free.mp hs
  have hv : (buddyVisit (2 ^ k) c.index (2 ^ k)).run (ofTree L t) =
      .ok .take (ofTree L (update t c.index .used)) := by
    rw [buddyVisit, run_bind_ok (treeGet_ofTree t hi (by omega)), if_pos rfl,
      if_pos hm, run_bind_ok (treeSet_ofTree t _ hi (by omega))]
    rfl
  have hused : Stores (update t c.index .used) k c.index .used := by
    rw [stores_used]
    exact ⟨update_self _ _ _,
      hst.congr (fun j _ hj => update_of_ne hj _ _) hi⟩
  have hdepth := c.depth_le_index
  have h0 := c.index_nonneg
  obtain ⟨t', hmark, hs'⟩ := markParentLoop_spec c (n := c.index.toNat + 1) hL
    (by omega) rfl (hc.update (inSub_self _ _) .used) hused
  refine ⟨t', hs', fun fuel => ?_⟩
  rw [buddySearch, if_neg (by omega), run_bind_ok hv]
  simp only []
  rw [markParent, run_bind_ok hmark, Nat.add_zero, ← c.indexOffset_eq k, hL]
  rfl

/-- Cutting an unused node of height `h + 1`: the walk goes down into a free
half whose sibling is free. -/
theorem buddyVisit_cut (hk : k ≤ h) (hL : h + 1 + c.depth = L) (hc : StoresCtx t (h + 1) false c)
    (hs : Stores t (h + 1) c.index .free) :
    ∃ t', (buddyVisit (2 ^ k) c.index (2 ^ (h + 1))).run (ofTree L t) =
        .ok .down (ofTree L t') ∧
      StoresCtx t' h false (.step .left .free c) ∧
      Stores t' h (c.index * 2 + 1) .free := by
  have hi := c.onLevel
  have h0 := c.index_nonneg
  obtain ⟨hm, -, -, -, -, hl, hr⟩ := stores_free.mp hs
  have hne : (2 : Int) ^ k ≠ 2 ^ (h + 1) := two_pow_ne (by omega)
  refine ⟨cutAt t c.index, buddyVisit_unused hne hi (by omega) hm, ⟨?_, ?_, ?_⟩, ?_⟩
  · rw [cutAt, update_of_ne (by omega), update_of_ne (by omega),
      update_self]
    rfl
  · rw [stores_free]
    refine ⟨update_self _ _ _, hr.congr (fun j hj hne => ?_) hi.right⟩
    rw [cutAt, update_of_ne hne, update_of_ne ?_, update_of_ne ?_]
    · rintro rfl; exact (not_inSub_child hi).2 hj
    · rintro rfl
      exact InSub.disjoint hi.right hi.left (by omega) hj (inSub_self _ _)
  · refine ((hc.update ?_ _).update ?_ _).update ?_ _
    · exact inSub_self _ _
    · exact Or.inr (Or.inl (inSub_self _ _))
    · exact Or.inr (Or.inr (inSub_self _ _))
  · rw [stores_free]
    refine ⟨cutAt_left t _, hl.congr (fun j hj hne => ?_) hi.left⟩
    · rw [cutAt, update_of_ne ?_, update_of_ne hne,
        update_of_ne ?_]
      · rintro rfl; exact (not_inSub_child hi).1 hj
      · rintro rfl
        exact InSub.disjoint hi.right hi.left (by omega) (inSub_self _ _) hj

/-- A node with room: the walk ends at the block first fit names. -/
theorem search_take : ∀ {h : Nat} {c : Ctx} {b b' : Blk} {o : Nat}
    {t : Int → Node}, k ≤ h → h + c.depth = L → StoresCtx t h false c →
    Stores t h c.index b → Blk.alloc k h b = some (o, b') →
    ∃ cost t', cost + 1 ≤ 2 ^ (h + 1) ∧ Stores t' L 0 (c.plug b') ∧ ∀ fuel,
      (buddySearch (2 ^ k) (fuel + cost) c.index c.depth (2 ^ h)).run
          (ofTree L t) =
        .ok ((c.base h + o : Nat) : Int) (ofTree L t') := by
  intro h
  induction h with
  | zero =>
      intro c b b' o t hk hL hc hs ha
      obtain rfl : k = 0 := by omega
      obtain ⟨t', hs', hrun⟩ := buddySearch_take hL hc hs ha
      exact ⟨1, t', by omega, hs', hrun⟩
  | succ h ih =>
      intro c b b' o t hk hL hc hs ha
      have hpos : 1 ≤ 2 ^ (h + 1) := Nat.pow_pos (by omega)
      have hhalf : (2 : Int) ^ (h + 1) / 2 = 2 ^ h := by rw [pow_succ]; omega
      have h0 := c.index_nonneg
      by_cases hkh : k = h + 1
      · subst hkh
        obtain ⟨t', hs', hrun⟩ := buddySearch_take hL hc hs ha
        refine ⟨1, t', ?_, hs', hrun⟩
        rw [Nat.pow_succ]; omega
      · have hk' : k ≤ h := by omega
        cases b with
        | free =>
            rw [Blk.alloc_free_succ hk', Option.map_eq_some_iff] at ha
            obtain ⟨⟨o₁, b₁⟩, ha, heq⟩ := ha
            simp only [Prod.mk.injEq] at heq
            obtain ⟨rfl, rfl⟩ := heq
            obtain ⟨t₁, hv, hc₁, hs₁⟩ := buddyVisit_cut hk' hL hc hs
            obtain ⟨cost, t', hcost, hs', hrun⟩ := ih (c := .step .left .free c) hk'
              (by simp only [Ctx.depth]; omega) hc₁ hs₁ ha
            refine ⟨cost + 1, t', by rw [Nat.pow_succ]; omega, hs', fun fuel => ?_⟩
            rw [← Nat.add_assoc, buddySearch_down h0 hv, hhalf]
            exact hrun fuel
        | used => rw [Blk.alloc_used] at ha; cases ha
        | node l r =>
            have hnf := (Blk.alloc_spec hk ha).1
            obtain ⟨hm, hl, hr⟩ := hs
            rw [Blk.full] at hnf
            have hv := buddyVisit_split (L := L) hk' c.onLevel (by omega)
              (hm.trans (by rw [hnf]; rfl))
            rw [Blk.alloc_node hk'] at ha
            cases hal : Blk.alloc k h l with
            | some p =>
                simp only [hal, Option.some.injEq, Prod.mk.injEq] at ha
                obtain ⟨rfl, rfl⟩ := ha
                have hlf := (Blk.alloc_spec hk' hal).1
                rw [hlf, Bool.false_and] at hm
                obtain ⟨cost, t', hcost, hs', hrun⟩ := ih (c := .step .left r c) hk'
                  (by simp only [Ctx.depth]; omega) ⟨hm, hr, hc⟩ hl hal
                refine ⟨cost + 1, t', by rw [Nat.pow_succ]; omega, hs',
                  fun fuel => ?_⟩
                rw [← Nat.add_assoc, buddySearch_down h0 hv, hhalf]
                exact hrun fuel
            | none =>
                -- The left half is searched in vain first.
                simp only [hal, Option.map_eq_some_iff] at ha
                obtain ⟨⟨o₁, b₁⟩, ha, heq⟩ := ha
                simp only [Prod.mk.injEq] at heq
                obtain ⟨rfl, rfl⟩ := heq
                have hrf := (Blk.alloc_spec hk' ha).1
                rw [hrf, Bool.and_false] at hm
                have hav : avail t k h (c.index * 2 + 1) = false := by
                  rw [hl.avail_eq hk', hal]; rfl
                obtain ⟨cl, hcl, hpass⟩ := search_pass (L := L) hk'
                  c.onLevel.left (by omega) hav
                obtain ⟨cr, t', hcr, hs', hrun⟩ := ih (c := .step .right l c) hk'
                  (by simp only [Ctx.depth]; omega)
                  ⟨hm, hl, hc⟩ hr ha
                refine ⟨cl + cr + 1, t', by rw [Nat.pow_succ]; omega, hs',
                  fun fuel => ?_⟩
                have hleft := hpass (fuel + cr)
                rw [searchNext_left] at hleft
                have hright := hrun fuel
                simp only [Ctx.index, Ctx.depth, Ctx.base] at hright
                push_cast at hleft
                rw [show fuel + (cl + cr + 1) = fuel + cr + cl + 1 by omega,
                  buddySearch_down h0 hv, hhalf, hleft]
                rw [show c.base (h + 1) + (2 ^ h + o₁) =
                  c.base (h + 1) + 2 ^ h + o₁ by omega]
                exact hright

/-! ## `buddy_alloc` -/

section

variable {L k : Nat} {s : Int} {t : Int → Node}

/-- A request larger than the buddy. -/
theorem buddyAlloc_large (hs : blockSize s = 2 ^ k) (hk : L < k) :
    (buddyAlloc s).run (ofTree L t) = .ok (-2) (ofTree L t) := by
  have hlt : (2 : Int) ^ k > 2 ^ L := pow_lt_pow_right₀ (by omega) hk
  rw [buddyAlloc, hs]
  show (if (2 : Int) ^ k > 2 ^ L then pure (-2) else _ : EStateM Stop Buddy Int).run
    (ofTree L t) = _
  rw [if_pos hlt]
  rfl

theorem buddyAlloc_search (hs : blockSize s = 2 ^ k) (hk : k ≤ L) :
    (buddyAlloc s).run (ofTree L t) =
      (buddySearch (2 ^ k) (2 ^ (L + 2)) 0 0 (2 ^ L)).run (ofTree L t) := by
  have hle : ¬ (2 : Int) ^ k > 2 ^ L :=
    not_lt.mpr (pow_le_pow_right₀ (by omega) hk)
  rw [buddyAlloc, hs]
  show (if (2 : Int) ^ k > 2 ^ L then pure (-2) else _ : EStateM Stop Buddy Int).run
    (ofTree L t) = _
  rw [if_neg hle]
  rfl

/-- No room: the answer is `-1` and nothing has changed, whatever the array
holds. -/
theorem buddyAlloc_none (hs : blockSize s = 2 ^ k) (hk : k ≤ L)
    (ha : avail t k L 0 = false) :
    (buddyAlloc s).run (ofTree L t) = .ok (-1) (ofTree L t) := by
  obtain ⟨cost, hcost, hpass⟩ := search_pass (L := L) (d := 0) hk
    Ctx.root.onLevel (by omega) ha
  have hfuel : 2 ^ (L + 2) = (2 ^ (L + 2) - cost) + cost := by
    rw [Nat.pow_succ]; omega
  rw [buddyAlloc_search hs hk, hfuel]
  exact (hpass _).trans searchNext_root

/-- Room: the block first fit names is taken. -/
theorem buddyAlloc_found {b b' : Blk} {o : Nat} (hs : blockSize s = 2 ^ k)
    (hk : k ≤ L) (hst : Stores t L 0 b) (ha : Blk.alloc k L b = some (o, b')) :
    ∃ t', (buddyAlloc s).run (ofTree L t) = .ok (o : Int) (ofTree L t') ∧
      Stores t' L 0 b' := by
  obtain ⟨cost, t', hcost, hs', hrun⟩ := search_take (c := .root) hk rfl
    trivial hst ha
  have hfuel : 2 ^ (L + 2) = (2 ^ (L + 2) - cost) + cost := by
    rw [Nat.pow_succ]; omega
  refine ⟨t', ?_, hs'⟩
  rw [buddyAlloc_search hs hk, hfuel]
  have hend := hrun (2 ^ (L + 2) - cost)
  rw [Ctx.base, Nat.zero_add] at hend
  exact hend

/-- The three answers of `buddy_alloc`, on a stored tree. -/
theorem buddyAlloc_cases (h0 : 0 ≤ s) (hs : s ≤ 2 ^ 30) (hst : Stores t L 0 b)
    (hk : k = Nat.clog 2 s.toNat) :
    (L < k ∧ (buddyAlloc s).run (ofTree L t) = .ok (-2) (ofTree L t)) ∨
    (k ≤ L ∧ Blk.alloc k L b = none ∧
      (buddyAlloc s).run (ofTree L t) = .ok (-1) (ofTree L t)) ∨
    ∃ o b' t', k ≤ L ∧ Blk.alloc k L b = some (o, b') ∧ Stores t' L 0 b' ∧
      (buddyAlloc s).run (ofTree L t) = .ok (o : Int) (ofTree L t') := by
  subst hk
  have hsize := blockSize_eq h0 hs
  rcases Nat.lt_or_ge L (Nat.clog 2 s.toNat) with hlt | hle
  · exact Or.inl ⟨hlt, buddyAlloc_large hsize hlt⟩
  · cases ha : Blk.alloc (Nat.clog 2 s.toNat) L b with
    | none =>
        have hav : avail t (Nat.clog 2 s.toNat) L 0 = false := by
          rw [hst.avail_eq hle, ha]; rfl
        exact Or.inr (Or.inl ⟨hle, rfl, buddyAlloc_none hsize hle hav⟩)
    | some p =>
        obtain ⟨t', hrun, hst'⟩ := buddyAlloc_found hsize hle hst ha
        exact Or.inr (Or.inr ⟨p.1, p.2, t', hle, rfl, hst', hrun⟩)

end

end Aim.Kern
