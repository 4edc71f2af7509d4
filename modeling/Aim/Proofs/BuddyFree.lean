import Aim.Proofs.BuddyAlloc

/-!
# `buddy_free` gives back one block and merges

`buddy_free` goes down to the used node that covers the offset and hands it to
`_combine`, which walks up twice. The first walk looks for the largest block
that is free now: it climbs while the sibling is unused and does not write at
all, so what it leaves behind under the merged node is whatever was there. The
second walk starts where the first ended and turns the full marks above it
into split ones.

`lowerFull_spec` and `combineLoop_spec` are the two walks, both by induction
on the context of the node they stand at; the context says what the marks
above the node are when the node's block is full and when it is not, which is
the only thing the second walk changes. `buddyFree_spec` is the abstract
`release` on the stored tree. `buddySize_spec` reads the tree with the same
descent.
-/

namespace Aim.Kern

open Aim.Lib Function

/-! ## `_combine` -/

variable {L : Nat} {t : Int → Node} {l r : Blk}

/-- The second walk: from a context whose marks may say that the missing
block is full to one whose marks say it is not. -/
theorem lowerFull_spec : ∀ (c : Ctx) {h n : Nat} {f : Bool}
    {t : Int → Node}, h + c.depth = L → c.depth < n → StoresCtx t h f c →
    ∃ t', (lowerFull n c.index).run (ofTree L t) = .ok () (ofTree L t') ∧
      StoresCtx t' h false c ∧ ∀ j, InSub h c.index j → t' j = t j
  | .root, h, n, f, t, hL, hn, hc => by
      obtain ⟨m, rfl⟩ : ∃ m, n = m + 1 := ⟨n - 1, by omega⟩
      exact ⟨t, rfl, trivial, fun _ _ => rfl⟩
  | .step s sib c, h, n, f, t, hL, hn, hc => by
      obtain ⟨m, rfl⟩ : ∃ m, n = m + 1 := ⟨n - 1, by omega⟩
      simp only [Ctx.depth] at hL hn
      obtain ⟨hp, hsib, hup⟩ := hc
      have hl := c.onLevel
      rw [lowerFull]
      simp only [Ctx.index, Side.parentIndex_child]
      rw [if_pos c.index_nonneg, run_bind_ok (treeGet_ofTree t hl (by omega))]
      cases hf : f && sib.full with
      | false =>
          rw [hf] at hp hup
          rw [if_neg (by rw [hp]; decide)]
          refine ⟨t, rfl, ⟨?_, hsib, ?_⟩, fun _ _ => rfl⟩
          · rw [Bool.false_and]; exact hp
          · rw [Bool.false_and]; exact hup
      | true =>
          rw [hf] at hp hup
          rw [if_pos (show t c.index = .full from hp),
            run_bind_ok (treeSet_ofTree t _ hl (by omega))]
          obtain ⟨t', hrun, hc', hag⟩ := lowerFull_spec c (h := h + 1)
            (n := m) (by omega) (by omega) (hup.update (inSub_self _ _) .split)
          -- Below the parent nothing but its own mark has changed.
          have hsub : ∀ {s : Side} {j : Int}, InSub h (s.child c.index) j →
              t' j = t j := by
            intro s j hj
            rw [hag j hj.child, update_of_ne]
            rintro rfl
            exact not_inSub_side hl s hj
          refine ⟨t', hrun, ⟨?_, ?_, ?_⟩, fun j hj => hsub hj⟩
          · rw [hag _ (inSub_self _ _), update_self, Bool.false_and]
            rfl
          · exact hsib.congr (fun j hj => hsub hj) (hl.child s.flip)
          · rw [Bool.false_and]; exact hc'

/-- The end of `_combine`, at the node that stays. -/
theorem combine_stay {L h : Nat} {f : Bool} (c : Ctx) (hL : h + c.depth = L)
    (hc : StoresCtx t h f c) (hst : Stale t h c.index) :
    ∃ t', (do treeSet c.index .unused
              lowerFull (c.index.toNat + 1) c.index).run (ofTree L t) =
        .ok () (ofTree L t') ∧ Stores t' L 0 (c.plug .free) := by
  have hl := c.onLevel
  have hdepth := c.depth_le_index
  obtain ⟨t', hrun, hc', hag⟩ := lowerFull_spec c (n := c.index.toNat + 1) hL
    (by omega) (hc.update (inSub_self _ _) .unused)
  refine ⟨t', ?_, ?_⟩
  · rw [run_bind_ok (treeSet_ofTree t _ hl (by omega))]
    exact hrun
  · rw [← hL]
    refine stores_plug hc' (stores_free.mpr ⟨?_, hst.congr (fun j hj hne => ?_) hl⟩)
    · rw [hag _ (inSub_self _ _), update_self]
    · rw [hag j hj, update_of_ne hne]

/-- What is below a node whose halves are merged, one of them unused and the
other about to be. -/
theorem stale_merge {h : Nat} {i : Int} {s : Side} (hnf : t (s.child i) ≠ .full)
    (hns : h = 0 → t (s.child i) ≠ .split) (hst : Stale t h (s.child i))
    (hu : t (s.flip.child i) = .unused) (hsib : Stale t h (s.flip.child i)) :
    Stale t (h + 1) i := by
  cases s with
  | left =>
      have hu' : t (i * 2 + 2) = .unused := hu
      refine ⟨hnf, ?_, fun h0 => ⟨hns h0, ?_⟩, ?_, hst, hsib⟩
      all_goals simp [hu']
  | right =>
      have hu' : t (i * 2 + 1) = .unused := hu
      refine ⟨?_, hnf, fun h0 => ⟨?_, hns h0⟩, ?_, hsib, hst⟩
      all_goals simp [hu']

/-- Both walks: the block at the node is free afterwards and merged with
every free sibling on the way up. What is below the node may be stale. -/
theorem combineLoop_spec : ∀ (c : Ctx) {h n : Nat} {f : Bool}
    {t : Int → Node}, h + c.depth = L → c.depth < n → StoresCtx t h f c →
    Stale t h c.index → t c.index ≠ .full → (h = 0 → t c.index ≠ .split) →
    ∃ t', (combineLoop n c.index).run (ofTree L t) = .ok () (ofTree L t') ∧
      Stores t' L 0 (c.plugJoin .free)
  | .root, h, n, f, t, hL, hn, hc, hst, hnf, hns => by
      obtain ⟨m, rfl⟩ : ∃ m, n = m + 1 := ⟨n - 1, by omega⟩
      exact combine_stay .root hL hc hst
  | .step s sib c, h, n, f, t, hL, hn, hc, hst, hnf, hns => by
      obtain ⟨m, rfl⟩ : ∃ m, n = m + 1 := ⟨n - 1, by omega⟩
      have hc₀ := hc
      obtain ⟨hp, hsib, hup⟩ := hc
      simp only [Ctx.depth] at hn
      have hd : c.depth + 1 ≤ L := by simp only [Ctx.depth] at hL; omega
      have hl := c.onLevel
      have hpos : ¬ s.flip.child c.index < 0 := by
        have h0 := (hl.child s.flip).nonneg
        omega
      rw [combineLoop]
      simp only [Ctx.index, Side.getBuddyIndex_child, Side.parentIndex_child]
      rw [if_neg hpos, run_bind_ok (treeGet_ofTree t (hl.child s.flip) hd), pure_bind]
      by_cases hfree : sib = .free
      · -- The sibling is free: the parent is the block to look at next.
        subst hfree
        obtain ⟨hu, hsst⟩ := stores_free.mp hsib
        have hstale := stale_merge hnf hns hst hu hsst
        rw [hu, if_neg (by decide), Ctx.plugJoin, Side.join_eq_free]
        simp only [Ctx.depth] at hL
        rw [show Blk.full .free = false from rfl, Bool.and_false] at hp
        exact combineLoop_spec c (by omega) (by omega) hup hstale
          (by rw [hp]; decide) (fun h0 => by omega)
      · have hne : t (s.flip.child c.index) ≠ .unused :=
          fun hu => hfree (hsib.unused_iff.mp hu)
        rw [if_pos (by simpa using hne), Ctx.plugJoin,
          Side.join_eq_node fun hb => hfree hb.2,
          Ctx.plugJoin_eq_plug Side.node_ne_free]
        exact combine_stay (.step s sib c) hL hc₀ hst

/-! ## The descent -/

/-- The source's test for the left half, on page numbers. -/
theorem offset_lt_iff {base o h : Nat} : ((base + o : Nat) : Int) < base + 2 ^ h ↔ o < 2 ^ h := by
  rw [Nat.cast_add, add_lt_add_iff_left]
  norm_cast

/-- A stored inner node sends both descents on to one of its halves. -/
theorem Stores.inner_mark {h : Nat} {i : Int} (hs : Stores t (h + 1) i (.node l r)) :
    t i = .split ∨ t i = .full := by
  rw [(stores_node.mp hs).1, innerMark]
  split
  · exact Or.inr rfl
  · exact Or.inl rfl

/-- The end of the descent, at the used node. -/
theorem buddyFreeLoop_used {L h m o : Nat} {c : Ctx} {b' : Blk} (hL : h + c.depth = L)
    (hc : StoresCtx t h (Blk.full .used) c) (hs : Stores t h c.index .used)
    (hr : Blk.release h .used o = some b') :
    ∃ t', (buddyFreeLoop ((c.base h + o : Nat) : Int) (m + 1) (c.base h) (2 ^ h)
          c.index).run (ofTree L t) = .ok () (ofTree L t') ∧
      Stores t' L 0 (c.plugJoin b') := by
  rw [Blk.release_used, Option.ite_none_right_eq_some] at hr
  obtain ⟨rfl, hr⟩ := hr
  obtain rfl := Option.some.inj hr
  obtain ⟨hu, hst⟩ := stores_used.mp hs
  have hdepth := c.depth_le_index
  obtain ⟨t', hrun, hs'⟩ := combineLoop_spec c (n := c.index.toNat + 1) hL
    (by omega) hc hst (by rw [hu]; decide) (fun _ => by rw [hu]; decide)
  refine ⟨t', ?_, hs'⟩
  rw [buddyFreeLoop, run_bind_ok (treeGet_ofTree t c.onLevel (by omega)), hu]
  simp only [Nat.add_zero, ne_eq, not_true_eq_false, if_false]
  exact hrun

/-- One round of the descent at an inner node. -/
theorem buddyFreeLoop_inner {L h d m : Nat} {i offset left : Int}
    (hs : Stores t (h + 1) i (.node l r)) (hi : OnLevel d i) (hd : d ≤ L) :
    (buddyFreeLoop offset (m + 1) left (2 ^ (h + 1)) i).run (ofTree L t) =
      if offset < left + 2 ^ h then
        (buddyFreeLoop offset m left (2 ^ h) (i * 2 + 1)).run (ofTree L t)
      else
        (buddyFreeLoop offset m (left + 2 ^ h) (2 ^ h) (i * 2 + 2)).run
          (ofTree L t) := by
  have hhalf : (2 : Int) ^ (h + 1) / 2 = 2 ^ h := by rw [pow_succ]; omega
  rw [buddyFreeLoop, run_bind_ok (treeGet_ofTree t hi hd)]
  rcases hs.inner_mark with hm | hm <;> rw [hm] <;> simp only [hhalf] <;>
    split <;> rfl

/-- `buddy_free` from a node on, when the tree at the node has a block at
`o`. -/
theorem buddyFreeLoop_spec : ∀ {h n : Nat} {c : Ctx} {b b' : Blk}
    {o : Nat} {t : Int → Node}, h + c.depth = L → h < n →
    StoresCtx t h b.full c → Stores t h c.index b →
    Blk.release h b o = some b' →
    ∃ t', (buddyFreeLoop ((c.base h + o : Nat) : Int) n (c.base h) (2 ^ h)
          c.index).run (ofTree L t) = .ok () (ofTree L t') ∧
      Stores t' L 0 (c.plugJoin b') := by
  intro h n c b b' o t hL hn hc hs hr
  induction b generalizing h n c b' o with
  | free => simp at hr
  | used =>
      obtain ⟨m, rfl⟩ : ∃ m, n = m + 1 := ⟨n - 1, by omega⟩
      exact buddyFreeLoop_used hL hc hs hr
  | node l r ihl ihr =>
      cases h with
      | zero => exact absurd hs id
      | succ h =>
          obtain ⟨m, rfl⟩ : ∃ m, n = m + 1 := ⟨n - 1, by omega⟩
          obtain ⟨hm, hl, hrr⟩ := stores_node.mp hs
          rw [buddyFreeLoop_inner hs c.onLevel (by omega)]
          rw [Blk.release] at hr
          split at hr
          · next hlt =>
              rw [Option.map_eq_some_iff] at hr
              obtain ⟨l', hr, rfl⟩ := hr
              rw [if_pos (offset_lt_iff.mpr hlt)]
              exact ihl (c := .step .left r c) (by simp only [Ctx.depth]; omega)
                (by omega) ⟨hm, hrr, hc⟩ hl hr
          · next hge =>
              rw [Option.map_eq_some_iff] at hr
              obtain ⟨r', hr, rfl⟩ := hr
              rw [if_neg (mt offset_lt_iff.mp hge)]
              have hup : StoresCtx t h r.full (.step .right l c) :=
                ⟨by rw [Bool.and_comm]; exact hm, hl, by rw [Bool.and_comm]; exact hc⟩
              have hrun := ihr (n := m) (o := o - 2 ^ h) (c := .step .right l c)
                (by simp only [Ctx.depth]; omega) (by omega) hup hrr hr
              rw [Ctx.base, Nat.add_assoc, show 2 ^ h + (o - 2 ^ h) = o by omega] at hrun
              push_cast at hrun ⊢
              exact hrun

/-- The descents' fuel covers the height. -/
theorem lt_ofTree_size (t : Int → Node) : L < (ofTree L t).size + 1 := by
  have hlt : L < 2 ^ L := Nat.lt_two_pow_self
  show L < 2 ^ (L + 1) - 1 + 1
  rw [Nat.pow_succ]; omega

/-- An offset in the range is looked for from the root. -/
theorem buddyFree_descends {o : Int} (t : Int → Node) (ho : o < 2 ^ L) :
    (buddyFree o).run (ofTree L t) =
      (buddyFreeLoop o ((ofTree L t).size + 1) 0 (2 ^ L) 0).run (ofTree L t) := by
  have hlt : ¬ o ≥ 2 ^ L := not_le.mpr ho
  rw [buddyFree]
  show (if o ≥ 2 ^ L then _ else _ : EStateM Stop Buddy Unit).run (ofTree L t) = _
  rw [if_neg hlt]
  rfl

/-- `buddy_free` of the start of a block is `release` on the stored tree. -/
theorem buddyFree_spec {L o : Nat} {b b' : Blk} (hs : Stores t L 0 b) (ho : o < 2 ^ L)
    (hr : Blk.release L b o = some b') :
    ∃ t', (buddyFree o).run (ofTree L t) = .ok () (ofTree L t') ∧
      Stores t' L 0 b' := by
  obtain ⟨t', hrun, hs'⟩ := buddyFreeLoop_spec (c := .root) rfl
    (lt_ofTree_size t) trivial hs hr
  refine ⟨t', ?_, hs'⟩
  rw [buddyFree_descends t (by exact_mod_cast ho)]
  rw [Ctx.base, Nat.zero_add] at hrun
  exact hrun

/-! ## `buddy_size` -/

theorem buddySizeLoop_inner {L h d m : Nat} {i offset left : Int}
    (hs : Stores t (h + 1) i (.node l r)) (hi : OnLevel d i) (hd : d ≤ L) :
    (buddySizeLoop offset (m + 1) left (2 ^ (h + 1)) i).run (ofTree L t) =
      if offset < left + 2 ^ h then
        (buddySizeLoop offset m left (2 ^ h) (i * 2 + 1)).run (ofTree L t)
      else
        (buddySizeLoop offset m (left + 2 ^ h) (2 ^ h) (i * 2 + 2)).run
          (ofTree L t) := by
  have hhalf : (2 : Int) ^ (h + 1) / 2 = 2 ^ h := by rw [pow_succ]; omega
  rw [buddySizeLoop, run_bind_ok (treeGet_ofTree t hi hd)]
  rcases hs.inner_mark with hm | hm <;> rw [hm] <;> simp only [hhalf] <;>
    split <;> rfl

theorem buddySizeLoop_spec : ∀ {h n d : Nat} {i : Int}
    {b : Blk} (left o : Nat), h + d = L → h < n → OnLevel d i → Stores t h i b →
    (buddySizeLoop ((left + o : Nat) : Int) n left (2 ^ h) i).run (ofTree L t) =
      .ok (((Blk.sizeAt h b o).map fun m => (m : Int)).getD eof) (ofTree L t) := by
  intro h
  induction h with
  | zero =>
      intro n d i b left o hL hn hi hs
      obtain ⟨m, rfl⟩ : ∃ m, n = m + 1 := ⟨n - 1, by omega⟩
      rw [buddySizeLoop, run_bind_ok (treeGet_ofTree t hi (by omega))]
      cases b with
      | free => rw [(stores_free.mp hs).1]; simp
      | used => rw [(stores_used.mp hs).1]; simp
      | node l r => exact absurd hs id
  | succ h ih =>
      intro n d i b left o hL hn hi hs
      obtain ⟨m, rfl⟩ : ∃ m, n = m + 1 := ⟨n - 1, by omega⟩
      cases b with
      | free =>
          rw [buddySizeLoop, run_bind_ok (treeGet_ofTree t hi (by omega)),
            (stores_free.mp hs).1]
          simp
      | used =>
          rw [buddySizeLoop, run_bind_ok (treeGet_ofTree t hi (by omega)),
            (stores_used.mp hs).1]
          simp
      | node l r =>
          obtain ⟨_, hl, hr⟩ := stores_node.mp hs
          rw [buddySizeLoop_inner hs hi (by omega), Blk.sizeAt]
          split
          · next hlt =>
              rw [if_pos (offset_lt_iff.mp hlt)]
              exact ih left o (by omega) (by omega) hi.left hl
          · next hge =>
              have hle : ¬ o < 2 ^ h := mt offset_lt_iff.mpr hge
              rw [if_neg hle]
              have hrun := ih (n := m) (left + 2 ^ h) (o - 2 ^ h) (by omega)
                (by omega) hi.right hr
              rw [Nat.add_assoc, show 2 ^ h + (o - 2 ^ h) = o by omega] at hrun
              push_cast at hrun ⊢
              exact hrun

/-- `buddy_size` answers the length of the block that holds the page. -/
theorem buddySize_spec {L o : Nat} {b : Blk} (hs : Stores t L 0 b) (ho : o < 2 ^ L) :
    (buddySize o).run (ofTree L t) =
      .ok (((Blk.sizeAt L b o).map fun m => (m : Int)).getD eof) (ofTree L t) := by
  have hlt : ¬ (o : Int) ≥ 2 ^ L := by
    rw [not_le]
    exact_mod_cast ho
  have hrun := buddySizeLoop_spec 0 o rfl (lt_ofTree_size t)
    Ctx.root.onLevel hs
  rw [Nat.zero_add] at hrun
  rw [buddySize]
  show (if (o : Int) ≥ 2 ^ L then _ else _ : EStateM Stop Buddy Int).run
    (ofTree L t) = _
  rw [if_neg hlt]
  exact hrun

end Aim.Kern
