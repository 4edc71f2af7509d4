import Aim.Kern.Buddy
import Aim.Lib.BuddyTree
import Mathlib.Tactic.Positivity

/-!
# The node array stores a buddy tree

The marks of `struct buddy` are read as a `Blk`: an unused node is a free
block, a used one a block handed out, and a split or full node is an inner
node whose mark says whether anything below it is free. `Stores t h i b` is
that reading for the node `i` of height `h`.

What lies below an unused or a used node is left over from earlier splits and
merges and means nothing to the algorithm. It is not arbitrary, though: no
full mark is ever left behind and never two used siblings, and `Stale` keeps
that, because a claim about all nodes has to speak about these too.

Both loops that walk towards the root work at one node inside a tree that is
right everywhere else. `Ctx` is the tree with that node cut out, and
`StoresCtx t h f c` says that the array stores it, given whether the missing
block is full, which is all the marks above it depend on.
-/

namespace Aim.Kern

open Aim.Lib

/-! ## Nodes and subtrees -/

/-- `j` is the node `i` or one of the `h` generations below it. -/
def InSub : Nat → Int → Int → Prop
  | 0, i, j => j = i
  | h + 1, i, j => j = i ∨ InSub h (i * 2 + 1) j ∨ InSub h (i * 2 + 2) j

/-- `i` is one of the `2 ^ d` nodes of depth `d`. -/
def OnLevel (d : Nat) (i : Int) : Prop := 2 ^ d ≤ i + 1 ∧ i + 1 < 2 ^ (d + 1)

theorem inSub_self (h : Nat) (i : Int) : InSub h i i := by
  cases h with
  | zero => rfl
  | succ h => exact Or.inl rfl

variable {i j : Int} {d h : Nat} {t t' : Int → Node} {b : Blk}

theorem OnLevel.nonneg (h : OnLevel d i) : 0 ≤ i := by
  have hpos : (0 : Int) < 2 ^ d := by positivity
  have hle := h.1
  omega

theorem OnLevel.left (h : OnLevel d i) : OnLevel (d + 1) (i * 2 + 1) := by
  obtain ⟨h1, h2⟩ := h
  unfold OnLevel
  rw [pow_succ (2 : Int) (d + 1), pow_succ (2 : Int) d] at *
  omega

theorem OnLevel.right (h : OnLevel d i) : OnLevel (d + 1) (i * 2 + 2) := by
  obtain ⟨h1, h2⟩ := h
  unfold OnLevel
  rw [pow_succ (2 : Int) (d + 1), pow_succ (2 : Int) d] at *
  omega

/-- A node of depth at most `L` is an entry of an array of `2 ^ (L + 1) - 1`
entries. -/
theorem OnLevel.lt_size {d L : Nat} (h : OnLevel d i) (hd : d ≤ L) : i < 2 ^ (L + 1) - 1 := by
  have hpow : (2 : Int) ^ (d + 1) ≤ 2 ^ (L + 1) :=
    pow_le_pow_right₀ (by omega) (by omega)
  have hlt := h.2
  omega

/-- Whatever lies below a node of depth `d` has depth at least `d`. -/
theorem InSub.level (hi : OnLevel d i) (hj : InSub h i j) : 2 ^ d ≤ j + 1 := by
  induction h generalizing d i with
  | zero => cases hj; exact hi.1
  | succ h ih =>
      have hstep : (2 : Int) ^ d ≤ 2 ^ (d + 1) := by
        rw [pow_succ]
        have hpos : (0 : Int) < 2 ^ d := by positivity
        omega
      rcases hj with rfl | hj | hj
      · exact hi.1
      · exact le_trans hstep (ih hi.left hj)
      · exact le_trans hstep (ih hi.right hj)

/-- Whatever lies at most `h` generations below depth `d` has depth at most
`d + h`. -/
theorem InSub.lt_level (hi : OnLevel d i) (hj : InSub h i j) : j + 1 < 2 ^ (d + h + 1) := by
  induction h generalizing d i with
  | zero => cases hj; exact hi.2
  | succ h ih =>
      rcases hj with rfl | hj | hj
      · refine lt_of_lt_of_le hi.2 ?_
        exact pow_le_pow_right₀ (by omega) (by omega)
      · have hlt := ih hi.left hj
        rwa [show d + 1 + h = d + (h + 1) by omega] at hlt
      · have hlt := ih hi.right hj
        rwa [show d + 1 + h = d + (h + 1) by omega] at hlt

/-- The subtrees of two nodes of one depth have no node in common. -/
theorem InSub.disjoint {i i' j : Int} (hi : OnLevel d i) (hi' : OnLevel d i') (hne : i ≠ i')
    (hj : InSub h i j) (hj' : InSub h i' j) : False := by
  induction h generalizing d i i' with
  | zero =>
      cases hj
      exact hne hj'
  | succ h ih =>
      rcases hj with rfl | hj | hj <;> rcases hj' with rfl | hj' | hj'
      · exact hne rfl
      · have := InSub.level hi'.left hj'; have := hi.2; omega
      · have := InSub.level hi'.right hj'; have := hi.2; omega
      · have := InSub.level hi.left hj; have := hi'.2; omega
      · exact ih hi.left hi'.left (by omega) hj hj'
      · exact ih hi.left hi'.right (by omega) hj hj'
      · have := InSub.level hi.right hj; have := hi'.2; omega
      · exact ih hi.right hi'.left (by omega) hj hj'
      · exact ih hi.right hi'.right (by omega) hj hj'

/-- A node is not below its children. -/
theorem not_inSub_child (hi : OnLevel d i) : ¬ InSub h (i * 2 + 1) i ∧ ¬ InSub h (i * 2 + 2) i := by
  have hlt := hi.2
  constructor
  · intro hs; have := InSub.level hi.left hs; omega
  · intro hs; have := InSub.level hi.right hs; omega

/-! ## Reading the marks -/

/-- What earlier splits and merges leave strictly below a node of height `h`
that is itself unused or used. -/
def Stale (t : Int → Node) : Nat → Int → Prop
  | 0, _ => True
  | h + 1, i =>
      t (i * 2 + 1) ≠ .full ∧ t (i * 2 + 2) ≠ .full ∧
      (h = 0 → t (i * 2 + 1) ≠ .split ∧ t (i * 2 + 2) ≠ .split) ∧
      ¬(t (i * 2 + 1) = .used ∧ t (i * 2 + 2) = .used) ∧
      Stale t h (i * 2 + 1) ∧ Stale t h (i * 2 + 2)

/-- The mark of an inner node. -/
def innerMark (full : Bool) : Node := if full then .full else .split

/-- The array stores the tree `b` at the node `i` of height `h`. -/
def Stores (t : Int → Node) : Nat → Int → Blk → Prop
  | h, i, .free => t i = .unused ∧ Stale t h i
  | h, i, .used => t i = .used ∧ Stale t h i
  | 0, _, .node _ _ => False
  | h + 1, i, .node l r =>
      t i = innerMark (l.full && r.full) ∧
      Stores t h (i * 2 + 1) l ∧ Stores t h (i * 2 + 2) r

@[simp] theorem stores_free : Stores t h i .free ↔ t i = .unused ∧ Stale t h i := by
  cases h <;> rfl

@[simp] theorem stores_used : Stores t h i .used ↔ t i = .used ∧ Stale t h i := by
  cases h <;> rfl

theorem stores_node {l r : Blk} :
    Stores t (h + 1) i (.node l r) ↔
      t i = innerMark (l.full && r.full) ∧
      Stores t h (i * 2 + 1) l ∧ Stores t h (i * 2 + 2) r := Iff.rfl

theorem Stale.congr (hs : Stale t h i) (hag : ∀ j, InSub h i j → j ≠ i → t' j = t j)
    (hi : OnLevel d i) : Stale t' h i := by
  induction h generalizing d i with
  | zero => trivial
  | succ h ih =>
      have h0 := hi.nonneg
      obtain ⟨h1, h2, h3, h4, h5, h6⟩ := hs
      have hl : t' (i * 2 + 1) = t (i * 2 + 1) :=
        hag _ (Or.inr (Or.inl (inSub_self _ _))) (by omega)
      have hr : t' (i * 2 + 2) = t (i * 2 + 2) :=
        hag _ (Or.inr (Or.inr (inSub_self _ _))) (by omega)
      refine ⟨by rw [hl]; exact h1, by rw [hr]; exact h2, by rw [hl, hr]; exact h3,
        by rw [hl, hr]; exact h4, ih h5 ?_ hi.left, ih h6 ?_ hi.right⟩
      · intro j hj _
        refine hag j (Or.inr (Or.inl hj)) ?_
        rintro rfl
        exact (not_inSub_child hi).1 hj
      · intro j hj _
        refine hag j (Or.inr (Or.inr hj)) ?_
        rintro rfl
        exact (not_inSub_child hi).2 hj

/-- A tree is read off the marks of its own subtree and nothing else. -/
theorem Stores.congr (hs : Stores t h i b) (hag : ∀ j, InSub h i j → t' j = t j)
    (hi : OnLevel d i) : Stores t' h i b := by
  have hself := hag i (inSub_self _ _)
  induction b generalizing h d i with
  | free =>
      rw [stores_free] at hs ⊢
      exact ⟨hself.trans hs.1, hs.2.congr (fun j hj _ => hag j hj) hi⟩
  | used =>
      rw [stores_used] at hs ⊢
      exact ⟨hself.trans hs.1, hs.2.congr (fun j hj _ => hag j hj) hi⟩
  | node l r ihl ihr =>
      cases h with
      | zero => exact hs
      | succ h =>
          rw [stores_node] at hs ⊢
          have hleft : ∀ j, InSub h (i * 2 + 1) j → t' j = t j := fun j hj =>
            hag j (Or.inr (Or.inl hj))
          have hright : ∀ j, InSub h (i * 2 + 2) j → t' j = t j := fun j hj =>
            hag j (Or.inr (Or.inr hj))
          exact ⟨hself.trans hs.1, ihl hs.2.1 hleft hi.left (hleft _ (inSub_self _ _)),
            ihr hs.2.2 hright hi.right (hright _ (inSub_self _ _))⟩

/-- A node is unused exactly when its block is free. -/
theorem Stores.unused_iff (hs : Stores t h i b) : t i = .unused ↔ b = .free := by
  cases b with
  | free => simp [(stores_free.mp hs).1]
  | used => simp [(stores_used.mp hs).1]
  | node l r =>
      cases h with
      | zero => exact absurd hs id
      | succ h =>
          rw [(stores_node.mp hs).1, innerMark]
          split <;> simp

/-- A node is used or full exactly when its block is full. -/
theorem Stores.full_iff (hs : Stores t h i b) : (t i = .used ∨ t i = .full) ↔ b.full = true := by
  cases b with
  | free => simp [(stores_free.mp hs).1, Blk.full]
  | used => simp [(stores_used.mp hs).1, Blk.full]
  | node l r =>
      cases h with
      | zero => exact absurd hs id
      | succ h =>
          rw [(stores_node.mp hs).1, innerMark, Blk.full]
          split <;> simp_all

theorem Stores.eq_used (hs : Stores t h i b) (hu : t i = .used) : b = .used := by
  cases b with
  | free => rw [(stores_free.mp hs).1] at hu; cases hu
  | used => rfl
  | node l r =>
      cases h with
      | zero => exact absurd hs id
      | succ h =>
          rw [(stores_node.mp hs).1, innerMark] at hu
          split at hu <;> cases hu

/-- A split or full mark stands at an inner node. -/
theorem Stores.inner_of_mark (hs : Stores t h i b) (hm : t i = .split ∨ t i = .full) :
    ∃ h' l r, h = h' + 1 ∧ b = .node l r := by
  cases b with
  | free => rw [(stores_free.mp hs).1] at hm; simp at hm
  | used => rw [(stores_used.mp hs).1] at hm; simp at hm
  | node l r =>
      cases h with
      | zero => exact absurd hs id
      | succ h => exact ⟨h, l, r, rfl, rfl⟩

/-! ## A tree with one node cut out -/

/-- Which child of its parent a node is. -/
inductive Side where
  | left
  | right

namespace Side

def flip : Side → Side
  | .left => .right
  | .right => .left

/-- The index of the child of `p` on this side. -/
def child : Side → Int → Int
  | .left, p => p * 2 + 1
  | .right, p => p * 2 + 2

/-- The inner node with `b` on this side and `sib` on the other. -/
def node : Side → Blk → Blk → Blk
  | .left, b, sib => .node b sib
  | .right, b, sib => .node sib b

/-- The two halves put back together. -/
def join : Side → Blk → Blk → Blk
  | .left, b, sib => Blk.join b sib
  | .right, b, sib => Blk.join sib b

theorem full_node (s : Side) (b sib : Blk) : (s.node b sib).full = (b.full && sib.full) := by
  cases s with
  | left => rfl
  | right => exact Bool.and_comm _ _

variable {s : Side}

theorem join_eq_free : s.join .free .free = .free := by
  cases s <;> rfl

theorem join_eq_node {b sib : Blk} (h : ¬(b = .free ∧ sib = .free)) :
    s.join b sib = s.node b sib := by
  cases s with
  | left => exact if_neg h
  | right => exact if_neg fun hf => h hf.symm

theorem node_ne_free {b sib : Blk} : s.node b sib ≠ .free := by
  cases s <;> exact Blk.noConfusion

theorem child_ne_flip (s : Side) (p : Int) : s.child p ≠ s.flip.child p := by
  cases s <;> simp only [child, flip] <;> omega

theorem getBuddyIndex_child (s : Side) (p : Int) : getBuddyIndex (s.child p) = s.flip.child p := by
  cases s <;> simp only [getBuddyIndex, child, flip] <;> omega

theorem parentIndex_child (s : Side) (p : Int) : parentIndex (s.child p) = p := by
  cases s <;> simp only [parentIndex, child] <;> omega

end Side

theorem OnLevel.child (h : OnLevel d i) (s : Side) : OnLevel (d + 1) (s.child i) := by
  cases s with
  | left => exact h.left
  | right => exact h.right

variable {s : Side}

theorem InSub.child (hj : InSub h (s.child i) j) : InSub (h + 1) i j := by
  cases s with
  | left => exact Or.inr (Or.inl hj)
  | right => exact Or.inr (Or.inr hj)

theorem not_inSub_side (hi : OnLevel d i) (s : Side) : ¬ InSub h (s.child i) i := by
  cases s with
  | left => exact (not_inSub_child hi).1
  | right => exact (not_inSub_child hi).2

/-- Siblings have no node below them in common. -/
theorem InSub.not_sibling (hi : OnLevel d i) (hj : InSub h (s.child i) j) :
    ¬ InSub h (s.flip.child i) j := fun hj' =>
  InSub.disjoint (hi.child s) (hi.child s.flip) (s.child_ne_flip i) hj hj'

theorem stores_side {b sib : Blk} :
    Stores t (h + 1) i (s.node b sib) ↔
      t i = innerMark (b.full && sib.full) ∧
      Stores t h (s.child i) b ∧ Stores t h (s.flip.child i) sib := by
  cases s with
  | left => exact stores_node
  | right =>
      rw [Bool.and_comm, and_comm (a := Stores t h (Side.right.child i) b)]
      exact stores_node

/-- The path from a node to the root, with the sibling trees on the way. -/
inductive Ctx where
  | root
  | step (s : Side) (sib : Blk) (c : Ctx)

namespace Ctx

/-- The index of the missing node. -/
def index : Ctx → Int
  | .root => 0
  | .step s _ c => s.child c.index

def depth : Ctx → Nat
  | .root => 0
  | .step _ _ c => c.depth + 1

/-- The first page of the missing node when it has height `h`. -/
def base : Ctx → Nat → Nat
  | .root, _ => 0
  | .step .left _ c, h => c.base (h + 1)
  | .step .right _ c, h => c.base (h + 1) + 2 ^ h

/-- Put a tree back. -/
def plug : Ctx → Blk → Blk
  | .root, b => b
  | .step s sib c, b => c.plug (s.node b sib)

/-- Put a tree back and join free halves on the way up. -/
def plugJoin : Ctx → Blk → Blk
  | .root, b => b
  | .step s sib c, b => c.plugJoin (s.join b sib)

theorem onLevel : ∀ c : Ctx, OnLevel c.depth c.index
  | .root => ⟨by decide, by decide⟩
  | .step s _ c => (onLevel c).child s

theorem index_nonneg (c : Ctx) : 0 ≤ c.index := c.onLevel.nonneg

/-- The depth of a node is at most its index, which is what lets the index
serve as fuel. -/
theorem depth_le_index : ∀ c : Ctx, (c.depth : Int) ≤ c.index
  | .root => by decide
  | .step s _ c => by
      have hc := depth_le_index c
      cases s <;> simp only [depth, index, Side.child] <;> omega

/-- The source's page number of a node is the first page of its block. -/
theorem indexOffset_eq : ∀ (c : Ctx) (h : Nat),
    indexOffset c.index c.depth ((h + c.depth : Nat) : Int) = c.base h
  | .root, h => by simp [indexOffset, index, depth, base]
  | .step s sib c, h => by
      have ih := indexOffset_eq c (h + 1)
      have hup : ((h + 1 + c.depth : Nat) : Int) - (c.depth : Int) =
          ((h + 1 : Nat) : Int) := by omega
      have hdown : ((h + (c.depth + 1) : Nat) : Int) - ((c.depth + 1 : Nat) : Int) =
          (h : Int) := by omega
      simp only [indexOffset, hup, Int.toNat_natCast] at ih
      cases s with
      | left =>
          simp only [indexOffset, index, depth, base, Side.child, hdown,
            Int.toNat_natCast]
          rw [← ih, pow_succ, pow_succ]
          ring
      | right =>
          simp only [indexOffset, index, depth, base, Side.child, hdown,
            Int.toNat_natCast]
          push_cast
          rw [← ih, pow_succ, pow_succ]
          ring

theorem plugJoin_eq_plug {b : Blk} (hb : b ≠ .free) :
    ∀ c : Ctx, c.plugJoin b = c.plug b
  | .root => rfl
  | .step s sib c => by
      rw [plugJoin, plug, Side.join_eq_node fun h => hb h.1]
      exact plugJoin_eq_plug Side.node_ne_free c

end Ctx

/-- The array stores the context `c` of a node of height `h`, where `f` says
whether the block at that node is full. -/
def StoresCtx (t : Int → Node) : Nat → Bool → Ctx → Prop
  | _, _, .root => True
  | h, f, .step s sib c =>
      t c.index = innerMark (f && sib.full) ∧
      Stores t h (s.flip.child c.index) sib ∧
      StoresCtx t (h + 1) (f && sib.full) c

/-- A context is read off the marks outside the missing subtree. -/
theorem StoresCtx.congr :
    ∀ {c : Ctx} {h : Nat} {f : Bool}, StoresCtx t h f c →
      (∀ j, ¬ InSub h c.index j → t' j = t j) → StoresCtx t' h f c
  | .root, _, _, _, _ => trivial
  | .step s sib c, h, f, hs, hag => by
      obtain ⟨hmark, hsib, hup⟩ := hs
      have hl := c.onLevel
      refine ⟨?_, ?_, ?_⟩
      · rw [← hmark]
        exact hag _ (not_inSub_side hl s)
      · exact hsib.congr (fun j hj => hag j fun hj' => hj'.not_sibling hl hj)
          (hl.child s.flip)
      · exact hup.congr fun j hj => hag j fun hj' => hj hj'.child

/-- A context and a tree that fits its hole are one tree. -/
theorem stores_plug :
    ∀ {c : Ctx} {h : Nat} {b : Blk}, StoresCtx t h b.full c →
      Stores t h c.index b → Stores t (h + c.depth) 0 (c.plug b)
  | .root, _, _, _, hs => hs
  | .step s sib c, h, b, hc, hs => by
      obtain ⟨hmark, hsib, hup⟩ := hc
      have hnode : Stores t (h + 1) c.index (s.node b sib) :=
        stores_side.mpr ⟨hmark, hs, hsib⟩
      rw [← Side.full_node s] at hup
      have hroot := stores_plug hup hnode
      rw [Nat.add_right_comm] at hroot
      exact hroot

end Aim.Kern
