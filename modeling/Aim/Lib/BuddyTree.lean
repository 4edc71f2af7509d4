import Mathlib.Data.List.Perm.Basic
import Mathlib.Data.List.Pairwise
import Mathlib.Tactic.Ring

/-!
# Buddy trees

A buddy allocator hands out power-of-two blocks of one power-of-two range.
The state of the range is a binary tree: a leaf is a block that is entirely
free or entirely handed out, and an inner node is a block that has been cut
in half. Nothing here knows how such a tree is stored.

`alloc k h b` is first fit: the leftmost free block of size `2 ^ k` of the
tree `b` of height `h`, cutting a larger free leaf on the way down when it
has to. `release h b o` gives the block that starts at `o` back and joins
free halves on the way up.

Both are judged by `blocks`, the list of handed-out blocks of a tree with
their offsets. A well-formed tree has no inner node with two free halves
(`Wf`), so a free aligned run of pages is always visible as one free leaf or
inside one; that is what makes first fit complete
(`alloc_none_blocked`).
-/

namespace Aim.Lib

/-- The state of one block: free, handed out whole, or cut in half. -/
inductive Blk where
  | free
  | used
  | node (l r : Blk)
  deriving DecidableEq, Repr

namespace Blk

/-- Nothing in the block is free. -/
def full : Blk → Bool
  | .free => false
  | .used => true
  | .node l r => l.full && r.full

/-- A tree of height at most `h` without an inner node over two free
halves. -/
def Wf : Nat → Blk → Prop
  | _, .free => True
  | _, .used => True
  | 0, .node _ _ => False
  | h + 1, .node l r => ¬(l = .free ∧ r = .free) ∧ Wf h l ∧ Wf h r

/-- The handed-out blocks of a tree of height `h` at offset `base`, each with
its offset and its length, from left to right. -/
def blocks : Nat → Nat → Blk → List (Nat × Nat)
  | _, _, .free => []
  | h, base, .used => [(base, 2 ^ h)]
  | 0, _, .node _ _ => []
  | h + 1, base, .node l r =>
      blocks h base l ++ blocks h (base + 2 ^ h) r

/-- First fit for a block of size `2 ^ k`: its offset and the tree after. -/
def alloc (k : Nat) : Nat → Blk → Option (Nat × Blk)
  | 0, b => if k = 0 ∧ b = .free then some (0, .used) else none
  | h + 1, b =>
      if k = h + 1 then
        if b = .free then some (0, .used) else none
      else match b with
        | .free => (alloc k h .free).map fun p => (p.1, .node p.2 .free)
        | .used => none
        | .node l r =>
            match alloc k h l with
            | some p => some (p.1, .node p.2 r)
            | none => (alloc k h r).map fun p => (2 ^ h + p.1, .node l p.2)

/-- Two halves put back together: two free ones are one free block. -/
def join (l r : Blk) : Blk :=
  if l = .free ∧ r = .free then .free else .node l r

/-- Give back the block that starts at `o`, joining free halves upwards.
There is no answer when no handed-out block starts there. -/
def release : Nat → Blk → Nat → Option Blk
  | _, .free, _ => none
  | _, .used, o => if o = 0 then some .free else none
  | 0, .node _ _, _ => none
  | h + 1, .node l r, o =>
      if o < 2 ^ h then (release h l o).map fun l' => join l' r
      else (release h r (o - 2 ^ h)).map fun r' => join l r'

/-- The length of the handed-out block that holds page `o`. -/
def sizeAt : Nat → Blk → Nat → Option Nat
  | _, .free, _ => none
  | h, .used, _ => some (2 ^ h)
  | 0, .node _ _, _ => none
  | h + 1, .node l r, o =>
      if o < 2 ^ h then sizeAt h l o else sizeAt h r (o - 2 ^ h)

@[simp] theorem wf_free (h : Nat) : Wf h .free := by cases h <;> trivial

@[simp] theorem wf_used (h : Nat) : Wf h .used := by cases h <;> trivial

@[simp] theorem blocks_free (h base : Nat) : blocks h base .free = [] := by
  cases h <;> rfl

@[simp] theorem blocks_used (h base : Nat) : blocks h base .used = [(base, 2 ^ h)] := by
  cases h <;> rfl

@[simp] theorem blocks_node (h base : Nat) (l r : Blk) :
    blocks (h + 1) base (.node l r) =
      blocks h base l ++ blocks h (base + 2 ^ h) r := rfl

@[simp] theorem release_used_zero (h : Nat) : release h .used 0 = some .free := by
  cases h <;> rfl

@[simp] theorem release_free (h o : Nat) : release h .free o = none := by
  cases h <;> rfl

theorem release_used (h o : Nat) : release h .used o = if o = 0 then some .free else none := by
  cases h <;> rfl

@[simp] theorem sizeAt_free (h o : Nat) : sizeAt h .free o = none := by
  cases h <;> rfl

@[simp] theorem sizeAt_used (h o : Nat) : sizeAt h .used o = some (2 ^ h) := by
  cases h <;> rfl

variable {h base k o : Nat} {l r b b' : Blk} {p q : Nat × Nat} {ps qs : List (Nat × Nat)}

theorem wf_join (hl : Wf h l) (hr : Wf h r) : Wf (h + 1) (join l r) := by
  unfold join
  split
  · exact wf_free _
  · next hne => exact ⟨hne, hl, hr⟩

theorem blocks_join (h base : Nat) (l r : Blk) :
    blocks (h + 1) base (join l r) =
      blocks h base l ++ blocks h (base + 2 ^ h) r := by
  unfold join
  split
  · next hf => rw [hf.1, hf.2]; simp
  · rfl

/-! ## Where the blocks lie -/

/-- A block lies inside the range of its tree and starts on a multiple of its
own length. -/
theorem blocks_bounds (hp : p ∈ blocks h base b) :
    0 < p.2 ∧ base ≤ p.1 ∧ p.1 + p.2 ≤ base + 2 ^ h ∧
      (2 ^ h ∣ base → p.2 ∣ p.1) := by
  induction b generalizing h base with
  | free => simp at hp
  | used =>
      rw [blocks_used, List.mem_singleton] at hp
      subst hp
      exact ⟨Nat.pow_pos (by omega), Nat.le_refl _, Nat.le_refl _, id⟩
  | node l r ihl ihr =>
      cases h with
      | zero => simp [blocks] at hp
      | succ h =>
          rw [blocks_node, List.mem_append] at hp
          rcases hp with hp | hp
          · obtain ⟨h0, h1, h2, h3⟩ := ihl hp
            refine ⟨h0, h1, ?_, fun hd => h3 ?_⟩
            · rw [Nat.pow_succ]; omega
            · exact Nat.dvd_trans (Nat.pow_dvd_pow 2 (by omega)) hd
          · obtain ⟨h0, h1, h2, h3⟩ := ihr hp
            refine ⟨h0, by omega, ?_, fun hd => h3 ?_⟩
            · rw [Nat.pow_succ]; omega
            · exact Nat.dvd_add
                (Nat.dvd_trans (Nat.pow_dvd_pow 2 (by omega)) hd)
                (Nat.dvd_refl _)

/-- A tree at another offset has its blocks there. -/
theorem blocks_shift (c h base : Nat) (b : Blk) :
    blocks h (c + base) b = (blocks h base b).map fun p => (c + p.1, p.2) := by
  induction b generalizing h base with
  | free => simp
  | used => simp
  | node l r ihl ihr =>
      cases h with
      | zero => simp [blocks]
      | succ h => rw [blocks_node, blocks_node, List.map_append, ihl, Nat.add_assoc, ihr]

/-- Two blocks that share no page. -/
def Apart (p q : Nat × Nat) : Prop := p.1 + p.2 ≤ q.1 ∨ q.1 + q.2 ≤ p.1

theorem Apart.symm {p q : Nat × Nat} (h : Apart p q) : Apart q p := Or.symm h

theorem blocks_pairwise (h base : Nat) (b : Blk) : (blocks h base b).Pairwise Apart := by
  induction b generalizing h base with
  | free => simp
  | used => simp
  | node l r ihl ihr =>
      cases h with
      | zero => simp [blocks]
      | succ h =>
          rw [blocks_node, List.pairwise_append]
          refine ⟨ihl h base, ihr h _, fun p hp q hq => ?_⟩
          obtain ⟨_, _, hpe, _⟩ := blocks_bounds hp
          obtain ⟨_, hqs, _, _⟩ := blocks_bounds hq
          exact Or.inl (by omega)

/-- The blocks of a tree have at most as many pages as its range. -/
theorem blocks_total (h base : Nat) (b : Blk) : ((blocks h base b).map Prod.snd).sum ≤ 2 ^ h := by
  induction b generalizing h base with
  | free => simp
  | used => simp
  | node l r ihl ihr =>
      cases h with
      | zero => simp [blocks]
      | succ h =>
          rw [blocks_node, List.map_append, List.sum_append, Nat.pow_succ]
          have hl := ihl h base
          have hr := ihr h (base + 2 ^ h)
          omega

/-- A well-formed tree with nothing handed out is the free leaf. -/
theorem blocks_ne_nil (base : Nat) (hw : Wf h b) (hne : b ≠ .free) : blocks h base b ≠ [] := by
  induction b generalizing h base with
  | free => exact absurd rfl hne
  | used => simp
  | node l r ihl ihr =>
      cases h with
      | zero => exact absurd hw id
      | succ h =>
          obtain ⟨hnb, hl, hr⟩ := hw
          rw [blocks_node]
          by_cases hlf : l = .free
          · have hrf : r ≠ .free := fun hrf => hnb ⟨hlf, hrf⟩
            exact fun hnil => ihr _ hr hrf (List.append_eq_nil_iff.mp hnil).2
          · exact fun hnil => ihl _ hl hlf (List.append_eq_nil_iff.mp hnil).1

/-- The halves of an inner node share out its blocks by their offset. -/
theorem mem_blocks_left :
    p ∈ blocks h base l ↔
      p ∈ blocks (h + 1) base (.node l r) ∧ p.1 < base + 2 ^ h := by
  rw [blocks_node, List.mem_append]
  constructor
  · intro hp
    obtain ⟨h0, _, hend, _⟩ := blocks_bounds hp
    exact ⟨Or.inl hp, by omega⟩
  · rintro ⟨hp | hp, hlt⟩
    · exact hp
    · obtain ⟨_, hstart, _, _⟩ := blocks_bounds hp
      omega

theorem mem_blocks_right :
    p ∈ blocks h (base + 2 ^ h) r ↔
      p ∈ blocks (h + 1) base (.node l r) ∧ base + 2 ^ h ≤ p.1 := by
  rw [blocks_node, List.mem_append]
  constructor
  · intro hp
    exact ⟨Or.inr hp, (blocks_bounds hp).2.1⟩
  · rintro ⟨hp | hp, hge⟩
    · obtain ⟨h0, _, hend, _⟩ := blocks_bounds hp
      omega
    · exact hp

/-- No block of a cut range is as long as the range. -/
theorem not_mem_blocks_node : (base, 2 ^ (h + 1)) ∉ blocks (h + 1) base (.node l r) := by
  have hpos : 0 < 2 ^ h := Nat.pow_pos (by omega)
  rw [blocks_node, List.mem_append]
  rintro (hp | hp)
  · have hend := (blocks_bounds hp).2.2.1
    simp only [Nat.pow_succ] at hend
    omega
  · have hstart := (blocks_bounds hp).2.1
    simp only at hstart
    omega

theorem free_of_no_blocks (base : Nat) (hw : Wf h b) (hno : ∀ p, p ∉ blocks h base b) :
    b = .free := by
  by_contra hne
  exact blocks_ne_nil base hw hne (List.eq_nil_iff_forall_not_mem.mpr hno)

/-- A well-formed tree is known by its blocks. -/
theorem blocks_inj (base : Nat) (hw : Wf h b) (hw' : Wf h b')
    (heq : ∀ p, p ∈ blocks h base b ↔ p ∈ blocks h base b') : b = b' := by
  induction b generalizing h base b' with
  | free => exact (free_of_no_blocks base hw' fun p hp => by simpa using (heq p).mpr hp).symm
  | used =>
      have hwhole := (heq (base, 2 ^ h)).mp (by simp)
      cases b' with
      | free => simp at hwhole
      | used => rfl
      | node l r =>
          cases h with
          | zero => exact absurd hw' id
          | succ h => exact absurd hwhole not_mem_blocks_node
  | node l r ihl ihr =>
      cases h with
      | zero => exact absurd hw id
      | succ h =>
          cases b' with
          | free => exact free_of_no_blocks base hw fun p hp => by simpa using (heq p).mp hp
          | used =>
              have hwhole := (heq (base, 2 ^ (h + 1))).mpr (by simp)
              exact absurd hwhole not_mem_blocks_node
          | node l' r' =>
              have hl : l = l' := by
                refine ihl base hw.2.1 hw'.2.1 fun p => ?_
                rw [mem_blocks_left (r := r), heq p, ← mem_blocks_left]
              have hr : r = r' := by
                refine ihr (base + 2 ^ h) hw.2.2 hw'.2.2 fun p => ?_
                rw [mem_blocks_right (l := l), heq p, ← mem_blocks_right]
              rw [hl, hr]

/-! ## First fit -/

theorem alloc_self : alloc k k b = if b = .free then some (0, .used) else none := by
  cases k <;> simp [alloc]

theorem alloc_self_eq_some (h : alloc k k b = some (o, b')) :
    b = .free ∧ o = 0 ∧ b' = .used := by
  rw [alloc_self] at h
  split at h
  · next hb =>
      simp only [Option.some.injEq, Prod.mk.injEq] at h
      exact ⟨hb, h.1.symm, h.2.symm⟩
  · cases h

theorem alloc_free_succ (hk : k ≤ h) :
    alloc k (h + 1) .free =
      (alloc k h .free).map fun p => (p.1, .node p.2 .free) := by
  rw [alloc, if_neg (by omega)]

theorem alloc_used : alloc k h .used = none := by
  cases h with
  | zero => simp [alloc]
  | succ h => rw [alloc]; split <;> simp

theorem alloc_node (hk : k ≤ h) (l r : Blk) :
    alloc k (h + 1) (.node l r) =
      match alloc k h l with
      | some p => some (p.1, .node p.2 r)
      | none => (alloc k h r).map fun p => (2 ^ h + p.1, .node l p.2) := by
  rw [alloc, if_neg (by omega)]

/-- A free block always has room. -/
theorem alloc_free (hk : k ≤ h) : ∃ b', alloc k h .free = some (0, b') := by
  induction h with
  | zero =>
      obtain rfl : k = 0 := by omega
      exact ⟨.used, rfl⟩
  | succ h ih =>
      by_cases hkh : k = h + 1
      · subst hkh; exact ⟨.used, by simp [alloc_self]⟩
      · obtain ⟨b', hb'⟩ := ih (by omega)
        exact ⟨.node b' .free, by rw [alloc_free_succ (by omega), hb']; rfl⟩

/-- What a successful allocation does: the tree was not full, it is not free
afterwards, it stays well formed, and the new block joins the others. -/
theorem alloc_spec (hk : k ≤ h) (ha : alloc k h b = some (o, b')) :
    b.full = false ∧ b' ≠ .free ∧ (Wf h b → Wf h b') ∧
      ∀ base, (blocks h base b').Perm ((base + o, 2 ^ k) :: blocks h base b) := by
  induction h generalizing b b' o with
  | zero =>
      obtain rfl : k = 0 := by omega
      obtain ⟨rfl, rfl, rfl⟩ := alloc_self_eq_some ha
      exact ⟨rfl, by simp, fun _ => wf_used _, fun base => by simp⟩
  | succ h ih =>
      by_cases hkh : k = h + 1
      · subst hkh
        obtain ⟨rfl, rfl, rfl⟩ := alloc_self_eq_some ha
        exact ⟨rfl, by simp, fun _ => wf_used _, fun base => by simp⟩
      · have hk' : k ≤ h := by omega
        cases b with
        | free =>
            rw [alloc_free_succ hk', Option.map_eq_some_iff] at ha
            obtain ⟨⟨o₁, b₁⟩, hb₁, heq⟩ := ha
            simp only [Prod.mk.injEq] at heq
            obtain ⟨rfl, rfl⟩ := heq
            obtain ⟨_, hne, hwf, hbl⟩ := ih hk' hb₁
            refine ⟨rfl, by simp, fun _ => ⟨fun h => hne h.1, hwf (wf_free _),
              wf_free _⟩, fun base => ?_⟩
            simpa using hbl base
        | used => rw [alloc_used] at ha; cases ha
        | node l r =>
            rw [alloc_node hk'] at ha
            cases hl : alloc k h l with
            | some p =>
                obtain ⟨o₁, l₁⟩ := p
                simp only [hl, Option.some.injEq, Prod.mk.injEq] at ha
                obtain ⟨rfl, rfl⟩ := ha
                obtain ⟨hf, hne, hwf, hbl⟩ := ih hk' hl
                refine ⟨by simp [full, hf], by simp, fun hw => ⟨fun h => hne h.1,
                  hwf hw.2.1, hw.2.2⟩, fun base => ?_⟩
                exact (hbl base).append_right _
            | none =>
                simp only [hl, Option.map_eq_some_iff] at ha
                obtain ⟨⟨o₁, r₁⟩, hr, heq⟩ := ha
                simp only [Prod.mk.injEq] at heq
                obtain ⟨rfl, rfl⟩ := heq
                obtain ⟨hf, hne, hwf, hbl⟩ := ih hk' hr
                refine ⟨by simp [full, hf], by simp, fun hw => ⟨fun h => hne h.2,
                  hw.2.1, hwf hw.2.2⟩, fun base => ?_⟩
                have hseam := (hbl (base + 2 ^ h)).append_left (blocks h base l)
                rw [Nat.add_assoc] at hseam
                exact hseam.trans List.perm_middle

/-- There is a free page exactly where not everything is handed out. -/
theorem alloc_page_isSome (hw : Wf h b) : (alloc 0 h b).isSome = !b.full := by
  induction b generalizing h with
  | free =>
      obtain ⟨b', hb'⟩ := alloc_free (Nat.zero_le h)
      rw [hb']
      rfl
  | used => rw [alloc_used]; rfl
  | node l r ihl ihr =>
      cases h with
      | zero => exact absurd hw id
      | succ h =>
          have hl := ihl hw.2.1
          have hr := ihr hw.2.2
          rw [alloc_node (by omega), full, Bool.not_and, ← hl, ← hr]
          cases alloc 0 h l with
          | some p => rfl
          | none => simp

/-- Some handed-out block reaches into the run `q`. -/
def Blocked (ps : List (Nat × Nat)) (q : Nat × Nat) : Prop :=
  ∃ p ∈ ps, ¬ Apart p q

theorem Blocked.append_left (h : Blocked ps q) : Blocked (ps ++ qs) q := by
  obtain ⟨p, hp, hq⟩ := h
  exact ⟨p, List.mem_append_left _ hp, hq⟩

theorem Blocked.append_right (h : Blocked qs q) : Blocked (ps ++ qs) q := by
  obtain ⟨p, hp, hq⟩ := h
  exact ⟨p, List.mem_append_right _ hp, hq⟩

/-- A tree that is not the free leaf has a block in its range. -/
theorem blocked_whole (base : Nat) (hw : Wf h b) (hne : b ≠ .free) :
    Blocked (blocks h base b) (base, 2 ^ h) := by
  obtain ⟨p, hp⟩ := List.exists_mem_of_ne_nil _ (blocks_ne_nil base hw hne)
  obtain ⟨h0, h1, h2, _⟩ := blocks_bounds hp
  refine ⟨p, hp, fun hap => ?_⟩
  rcases hap with hap | hap <;> simp only at hap <;> omega

/-- The runs of `2 ^ k` pages of a range of `2 ^ (h + 1)` pages are those of
its two halves. -/
theorem run_halves {k h m : Nat} (hk : k ≤ h) (hm : m < 2 ^ (h + 1 - k)) :
    m < 2 ^ (h - k) ∨ ∃ m', m' < 2 ^ (h - k) ∧ m = 2 ^ (h - k) + m' ∧
      m * 2 ^ k = 2 ^ h + m' * 2 ^ k := by
  rcases Nat.lt_or_ge m (2 ^ (h - k)) with hlt | hge
  · exact Or.inl hlt
  · have hpow : 2 ^ (h + 1 - k) = 2 ^ (h - k) + 2 ^ (h - k) := by
      rw [show h + 1 - k = h - k + 1 by omega, Nat.pow_succ]; omega
    refine Or.inr ⟨m - 2 ^ (h - k), by omega, by omega, ?_⟩
    have hsplit : m = 2 ^ (h - k) + (m - 2 ^ (h - k)) := by omega
    calc m * 2 ^ k = (2 ^ (h - k) + (m - 2 ^ (h - k))) * 2 ^ k := by
            rw [← hsplit]
      _ = 2 ^ (h - k) * 2 ^ k + (m - 2 ^ (h - k)) * 2 ^ k := Nat.add_mul _ _ _
      _ = 2 ^ h + (m - 2 ^ (h - k)) * 2 ^ k := by
            rw [← Nat.pow_add, Nat.sub_add_cancel hk]

/-- The handed-out leaf blocks every run inside it. -/
theorem blocked_used {k h m base : Nat} (hk : k ≤ h) (hm : m < 2 ^ (h - k)) :
    Blocked [(base, 2 ^ h)] (base + m * 2 ^ k, 2 ^ k) := by
  refine ⟨_, List.mem_singleton.mpr rfl, fun hap => ?_⟩
  have hlt : m * 2 ^ k < 2 ^ h := by
    calc m * 2 ^ k < 2 ^ (h - k) * 2 ^ k :=
          Nat.mul_lt_mul_of_pos_right hm (Nat.pow_pos (by omega))
      _ = 2 ^ h := by rw [← Nat.pow_add, Nat.sub_add_cancel hk]
  have hpos : 0 < 2 ^ k := Nat.pow_pos (by omega)
  rcases hap with hap | hap <;> simp only at hap <;> omega

/-- Completeness of first fit: a tree without room has a block in every
aligned run of the requested length. -/
theorem alloc_none_blocked (hk : k ≤ h) (hw : Wf h b) (ha : alloc k h b = none) {m : Nat}
    (hm : m < 2 ^ (h - k)) (base : Nat) :
    Blocked (blocks h base b) (base + m * 2 ^ k, 2 ^ k) := by
  induction h generalizing b m base with
  | zero =>
      obtain rfl : k = 0 := by omega
      rw [alloc_self] at ha
      have hne : b ≠ .free := by rintro rfl; simp at ha
      obtain rfl : m = 0 := by simpa using hm
      simpa using blocked_whole base hw hne
  | succ h ih =>
      by_cases hkh : k = h + 1
      · subst hkh
        rw [alloc_self] at ha
        have hne : b ≠ .free := by rintro rfl; simp at ha
        obtain rfl : m = 0 := by simpa using hm
        simpa using blocked_whole base hw hne
      · have hk' : k ≤ h := by omega
        cases b with
        | free =>
            obtain ⟨b', hb'⟩ := alloc_free (k := k) (h := h + 1) (by omega)
            rw [hb'] at ha
            cases ha
        | used => rw [blocks_used]; exact blocked_used (by omega) hm
        | node l r =>
            rw [alloc_node hk'] at ha
            cases hl : alloc k h l with
            | some p => simp [hl] at ha
            | none =>
                simp only [hl, Option.map_eq_none_iff] at ha
                rcases run_halves hk' hm with hlt | ⟨m', hm', _, hmk⟩
                · exact (ih hk' hw.2.1 hl hlt base).append_left
                · have hr := ih hk' hw.2.2 ha hm' (base + 2 ^ h)
                  rw [Nat.add_assoc, ← hmk] at hr
                  exact hr.append_right

/-- Minimality of first fit: the block found is an aligned run, and every
aligned run to its left is blocked. -/
theorem alloc_first (hk : k ≤ h) (hw : Wf h b) (ha : alloc k h b = some (o, b')) :
    ∃ m, m < 2 ^ (h - k) ∧ o = m * 2 ^ k ∧
      ∀ m' < m, ∀ base, Blocked (blocks h base b) (base + m' * 2 ^ k, 2 ^ k) := by
  induction h generalizing b b' o with
  | zero =>
      obtain rfl : k = 0 := by omega
      obtain ⟨-, rfl, -⟩ := alloc_self_eq_some ha
      exact ⟨0, by simp, by omega, fun m' hm' => absurd hm' (by omega)⟩
  | succ h ih =>
      by_cases hkh : k = h + 1
      · subst hkh
        obtain ⟨-, rfl, -⟩ := alloc_self_eq_some ha
        exact ⟨0, by simp, by omega, fun m' hm' => absurd hm' (by omega)⟩
      · have hk' : k ≤ h := by omega
        have hpow : 2 ^ (h + 1 - k) = 2 ^ (h - k) + 2 ^ (h - k) := by
          rw [show h + 1 - k = h - k + 1 by omega, Nat.pow_succ]; omega
        cases b with
        | free =>
            obtain ⟨b₁, hb₁⟩ := alloc_free (k := k) (h := h + 1) (by omega)
            rw [hb₁] at ha
            simp only [Option.some.injEq, Prod.mk.injEq] at ha
            exact ⟨0, Nat.pow_pos (by omega), by omega,
              fun m' hm' => absurd hm' (by omega)⟩
        | used => rw [alloc_used] at ha; cases ha
        | node l r =>
            rw [alloc_node hk'] at ha
            cases hl : alloc k h l with
            | some p =>
                obtain ⟨o₁, l₁⟩ := p
                simp only [hl, Option.some.injEq, Prod.mk.injEq] at ha
                obtain ⟨rfl, rfl⟩ := ha
                obtain ⟨m, hm, ho, hb⟩ := ih hk' hw.2.1 hl
                exact ⟨m, by omega, ho, fun m' hm' base =>
                  (hb m' hm' base).append_left⟩
            | none =>
                simp only [hl, Option.map_eq_some_iff] at ha
                obtain ⟨⟨o₁, r₁⟩, hr, heq⟩ := ha
                simp only [Prod.mk.injEq] at heq
                obtain ⟨rfl, rfl⟩ := heq
                obtain ⟨m, hm, ho, hb⟩ := ih hk' hw.2.2 hr
                refine ⟨2 ^ (h - k) + m, by omega, ?_, fun m' hm' base => ?_⟩
                · rw [Nat.add_mul, ← Nat.pow_add, Nat.sub_add_cancel hk', ho]
                · rcases run_halves (m := m') hk' (by omega) with
                    hlt | ⟨m₂, _, hm₂, hmk⟩
                  · exact (alloc_none_blocked hk' hw.2.1 hl hlt base).append_left
                  · have hright := hb m₂ (by omega) (base + 2 ^ h)
                    rw [Nat.add_assoc, ← hmk] at hright
                    exact hright.append_right

/-- The block found was not blocked. -/
theorem alloc_not_blocked (hk : k ≤ h) (ha : alloc k h b = some (o, b')) (base : Nat) :
    ¬ Blocked (blocks h base b) (base + o, 2 ^ k) := by
  rintro ⟨p, hp, hnot⟩
  have hperm := (alloc_spec hk ha).2.2.2 base
  have hpair := (hperm.pairwise_iff (fun h => h.symm)).mp (blocks_pairwise h base b')
  exact hnot ((List.pairwise_cons.mp hpair).1 p hp).symm

/-! ## Giving a block back -/

/-- Giving back the block at `o` succeeds exactly when a block starts there,
keeps the tree well formed and takes that block off the list. -/
theorem release_spec {base o n : Nat} (hw : Wf h b) (hm : (base + o, n) ∈ blocks h base b) :
    ∃ b', release h b o = some b' ∧ Wf h b' ∧
      (blocks h base b).Perm ((base + o, n) :: blocks h base b') := by
  induction b generalizing h base o with
  | free => simp at hm
  | used =>
      simp only [blocks_used, List.mem_singleton, Prod.mk.injEq] at hm
      obtain ⟨ho, rfl⟩ := hm
      obtain rfl : o = 0 := by omega
      exact ⟨.free, by simp, wf_free _, by simp⟩
  | node l r ihl ihr =>
      cases h with
      | zero => exact absurd hw id
      | succ h =>
          obtain ⟨_, hl, hr⟩ := hw
          rw [blocks_node, List.mem_append] at hm
          rcases hm with hm | hm
          · obtain ⟨h0, _, hend, _⟩ := blocks_bounds hm
            simp only at h0 hend
            obtain ⟨l', hl', hwl, hbl⟩ := ihl hl hm
            refine ⟨join l' r, ?_, wf_join hwl hr, ?_⟩
            · rw [release, if_pos (by omega), hl']; rfl
            · rw [blocks_node, blocks_join]
              exact hbl.append_right _
          · obtain ⟨_, hstart, _, _⟩ := blocks_bounds hm
            simp only at hstart
            have hoff : base + o = base + 2 ^ h + (o - 2 ^ h) := by omega
            rw [hoff] at hm
            obtain ⟨r', hr', hwr, hbr⟩ := ihr hr hm
            refine ⟨join l r', ?_, wf_join hl hwr, ?_⟩
            · rw [release, if_neg (by omega), hr']; rfl
            · rw [blocks_node, blocks_join, hoff]
              exact (hbr.append_left _).trans List.perm_middle

/-- The block that holds page `o`, from the page's side. -/
theorem sizeAt_eq_some_iff {o n : Nat} (base : Nat) (ho : o < 2 ^ h) :
    sizeAt h b o = some n ↔
      ∃ p ∈ blocks h base b, p.2 = n ∧ p.1 ≤ base + o ∧ base + o < p.1 + p.2 := by
  induction b generalizing h base o with
  | free => simp
  | used => simp; omega
  | node l r ihl ihr =>
      cases h with
      | zero => simp [sizeAt, blocks]
      | succ h =>
          rw [sizeAt, blocks_node]
          rw [Nat.pow_succ] at ho
          split
          · next hlt =>
              rw [ihl base hlt]
              constructor
              · rintro ⟨p, hp, hn, h1, h2⟩
                exact ⟨p, List.mem_append_left _ hp, hn, h1, h2⟩
              · rintro ⟨p, hp, hn, h1, h2⟩
                rcases List.mem_append.mp hp with hp | hp
                · exact ⟨p, hp, hn, h1, h2⟩
                · obtain ⟨_, hs, _, _⟩ := blocks_bounds hp
                  omega
          · next hge =>
              rw [ihr (base + 2 ^ h) (by omega)]
              constructor
              · rintro ⟨p, hp, hn, h1, h2⟩
                exact ⟨p, List.mem_append_right _ hp, hn, by omega, by omega⟩
              · rintro ⟨p, hp, hn, h1, h2⟩
                rcases List.mem_append.mp hp with hp | hp
                · obtain ⟨_, _, he, _⟩ := blocks_bounds hp
                  omega
                · exact ⟨p, hp, hn, by omega, by omega⟩

end Blk

end Aim.Lib
