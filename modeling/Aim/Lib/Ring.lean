import Mathlib.Data.List.Nodup
import Mathlib.Data.List.Perm.Subperm

/-!
# Doubly linked rings

Lists in the style of `list.h`: every node has a `next` and a `prev`, a list is
a ring through a sentry node that stores no data, and the operations know
nothing but the links. `Links.Ring k h l` says that the nodes of `l`, in this
order, are what the ring through the sentry `h` has.

A ring is a special case of a segment, `Linked k a l b`, which leads from `a`
through `l` to `b`. A segment only looks at the forward links of `a` and `l`
and at the backward links of `l` and `b`; that is all the framing there is.
Adding a node behind `p` and deleting a node are first understood in the
segment that starts at `p`, and then carried to the ring.
-/

namespace Aim.Lib

open Function

/-- The links of all nodes. -/
structure Links (α : Type) where
  next : α → α
  prev : α → α

/-- There are less distinct non-null addresses below `n` than `n`. -/
theorem length_lt_of_addresses {l : List Nat} {n : Nat} (hn : 0 < n) (hnodup : l.Nodup)
    (hl : ∀ p ∈ l, 0 < p ∧ p < n) : l.length < n := by
  have hsub : l ⊆ List.range' 1 (n - 1) := by
    intro p hp
    have hr := hl p hp
    rw [List.mem_range'_1]
    omega
  have hle := (List.subperm_of_subset hnodup hsub).length_le
  rw [List.length_range'] at hle
  omega

namespace Links

variable {α : Type} [DecidableEq α]

/-- `INIT_LIST_HEAD`. -/
def init (k : Links α) (a : α) : Links α :=
  ⟨update k.next a a, update k.prev a a⟩

/-- `__list_add`, one write after the other. -/
def addBetween (k : Links α) (new prev next : α) : Links α :=
  let k := { k with prev := update k.prev next new }
  let k := { k with next := update k.next new next }
  let k := { k with prev := update k.prev new prev }
  { k with next := update k.next prev new }

/-- `list_add` and `list_add_after`. -/
def add (k : Links α) (new head : α) : Links α := k.addBetween new head (k.next head)

/-- `list_add_tail` and `list_add_before`. -/
def addTail (k : Links α) (new head : α) : Links α := k.addBetween new (k.prev head) head

/-- `list_del`. -/
def del (k : Links α) (entry : α) : Links α :=
  let k' := { k with prev := update k.prev (k.next entry) (k.prev entry) }
  { k' with next := update k'.next (k.prev entry) (k.next entry) }

/-- From `a` through `l` to `b`. -/
def Linked (k : Links α) : α → List α → α → Prop
  | a, [], b => k.next a = b ∧ k.prev b = a
  | a, x :: l, b => k.next a = x ∧ k.prev x = a ∧ Linked k x l b

/-- The ring through the sentry `h` has the nodes `l`. -/
structure Ring (k : Links α) (h : α) (l : List α) : Prop where
  linked : Linked k h l h
  nodup : (h :: l).Nodup

variable {k k' : Links α} {a b h p x new : α} {l l₀ l₁ l₂ l' : List α}

omit [DecidableEq α] in
theorem Linked.congr (hk : Linked k a l b) (hnext : ∀ y ∈ a :: l, k'.next y = k.next y)
    (hprev : ∀ y ∈ l ++ [b], k'.prev y = k.prev y) : Linked k' a l b := by
  induction l generalizing a with
  | nil =>
      obtain ⟨h1, h2⟩ := hk
      exact ⟨(hnext a List.mem_cons_self).trans h1, (hprev b List.mem_cons_self).trans h2⟩
  | cons y l ih =>
      obtain ⟨h1, h2, h3⟩ := hk
      refine ⟨(hnext a List.mem_cons_self).trans h1, (hprev y List.mem_cons_self).trans h2, ?_⟩
      exact ih h3 (fun z hz => hnext z (List.mem_cons_of_mem _ hz))
        (fun z hz => hprev z (List.mem_cons_of_mem _ hz))

omit [DecidableEq α] in
theorem linked_append : Linked k a (l₁ ++ x :: l₂) b ↔ Linked k a l₁ x ∧ Linked k x l₂ b := by
  induction l₁ generalizing a with
  | nil => exact and_assoc.symm
  | cons y l₁ ih =>
      show (_ ∧ _ ∧ Linked k y (l₁ ++ x :: l₂) b) ↔ (_ ∧ _ ∧ Linked k y l₁ x) ∧ _
      rw [ih, and_assoc, and_assoc]

/-! ## What the operations write -/

theorem add_next_self : (k.add new p).next p = new := by
  simp [add, addBetween]

theorem add_next_new (hp : new ≠ p) : (k.add new p).next new = k.next p := by
  simp [add, addBetween, update_of_ne hp]

theorem add_next_of_ne (hp : x ≠ p) (hnew : x ≠ new) : (k.add new p).next x = k.next x := by
  simp [add, addBetween, update_of_ne hp, update_of_ne hnew]

theorem add_prev_new : (k.add new p).prev new = p := by
  simp [add, addBetween]

theorem add_prev_next (hnew : k.next p ≠ new) : (k.add new p).prev (k.next p) = new := by
  simp [add, addBetween, update_of_ne hnew]

theorem add_prev_of_ne (hq : x ≠ k.next p) (hnew : x ≠ new) : (k.add new p).prev x = k.prev x := by
  simp [add, addBetween, update_of_ne hq, update_of_ne hnew]

theorem del_next_prev : (k.del x).next (k.prev x) = k.next x := by
  simp [del]

theorem del_next_of_ne (hp : a ≠ k.prev x) : (k.del x).next a = k.next a := by
  simp [del, update_of_ne hp]

theorem del_prev_next : (k.del x).prev (k.next x) = k.prev x := by
  simp [del]

theorem del_prev_of_ne (hq : a ≠ k.next x) : (k.del x).prev a = k.prev a := by
  simp [del, update_of_ne hq]

/-! ## Rings -/

theorem ring_init (k : Links α) (h : α) : Ring (k.init h) h [] where
  linked := by simp [Linked, init]
  nodup := List.nodup_singleton h

omit [DecidableEq α] in
/-- A ring only looks at the links of its own nodes. -/
theorem Ring.congr (hk : Ring k h l) (hnext : ∀ y ∈ h :: l, k'.next y = k.next y)
    (hprev : ∀ y ∈ h :: l, k'.prev y = k.prev y) : Ring k' h l where
  linked := by
    refine hk.linked.congr hnext ?_
    intro y hy
    refine hprev y ?_
    rcases List.mem_append.mp hy with hy | hy
    · exact List.mem_cons_of_mem _ hy
    · rw [List.mem_singleton.mp hy]
      exact List.mem_cons_self
  nodup := hk.nodup

theorem Ring.init_other (hk : Ring k h l) (ha : a ∉ h :: l) : Ring (k.init a) h l := by
  have hne : ∀ y ∈ h :: l, y ≠ a := by
    intro y hy hya
    exact ha (hya ▸ hy)
  refine hk.congr ?_ ?_
  · intro y hy
    exact update_of_ne (hne y hy) _ _
  · intro y hy
    exact update_of_ne (hne y hy) _ _

/-- A node is added at the start of a segment. -/
theorem Linked.add (hk : Linked k p l b) (hp : p ∉ l) (hb : b ∉ l) (hl : l.Nodup)
    (hnp : new ≠ p) (hnl : new ∉ l) (hnb : new ≠ b) :
    Linked (k.add new p) p (new :: l) b := by
  refine ⟨add_next_self, add_prev_new, ?_⟩
  cases l with
  | nil =>
      obtain ⟨h1, h2⟩ := hk
      refine ⟨(add_next_new hnp).trans h1, ?_⟩
      rw [← h1]
      exact add_prev_next (h1 ▸ Ne.symm hnb)
  | cons y l =>
      obtain ⟨h1, h2, h3⟩ := hk
      obtain ⟨hyl, hl⟩ := List.nodup_cons.mp hl
      have hyn : k.next p ≠ new := fun hy => hnl (hy ▸ h1 ▸ List.mem_cons_self)
      refine ⟨(add_next_new hnp).trans h1, ?_, h3.congr ?_ ?_⟩
      · rw [← h1]
        exact add_prev_next hyn
      · intro z hz
        exact add_next_of_ne (fun hzp => hp (hzp ▸ hz)) (fun hzn => hnl (hzn ▸ hz))
      · intro z hz
        have hzy : z ≠ y := by
          intro hzy
          rcases List.mem_append.mp hz with hz | hz
          · exact hyl (hzy ▸ hz)
          · exact hb (List.mem_singleton.mp hz ▸ hzy ▸ List.mem_cons_self)
        have hzn : z ≠ new := by
          intro hzn
          rcases List.mem_append.mp hz with hz | hz
          · exact hnl (hzn ▸ List.mem_cons_of_mem _ hz)
          · exact hnb (hzn ▸ List.mem_singleton.mp hz)
        exact add_prev_of_ne (h1 ▸ hzy) hzn

/-- The first node of a segment is deleted. -/
theorem Linked.del (hk : Linked k p (x :: l) b) (hp : p ∉ x :: l) (hb : b ∉ x :: l)
    (hl : (x :: l).Nodup) : Linked (k.del x) p l b := by
  obtain ⟨-, hprev, hk⟩ := hk
  obtain ⟨hxl, hl⟩ := List.nodup_cons.mp hl
  cases l with
  | nil =>
      obtain ⟨h1, -⟩ := hk
      have hn := del_next_prev (k := k) (x := x)
      have hq := del_prev_next (k := k) (x := x)
      rw [hprev, h1] at hn hq
      exact ⟨hn, hq⟩
  | cons y l =>
      obtain ⟨h1, -, h3⟩ := hk
      obtain ⟨hyl, -⟩ := List.nodup_cons.mp hl
      have hn := del_next_prev (k := k) (x := x)
      have hq := del_prev_next (k := k) (x := x)
      rw [hprev, h1] at hn hq
      refine ⟨hn, hq, h3.congr ?_ ?_⟩
      · intro z hz
        refine del_next_of_ne (fun hzp => hp ?_)
        rw [← hprev, ← hzp]
        exact List.mem_cons_of_mem _ hz
      · intro z hz
        refine del_prev_of_ne (fun hzy => ?_)
        rw [h1] at hzy
        rcases List.mem_append.mp hz with hz | hz
        · exact hyl (hzy ▸ hz)
        · refine hb (List.mem_singleton.mp hz ▸ hzy ▸ ?_)
          exact List.mem_cons_of_mem _ List.mem_cons_self

omit [DecidableEq α] in
/-- A ring from the node behind which something is to happen: the segment that
leads there, and the segment from there back to the sentry. -/
theorem linked_split (hk : Linked k a (l₁ ++ l₂) b) : Linked k (l₁.getLastD a) l₂ b := by
  rcases List.eq_nil_or_concat l₁ with rfl | ⟨l₀, p, rfl⟩
  · exact hk
  · rw [List.concat_eq_append, List.append_assoc, List.singleton_append, linked_append] at hk
    rw [List.concat_eq_append, List.getLastD_concat]
    exact hk.2

omit [DecidableEq α] in
theorem getLastD_mem (a : α) (l : List α) : l.getLastD a ∈ a :: l := by
  rcases List.eq_nil_or_concat l with rfl | ⟨l₀, p, rfl⟩
  · exact List.mem_cons_self
  · rw [List.concat_eq_append, List.getLastD_concat]
    exact List.mem_cons_of_mem _ (List.mem_append_right _ List.mem_cons_self)

omit [DecidableEq α] in
/-- The node behind `l₁` is the sentry or starts `l₂`; it is not in `l₁`. -/
theorem headD_ne (hnd : (h :: (l₁ ++ l₂)).Nodup) (hx : x ∈ l₁) : x ≠ l₂.headD h := by
  obtain ⟨hh, hnd⟩ := List.nodup_cons.mp hnd
  cases l₂ with
  | nil =>
      intro hxh
      rw [List.headD_nil] at hxh
      exact hh (hxh ▸ List.mem_append_left _ hx)
  | cons y l =>
      intro hxy
      rw [List.headD_cons] at hxy
      exact (List.nodup_append.mp hnd).2.2 x hx y List.mem_cons_self hxy

omit [DecidableEq α] in
theorem Ring.next_last (hk : Ring k h (l₁ ++ l₂)) : k.next (l₁.getLastD h) = l₂.headD h := by
  have hs := linked_split hk.linked
  cases l₂ with
  | nil => exact hs.1
  | cons y l => exact hs.1

omit [DecidableEq α] in
theorem Ring.prev_mem (hk : Ring k h (l₁ ++ x :: l₂)) : k.prev x = l₁.getLastD h :=
  (linked_split hk.linked).2.1

omit [DecidableEq α] in
theorem Ring.next_mem (hk : Ring k h (l₁ ++ x :: l₂)) : k.next x = l₂.headD h := by
  have hs := (linked_split hk.linked).2.2
  cases l₂ with
  | nil => exact hs.1
  | cons y l => exact hs.1

omit [DecidableEq α] in
theorem Ring.prev_sentry (hk : Ring k h l) : k.prev h = l.getLastD h := by
  have hk : Linked k h (l ++ []) h := by rw [List.append_nil]; exact hk.linked
  exact (linked_split hk).2

omit [DecidableEq α] in
theorem Ring.prev_headD (hk : Ring k h (l₁ ++ l₂)) : k.prev (l₂.headD h) = l₁.getLastD h := by
  cases l₂ with
  | nil =>
      rw [List.append_nil] at hk
      exact hk.prev_sentry
  | cons y l => exact hk.prev_mem

omit [DecidableEq α] in
/-- A change behind the node at the end of `l₁` that keeps the forward links
before it and the backward links up to it. -/
theorem Ring.replace {l₃ : List α} (hk : Ring k h (l₁ ++ l₂))
    (htail : Linked k' (l₁.getLastD h) l₃ h) (hnodup : (h :: (l₁ ++ l₃)).Nodup)
    (hnext : ∀ y ∈ h :: l₁, y ≠ l₁.getLastD h → k'.next y = k.next y)
    (hprev : ∀ y ∈ l₁, k'.prev y = k.prev y) : Ring k' h (l₁ ++ l₃) := by
  refine ⟨?_, hnodup⟩
  rcases List.eq_nil_or_concat l₁ with rfl | ⟨l₀, p, rfl⟩
  · exact htail
  · have hlin := hk.linked
    have hnd := hk.nodup
    simp only [List.concat_eq_append, List.append_assoc, List.singleton_append,
      List.getLastD_concat] at hlin htail hnext hprev hnd ⊢
    rw [linked_append] at hlin ⊢
    refine ⟨hlin.1.congr ?_ ?_, htail⟩
    · intro y hy
      have hyp : y ≠ p := by
        rw [← List.cons_append] at hnd
        exact fun hyp => (List.disjoint_of_nodup_append hnd) hy (hyp ▸ List.mem_cons_self)
      refine hnext y ?_ hyp
      rw [← List.cons_append]
      exact List.mem_append_left _ hy
    · exact hprev

theorem Ring.add (hk : Ring k h (l₁ ++ l₂)) (hnew : new ∉ h :: (l₁ ++ l₂)) :
    Ring (k.add new (l₁.getLastD h)) h (l₁ ++ new :: l₂) := by
  have hnd := hk.nodup
  have hlast := getLastD_mem h l₁
  rw [← List.cons_append] at hnew hnd
  obtain ⟨hnd₁, hnd₂, hdisj⟩ := List.nodup_append.mp hnd
  have hn₁ : new ∉ h :: l₁ := fun hm => hnew (List.mem_append_left _ hm)
  have hn₂ : new ∉ l₂ := fun hm => hnew (List.mem_append_right _ hm)
  have hh₂ : h ∉ l₂ := fun hm => hdisj h List.mem_cons_self h hm rfl
  refine hk.replace ?_ ?_ ?_ ?_
  · refine (linked_split hk.linked).add ?_ hh₂ hnd₂ ?_ hn₂ ?_
    · exact fun hm => hdisj _ hlast _ hm rfl
    · exact fun hm => hn₁ (hm ▸ hlast)
    · exact fun hm => hn₁ (hm ▸ List.mem_cons_self)
  · rw [← List.cons_append, List.nodup_append]
    refine ⟨hnd₁, List.nodup_cons.mpr ⟨hn₂, hnd₂⟩, ?_⟩
    intro y hy z hz hyz
    rcases List.mem_cons.mp hz with hz | hz
    · exact hn₁ (hz ▸ hyz ▸ hy)
    · exact hdisj y hy z hz hyz
  · intro y hy hyp
    exact add_next_of_ne hyp (fun hyn => hn₁ (hyn ▸ hy))
  · intro y hy
    refine add_prev_of_ne ?_ (fun hyn => hn₁ (hyn ▸ List.mem_cons_of_mem _ hy))
    rw [hk.next_last]
    exact headD_ne hk.nodup hy

/-- In front of a node, or of the sentry, is behind the node before it. -/
theorem Ring.addTail_eq (hk : Ring k h (l₁ ++ l₂)) :
    k.addTail new (l₂.headD h) = k.add new (l₁.getLastD h) := by
  rw [Links.addTail, Links.add, hk.prev_headD, hk.next_last]

theorem Ring.addTail (hk : Ring k h l) (hnew : new ∉ h :: l) :
    Ring (k.addTail new h) h (l ++ [new]) := by
  rw [← List.append_nil l] at hk hnew
  have heq : k.addTail new h = k.add new (l.getLastD h) := hk.addTail_eq
  rw [heq]
  exact hk.add hnew

theorem Ring.del (hk : Ring k h (l₁ ++ x :: l₂)) : Ring (k.del x) h (l₁ ++ l₂) := by
  have hnd := hk.nodup
  have hlast := getLastD_mem h l₁
  rw [← List.cons_append] at hnd
  obtain ⟨hnd₁, hnd₂, hdisj⟩ := List.nodup_append.mp hnd
  have hnd' : (h :: l₁).Nodup ∧ l₂.Nodup ∧ ∀ y ∈ h :: l₁, ∀ z ∈ l₂, y ≠ z := by
    refine ⟨hnd₁, (List.nodup_cons.mp hnd₂).2, ?_⟩
    intro y hy z hz
    exact hdisj y hy z (List.mem_cons_of_mem _ hz)
  refine hk.replace ?_ ?_ ?_ ?_
  · refine (linked_split hk.linked).del ?_ ?_ hnd₂
    · exact fun hm => hdisj _ hlast _ hm rfl
    · exact fun hm => hdisj _ List.mem_cons_self _ hm rfl
  · rw [← List.cons_append, List.nodup_append]
    exact hnd'
  · intro y hy hyp
    refine del_next_of_ne ?_
    rw [hk.prev_mem]
    exact hyp
  · intro y hy
    refine del_prev_of_ne ?_
    rw [hk.next_mem]
    refine headD_ne ?_ hy
    rw [← List.cons_append, List.nodup_append]
    exact hnd'

omit [DecidableEq α] in
theorem Linked.unique (hk : Linked k a l b) (hk' : Linked k a l' b) (hb : b ∉ l) (hb' : b ∉ l') :
    l = l' := by
  induction l generalizing a l' with
  | nil =>
      cases l' with
      | nil => rfl
      | cons y l' => exact absurd (hk.1.symm.trans hk'.1) fun he => hb' (he ▸ List.mem_cons_self)
  | cons x l ih =>
      cases l' with
      | nil => exact absurd (hk'.1.symm.trans hk.1) fun he => hb (he ▸ List.mem_cons_self)
      | cons y l' =>
          obtain ⟨hx, -, hl⟩ := hk
          obtain ⟨hy, -, hl'⟩ := hk'
          obtain rfl : x = y := hx.symm.trans hy
          rw [ih hl hl' (fun hm => hb (List.mem_cons_of_mem _ hm))
            fun hm => hb' (List.mem_cons_of_mem _ hm)]

omit [DecidableEq α] in
/-- The links say which nodes a ring has. -/
theorem Ring.unique (hk : Ring k h l) (hk' : Ring k h l') : l = l' :=
  hk.linked.unique hk'.linked (List.nodup_cons.mp hk.nodup).1 (List.nodup_cons.mp hk'.nodup).1

/-! ## Other rings -/

omit [DecidableEq α] in
theorem headD_mem (a : α) (l : List α) : l.headD a ∈ a :: l := by
  cases l with
  | nil => exact List.mem_cons_self
  | cons y l => exact List.mem_cons_of_mem _ List.mem_cons_self

omit [DecidableEq α] in
theorem getLastD_mem_append (a : α) (l₁ l₂ : List α) : l₁.getLastD a ∈ a :: (l₁ ++ l₂) :=
  List.cons_subset_cons a (List.subset_append_left l₁ l₂) (getLastD_mem a l₁)

omit [DecidableEq α] in
theorem headD_mem_append (a : α) (l₁ l₂ : List α) : l₂.headD a ∈ a :: (l₁ ++ l₂) :=
  List.cons_subset_cons a (List.subset_append_right l₁ l₂) (headD_mem a l₂)

omit [DecidableEq α] in
theorem headD_mem_middle (a x : α) (l₁ l₂ : List α) : l₂.headD a ∈ a :: (l₁ ++ x :: l₂) :=
  List.cons_subset_cons a
    (List.Subset.trans (List.subset_cons_self x l₂) (List.subset_append_right l₁ (x :: l₂)))
    (headD_mem a l₂)

theorem Ring.add_other {h' : α} (hk : Ring k h (l₁ ++ l₂)) (ho : Ring k h' l')
    (hdisj : ∀ y ∈ h' :: l', y ∉ h :: (l₁ ++ l₂)) (hnew : new ∉ h' :: l') :
    Ring (k.add new (l₁.getLastD h)) h' l' := by
  have hne : ∀ y ∈ h' :: l', y ≠ new := fun y hy hyn => hnew (hyn ▸ hy)
  refine ho.congr ?_ ?_
  · intro y hy
    refine add_next_of_ne (fun hyp => hdisj y hy ?_) (hne y hy)
    exact hyp ▸ getLastD_mem_append h l₁ l₂
  · intro y hy
    refine add_prev_of_ne (fun hyp => hdisj y hy ?_) (hne y hy)
    rw [hyp, hk.next_last]
    exact headD_mem_append h l₁ l₂

theorem Ring.del_other {h' : α} (hk : Ring k h (l₁ ++ x :: l₂)) (ho : Ring k h' l')
    (hdisj : ∀ y ∈ h' :: l', y ∉ h :: (l₁ ++ x :: l₂)) :
    Ring (k.del x) h' l' := by
  refine ho.congr ?_ ?_
  · intro y hy
    refine del_next_of_ne (fun hyp => hdisj y hy ?_)
    rw [hyp, hk.prev_mem]
    exact getLastD_mem_append h l₁ (x :: l₂)
  · intro y hy
    refine del_prev_of_ne (fun hyp => hdisj y hy ?_)
    rw [hyp, hk.next_mem]
    exact headD_mem_middle h x l₁ l₂

end Links

end Aim.Lib
