import Aim.Proofs.SimplePage

/-!
# The pages of all classes

The allocator's memory is described by three functions: the class `ord` of a
page, its free list `free`, and the list `lists` of pages of a class. `Pages`
ties the first two to the pages that are held and to the blocks that are out;
`ClassLists` ties the third to the links between the pages.

The two are kept apart because the operations on blocks and the operations on
lists are independent of each other. The link of a page is the only word both
kinds of lists share a page for, and `PageAt` does not speak of it. So an
operation of the source is a rule of `Pages` and a rule of `ClassLists`: `take`
with `keep` or `cut`, `put` with `keep` or `push`, `add` with `push`, and
`release` with `cut` or `unlink`.
-/

namespace Aim.Kern

open Aim.Lib Mem Function

/-! ## The size classes -/

/-- Size and number of the blocks, by class. -/
def classes : List (Nat × Nat) := initialSizes.map fun d => (d.size, d.nblocks)

def classSize (o : Nat) : Nat := (classes.getD o (0, 0)).1

def classBlocks (o : Nat) : Nat := (classes.getD o (0, 0)).2

variable {o : Nat}

theorem class_layout (ho : o < 8) : Layout (classSize o) (classBlocks o) := by
  have hall : ∀ o < 8, 0 < classBlocks o ∧ 8 < classSize o ∧ classSize o % 4 = 0 ∧
      16 + classBlocks o * classSize o ≤ 4096 := by decide
  obtain ⟨h1, h2, h3, h4⟩ := hall o ho
  exact ⟨h1, h2, h3, h4⟩

theorem classBlocks_lt (ho : o < 8) : classBlocks o < 128 := by
  have hall : ∀ o < 8, classBlocks o < 128 := by decide
  exact hall o ho

theorem classSize_le (ho : o < 8) : classSize o ≤ 4080 := by
  have hall : ∀ o < 8, classSize o ≤ 4080 := by decide
  exact hall o ho

/-! ## Lists of pages -/

/-- The class `o` has the pages `lists o`, linked from `first o`. `In o page`
says which pages those are, `Full page` which pages are in no list and have a
null link. -/
structure ClassLists (m : Mem) (first : Nat → Nat) (lists : Nat → List Nat)
    (In : Nat → Nat → Prop) (Full : Nat → Prop) : Prop where
  chain : ∀ o < 8, Chain 0 (load32 m) (first o) (lists o)
  nodup : ∀ o < 8, (lists o).Nodup
  mem_iff : ∀ o < 8, ∀ page, page ∈ lists o ↔ In o page
  full : ∀ page, Full page → load32 m page = 0

namespace ClassLists

variable {m m' : Mem} {first : Nat → Nat} {lists : Nat → List Nat}
  {In In' : Nat → Nat → Prop} {Full Full' : Nat → Prop} {o page : Nat} {l₁ l₂ : List Nat}
  (h : ClassLists m first lists In Full)

include h

/-- No link changes. -/
theorem keep (hlink : ∀ o page, In o page → load32 m' page = load32 m page)
    (hfull : ∀ page, Full' page → load32 m' page = 0) (hIn : ∀ o page, In' o page ↔ In o page) :
    ClassLists m' first lists In' Full' where
  chain o ho := (h.chain o ho).congr fun page hp =>
    hlink o page ((h.mem_iff o ho page).mp hp)
  nodup := h.nodup
  mem_iff o ho page := by rw [h.mem_iff o ho, hIn]
  full := hfull

/-- A page comes in front of the list of `o`. -/
theorem push (ho : o < 8) (hpos : 0 < page) (hnew : ∀ o, ¬ In o page)
    (hhead : load32 m' page = first o) (hlink : ∀ o q, In o q → load32 m' q = load32 m q)
    (hfull : ∀ q, Full' q → load32 m' q = 0)
    (hIn : ∀ o' q, In' o' q ↔ In o' q ∨ o' = o ∧ q = page) :
    ClassLists m' (update first o page)
      (update lists o (page :: lists o)) In' Full' := by
  have hlink' : ∀ o' < 8, ∀ q ∈ lists o', load32 m' q = load32 m q :=
    fun o' ho' q hq => hlink o' q ((h.mem_iff o' ho' q).mp hq)
  constructor
  · intro o' ho'
    by_cases heq : o' = o
    · subst heq
      rw [update_self, update_self]
      exact (h.chain o' ho').push (by omega) hhead (hlink' o' ho')
    · rw [update_of_ne heq, update_of_ne heq]
      exact (h.chain o' ho').congr (hlink' o' ho')
  · intro o' ho'
    by_cases heq : o' = o
    · subst heq
      rw [update_self, List.nodup_cons, h.mem_iff o' ho']
      exact ⟨hnew o', h.nodup o' ho'⟩
    · rw [update_of_ne heq]
      exact h.nodup o' ho'
  · intro o' ho' q
    rw [hIn]
    by_cases heq : o' = o
    · subst heq
      rw [update_self, List.mem_cons, h.mem_iff o' ho', or_comm]
      simp
    · rw [update_of_ne heq, h.mem_iff o' ho']
      simp [heq]
  · exact hfull

/-- What is left of the lists when a page leaves the class `o`. -/
theorem mem_iff_cut (ho : o < 8) (hl : lists o = l₁ ++ page :: l₂)
    (honly : ∀ o', In o' page → o' = o) (hIn : ∀ o' q, In' o' q ↔ In o' q ∧ q ≠ page) :
    ∀ o' < 8, ∀ q, q ∈ update lists o (l₁ ++ l₂) o' ↔ In' o' q := by
  intro o' ho' q
  rw [hIn]
  by_cases heq : o' = o
  · subst heq
    have hnodup := h.nodup o' ho'
    rw [hl, List.nodup_middle, List.nodup_cons] at hnodup
    rw [update_self, ← h.mem_iff o' ho', hl]
    constructor
    · intro hq
      refine ⟨?_, fun heq => hnodup.1 (heq ▸ hq)⟩
      rcases List.mem_append.mp hq with hq | hq
      · exact List.mem_append_left _ hq
      · exact List.mem_append_right _ (List.mem_cons_of_mem _ hq)
    · intro hq
      rcases List.mem_append.mp hq.1 with hmem | hmem
      · exact List.mem_append_left _ hmem
      · rcases List.mem_cons.mp hmem with hqp | hmem
        · exact absurd hqp hq.2
        · exact List.mem_append_right _ hmem
  · rw [update_of_ne heq, h.mem_iff o' ho']
    constructor
    · intro hq
      exact ⟨hq, fun hqp => heq (honly o' (hqp ▸ hq))⟩
    · exact fun hq => hq.1

theorem nodup_cut (ho : o < 8) (hl : lists o = l₁ ++ page :: l₂) :
    ∀ o' < 8, (update lists o (l₁ ++ l₂) o').Nodup := by
  intro o' ho'
  by_cases heq : o' = o
  · subst heq
    have hnodup := h.nodup o' ho'
    rw [hl, List.nodup_middle, List.nodup_cons] at hnodup
    rw [update_self]
    exact hnodup.2
  · rw [update_of_ne heq]
    exact h.nodup o' ho'

/-- The first page of a list leaves it. -/
theorem cut (ho : o < 8) {l : List Nat} (hl : lists o = page :: l)
    (honly : ∀ o', In o' page → o' = o)
    (hlink : ∀ o q, In o q → q ≠ page → load32 m' q = load32 m q)
    (hfull : ∀ q, Full' q → load32 m' q = 0) (hIn : ∀ o' q, In' o' q ↔ In o' q ∧ q ≠ page) :
    ClassLists m' (update first o (load32 m page))
      (update lists o l) In' Full' := by
  have hl' : lists o = [] ++ page :: l := hl
  have hmem : ∀ o' < 8, ∀ q, q ∈ update lists o l o' ↔ In' o' q :=
    h.mem_iff_cut ho hl' honly hIn
  have hlink' : ∀ o' < 8, ∀ q ∈ update lists o l o',
      load32 m' q = load32 m q := by
    intro o' ho' q hq
    have hin := (hIn o' q).mp ((hmem o' ho' q).mp hq)
    exact hlink o' q hin.1 hin.2
  refine ⟨?_, h.nodup_cut ho hl', hmem, hfull⟩
  intro o' ho'
  refine Chain.congr ?_ (hlink' o' ho')
  by_cases heq : o' = o
  · subst heq
    have hchain := h.chain o' ho'
    rw [hl] at hchain
    rw [update_self, update_self]
    exact hchain.2.2
  · rw [update_of_ne heq, update_of_ne heq]
    exact h.chain o' ho'

/-- A page further back leaves its list: the page in front of it is linked to
the one behind. -/
theorem unlink (ho : o < 8) {prev : Nat} (hl : lists o = l₁ ++ prev :: page :: l₂)
    (honly : ∀ o', In o' page → o' = o) (hprev : ∀ o', In o' prev → o' = o)
    (hlink : ∀ o q, In o q → q ≠ page → q ≠ prev → load32 m' q = load32 m q)
    (hnext : load32 m' prev = load32 m page) (hfull : ∀ q, Full' q → load32 m' q = 0)
    (hIn : ∀ o' q, In' o' q ↔ In o' q ∧ q ≠ page) :
    ClassLists m' first (update lists o (l₁ ++ prev :: l₂)) In' Full' := by
  have hl' : lists o = (l₁ ++ [prev]) ++ page :: l₂ := by
    rw [hl, List.append_assoc]; rfl
  have heq' : l₁ ++ prev :: l₂ = (l₁ ++ [prev]) ++ l₂ := by
    rw [List.append_assoc]; rfl
  rw [heq']
  have hmem := h.mem_iff_cut ho hl' honly hIn
  refine ⟨?_, h.nodup_cut ho hl', hmem, hfull⟩
  intro o' ho'
  by_cases heq : o' = o
  · subst heq
    have hchain := h.chain o' ho'
    have hnodup := h.nodup o' ho'
    rw [hl] at hchain hnodup
    rw [update_self, ← heq']
    refine hchain.unlink hnext ?_
    intro q hq
    have hin : In o' q := by
      rw [← h.mem_iff o' ho', hl]
      rcases List.mem_append.mp hq with hq | hq
      · exact List.mem_append_left _ hq
      · exact List.mem_append_right _
          (List.mem_cons_of_mem _ (List.mem_cons_of_mem _ hq))
    rw [List.nodup_middle, List.nodup_cons] at hnodup
    have hnot : page ∉ l₁ ++ l₂ := by
      have hrest := hnodup.2
      rw [List.nodup_middle, List.nodup_cons] at hrest
      exact hrest.1
    refine hlink o' q hin (fun hqp => hnot (hqp ▸ hq)) (fun hqp => hnodup.1 ?_)
    rw [← hqp]
    rcases List.mem_append.mp hq with hq | hq
    · exact List.mem_append_left _ hq
    · exact List.mem_append_right _ (List.mem_cons_of_mem _ hq)
  · rw [update_of_ne heq]
    refine (h.chain o' ho').congr fun q hq => ?_
    have hin := (h.mem_iff o' ho' q).mp hq
    exact hlink o' q hin (fun hqp => heq (honly o' (hqp ▸ hin)))
      (fun hqp => heq (hprev o' (hqp ▸ hin)))

end ClassLists

/-! ## Held pages and live blocks -/

/-- `b` is a block of the page that is not on its free list. -/
def InUse (ord : Nat → Nat) (free : Nat → List Nat) (page b : Nat) : Prop :=
  IsBlock page (classSize (ord page)) (classBlocks (ord page)) b ∧ b ∉ free page

/-- The held pages are in order, and the blocks they have in use are the live
ones. A live block is known by the pointer to its payload and the size that
was asked for. -/
structure HeldPages (m : Mem) (held : List Nat) (live : List (Nat × Nat))
    (ord : Nat → Nat) (free : Nat → List Nat) : Prop where
  nodup : held.Nodup
  page : ∀ page ∈ held, 0 < page ∧ page % 4096 = 0 ∧ page < 2 ^ 31
  ord_lt : ∀ page ∈ held, ord page < 8
  at_page : ∀ page ∈ held, PageAt m page (classSize (ord page)) (classBlocks (ord page))
    (ord page) (free page)
  live_nodup : (live.map Prod.fst).Nodup
  live_iff : ∀ p, p ∈ live.map Prod.fst ↔
    ∃ page ∈ held, ∃ b, InUse ord free page b ∧ p = b + 8
  live_size : ∀ e ∈ live, ∀ page ∈ held, page ≤ e.1 → e.1 < page + 4096 →
    e.2 + 8 ≤ classSize (ord page)

namespace HeldPages

variable {m m' : Mem} {held fs : List Nat} {live : List (Nat × Nat)} {ord : Nat → Nat}
  {free : Nat → List Nat} {page q b c size : Nat} (h : HeldPages m held live ord free)

include h

theorem page_lt (hq : q ∈ held) : q < 2 ^ 32 :=
  Nat.lt_trans (h.page q hq).2.2 (by decide)

theorem layout (hq : q ∈ held) : Layout (classSize (ord q)) (classBlocks (ord q)) :=
  class_layout (h.ord_lt q hq)

theorem block_bounds (hq : q ∈ held) (hb : IsBlock q (classSize (ord q)) (classBlocks (ord q)) b) :
    q + 16 ≤ b ∧ b + 8 < b + classSize (ord q) ∧
      b + classSize (ord q) ≤ q + 4096 := by
  have hbd := hb.bounds (h.layout hq)
  have hsz := (h.layout hq).header
  omega

/-- A block is in one page only. -/
theorem page_eq (hp : page ∈ held) (hq : q ∈ held)
    (hb : IsBlock page (classSize (ord page)) (classBlocks (ord page)) b)
    (hb' : IsBlock q (classSize (ord q)) (classBlocks (ord q)) b) : page = q := by
  have h1 := h.block_bounds hp hb
  have h2 := h.block_bounds hq hb'
  have h3 := h.page page hp
  have h4 := h.page q hq
  omega

/-- Writes that leave the descriptors and headers alone. -/
theorem congr
    (heq : ∀ q ∈ held, ∀ a, IsMeta q (classSize (ord q)) (classBlocks (ord q)) a → load32 m' a = load32 m a) :
    HeldPages m' held live ord free where
  nodup := h.nodup
  page := h.page
  ord_lt := h.ord_lt
  at_page q hq := (h.at_page q hq).congr (heq q hq)
  live_nodup := h.live_nodup
  live_iff := h.live_iff
  live_size := h.live_size

/-- The words of another page are not among those written with a block. -/
theorem other_of_written (hp : page ∈ held)
    (hb : IsBlock page (classSize (ord page)) (classBlocks (ord page)) b)
    (hsame : SameBut m m' (written page b)) (hq : q ∈ held) (hne : q ≠ page) :
    ∀ a, q ≤ a → a + 4 ≤ q + 4096 → load32 m' a = load32 m a := by
  intro a hlo hhi
  have hbd := h.block_bounds hp hb
  have h1 := h.page page hp
  have h2 := h.page q hq
  refine hsame a (by omega) ?_
  intro w hw
  simp only [written, List.mem_cons, List.not_mem_nil, or_false] at hw
  omega

/-- The pages other than `page` after an operation on `page`. -/
theorem at_other (hq : q ∈ held)
    (hother : ∀ a, q + 4 ≤ a → a + 4 ≤ q + 4096 → load32 m' a = load32 m a) :
    PageAt m' q (classSize (ord q)) (classBlocks (ord q)) (ord q) (free q) := by
  refine (h.at_page q hq).congr ?_
  intro a ha
  have hbd := ha.bounds (h.layout hq)
  exact hother a hbd.1 hbd.2

/-- The free list of one page changes with a block of it, and no other. -/
theorem at_written (hp : page ∈ held)
    (hb : IsBlock page (classSize (ord page)) (classBlocks (ord page)) b)
    (hsame : SameBut m m' (written page b))
    (hat : PageAt m' page (classSize (ord page)) (classBlocks (ord page)) (ord page) fs) (q : Nat)
    (hq : q ∈ held) : PageAt m' q (classSize (ord q)) (classBlocks (ord q)) (ord q)
      (update free page fs q) := by
  by_cases hqp : q = page
  · subst hqp
    rw [update_self]
    exact hat
  · rw [update_of_ne hqp]
    exact h.at_other hq fun a hlo hhi =>
      h.other_of_written hp hb hsame hq hqp a (by omega) hhi

theorem take (hp : page ∈ held) (hf : free page = b :: fs) (hsame : SameBut m m' (written page b))
    (hfirst : load32 m' (page + 4) = load32 m (b + 4)) (hnfree : load32 m' (page + 12) = fs.length)
    (hused : load32 m' b = mfUsed) (hsize : size + 8 ≤ classSize (ord page)) :
    HeldPages m' held ((b + 8, size) :: live) ord (update free page fs) := by
  have hat := h.at_page page hp
  rw [hf] at hat
  have hb := hat.block b List.mem_cons_self
  have hbd := h.block_bounds hp hb
  have hpage := h.page page hp
  have hnotfs : b ∉ fs := (List.nodup_cons.mp hat.nodup).1
  have huse : ∀ q ∈ held, ∀ c, InUse ord (update free page fs) q c ↔
      InUse ord free q c ∨ q = page ∧ c = b := by
    intro q hq c
    unfold InUse
    by_cases hqp : q = page
    · subst hqp
      rw [update_self, hf, List.mem_cons]
      constructor
      · intro hc
        by_cases hcb : c = b
        · exact Or.inr ⟨rfl, hcb⟩
        · exact Or.inl ⟨hc.1, fun hmem => hmem.elim hcb hc.2⟩
      · intro hc
        rcases hc with hc | ⟨_, rfl⟩
        · exact ⟨hc.1, fun hmem => hc.2 (Or.inr hmem)⟩
        · exact ⟨hb, hnotfs⟩
    · rw [update_of_ne hqp]
      simp [hqp]
  constructor
  · exact h.nodup
  · exact h.page
  · exact h.ord_lt
  · exact h.at_written hp hb hsame
      (hat.take (h.layout hp) (by omega) hsame hfirst hnfree hused)
  · rw [List.map_cons, List.nodup_cons]
    refine ⟨?_, h.live_nodup⟩
    intro hmem
    obtain ⟨q, hq, c, hc, heq⟩ := (h.live_iff _).mp hmem
    obtain rfl : b = c := Nat.add_right_cancel heq
    have hqp := h.page_eq hq hp hc.1 hb
    rw [InUse, hqp, hf] at hc
    exact hc.2 List.mem_cons_self
  · intro p
    rw [List.map_cons, List.mem_cons, h.live_iff]
    constructor
    · intro hmem
      rcases hmem with hpb | ⟨q, hq, c, hc, heq⟩
      · exact ⟨page, hp, b, (huse page hp b).mpr (Or.inr ⟨rfl, rfl⟩), hpb⟩
      · exact ⟨q, hq, c, (huse q hq c).mpr (Or.inl hc), heq⟩
    · intro hmem
      obtain ⟨q, hq, c, hc, heq⟩ := hmem
      rcases (huse q hq c).mp hc with hc | ⟨_, rfl⟩
      · exact Or.inr ⟨q, hq, c, hc, heq⟩
      · exact Or.inl heq
  · intro e he q hq hlo hhi
    rcases List.mem_cons.mp he with rfl | he
    · have hqpage := h.page q hq
      have hqp : q = page := by simp only at hlo hhi; omega
      rw [hqp]
      exact hsize
    · exact h.live_size e he q hq hlo hhi

theorem put (hp : page ∈ held) (hb : InUse ord free page b) (hsame : SameBut m m' (written page b))
    (hfirst : load32 m' (page + 4) = b) (hnext : load32 m' (b + 4) = load32 m (page + 4))
    (hnfree : load32 m' (page + 12) = (free page).length + 1) (hfree : load32 m' b = mfFree) :
    HeldPages m' held (live.filter fun e => e.1 ≠ b + 8) ord
      (update free page (b :: free page)) := by
  have hpage := h.page page hp
  have huse : ∀ q ∈ held, ∀ c, InUse ord (update free page (b :: free page)) q c ↔
      InUse ord free q c ∧ c ≠ b := by
    intro q hq c
    unfold InUse
    by_cases hqp : q = page
    · subst hqp
      rw [update_self, List.mem_cons, not_or, and_assoc, and_comm (a := c ≠ b)]
    · rw [update_of_ne hqp]
      refine ⟨fun hc => ⟨hc, fun hcb => hqp ?_⟩, fun hc => hc.1⟩
      exact h.page_eq hq hp hc.1 (hcb ▸ hb.1)
  have hmap : ∀ p, p ∈ (live.filter fun e => e.1 ≠ b + 8).map Prod.fst ↔
      p ∈ live.map Prod.fst ∧ p ≠ b + 8 := by
    intro p
    simp only [List.mem_map, List.mem_filter, decide_eq_true_eq]
    constructor
    · intro hmem
      obtain ⟨e, he, rfl⟩ := hmem
      exact ⟨⟨e, he.1, rfl⟩, he.2⟩
    · intro hmem
      obtain ⟨⟨e, he, rfl⟩, hne⟩ := hmem
      exact ⟨e, ⟨he, hne⟩, rfl⟩
  constructor
  · exact h.nodup
  · exact h.page
  · exact h.ord_lt
  · exact h.at_written hp hb.1 hsame ((h.at_page page hp).put (h.layout hp) (by omega) hb.1 hb.2
      hsame hfirst hnext hnfree hfree)
  · exact h.live_nodup.sublist (List.filter_sublist.map _)
  · intro p
    rw [hmap, h.live_iff]
    constructor
    · intro hmem
      obtain ⟨⟨q, hq, c, hc, rfl⟩, hne⟩ := hmem
      exact ⟨q, hq, c, (huse q hq c).mpr ⟨hc, fun hcb => hne (by rw [hcb])⟩, rfl⟩
    · intro hmem
      obtain ⟨q, hq, c, hc, rfl⟩ := hmem
      obtain ⟨hc, hcb⟩ := (huse q hq c).mp hc
      exact ⟨⟨q, hq, c, hc, rfl⟩, fun heq => hcb (Nat.add_right_cancel heq)⟩
  · intro e he
    exact h.live_size e (List.mem_of_mem_filter he)

/-- A page without a block in use is no longer held. -/
theorem release (hall : ∀ b, ¬ InUse ord free page b)
    (hother : ∀ q ∈ held, q ≠ page → ∀ a, q + 4 ≤ a → a + 4 ≤ q + 4096 → load32 m' a = load32 m a) :
    HeldPages m' (held.filter (· ≠ page)) live ord free := by
  have hmem : ∀ q ∈ held.filter (· ≠ page), q ∈ held ∧ q ≠ page := by
    intro q hq
    simpa using hq
  constructor
  · exact h.nodup.filter _
  · exact fun q hq => h.page q (hmem q hq).1
  · exact fun q hq => h.ord_lt q (hmem q hq).1
  · intro q hq
    obtain ⟨hq, hne⟩ := hmem q hq
    exact h.at_other hq (hother q hq hne)
  · exact h.live_nodup
  · intro p
    rw [h.live_iff]
    constructor
    · intro hp
      obtain ⟨q, hq, b, hb, heq⟩ := hp
      refine ⟨q, ?_, b, hb, heq⟩
      rw [List.mem_filter, decide_eq_true_eq]
      exact ⟨hq, fun hqp => hall b (hqp ▸ hb)⟩
    · intro hp
      obtain ⟨q, hq, b, hb, heq⟩ := hp
      exact ⟨q, (hmem q hq).1, b, hb, heq⟩
  · intro e he q hq
    exact h.live_size e he q (hmem q hq).1

/-- A page comes in, all of it free. -/
theorem add (hnew : page ∉ held) (hpage : 0 < page ∧ page % 4096 = 0 ∧ page < 2 ^ 31) {o : Nat}
    (ho : o < 8)
    (hat : PageAt m' page (classSize o) (classBlocks o) o (pageBlocks page (classSize o) (classBlocks o)))
    (hother : ∀ a, a + 4 ≤ 2 ^ 32 → a + 4 ≤ page ∨ page + 4096 ≤ a → load32 m' a = load32 m a) :
    HeldPages m' (page :: held) live (update ord page o)
      (update free page (pageBlocks page (classSize o) (classBlocks o))) := by
  have hne : ∀ q ∈ held, q ≠ page := fun q hq hqp => hnew (hqp ▸ hq)
  have huse : ∀ q ∈ held, ∀ c, InUse (update ord page o)
      (update free page (pageBlocks page (classSize o) (classBlocks o))) q c ↔
        InUse ord free q c := by
    intro q hq c
    unfold InUse
    rw [update_of_ne (hne q hq), update_of_ne (hne q hq)]
  constructor
  · exact List.nodup_cons.mpr ⟨hnew, h.nodup⟩
  · intro q hq
    rcases List.mem_cons.mp hq with rfl | hq
    · exact hpage
    · exact h.page q hq
  · intro q hq
    rcases List.mem_cons.mp hq with rfl | hq
    · rw [update_self]; exact ho
    · rw [update_of_ne (hne q hq)]; exact h.ord_lt q hq
  · intro q hq
    rcases List.mem_cons.mp hq with rfl | hq
    · rw [update_self, update_self]; exact hat
    · rw [update_of_ne (hne q hq), update_of_ne (hne q hq)]
      have hq' := h.page q hq
      have hqp := hne q hq
      exact h.at_other hq fun a hlo hhi => hother a (by omega) (by omega)
  · exact h.live_nodup
  · intro p
    rw [h.live_iff]
    constructor
    · intro hp
      obtain ⟨q, hq, b, hb, heq⟩ := hp
      exact ⟨q, List.mem_cons_of_mem _ hq, b, (huse q hq b).mpr hb, heq⟩
    · intro hp
      obtain ⟨q, hq, b, hb, heq⟩ := hp
      rcases List.mem_cons.mp hq with rfl | hq
      · rw [InUse, update_self, update_self] at hb
        exact absurd (mem_pageBlocks.mpr hb.1) hb.2
      · exact ⟨q, hq, b, (huse q hq b).mp hb, heq⟩
  · intro e he q hq hlo hhi
    rcases List.mem_cons.mp hq with rfl | hq
    · -- A live block lies in a page that was held before.
      obtain ⟨r, hr, b, hb, heq⟩ := (h.live_iff e.1).mp (List.mem_map_of_mem he)
      have hbd := h.block_bounds hr hb.1
      have hrp := h.page r hr
      have hrne := hne r hr
      omega
    · rw [update_of_ne (hne q hq)]
      exact h.live_size e he q hq hlo hhi

end HeldPages

/-! ## The lengths in the headers -/

/-- The headers of the live blocks have the lengths they had. -/
def SameLengths (m m' : Mem) (live : List (Nat × Nat)) : Prop :=
  ∀ e ∈ live, load32 m' (e.1 - 4) = load32 m (e.1 - 4)

/-- The same with a new block `p`, whose header has the length `size`. -/
structure LengthSet (m m' : Mem) (live : List (Nat × Nat)) (p size : Nat) : Prop where
  new : load32 m' (p - 4) = size
  old : SameLengths m m' live

theorem LengthSet.after {m m₁ m' : Mem} {live : List (Nat × Nat)} {p size : Nat}
    (h : LengthSet m₁ m' live p size) (hsame : SameLengths m m₁ live) :
    LengthSet m m' live p size :=
  ⟨h.new, fun e he => (h.old e he).trans (hsame e he)⟩

namespace HeldPages

variable {m m' : Mem} {held : List Nat} {live : List (Nat × Nat)} {ord : Nat → Nat}
  {free : Nat → List Nat} {page b p size : Nat}

/-- The block that was taken last is not among the others. -/
theorem filter_live (h : HeldPages m held ((p, size) :: live) ord free) :
    (live.filter fun e => e.1 ≠ p) = live := by
  have hnodup := h.live_nodup
  rw [List.map_cons, List.nodup_cons] at hnodup
  refine List.filter_eq_self.mpr ?_
  intro e he
  refine decide_eq_true ?_
  intro heq
  have hmem : e.1 ∈ live.map Prod.fst := List.mem_map_of_mem he
  exact hnodup.1 (heq ▸ hmem)

theorem sameLengths (h : HeldPages m held live ord free)
    (heq : ∀ q ∈ held, ∀ a, IsMeta q (classSize (ord q)) (classBlocks (ord q)) a →
      load32 m' a = load32 m a) : SameLengths m m' live := by
  intro e he
  obtain ⟨q, hq, b, hb, hp⟩ := (h.live_iff e.1).mp (List.mem_map_of_mem he)
  have hword : e.1 - 4 = b + 4 := by omega
  rw [hword]
  exact heq q hq (b + 4) (Or.inr ⟨b, hb.1, Or.inr rfl⟩)

/-- The headers of the blocks other than one that changes hands. -/
theorem sameLengths_of_written (h : HeldPages m held live ord free) (hp : page ∈ held)
    (hb : IsBlock page (classSize (ord page)) (classBlocks (ord page)) b)
    (hsame : SameBut m m' (written page b)) :
    SameLengths m m' (live.filter fun e => e.1 ≠ b + 8) := by
  intro e he
  rw [List.mem_filter, decide_eq_true_eq] at he
  obtain ⟨q, hq, c, hc, heq⟩ := (h.live_iff e.1).mp (List.mem_map_of_mem he.1)
  have hword : e.1 - 4 = c + 4 := by omega
  have hbd := h.block_bounds hq hc.1
  have hpage := h.page page hp
  rw [hword]
  by_cases hqp : q = page
  · subst hqp
    exact (load_header_of_written (h.layout hq) (by omega) hb hc.1 (by omega) hsame).2
  · exact h.other_of_written hp hb hsame hq hqp (c + 4) (by omega) (by omega)

end HeldPages

/-! ## Both together -/

/-- A held page of the class `o` that has a free block. -/
def HasFree (held : List Nat) (ord : Nat → Nat) (free : Nat → List Nat) (o page : Nat) : Prop :=
  page ∈ held ∧ ord page = o ∧ free page ≠ []

/-- A held page that has none. -/
def IsFull (held : List Nat) (free : Nat → List Nat) (page : Nat) : Prop :=
  page ∈ held ∧ free page = []

/-- The free lists and lists of pages that the memory stores. -/
structure Heap (m : Mem) (first : Nat → Nat) (held : List Nat) (live : List (Nat × Nat))
    (ord : Nat → Nat) (free lists : Nat → List Nat) : Prop where
  pages : HeldPages m held live ord free
  lists : ClassLists m first lists (HasFree held ord free) (IsFull held free)

section Heap

variable {m m' : Mem} {first ord : Nat → Nat} {held fs l : List Nat} {live : List (Nat × Nat)}
  {free lists : Nat → List Nat} {o page b size q : Nat} (h : Heap m first held live ord free lists)

include h

theorem Heap.first_lt (ho : o < 8) : first o < 2 ^ 32 := by
  have hchain := h.lists.chain o ho
  cases hl : lists o with
  | nil =>
      rw [hl] at hchain
      rw [show first o = 0 from hchain]
      decide
  | cons page l =>
      rw [hl] at hchain
      have hmem : page ∈ lists o := by rw [hl]; exact List.mem_cons_self
      have hheld := ((h.lists.mem_iff o ho page).mp hmem).1
      rw [hchain.1]
      exact h.pages.page_lt hheld

/-- A class has fewer pages than there are addresses. -/
theorem Heap.length_le (ho : o < 8) : (lists o).length ≤ 2 ^ 32 := by
  have hsub : (lists o).Subperm (List.range (2 ^ 32)) := by
    refine List.subperm_of_subset (h.lists.nodup o ho) fun page hp => ?_
    rw [List.mem_range]
    exact h.pages.page_lt ((h.lists.mem_iff o ho page).mp hp).1
  have hle := hsub.length_le
  rwa [List.length_range] at hle

/-- The words of the pages other than the one a block of which was written. -/
theorem Heap.link_of_written (hp : page ∈ held)
    (hb : IsBlock page (classSize (ord page)) (classBlocks (ord page)) b)
    (hsame : SameBut m m' (written page b)) (hq : q ∈ held) (hne : q ≠ page) :
    load32 m' q = load32 m q :=
  h.pages.other_of_written hp hb hsame hq hne q (Nat.le_refl q) (by omega)

omit h in
/-- A page that has free blocks is not full, whichever they are. -/
theorem isFull_update (hfs : fs ≠ []) (hq : IsFull held (update free page fs) q) :
    q ≠ page ∧ IsFull held free q := by
  obtain ⟨hq, hnil⟩ := hq
  have hqp : q ≠ page := by
    intro hqp
    rw [hqp, update_self] at hnil
    exact hfs hnil
  rw [update_of_ne hqp] at hnil
  exact ⟨hqp, hq, hnil⟩

/-- A page had free blocks and still has some, so it stays in its list. -/
theorem Heap.lists_keep (hf : free page ≠ []) (hfs : fs ≠ [])
    (hlink : load32 m' page = load32 m page)
    (hother : ∀ q ∈ held, q ≠ page → load32 m' q = load32 m q) :
    ClassLists m' first lists (HasFree held ord (update free page fs))
      (IsFull held (update free page fs)) := by
  have hlink' : ∀ q ∈ held, load32 m' q = load32 m q := by
    intro q hq
    by_cases hqp : q = page
    · rw [hqp, hlink]
    · exact hother q hq hqp
  refine h.lists.keep (fun o' q hin => hlink' q hin.1) (fun q hq => ?_) (fun o' q => ?_)
  · rw [hlink' q hq.1]
    exact h.lists.full q (isFull_update hfs hq).2
  · unfold HasFree
    by_cases hqp : q = page
    · subst hqp
      rw [update_self]
      simp [hf, hfs]
    · rw [update_of_ne hqp]

/-- A block is taken off the first page of a class. -/
theorem Heap.take (ho : o < 8) (hl : lists o = page :: l) (hf : free page = b :: fs)
    (hsame : SameBut m m' (written page b)) (hfirst : load32 m' (page + 4) = load32 m (b + 4))
    (hnfree : load32 m' (page + 12) = fs.length) (hused : load32 m' b = mfUsed)
    (hlink : load32 m' page = if fs.length = 0 then 0 else load32 m page)
    (hsize : size + 8 ≤ classSize o) :
    ∃ lists', Heap m' (if fs.length = 0 then update first o (load32 m page) else first)
      held ((b + 8, size) :: live) ord (update free page fs) lists' := by
  have hmem : page ∈ lists o := by rw [hl]; exact List.mem_cons_self
  obtain ⟨hp, hord, _⟩ := (h.lists.mem_iff o ho page).mp hmem
  have hb : IsBlock page (classSize (ord page)) (classBlocks (ord page)) b := by
    refine (h.pages.at_page page hp).block b ?_
    rw [hf]
    exact List.mem_cons_self
  have hsize' : size + 8 ≤ classSize (ord page) := by rw [hord]; exact hsize
  have hpages := h.pages.take hp hf hsame hfirst hnfree hused hsize'
  have hother : ∀ q ∈ held, q ≠ page → load32 m' q = load32 m q :=
    fun q hq hne => h.link_of_written hp hb hsame hq hne
  cases fs with
  | nil =>
      refine ⟨update lists o l, hpages, ?_⟩
      refine h.lists.cut ho hl (fun o' hin => hin.2.1.symm.trans hord)
        (fun o' q hin hne => hother q hin.1 hne) ?_ ?_
      · intro q hq
        by_cases hqp : q = page
        · rw [hqp, hlink]; rfl
        · rw [hother q hq.1 hqp]
          refine h.lists.full q ⟨hq.1, ?_⟩
          rw [← hq.2, update_of_ne hqp]
      · intro o' q
        unfold HasFree
        by_cases hqp : q = page
        · subst hqp
          rw [update_self]
          simp
        · rw [update_of_ne hqp]
          simp [hqp]
  | cons c cs =>
      have hold : free page ≠ [] := by
        rw [hf]
        exact List.cons_ne_nil _ _
      exact ⟨lists, hpages, h.lists_keep hold (List.cons_ne_nil _ _) hlink hother⟩

/-- A page of the class `o` comes in. -/
theorem Heap.add (ho : o < 8) (hnew : page ∉ held)
    (hpage : 0 < page ∧ page % 4096 = 0 ∧ page < 2 ^ 31)
    (hat : PageAt m' page (classSize o) (classBlocks o) o (pageBlocks page (classSize o) (classBlocks o)))
    (hlink : load32 m' page = first o)
    (hother : ∀ a, a + 4 ≤ 2 ^ 32 → a + 4 ≤ page ∨ page + 4096 ≤ a → load32 m' a = load32 m a) :
    Heap m' (update first o page) (page :: held) live (update ord page o)
      (update free page (pageBlocks page (classSize o) (classBlocks o)))
      (update lists o (page :: lists o)) where
  pages := h.pages.add hnew hpage ho hat hother
  lists := by
    have hne : ∀ q ∈ held, q ≠ page := fun q hq hqp => hnew (hqp ▸ hq)
    have hlink' : ∀ q ∈ held, load32 m' q = load32 m q := by
      intro q hq
      have hqpage := h.pages.page q hq
      have hqp := hne q hq
      exact hother q (by omega) (by omega)
    have hblocks : pageBlocks page (classSize o) (classBlocks o) ≠ [] := by
      intro hnil
      have hlen := congrArg List.length hnil
      rw [pageBlocks, List.length_map, List.length_range] at hlen
      have hpos := (class_layout ho).pos
      rw [hlen] at hpos
      exact absurd hpos (Nat.lt_irrefl 0)
    refine h.lists.push ho hpage.1 (fun o' hin => hnew hin.1) hlink
      (fun o' q hin => hlink' q hin.1) ?_ ?_
    · intro q hq
      rcases List.mem_cons.mp hq.1 with hqp | hmem
      · have hnil := hq.2
        rw [hqp, update_self] at hnil
        exact absurd hnil hblocks
      · rw [hlink' q hmem]
        refine h.lists.full q ⟨hmem, ?_⟩
        rw [← hq.2, update_of_ne (hne q hmem)]
    · intro o' q
      unfold HasFree
      by_cases hqp : q = page
      · subst hqp
        rw [update_self, update_self]
        simp [hnew, hblocks, eq_comm]
      · rw [update_of_ne hqp, update_of_ne hqp]
        simp [hqp]

/-- A block in use is put on the free list of its page. -/
theorem Heap.put (hp : page ∈ held) (hb : InUse ord free page b)
    (hsame : SameBut m m' (written page b)) (hfirst : load32 m' (page + 4) = b)
    (hnext : load32 m' (b + 4) = load32 m (page + 4))
    (hnfree : load32 m' (page + 12) = (free page).length + 1) (hfree : load32 m' b = mfFree)
    (hlink : load32 m' page = if (free page).length = 0 then first (ord page) else load32 m page) :
    ∃ lists', Heap m'
      (if (free page).length = 0 then update first (ord page) page else first) held
      (live.filter fun e => e.1 ≠ b + 8) ord
      (update free page (b :: free page)) lists' := by
  have hpages := h.pages.put hp hb hsame hfirst hnext hnfree hfree
  have hother : ∀ q ∈ held, q ≠ page → load32 m' q = load32 m q :=
    fun q hq hne => h.link_of_written hp hb.1 hsame hq hne
  have hfull : ∀ q, IsFull held (update free page (b :: free page)) q →
      load32 m' q = 0 := by
    intro q hq
    obtain ⟨hqp, hq'⟩ := isFull_update (List.cons_ne_nil _ _) hq
    rw [hother q hq.1 hqp]
    exact h.lists.full q hq'
  cases hf : free page with
  | nil =>
      rw [hf] at hlink hpages hfull
      refine ⟨update lists (ord page) (page :: lists (ord page)), hpages, ?_⟩
      refine h.lists.push (h.pages.ord_lt page hp) (h.pages.page page hp).1
        (fun o' hin => hin.2.2 hf) hlink ?_ hfull ?_
      · intro o' q hin
        exact hother q hin.1 fun hqp => hin.2.2 (hqp ▸ hf)
      · intro o' q
        unfold HasFree
        by_cases hqp : q = page
        · subst hqp
          rw [update_self]
          simp [hp, hf, eq_comm]
        · rw [update_of_ne hqp]
          simp [hqp]
  | cons c cs =>
      rw [hf] at hlink hpages
      have hold : free page ≠ [] := by
        rw [hf]
        exact List.cons_ne_nil _ _
      exact ⟨lists, hpages, h.lists_keep hold (List.cons_ne_nil _ _) hlink hother⟩

omit h in
/-- What is left when a page is no longer held. -/
theorem hasFree_filter {o' q : Nat} :
    HasFree (held.filter (· ≠ page)) ord free o' q ↔ HasFree held ord free o' q ∧ q ≠ page := by
  simp only [HasFree, List.mem_filter, decide_eq_true_eq]
  constructor
  · intro hq
    exact ⟨⟨hq.1.1, hq.2⟩, hq.1.2⟩
  · intro hq
    exact ⟨⟨hq.1.1, hq.2⟩, hq.1.2⟩

omit h in
theorem isFull_filter (hq : IsFull (held.filter (· ≠ page)) free q) :
    IsFull held free q ∧ q ≠ page := by
  simp only [IsFull, List.mem_filter, decide_eq_true_eq] at hq
  exact ⟨⟨hq.1.1, hq.2⟩, hq.1.2⟩

/-- Only the links, descriptors and headers matter. -/
theorem Heap.congr
    (hsame : ∀ q ∈ held, ∀ a, a = q ∨ IsMeta q (classSize (ord q)) (classBlocks (ord q)) a → load32 m' a = load32 m a) :
    Heap m' first held live ord free lists where
  pages := h.pages.congr fun q hq a ha => hsame q hq a (Or.inr ha)
  lists := by
    have hlink : ∀ q ∈ held, load32 m' q = load32 m q :=
      fun q hq => hsame q hq q (Or.inl rfl)
    refine h.lists.keep (fun o q hin => hlink q hin.1) ?_ (fun _ _ => Iff.rfl)
    intro q hq
    rw [hlink q hq.1]
    exact h.lists.full q hq

theorem Heap.word_bounds {q a : Nat} (hq : q ∈ held)
    (ha : a = q ∨ IsMeta q (classSize (ord q)) (classBlocks (ord q)) a) :
    q ≤ a ∧ a + 4 ≤ q + 4096 := by
  rcases ha with rfl | ha
  · omega
  · have hbd := ha.bounds (h.pages.layout hq)
    omega

/-- None of these words is in the payload of a live block. -/
theorem Heap.word_off_payload {q a : Nat} (hq : q ∈ held)
    (ha : a = q ∨ IsMeta q (classSize (ord q)) (classBlocks (ord q)) a) {e : Nat × Nat}
    (he : e ∈ live) : a + 4 ≤ e.1 ∨ e.1 + e.2 ≤ a := by
  obtain ⟨page, hp, b, hb, heq⟩ := (h.pages.live_iff e.1).mp (List.mem_map_of_mem he)
  have hbd := h.pages.block_bounds hp hb.1
  have hppage := h.pages.page page hp
  have hqpage := h.pages.page q hq
  have habd := h.word_bounds hq ha
  have hesize := h.pages.live_size e he page hp (by omega) (by omega)
  by_cases hqp : q = page
  · subst hqp
    rw [heq]
    exact IsMeta.off_payload (h.pages.layout hp) hb.1 hesize ha
  · omega

/-- A page that is not held is not pointed to from the lists. -/
theorem Heap.unlinked (hp : page ∉ held) (hpos : 0 < page) :
    (∀ o < 8, first o ≠ page) ∧ ∀ q ∈ held, load32 m q ≠ page := by
  have hnot : ∀ o < 8, page ∉ lists o := by
    intro o ho hmem
    exact hp ((h.lists.mem_iff o ho page).mp hmem).1
  have hstart : ∀ {a : Nat} {l : List Nat}, Chain 0 (load32 m) a l → page ∉ l → a ≠ page := by
    intro a l hchain hl heq
    rcases hchain.start with h0 | hmem
    · omega
    · exact hl (heq ▸ hmem)
  refine ⟨fun o ho => hstart (h.lists.chain o ho) (hnot o ho), ?_⟩
  intro q hq
  by_cases hf : free q = []
  · rw [h.lists.full q ⟨hq, hf⟩]
    omega
  · have ho := h.pages.ord_lt q hq
    have hmem := (h.lists.mem_iff _ ho q).mpr ⟨hq, rfl, hf⟩
    obtain ⟨l₁, l₂, hl⟩ := List.append_of_mem hmem
    have hchain := h.lists.chain _ ho
    rw [hl] at hchain
    refine hstart hchain.next_eq ?_
    intro hmem₂
    exact hnot _ ho (by rw [hl]; exact List.mem_append_right _ (List.mem_cons_of_mem _ hmem₂))

/-- The first page of a class is given back. -/
theorem Heap.release_first (ho : o < 8) (hl : lists o = page :: l)
    (hall : ∀ b, ¬ InUse ord free page b)
    (hother : ∀ q ∈ held, q ≠ page → ∀ a, q ≤ a → a + 4 ≤ q + 4096 → load32 m' a = load32 m a) :
    Heap m' (update first o (load32 m page)) (held.filter (· ≠ page)) live ord free
      (update lists o l) where
  pages := h.pages.release hall fun q hq hne a hlo => hother q hq hne a (by omega)
  lists := by
    have hmem : page ∈ lists o := by rw [hl]; exact List.mem_cons_self
    have hord := ((h.lists.mem_iff o ho page).mp hmem).2.1
    have hlink : ∀ q ∈ held, q ≠ page → load32 m' q = load32 m q :=
      fun q hq hne => hother q hq hne q (Nat.le_refl q) (by omega)
    refine h.lists.cut ho hl (fun o' hin => hin.2.1.symm.trans hord)
      (fun o' q hin hne => hlink q hin.1 hne) ?_ (fun o' q => hasFree_filter)
    intro q hq
    obtain ⟨hfull, hne⟩ := isFull_filter hq
    rw [hlink q hfull.1 hne]
    exact h.lists.full q hfull

/-- A page further back is given back. -/
theorem Heap.release_later (ho : o < 8) {l₁ l₂ : List Nat} {prev : Nat}
    (hl : lists o = l₁ ++ prev :: page :: l₂) (hall : ∀ b, ¬ InUse ord free page b)
    (hnext : load32 m' prev = load32 m page)
    (hmeta : ∀ q ∈ held, q ≠ page → ∀ a, q + 4 ≤ a → a + 4 ≤ q + 4096 → load32 m' a = load32 m a)
    (hlink : ∀ q ∈ held, q ≠ page → q ≠ prev → load32 m' q = load32 m q) :
    Heap m' first (held.filter (· ≠ page)) live ord free
      (update lists o (l₁ ++ prev :: l₂)) where
  pages := h.pages.release hall hmeta
  lists := by
    have hin : ∀ q ∈ lists o, HasFree held ord free o q :=
      fun q hq => (h.lists.mem_iff o ho q).mp hq
    have hprev := hin prev (by rw [hl]; simp)
    have hpage := hin page (by rw [hl]; simp)
    refine h.lists.unlink ho hl (fun o' hq => hq.2.1.symm.trans hpage.2.1)
      (fun o' hq => hq.2.1.symm.trans hprev.2.1)
      (fun o' q hq => hlink q hq.1) hnext ?_ (fun o' q => hasFree_filter)
    intro q hq
    obtain ⟨hfull, hne⟩ := isFull_filter hq
    rw [hlink q hfull.1 hne fun hqp => hprev.2.2 (hqp ▸ hfull.2)]
    exact h.lists.full q hfull

end Heap

end Aim.Kern
