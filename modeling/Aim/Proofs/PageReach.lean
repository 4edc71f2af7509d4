import Aim.Proofs.AreaExtent
import Aim.Proofs.AreaTable

/-!
# The pages `page_alloc` can hand out

`pageCalls boot` is the page allocator after `page_allocator_init` on the map
of `boot`, over whatever table of buddies it finds. The pages it hands out in
some run or other are those of the whole buddies of the managed run, and all of
them (`returnable_iff`).

That it hands out no others does not depend on the table. Whatever marks a tree
has, a walk of `buddy_alloc` stays on nodes whose level and length go together,
so a block it takes lies in the four megabytes of its buddy; and a buddy is not
asked before `buddy_init` has set its level. That every page is handed out in
some run is shown by one run over a good table: a buddy is taken and given
back, which raises the counter by the size of the block in bytes, and after
that all the buddies can be taken one by one.
-/

namespace Aim.Kern

open Aim.Lib Function

/-- The page allocator after the boot, with requests of `maxSize` bytes at most. -/
def pageCalls (boot : Boot) : Machine Stop AreaRun AreaCall where
  init r := (∃ words area₀,
      (pageAllocatorInit { boot with words := words }).run area₀ = .ok 0 r.area) ∧
    r.live = [] ∧ r.freed = []
  legal r
    | .alloc pages => pages.size ≤ maxSize
    | .free pages => pages.paddr ∈ r.live.map Grant.paddr
  step := AreaRun.step

/-- `p` is a page of a block that `page_alloc` answers in some run. -/
def Returnable (boot : Boot) (p : Nat) : Prop :=
  ∃ r, (pageCalls boot).Reachable r ∧ ∃ g ∈ r.given, p ∈ g.pageAddrs

/-! ## A walk over any tree -/

section Walk

variable {self : Buddy} {d h k : Nat} {i : Int}

theorem treeSet_ends (i : Int) (mark : Node) :
    Ends False (treeSet i mark) self fun _ self' => self'.level = self.level := by
  unfold treeSet
  refine ends_get_bind ?_
  split
  · exact ends_of_ok rfl rfl
  · exact ends_throw id

theorem markParentLoop_ends (fuel : Nat) (i : Int) :
    Ends False (markParentLoop fuel i) self fun _ self' => self'.level = self.level := by
  induction fuel generalizing i self with
  | zero => exact ends_throw id
  | succ fuel ih =>
      rw [markParentLoop]
      split
      · refine (treeGet_ends _).bind fun mark self' hself => ?_
        subst hself
        split
        · refine (treeSet_ends _ _).bind fun _ self₁ hlevel => ?_
          exact (ih _).imp fun _ _ h => h.trans hlevel
        · exact ends_pure rfl
      · exact ends_pure rfl

/-- A node is taken only where the block has the length of the node, and the
walk goes down only where it does not. -/
theorem buddyVisit_ends (size i length : Int) :
    Ends False (buddyVisit size i length) self fun v self' => self'.level = self.level ∧
      (v = .take → size = length) ∧ (v = .down → size ≠ length) := by
  unfold buddyVisit
  refine (treeGet_ends _).bind fun mark self' hself => ?_
  subst hself
  split
  · next hsize =>
      split
      · refine (treeSet_ends _ _).bind fun _ _ hlevel => ?_
        exact ends_pure ⟨hlevel, fun _ => hsize, nofun⟩
      · exact ends_pure ⟨rfl, nofun, nofun⟩
  · next hsize =>
      split
      · exact ends_pure ⟨rfl, nofun, nofun⟩
      · exact ends_pure ⟨rfl, nofun, nofun⟩
      · refine (treeSet_ends _ _).bind fun _ _ h₁ => ?_
        refine (treeSet_ends _ _).bind fun _ _ h₂ => ?_
        refine (treeSet_ends _ _).bind fun _ _ h₃ => ?_
        exact ends_pure ⟨h₃.trans (h₂.trans h₁), nofun, fun _ => hsize⟩
      · exact ends_pure ⟨rfl, nofun, fun _ => hsize⟩

theorem OnLevel.parent (hi : OnLevel (d + 1) i) : OnLevel d (parentIndex i) := by
  obtain ⟨hlo, hhi⟩ := hi
  unfold OnLevel parentIndex
  rw [Int.pow_succ] at hlo hhi ⊢
  rw [Int.pow_succ] at hhi
  omega

/-- The right sibling of a left child is on its level. -/
theorem OnLevel.sibling (hi : OnLevel d i) (hodd : i % 2 = 1) : OnLevel d (i + 1) := by
  obtain ⟨hlo, hhi⟩ := hi
  unfold OnLevel
  rw [Int.pow_succ] at hhi ⊢
  omega

theorem buddyClimb_ends (fuel : Nat) (hi : OnLevel d i) :
    Ends False (buddyClimb fuel i d (2 ^ h)) self fun found self' => self' = self ∧
      ∀ j l n, found = some (j, l, n) →
        ∃ d' h', l = (d' : Nat) ∧ n = 2 ^ h' ∧ d' + h' = d + h ∧ h ≤ h' ∧ OnLevel d' j := by
  induction fuel generalizing d h i with
  | zero => exact ends_throw id
  | succ fuel ih =>
      rw [buddyClimb]
      cases d with
      | zero =>
          -- The walk leaves the root.
          have hroot : parentIndex i < 0 := by
            obtain ⟨hlo, hhi⟩ := hi
            unfold parentIndex
            omega
          rw [if_pos hroot]
          refine ends_pure ⟨rfl, ?_⟩
          intro j l n hfound
          cases hfound
      | succ d =>
          have hp := hi.parent
          have hlevel : ((d + 1 : Nat) : Int) - 1 = (d : Nat) := by omega
          have hlength : (2 : Int) ^ h * 2 = 2 ^ (h + 1) := (Int.pow_succ 2 h).symm
          rw [if_neg (not_lt.mpr hp.nonneg), hlevel, hlength]
          split
          · next hodd =>
              refine ends_pure ⟨rfl, ?_⟩
              intro j l n hfound
              obtain ⟨rfl, hrest⟩ := Prod.mk.inj (Option.some.inj hfound)
              obtain ⟨rfl, rfl⟩ := Prod.mk.inj hrest
              exact ⟨d, h + 1, rfl, rfl, by omega, by omega, hp.sibling hodd⟩
          · refine (ih hp).imp fun found self' hfound => ⟨hfound.1, ?_⟩
            intro j l n heq
            obtain ⟨d', h', hl, hn, hsum, hle, hj⟩ := hfound.2 j l n heq
            exact ⟨d', h', hl, hn, by omega, by omega, hj⟩

/-- What `buddy_alloc` may answer for a block of `n` pages. -/
def InBuddy (n : Nat) (offset : Int) : Prop :=
  (offset = -2 ∨ offset = -1) ∨ ∃ q : Nat, offset = q ∧ q + n ≤ 1024

/-- A node of the length of the block has it inside of the buddy. -/
theorem OnLevel.inBuddy (hi : OnLevel d i) (hd : d + h = 10) :
    InBuddy (2 ^ h) (indexOffset i d 10) := by
  obtain ⟨hlo, hhi⟩ := hi
  obtain ⟨e, he⟩ : ∃ e : Nat, i + 1 - 2 ^ d = e :=
    ⟨(i + 1 - 2 ^ d).toNat, by omega⟩
  have helt : e + 1 ≤ 2 ^ d := by
    rw [Int.pow_succ] at hhi
    have : (e : Int) < 2 ^ d := by omega
    exact_mod_cast this
  refine Or.inr ⟨e * 2 ^ h, ?_, ?_⟩
  · have hexp : ((10 : Int) - (d : Nat)).toNat = h := by omega
    rw [indexOffset, Int.toNat_natCast, he, hexp]
    push_cast
    rfl
  · calc e * 2 ^ h + 2 ^ h = (e + 1) * 2 ^ h := by rw [Nat.add_mul, Nat.one_mul]
      _ ≤ 2 ^ d * 2 ^ h := Nat.mul_le_mul_right _ helt
      _ = 1024 := by rw [← Nat.pow_add, hd]

theorem buddySearch_ends (fuel : Nat) (hi : OnLevel d i) (hd : d + h = 10) (hk : k ≤ h)
    (hlevel : self.level = 10) :
    Ends False (buddySearch (2 ^ k) fuel i d (2 ^ h)) self fun offset self' =>
      self'.level = 10 ∧ InBuddy (2 ^ k) offset := by
  induction fuel generalizing d h i self with
  | zero => exact ends_throw id
  | succ fuel ih =>
      rw [buddySearch, if_neg (not_lt.mpr hi.nonneg)]
      refine (buddyVisit_ends _ _ _).bind fun v self₁ hv => ?_
      obtain ⟨hlevel₁, htake, hdown⟩ := hv
      rw [hlevel] at hlevel₁
      cases v with
      | take =>
          have hkh : k = h := Nat.pow_right_injective (Nat.le_refl 2) (by exact_mod_cast htake rfl)
          subst hkh
          refine (markParentLoop_ends _ _).bind fun _ self₂ hlevel₂ => ?_
          refine ends_get_bind (ends_pure ⟨hlevel₂.trans hlevel₁, ?_⟩)
          rw [hlevel₂, hlevel₁]
          exact hi.inBuddy hd
      | down =>
          have hkh : k ≠ h := fun heq => hdown rfl (by rw [heq])
          obtain ⟨h', rfl⟩ : ∃ h', h = h' + 1 := ⟨h - 1, by omega⟩
          have hlength : (2 : Int) ^ (h' + 1) / 2 = 2 ^ h' := by
            rw [Int.pow_succ]
            omega
          have hstep := ih hi.left (h := h') (by omega) (by omega) hlevel₁
          simp only [hlength]
          exact hstep
      | pass =>
          by_cases hodd : i % 2 = 1
          · simp only [if_pos hodd]
            exact ih (hi.sibling hodd) hd hk hlevel₁
          · simp only [if_neg hodd]
            refine (buddyClimb_ends _ hi).bind fun found self₂ hfound => ?_
            obtain ⟨rfl, hfound⟩ := hfound
            cases found with
            | none => exact ends_pure ⟨hlevel₁, Or.inl (Or.inr rfl)⟩
            | some t =>
                obtain ⟨j, l, n⟩ := t
                obtain ⟨d', h', rfl, rfl, hsum, hle, hj⟩ := hfound j l n rfl
                exact ih hj (by omega) (by omega) hlevel₁

theorem buddyAlloc_ends {size : Nat} (hs : size ≤ maxSize) (hlevel : self.level = 10) :
    Ends False (buddyAlloc (pageCount size)) self fun offset self' =>
      self'.level = 10 ∧ InBuddy (blockPages size) offset := by
  obtain ⟨_, h0, h30⟩ := pageCount_bounds hs
  unfold buddyAlloc
  refine ends_get_bind ?_
  rw [blockSize_eq h0 h30, hlevel, blockPages_eq hs, blockHeight]
  generalize Nat.clog 2 (pageCount size).toNat = k
  by_cases hlarge : (2 : Int) ^ k > 2 ^ 10
  · simp only [if_pos hlarge]
    exact ends_pure ⟨hlevel, Or.inl (Or.inl rfl)⟩
  · simp only [if_neg hlarge]
    have hk : k ≤ 10 := by
      have hle : 2 ^ k ≤ 2 ^ 10 := by exact_mod_cast not_lt.mp hlarge
      exact (Nat.pow_le_pow_iff_right (by omega)).mp hle
    have hroot : OnLevel 0 0 := by
      unfold OnLevel
      omega
    exact buddySearch_ends _ hroot rfl hk hlevel

end Walk

/-! ## A request over any table -/

section Request

variable {base n : Nat} {area : Area}

/-- What every area has that got `n` buddies at `base`: the buddies that were
opened have their level. -/
structure Sane (base n : Nat) (area : Area) : Prop where
  base : area.baseAddr = base
  length : area.buddylist.length = n
  num : area.buddyNum ≤ n
  short : n ≤ 512
  level : ∀ i < area.buddyNum, ∀ p, area.buddylist[i]? = some p → (area.heap p).level = 10

/-- What no write to a buddy changes. -/
structure LevelsKept (area area' : Area) : Prop where
  base : area'.baseAddr = area.baseAddr
  list : area'.buddylist = area.buddylist
  num : area'.buddyNum = area.buddyNum
  level : ∀ p, (area.heap p).level = 10 → (area'.heap p).level = 10

theorem LevelsKept.trans {area' area'' : Area} (h : LevelsKept area area') (h' : LevelsKept area' area'') :
    LevelsKept area area'' where
  base := h'.base.trans h.base
  list := h'.list.trans h.list
  num := h'.num.trans h.num
  level p hp := h'.level p (h.level p hp)

theorem LevelsKept.put {p : Nat} {b : Buddy} (hb : (area.heap p).level = 10 → b.level = 10) :
    LevelsKept area (area.put p b) where
  base := rfl
  list := rfl
  num := rfl
  level q hq := by
    show (update area.heap p b q).level = 10
    by_cases hqp : q = p
    · rw [hqp, update_self]
      exact hb (hqp ▸ hq)
    · rw [update_of_ne hqp]
      exact hq

theorem Sane.steady {area' : Area} (hs : Sane base n area) (h : LevelsKept area area') :
    Sane base n area' where
  base := h.base.trans hs.base
  length := by rw [h.list]; exact hs.length
  num := by rw [h.num]; exact hs.num
  short := hs.short
  level i hi p hp := by
    rw [h.num] at hi
    rw [h.list] at hp
    exact h.level p (hs.level i hi p hp)

theorem buddyAt_ends (i : Nat) : Ends False (buddyAt i) area fun p area' =>
    area' = area ∧ area.buddylist[i]? = some p := by
  cases hp : area.buddylist[i]? with
  | some p => exact ends_of_ok (buddyAt_ok hp) ⟨rfl, rfl⟩
  | none => exact ends_of_stop (buddyAt_oob (List.getElem?_eq_none_iff.mp hp)) id

theorem buddyAllocAt_ends {size i : Nat} (hsize : size ≤ maxSize) (hs : Sane base n area)
    (hi : i < area.buddyNum) :
    Ends False (buddyAllocAt i (pageCount size)) area fun offset area' =>
      Sane base n area' ∧ area'.buddyNum = area.buddyNum ∧ InBuddy (blockPages size) offset := by
  refine (buddyAt_ends i).bind fun p area' hp => ?_
  obtain ⟨rfl, hp⟩ := hp
  refine ends_zoom (buddyAlloc_ends hsize (hs.level i hi p hp)) fun offset b hb => ?_
  exact ⟨hs.steady (LevelsKept.put fun _ => hb.1), rfl, hb.2⟩

/-- Where the loop stops early a buddy had room. -/
theorem scanBuddies_ends {size : Nat} (hsize : size ≤ maxSize) (todo i : Nat) (offset : Int)
    (hs : Sane base n area) (hi : i + todo = area.buddyNum) (hoff : offset = -2 ∨ offset = -1) :
    Ends False (scanBuddies (pageCount size) todo i offset) area fun found area' =>
      Sane base n area' ∧ area'.buddyNum = area.buddyNum ∧
        InBuddy (blockPages size) found.2 ∧
        (found.2 < 0 → found.1 = area.buddyNum) ∧ (0 ≤ found.2 → found.1 < area.buddyNum) := by
  induction todo generalizing i offset area with
  | zero =>
      refine ends_pure ⟨hs, rfl, Or.inl hoff, fun _ => by omega, ?_⟩
      intro hpos
      simp only at hpos
      omega
  | succ todo ih =>
      rw [scanBuddies]
      refine (buddyAllocAt_ends hsize hs (by omega)).bind fun offset area' h => ?_
      obtain ⟨hs', hnum, hin⟩ := h
      split
      · next hpos =>
          refine ends_pure ⟨hs', hnum, hin, ?_, fun _ => by omega⟩
          intro hneg
          simp only at hneg
          omega
      · next hneg =>
          rw [← hnum]
          refine ih (i + 1) offset hs' (by omega) (hin.resolve_right ?_)
          intro h
          obtain ⟨q, hq, _⟩ := h
          omega

theorem treeClear_ends {self : Buddy} (m : Int) :
    Ends False (treeClear m) self fun _ self' => self'.level = self.level := by
  unfold treeClear
  refine ends_get_bind ?_
  split
  · exact ends_of_ok rfl rfl
  · exact ends_throw id

theorem kmallocBuddy_ends : Ends False kmallocBuddy area fun _ area' => LevelsKept area area' := by
  unfold kmallocBuddy
  refine ends_get_bind ?_
  cases area.kmallocs with
  | nil => exact ends_pure ⟨rfl, rfl, rfl, fun _ h => h⟩
  | cons q qs => exact ends_of_ok rfl ⟨rfl, rfl, rfl, fun _ h => h⟩

/-- `buddy_init` sets the level, whichever pointer it is given. -/
theorem buddyInitAt_ends (p : Nat) : Ends False (buddyInitAt p 10) area fun _ area' =>
    LevelsKept area area' ∧ (area'.heap p).level = 10 := by
  have hset : Ends False (onBuddy p (modify fun b => { b with level := 10 })) area
      fun _ area' => LevelsKept area area' ∧ (area'.heap p).level = 10 := by
    refine ends_of_ok (onBuddy_ok rfl) ⟨LevelsKept.put fun _ => rfl, ?_⟩
    show (update area.heap p _ p).level = 10
    rw [update_self]
  refine hset.bind fun _ area₁ h₁ => ?_
  have hclear : ∀ (q : Nat) (area₂ : Area), LevelsKept area₁ area₂ →
      Ends False (onBuddy q (treeClear (2 ^ 10 * 2 - 1))) area₂ fun _ area' =>
        LevelsKept area area' ∧ (area'.heap p).level = 10 := by
    intro q area₂ h₂
    refine ends_zoom (treeClear_ends _) fun _ b hb => ?_
    have h₃ : LevelsKept area₂ (area₂.put q b) := LevelsKept.put fun h => hb.trans h
    exact ⟨h₁.1.trans (h₂.trans h₃), h₃.level p (h₂.level p h₁.2)⟩
  by_cases hp : p = 0
  · simp only [if_pos hp]
    exact kmallocBuddy_ends.bind hclear
  · simp only [if_neg hp]
    exact hclear p area₁ ⟨rfl, rfl, rfl, fun _ h => h⟩

/-- The growth branch asks the buddy that it opened. -/
theorem growArea_ends {size : Nat} (hsize : size ≤ maxSize) (hs : Sane base n area) :
    Ends False (growArea (pageCount size) area.buddyNum) area fun found area' =>
      Sane base n area' ∧ ∀ offset, found = some offset →
        InBuddy (blockPages size) offset ∧ area.buddyNum < n := by
  unfold growArea
  refine ends_get_bind ?_
  split
  · exact ends_pure ⟨hs, nofun⟩
  · have hnum : (area.buddyNum + 1) % 2 ^ 32 = area.buddyNum + 1 := by
      have h₁ := hs.num
      have h₂ := hs.short
      omega
    rw [hnum]
    refine Ends.bind (Q := fun _ area' => area' = area.grown) (ends_of_ok rfl rfl) ?_
    intro _ area₁ harea
    subst harea
    refine (buddyAt_ends area.buddyNum).bind fun p area₂ hp => ?_
    obtain ⟨rfl, hp⟩ := hp
    have hlt : area.buddyNum < n := by
      rw [← hs.length]
      exact (List.getElem?_eq_some_iff.mp hp).1
    refine (buddyInitAt_ends p).bind fun _ area₃ h₃ => ?_
    obtain ⟨hsteady, hlevel⟩ := h₃
    have hnum₃ : area₃.buddyNum = area.buddyNum + 1 := hsteady.num
    have hs₃ : Sane base n area₃ := by
      refine ⟨hsteady.base.trans hs.base, ?_, by omega, hs.short, ?_⟩
      · rw [hsteady.list]
        exact hs.length
      · intro i hi q hq
        rw [hsteady.list] at hq
        rcases Nat.lt_or_ge i area.buddyNum with hold | hnew
        · exact hsteady.level q (hs.level i hold q hq)
        · obtain rfl : i = area.buddyNum := by omega
          obtain rfl : p = q := Option.some.inj (hp.symm.trans hq)
          exact hlevel
    refine (buddyAllocAt_ends hsize hs₃ (by omega)).bind fun offset area₄ h₄ => ?_
    refine ends_pure ⟨h₄.1, ?_⟩
    intro offset' heq
    obtain rfl := Option.some.inj heq
    exact ⟨h₄.2.2, hlt⟩

/-- A block for `size` bytes at `paddr` is inside of the managed buddies. -/
def Inside (base n paddr size : Nat) : Prop :=
  ∃ q, paddr = areaAddr base q ∧ q + blockPages size ≤ 1024 * n

theorem pageGrant_ends {pages : Pages} {s : Int} {i : Nat} {offset : Int}
    (hs : Sane base n area) (hi : 0 ≤ offset → i < n)
    (hoff : InBuddy (blockPages pages.size) offset) :
    Ends False (pageGrant pages s i offset) area fun answer area' =>
      Sane base n area' ∧ (answer.1 = 0 → Inside base n answer.2.paddr pages.size) := by
  rcases hoff with hmiss | ⟨q, rfl, hq⟩
  · rw [pageGrant, if_pos hmiss]
    refine ends_pure ⟨hs, ?_⟩
    intro hzero
    cases hzero
  · refine ends_of_ok pageGrant_ok ⟨⟨hs.base, hs.length, hs.num, hs.short, hs.level⟩, ?_⟩
    intro _
    have hlt := hi (by omega)
    exact ⟨1024 * i + q, by rw [hs.base], by omega⟩

theorem pageAlloc_ends {pages : Pages} (hsize : pages.size ≤ maxSize) (hs : Sane base n area) :
    Ends False (pageAlloc pages) area fun answer area' =>
      Sane base n area' ∧ (answer.1 = 0 → Inside base n answer.2.paddr pages.size) := by
  unfold pageAlloc
  refine ends_get_bind ?_
  refine (scanBuddies_ends hsize _ 0 (-1) hs (Nat.zero_add _) (Or.inr rfl)).bind
    fun found area₁ h₁ => ?_
  obtain ⟨i, offset⟩ := found
  obtain ⟨hs₁, hnum, hin, hmiss, hhit⟩ := h₁
  simp only at hin hmiss hhit ⊢
  by_cases hoff : offset = -1
  · rw [if_pos hoff, hmiss (by omega), ← hnum]
    refine (growArea_ends hsize hs₁).bind fun found area₂ h₂ => ?_
    cases found with
    | none => exact ends_pure ⟨h₂.1, nofun⟩
    | some offset' =>
        obtain ⟨hin', hlt⟩ := h₂.2 offset' rfl
        exact pageGrant_ends h₂.1 (fun _ => hlt) hin'
  · rw [if_neg hoff]
    have hle := hs.num
    exact pageGrant_ends hs₁ (fun h => Nat.lt_of_lt_of_le (hhit h) hle) hin

end Request

/-! ## Whole runs over any table -/

section Run

variable {boot : Boot} {base n : Nat} {r : AreaRun}

structure RunInside (base n : Nat) (r : AreaRun) : Prop where
  sane : Sane base n r.area
  given : ∀ g ∈ r.given, Inside base n g.paddr g.size

theorem runInside_init (h : (pageCalls boot).init r) :
    RunInside (areaExtent boot).1 ((areaExtent boot).2 / 1024) r := by
  obtain ⟨⟨words, area₀, hinit⟩, hlive, hfreed⟩ := h
  obtain ⟨hnum, hlen, hshort, _⟩ := pageAllocatorInit_ok hinit
  obtain ⟨hbase, hpages⟩ := Prod.mk.inj (pageAllocatorInit_extent hinit)
  rw [hpages] at hlen hshort
  refine ⟨⟨hbase, hlen, by omega, hshort, ?_⟩, ?_⟩
  · intro i hi
    omega
  · intro g hg
    rw [AreaRun.given, hlive, hfreed] at hg
    cases hg

theorem pageFree_ends {area : Area} {pages : Pages} (hs : Sane base n area) :
    Ends False (pageFree pages) area fun _ area' => Sane base n area' := by
  refine (pageFree_counts pages area).imp fun _ area' harea => ?_
  obtain ⟨n, rfl⟩ := harea
  exact ⟨hs.base, hs.length, hs.num, hs.short, hs.level⟩

theorem RunInside.step (h : RunInside base n r) {c : AreaCall}
    (hl : (pageCalls boot).legal r c) :
    Ends False (AreaRun.step c) r fun _ r' => RunInside base n r' := by
  cases c with
  | alloc pages =>
      refine Ends.bind (Q := fun answer r' => RunInside base n r' ∧
          (answer.1 = 0 → Inside base n answer.2.paddr pages.size)) ?_ ?_
      · refine ends_zoom (pageAlloc_ends hl h.sane) fun answer area' hans => ?_
        exact ⟨⟨hans.1, h.given⟩, hans.2⟩
      · intro answer r' hans
        obtain ⟨hr', hin⟩ := hans
        obtain ⟨result, p⟩ := answer
        simp only at hin ⊢
        split
        · next hresult =>
            refine ends_modify ⟨hr'.sane, ?_⟩
            intro g hg
            rcases List.mem_cons.mp hg with rfl | hg
            · exact hin hresult
            · exact hr'.given g hg
        · exact ends_pure hr'
  | free pages =>
      refine Ends.bind (Q := fun _ r' => RunInside base n r') ?_ ?_
      · refine ends_zoom (pageFree_ends h.sane) fun _ area' hs => ?_
        exact ⟨hs, h.given⟩
      · intro _ r' hr'
        refine ends_modify ⟨hr'.sane, ?_⟩
        intro g hg
        refine hr'.given g ?_
        rcases List.mem_append.mp hg with hg | hg
        · exact List.mem_append_left _ (List.mem_of_mem_filter hg)
        · rcases List.mem_append.mp hg with hg | hg
          · exact List.mem_append_left _ (List.mem_of_mem_filter hg)
          · exact List.mem_append_right _ hg

theorem runInside_of_reachable (h : (pageCalls boot).Reachable r) :
    RunInside (areaExtent boot).1 ((areaExtent boot).2 / 1024) r :=
  Machine.reachable_of_kept (fun _ => runInside_init)
    (fun _ _ _ hI hl hrun => (hI.step hl).of_run hrun) h

end Run

/-! ## A run that hands out every page -/

section Sweep

variable {N base k c : Nat} {r : AreaRun}

/-- The first `k` buddies are out as one block each, and the counter is at
`c`. -/
structure Swept (N base k c : Nat) (r : AreaRun) : Prop where
  ledger : ∃ bs, Ledger N r bs
  base : r.area.baseAddr = base
  num : r.area.buddyNum = k
  count : r.area.pageNum = c
  covers : ∀ i < k, ∃ g ∈ r.given, g.place r.area.baseAddr = (1024 * i, 1024)

/-- A request for a whole buddy. -/
def wholeBuddy : Pages := ⟨0, 2 ^ 22, 0⟩

theorem wholeBuddy_size : wholeBuddy.size ≤ maxSize := by decide

theorem wholeBuddy_pages : blockPages (2 ^ 22) = 1024 := by decide

theorem wholeBuddy_count : pageCount (2 ^ 22) = 1024 := by decide

/-- A block of a whole buddy starts where a buddy does. -/
theorem Ledger.place_whole {bs : List Blk} (hL : Ledger N r bs) {g : Grant} (hg : g ∈ r.given)
    (hpages : g.pages = 1024) :
    ∃ i < r.area.buddyNum, g.place r.area.baseAddr = (1024 * i, 1024) := by
  have hmem := hL.places.mem_iff.mp (List.mem_map_of_mem hg)
  obtain ⟨i, b, hb, hblock⟩ := mem_forest.mp hmem
  obtain ⟨_, hlo, hhi, _⟩ := Blk.blocks_bounds hblock
  have hi := (List.getElem?_eq_some_iff.mp hb).1
  rw [hL.holds.length] at hi
  refine ⟨i, hi, ?_⟩
  rw [Grant.place, hpages] at hlo hhi ⊢
  refine Prod.ext ?_ rfl
  simp only at hlo hhi ⊢
  omega

/-- Another buddy is taken. -/
theorem Swept.alloc (h : Swept N base k c r) (hk : k < N / 1024) (hc : k < c / 1024)
    (hword : c < 2 ^ 32) :
    ∃ r' g, (AreaRun.step (.alloc wholeBuddy)).run r = .ok () r' ∧
      Swept N base (k + 1) (c - 1024) r' ∧ r'.live = g :: r.live ∧ r'.freed = r.freed := by
  obtain ⟨bs, hL⟩ := h.ledger
  have hbase := h.base
  have hnum := h.num
  have hcount := h.count
  cases ledger_alloc hL wholeBuddy_size with
  | @granted r' bs' paddr run result small fits ledger opens live freed count =>
      have hgiven : r'.given = ⟨paddr, 2 ^ 22⟩ :: r.given := by
        rw [AreaRun.given, live, freed]
        rfl
      have hbase' : r'.area.baseAddr = base := opens.baseAddr.trans hbase
      have hmem : ⟨paddr, 2 ^ 22⟩ ∈ r'.given := by
        rw [hgiven]
        exact List.mem_cons_self
      obtain ⟨j, hj, hplace⟩ := ledger.place_whole hmem wholeBuddy_pages
      -- It is not one of the buddies that are out already.
      have hnew : k ≤ j := by
        by_contra hlt
        obtain ⟨g, hg, hgplace⟩ := h.covers j (by omega)
        have hpair := ledger.pairwise
        rw [hgiven] at hpair
        have hapart := (List.pairwise_cons.mp hpair).1 g hg
        rw [hplace, opens.baseAddr, hgplace] at hapart
        rcases hapart with hapart | hapart
        · simp only at hapart
          omega
        · simp only at hapart
          omega
      have hnum' : r'.area.buddyNum = k + 1 := by
        rcases opens.buddyNum with hsame | ⟨hmore, _⟩
        · omega
        · omega
      refine ⟨r', _, run, ⟨⟨bs', ledger⟩, hbase', hnum', ?_, ?_⟩, live, freed⟩
      · rw [show wholeBuddy.size = 2 ^ 22 from rfl, wholeBuddy_count] at count
        omega
      · intro i hi
        rw [hgiven]
        rcases Nat.lt_succ_iff_lt_or_eq.mp hi with hi | rfl
        · obtain ⟨g, hg, hgplace⟩ := h.covers i hi
          rw [opens.baseAddr]
          exact ⟨g, List.mem_cons_of_mem _ hg, hgplace⟩
        · obtain rfl : j = i := by omega
          exact ⟨_, List.mem_cons_self, hplace⟩
  | refused run result full ledger opens live freed count =>
      have hfull := (full (Nat.le_of_eq wholeBuddy_pages)).2
      omega
  | overrun run result small full grow last => omega

/-- The only block that is out, at the start of the area, is given back. -/
theorem Swept.free (h : Swept N base k c r) {g : Grant} (hlive : r.live = [g])
    (hplace : g.place r.area.baseAddr = (0, 1024)) :
    ∃ r', (AreaRun.step (.free ⟨g.paddr, 0, 0⟩)).run r = .ok () r' ∧
      Swept N base k ((c + 2 ^ 22) % 2 ^ 32) r' := by
  obtain ⟨bs, hL⟩ := h.ledger
  obtain ⟨hfirst, hpages⟩ := Prod.mk.inj hplace
  have hg : g ∈ r.live := by
    rw [hlive]
    exact List.mem_cons_self
  have hstep : FreeStep N r ⟨g.paddr, 0, 0⟩ := ledger_free hL (List.mem_map_of_mem hg)
  cases hstep with
  | @freed r' bs' g' run above ledger base' opened live freed count =>
      have hsame : g' = g := by
        have hmem := live.mem_iff.mpr (List.mem_cons_self (a := g'))
        rw [hlive] at hmem
        exact List.mem_singleton.mp hmem
      refine ⟨r', run, ⟨⟨bs', ledger⟩, base'.trans h.base, opened.trans h.num, ?_, ?_⟩⟩
      · rw [count, h.count, hsame, hpages]
        omega
      · intro i hi
        obtain ⟨f, hf, hfplace⟩ := h.covers i hi
        rw [base']
        refine ⟨f, ?_, hfplace⟩
        rw [AreaRun.given, freed]
        exact (List.perm_middle.trans (live.symm.append_right _)).mem_iff.mpr hf
  | stopped run below =>
      have haddr := hL.addr g (List.mem_append_left _ hg)
      rw [hfirst, areaAddr] at haddr
      have hlt := hL.base
      simp only at below
      omega

/-- The memory of the table held good pointers. -/
theorem exists_swept_zero (boot : Boot) (hshort : (areaExtent boot).2 / 1024 ≤ 512) :
    ∃ r, (pageCalls boot).init r ∧
      Swept (areaExtent boot).2 (areaExtent boot).1 0 (areaExtent boot).2 r := by
  have hrun := pageAllocatorInit_run { boot with words := (sampleBoot 0).words }
    (sampleRun 0).area hshort
  refine ⟨⟨_, [], []⟩, ⟨⟨_, _, hrun⟩, rfl, rfl⟩, ?_⟩
  have hledger := ledger_init (N := (areaExtent boot).2) (r := ⟨_, [], []⟩)
    ⟨⟨_, _, hrun⟩, table_sample rfl fun _ => rfl, rfl, rfl, rfl⟩
  refine ⟨⟨[], hledger⟩, rfl, rfl, rfl, ?_⟩
  intro i hi
  omega

theorem exists_swept {boot : Boot} (hshort : (areaExtent boot).2 / 1024 ≤ 512)
    (hk : k + 1 ≤ (areaExtent boot).2 / 1024) :
    ∃ r, (pageCalls boot).Reachable r ∧ Swept (areaExtent boot).2 (areaExtent boot).1 (k + 1)
      ((areaExtent boot).2 + 2 ^ 22 - 1024 * (k + 1)) r := by
  generalize hext : (areaExtent boot).2 = N at hshort hk
  induction k with
  | zero =>
      obtain ⟨r₀, hinit, h₀⟩ := exists_swept_zero boot (by omega)
      rw [hext] at h₀
      obtain ⟨r₁, g, hrun₁, h₁, hlive₁, hfreed₁⟩ := h₀.alloc (by omega) (by omega) (by omega)
      rw [hinit.2.1] at hlive₁
      rw [hinit.2.2] at hfreed₁
      have hplace : g.place r₁.area.baseAddr = (0, 1024) := by
        obtain ⟨f, hf, hfplace⟩ := h₁.covers 0 (by omega)
        rw [AreaRun.given, hlive₁, hfreed₁] at hf
        obtain rfl := List.mem_singleton.mp hf
        exact hfplace
      obtain ⟨r₂, hrun₂, h₂⟩ := h₁.free hlive₁ hplace
      have hreach₁ : (pageCalls boot).Reachable r₁ :=
        (Machine.Reachable.init hinit).step (i := .alloc wholeBuddy) wholeBuddy_size hrun₁
      refine ⟨r₂, hreach₁.step (i := .free ⟨g.paddr, 0, 0⟩) ?_ hrun₂, ?_⟩
      · show g.paddr ∈ r₁.live.map Grant.paddr
        rw [hlive₁]
        exact List.mem_cons_self
      · rw [show N + 2 ^ 22 - 1024 * (0 + 1) = (N - 1024 + 2 ^ 22) % 2 ^ 32 by omega]
        exact h₂
  | succ k ih =>
      obtain ⟨r, hreach, h⟩ := ih (by omega)
      obtain ⟨r', _, hrun, h', _, _⟩ := h.alloc (by omega) (by omega) (by omega)
      refine ⟨r', hreach.step (i := .alloc wholeBuddy) wholeBuddy_size hrun, ?_⟩
      rw [show N + 2 ^ 22 - 1024 * (k + 1 + 1) = N + 2 ^ 22 - 1024 * (k + 1) - 1024 by omega]
      exact h'

end Sweep

/-- Exactly the pages of the whole buddies. Where there are more than 512 of
them `page_allocator_init` panics. -/
theorem returnable_iff {boot : Boot} {p : Nat} :
    Returnable boot p ↔ (areaExtent boot).2 / 1024 ≤ 512 ∧
      ∃ q < 1024 * ((areaExtent boot).2 / 1024), p = areaAddr (areaExtent boot).1 q := by
  constructor
  · intro h
    obtain ⟨r, hr, g, hg, hp⟩ := h
    have hin := runInside_of_reachable hr
    obtain ⟨q, hpaddr, hq⟩ := hin.given g hg
    obtain ⟨j, hj, rfl⟩ := List.mem_map.mp hp
    rw [List.mem_range, Grant.pages] at hj
    refine ⟨hin.sane.short, q + j, by omega, ?_⟩
    rw [hpaddr, areaAddr, areaAddr]
    omega
  · intro h
    obtain ⟨hshort, q, hq, rfl⟩ := h
    obtain ⟨k, hk⟩ : ∃ k, (areaExtent boot).2 / 1024 = k + 1 :=
      ⟨(areaExtent boot).2 / 1024 - 1, by omega⟩
    obtain ⟨r, hr, hswept⟩ := exists_swept hshort (Nat.le_of_eq hk.symm)
    obtain ⟨bs, hL⟩ := hswept.ledger
    obtain ⟨g, hg, hplace⟩ := hswept.covers (q / 1024) (by omega)
    obtain ⟨hfirst, hpages⟩ := Prod.mk.inj hplace
    refine ⟨r, hr, g, hg, ?_⟩
    rw [hL.pageAddrs_eq hg, hfirst, hpages, hswept.base]
    refine List.mem_map.mpr ⟨q % 1024, List.mem_range.mpr (Nat.mod_lt _ (by decide)), ?_⟩
    rw [show 1024 * (q / 1024) + q % 1024 = q from Nat.div_add_mod q 1024]

end Aim.Kern
