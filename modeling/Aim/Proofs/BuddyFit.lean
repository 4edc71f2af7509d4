import Aim.Proofs.BuddyRun
import Aim.Lib.Ends

/-!
# First fit

What `buddy_alloc` answers is a matter of the blocks handed out alone: the
least free run of its size, and none only when there is none. The abstract
tree has this already (`Blk.alloc_first`, `Blk.alloc_none_blocked`); here it
is said in terms of pages, and for every state a buddy can get into.

That covers more than `buddyCalls`, whose clients keep to the rules. In
`buddyHistory` any `int` may be passed to either function. It makes no
difference: a `buddy_free` of anything but a live block does not return, and
a request that rounds to no power of two either finds the buddy full or runs
off the bottom of the tree.
-/

namespace Aim.Kern

open Aim.Lib

/-- `v` is the value of a C `int`. -/
def IsInt (v : Int) : Prop := -2 ^ 31 ≤ v ∧ v < 2 ^ 31

/-- The runs of a buddy of level `L` under any calls at all. -/
def buddyHistory (L : Nat) : Machine Stop BuddyRun BuddyCall where
  init := (buddyCalls L).init
  legal _
    | .alloc s => IsInt s
    | .free o => IsInt o
  step := BuddyRun.step

instance (v : Int) : Decidable (IsInt v) :=
  inferInstanceAs (Decidable (-2 ^ 31 ≤ v ∧ v < 2 ^ 31))

instance (L : Nat) (r : BuddyRun) : ∀ i, Decidable ((buddyHistory L).legal r i)
  | .alloc s => inferInstanceAs (Decidable (IsInt s))
  | .free o => inferInstanceAs (Decidable (IsInt o))

/-! ## `buddy_free` of something else -/

variable {L : Nat} {o : Int} {t : Int → Node} {b : Blk} {r r' : BuddyRun}

/-- The descent only ends well at the start of a block. -/
theorem buddyFreeLoop_start {offset : Int} :
    ∀ {h d n left : Nat} {i : Int} {b : Blk}, d + h = L → OnLevel d i → Stores t h i b →
    Ends False (buddyFreeLoop offset n left (2 ^ h) i) (ofTree L t) fun _ _ =>
      ∃ p ∈ Blk.blocks h left b, offset = p.1 := by
  intro h d n
  induction n generalizing h d with
  | zero =>
      intro left i b _ _ _
      exact ends_throw id
  | succ n ih =>
      intro left i b hL hi hs
      cases b with
      | free =>
          rw [buddyFreeLoop, Ends, run_bind_ok (treeGet_ofTree t hi (by omega)),
            (stores_free.mp hs).1]
          exact False.elim
      | used =>
          rw [buddyFreeLoop]
          refine (ends_of_ok (Q := fun m self => m = .used ∧ self = ofTree L t)
            (treeGet_ofTree t hi (by omega)) ⟨(stores_used.mp hs).1, rfl⟩).bind ?_
          intro m self hm
          obtain ⟨rfl, rfl⟩ := hm
          by_cases hleft : offset = left
          · refine (ends_any _ _).imp fun _ _ _ => ⟨(left, 2 ^ h), by simp, hleft⟩
          · simp only [ne_eq, hleft, not_false_eq_true, if_true]
            exact ends_throw id
      | node l r =>
          cases h with
          | zero => exact absurd hs id
          | succ h =>
              obtain ⟨_, hl, hr⟩ := stores_node.mp hs
              have hround : (buddyFreeLoop offset (n + 1) left (2 ^ (h + 1)) i).run (ofTree L t) =
                  _ := buddyFreeLoop_inner hs hi (by omega)
              by_cases hlt : offset < left + 2 ^ h
              · rw [if_pos hlt] at hround
                refine Ends.of_eq hround ((ih (d := d + 1) (by omega) hi.left hl).imp ?_)
                intro _ _ hp
                obtain ⟨p, hp, ho⟩ := hp
                exact ⟨p, List.mem_append_left _ hp, ho⟩
              · rw [if_neg hlt] at hround
                have hright : Ends False (buddyFreeLoop offset n ((left + 2 ^ h : Nat) : Int)
                    (2 ^ h) (i * 2 + 2)) (ofTree L t) fun _ _ =>
                    ∃ p ∈ Blk.blocks h (left + 2 ^ h) r, offset = p.1 :=
                  ih (d := d + 1) (by omega) hi.right hr
                push_cast at hright
                refine Ends.of_eq hround (hright.imp ?_)
                intro _ _ hp
                obtain ⟨p, hp, ho⟩ := hp
                exact ⟨p, List.mem_append_right _ hp, ho⟩

/-- What `buddy_free` returns from was the start of a block. -/
theorem buddyFree_start (hs : Stores t L 0 b) :
    Ends False (buddyFree o) (ofTree L t) fun _ _ => ∃ p ∈ clientBlocks L b, o = p.1 := by
  have hloop : Ends False (buddyFreeLoop o ((ofTree L t).size + 1) ((0 : Nat) : Int) (2 ^ L) 0)
      (ofTree L t) fun _ _ => ∃ p ∈ Blk.blocks L 0 b, o = p.1 :=
    buddyFreeLoop_start (Nat.zero_add L) Ctx.root.onLevel hs
  have hstart : Ends False (buddyFreeLoop o ((ofTree L t).size + 1) 0 (2 ^ L) 0) (ofTree L t)
      fun _ _ => ∃ p ∈ clientBlocks L b, o = p.1 := by
    refine hloop.imp ?_
    intro _ _ hp
    obtain ⟨p, hp, ho⟩ := hp
    exact ⟨_, List.mem_map_of_mem hp, ho⟩
  rw [buddyFree]
  refine ends_get_bind ?_
  by_cases ho : o ≥ 2 ^ L
  · simp only [ofTree, ho, if_true]
    exact ends_throw id
  · simp only [ofTree, ho, if_false]
    exact hstart

/-! ## A request of no size -/

theorem treeSet_below {i : Int} (t : Int → Node) (m : Node) (hi : 2 ^ (L + 1) - 1 ≤ i) :
    (treeSet i m).run (ofTree L t) = .error (.oob i) (ofTree L t) := by
  have hnot : ¬ (0 ≤ i ∧ i < (ofTree L t).size) := by
    rw [ofTree_size]
    omega
  rw [treeSet]
  show (if 0 ≤ i ∧ i < (ofTree L t).size then _ else _ : EStateM Stop Buddy Unit).run
    (ofTree L t) = _
  rw [if_neg hnot]
  rfl

section Misfit

variable {L : Nat} {size : Int} (hsize : size ≤ 0) {t : Int → Node}

include hsize

theorem misfit_ne (h : Nat) : size ≠ 2 ^ h := by
  have hpos : (0 : Int) < 2 ^ h := by positivity
  omega

/-- From an unused node the search cuts one node after the other and leaves
the array at the bottom. -/
theorem search_unused {fuel : Nat} : ∀ {h d : Nat} {i level : Int} {t : Int → Node},
    d + h = L → OnLevel d i → t i = .unused →
    Ends False (buddySearch size fuel i level (2 ^ h)) (ofTree L t) fun _ _ => False := by
  induction fuel with
  | zero =>
      intro h d i level t _ _ _
      exact ends_throw id
  | succ fuel ih =>
      intro h d i level t hL hi hu
      cases h with
      | zero =>
          have hbelow : (2 : Int) ^ (L + 1) - 1 ≤ i * 2 + 1 := by
            have hlo := hi.1
            obtain rfl : d = L := by omega
            rw [pow_succ]
            omega
          have hvisit : (buddyVisit size i (2 ^ 0)).run (ofTree L t) =
              .error (.oob (i * 2 + 1)) (ofTree L (Function.update t i .split)) := by
            rw [buddyVisit, run_bind_ok (treeGet_ofTree t hi (by omega)),
              if_neg (misfit_ne hsize 0), hu]
            refine (run_bind_ok (treeSet_ofTree t .split hi (by omega))).trans ?_
            exact run_bind_error (treeSet_below _ _ hbelow)
          rw [buddySearch, if_neg (by have := hi.nonneg; omega)]
          exact ends_of_stop (run_bind_error hvisit) id
      | succ h =>
          have hvisit := buddyVisit_unused (L := L) (misfit_ne hsize (h + 1)) hi (by omega) hu
          have hdown : (buddySearch size (fuel + 1) i level (2 ^ (h + 1))).run (ofTree L t) = _ :=
            buddySearch_down hi.nonneg hvisit
          rw [show (2 : Int) ^ (h + 1) / 2 = 2 ^ h by rw [pow_succ]; omega] at hdown
          exact Ends.of_eq hdown (ih (d := d + 1) (by omega) hi.left (cutAt_left t i))

theorem buddyVisit_full {h d : Nat} {i : Int} {b : Blk} (hL : d + h = L) (hi : OnLevel d i)
    (hs : Stores t h i b) (hf : b.full = true) :
    (buddyVisit size i (2 ^ h)).run (ofTree L t) = .ok .pass (ofTree L t) := by
  rw [buddyVisit, run_bind_ok (treeGet_ofTree t hi (by omega)), if_neg (misfit_ne hsize h)]
  rcases hs.full_iff.mpr hf with hm | hm <;> rw [hm] <;> rfl

/-- Where there is a free page the search finds its way to an unused node. -/
theorem search_room : ∀ {h d fuel : Nat} {i level : Int} {b : Blk},
    d + h = L → OnLevel d i → Stores t h i b → b.full = false →
    Ends False (buddySearch size fuel i level (2 ^ h)) (ofTree L t) fun _ _ => False := by
  intro h
  induction h with
  | zero =>
      intro d fuel i level b hL hi hs hf
      cases b with
      | free => exact search_unused hsize hL hi (stores_free.mp hs).1
      | used => cases hf
      | node l r => exact absurd hs id
  | succ h ih =>
      intro d fuel i level b hL hi hs hf
      cases b with
      | free => exact search_unused hsize hL hi (stores_free.mp hs).1
      | used => cases hf
      | node l r =>
          obtain ⟨hm, hl, hr⟩ := stores_node.mp hs
          have hf' : (l.full && r.full) = false := hf
          rw [hf'] at hm
          cases fuel with
          | zero => exact ends_throw id
          | succ fuel =>
              have hvisit : (buddyVisit size i (2 ^ (h + 1))).run (ofTree L t) =
                  .ok .down (ofTree L t) := by
                rw [buddyVisit, run_bind_ok (treeGet_ofTree t hi (by omega)),
                  if_neg (misfit_ne hsize (h + 1)), hm]
                rfl
              have hdown : (buddySearch size (fuel + 1) i level (2 ^ (h + 1))).run (ofTree L t) =
                  _ := buddySearch_down hi.nonneg hvisit
              rw [show (2 : Int) ^ (h + 1) / 2 = 2 ^ h by rw [pow_succ]; omega] at hdown
              refine Ends.of_eq hdown ?_
              cases hlf : l.full with
              | false => exact ih (d := d + 1) (by omega) hi.left hl hlf
              | true =>
                  -- The left half is passed by, and the free page is in the right one.
                  cases fuel with
                  | zero => exact ends_throw id
                  | succ fuel =>
                      have hpass : (buddySearch size (fuel + 1) (i * 2 + 1) (level + 1)
                          (2 ^ h)).run (ofTree L t) = _ := buddySearch_pass hi.left.nonneg
                        (buddyVisit_full hsize (d := d + 1) (by omega) hi.left hl hlf)
                      rw [searchNext_left] at hpass
                      rw [hlf, Bool.true_and] at hf'
                      exact Ends.of_eq hpass (ih (d := d + 1) (by omega) hi.right hr hf')

end Misfit

section Misfit

variable {L : Nat} {b : Blk} {t : Int → Node} {s : Int}

theorem buddyAlloc_misfit_search (hsize : blockSize s ≤ 0) :
    (buddyAlloc s).run (ofTree L t) =
      (buddySearch (blockSize s) (2 ^ (L + 2)) 0 0 (2 ^ L)).run (ofTree L t) := by
  have hlarge : ¬ blockSize s > 2 ^ L := by
    have hpos : (0 : Int) < 2 ^ L := by positivity
    omega
  rw [buddyAlloc]
  show (if blockSize s > 2 ^ L then _ else _ : EStateM Stop Buddy Int).run (ofTree L t) = _
  rw [if_neg hlarge]
  rfl

/-- A request that rounds to no power of two, where there is a free page. -/
theorem buddyAlloc_misfit_room (hs : Stores t L 0 b) (hsize : blockSize s ≤ 0)
    (hf : b.full = false) : Ends False (buddyAlloc s) (ofTree L t) fun _ _ => False :=
  Ends.of_eq (buddyAlloc_misfit_search hsize)
    (search_room hsize (Nat.zero_add L) Ctx.root.onLevel hs hf)

/-- The same where there is none. -/
theorem buddyAlloc_misfit_full (hs : Stores t L 0 b) (hsize : blockSize s ≤ 0)
    (hf : b.full = true) : (buddyAlloc s).run (ofTree L t) = .ok (-1) (ofTree L t) := by
  have hpass := buddyVisit_full hsize (Nat.zero_add L) Ctx.root.onLevel hs hf
  obtain ⟨m, hm⟩ : ∃ m, 2 ^ (L + 2) = m + 1 :=
    ⟨2 ^ (L + 2) - 1, by have : 0 < 2 ^ (L + 2) := Nat.pow_pos (by omega); omega⟩
  rw [buddyAlloc_misfit_search hsize, hm]
  exact (buddySearch_pass Ctx.root.index_nonneg hpass).trans searchNext_root

/-- A request that rounds to no power of two hands nothing out. -/
theorem buddyAlloc_misfit (hs : Stores t L 0 b) (hsize : blockSize s ≤ 0) :
    Ends False (buddyAlloc s) (ofTree L t) fun o self => o = -1 ∧ self = ofTree L t := by
  cases hf : b.full with
  | false => exact (buddyAlloc_misfit_room hs hsize hf).imp fun _ _ h => h.elim
  | true => exact ends_of_ok (buddyAlloc_misfit_full hs hsize hf) ⟨rfl, rfl⟩

end Misfit

/-! ## Every call keeps the invariant -/

theorem held_misfit {s : Int} (hr : Held L r) (hsize : blockSize s ≤ 0)
    (hrun : (BuddyRun.step (.alloc s)).run r = .ok () r') :
    Held L r' := by
  obtain ⟨t, b, hbuddy, hst, hwf, hlive⟩ := hr
  have hcall : Ends False (buddyAlloc s) r.buddy fun o self => o = -1 ∧ self = ofTree L t := by
    rw [hbuddy]
    exact buddyAlloc_misfit hst hsize
  have hstep : Ends False (BuddyRun.step (.alloc s)) r fun _ r' => Held L r' := by
    rw [BuddyRun.step]
    refine Ends.bind (Q := fun o q => o = -1 ∧ q = { r with buddy := ofTree L t })
      (ends_zoom hcall fun o self ho => ⟨ho.1, by rw [ho.2]⟩) ?_
    intro o q hq
    obtain ⟨rfl, rfl⟩ := hq
    exact ends_pure ⟨t, b, rfl, hst, hwf, hlive⟩
  exact hstep.of_run hrun

theorem held_freed (hr : Held L r) (hrun : (BuddyRun.step (.free o)).run r = .ok () r') :
    Held L r' := by
  have hlive : ∃ n, (o, n) ∈ r.live := by
    obtain ⟨t, b, hbuddy, hst, -, hlive⟩ := hr
    have hcall : Ends False (buddyFree o) r.buddy fun _ _ => ∃ p ∈ clientBlocks L b, o = p.1 := by
      rw [hbuddy]
      exact buddyFree_start hst
    have hstep : Ends False (BuddyRun.step (.free o)) r
        fun _ _ => ∃ p ∈ clientBlocks L b, o = p.1 := by
      rw [BuddyRun.step]
      refine Ends.bind (Q := fun _ _ => ∃ p ∈ clientBlocks L b, o = p.1)
        (ends_zoom hcall fun _ _ h => h) ?_
      intro _ q hq
      exact ends_modify hq
    obtain ⟨⟨_, n⟩, hp, rfl⟩ := hstep.of_run hrun
    exact ⟨n, hlive.mem_iff.mpr hp⟩
  obtain ⟨n, hn⟩ := hlive
  obtain ⟨q, hq, hheld⟩ := held_free hr hn
  rw [hq] at hrun
  injection hrun with _ hqr
  exact hqr ▸ hheld

theorem held_history {r : BuddyRun} (h : (buddyHistory L).Reachable r) : Held L r := by
  have hinit : ∀ r, (buddyHistory L).init r → Held L r := (held_invariant L).init
  refine Machine.reachable_of_kept hinit ?_ h
  intro r i r' hr hl hrun
  cases i with
  | alloc s =>
      by_cases hs : 0 ≤ s ∧ s ≤ 2 ^ 30
      · obtain ⟨q, hq, hheld⟩ := held_alloc hr hs.1 hs.2
        rw [show (BuddyRun.step (.alloc s)).run r = .ok () r' from hrun] at hq
        injection hq with _ hqr
        exact hqr ▸ hheld
      · have hl' : IsInt s := hl
        exact held_misfit hr (blockSize_nonpos hl'.1 hl'.2 (by omega)) hrun
  | free o => exact held_freed hr hrun

/-! ## What `buddy_alloc` answers -/

/-- The `n` pages from `o` on are an aligned run of the buddy, and none of
them belongs to a live block. -/
structure Fits (L : Nat) (live : List (Int × Int)) (n o : Int) : Prop where
  nonneg : 0 ≤ o
  inside : o + n ≤ 2 ^ L
  aligned : n ∣ o
  free : ∀ page, o ≤ page → page < o + n → ∀ p ∈ live, ¬ (p.1 ≤ page ∧ page < p.1 + p.2)

/-- `o` is what first fit answers to a request for `n` pages. -/
structure FirstFit (L : Nat) (live : List (Int × Int)) (n o : Int) : Prop where
  large : o = -2 ↔ 2 ^ L < n
  least : n ≤ 2 ^ L → (∃ o', Fits L live n o') → IsLeast {o' | Fits L live n o'} o
  none : n ≤ 2 ^ L → (o = -1 ↔ ¬ ∃ o', Fits L live n o')

/-- The runs that fit are the aligned ones no block reaches into. -/
theorem fits_iff {L k : Nat} {live : List (Int × Int)} (hk : k ≤ L)
    (hlive : live.Perm (clientBlocks L b)) :
    Fits L live (2 ^ k) o ↔ ∃ m : Nat, m < 2 ^ (L - k) ∧ o = ((m * 2 ^ k : Nat) : Int) ∧
      ¬ Blk.Blocked (Blk.blocks L 0 b) (m * 2 ^ k, 2 ^ k) := by
  have hpow : 2 ^ L = 2 ^ (L - k) * 2 ^ k := by rw [← pow_add, Nat.sub_add_cancel hk]
  have hkpos : 0 < 2 ^ k := Nat.pow_pos (by omega)
  constructor
  · intro hfit
    obtain ⟨c, hc⟩ := hfit.aligned
    have hcpos : 0 ≤ c := by
      by_contra hneg
      have hmul : (2 : Int) ^ k * c < 0 := mul_neg_of_pos_of_neg (by positivity) (by omega)
      have h0 := hfit.nonneg
      omega
    obtain ⟨m, rfl⟩ := Int.eq_ofNat_of_zero_le hcpos
    have ho : o = ((m * 2 ^ k : Nat) : Int) := by
      rw [hc]
      push_cast
      ring
    have hin : m * 2 ^ k + 2 ^ k ≤ 2 ^ L := by
      have hle := hfit.inside
      rw [ho] at hle
      exact_mod_cast hle
    refine ⟨m, ?_, ho, ?_⟩
    · rw [hpow, ← Nat.succ_mul] at hin
      exact Nat.le_of_mul_le_mul_right hin hkpos
    · intro hb
      obtain ⟨p, hp, hmeet⟩ := hb
      have hpos := (Blk.blocks_bounds hp).1
      rw [Blk.Apart, not_or] at hmeet
      have hlo := hmeet.1
      have hhi := hmeet.2
      simp only at hlo hhi
      -- The two runs share the page at which the later of them starts.
      have hk' : (2 : Int) ^ k = ((2 ^ k : Nat) : Int) := by push_cast; rfl
      have hmem : ((p.1 : Int), (p.2 : Int)) ∈ live :=
        hlive.mem_iff.mpr (List.mem_map_of_mem hp)
      exact hfit.free (max o p.1) (by omega) (by omega) _ hmem ⟨by simp only; omega, by simp only; omega⟩
  · intro hm
    obtain ⟨m, hm, rfl, hfree⟩ := hm
    have hin : m * 2 ^ k + 2 ^ k ≤ 2 ^ L := by
      rw [hpow, ← Nat.succ_mul]
      exact Nat.mul_le_mul_right _ hm
    refine ⟨by omega, by exact_mod_cast hin, ⟨m, by push_cast; ring⟩, ?_⟩
    intro page hlo hhi p hp hpage
    obtain ⟨q, hq, rfl⟩ := List.mem_map.mp (hlive.mem_iff.mp hp)
    refine hfree ⟨q, hq, ?_⟩
    have hk' : (2 : Int) ^ k = ((2 ^ k : Nat) : Int) := by push_cast; rfl
    rw [Blk.Apart, not_or]
    simp only at hpage ⊢
    omega

/-- In every state a buddy gets into, whatever was asked of it before, a
request of up to `2 ^ 30` pages is answered by first fit. -/
theorem buddyAlloc_first_fit {L : Nat} {r : BuddyRun} {s : Int}
    (h : (buddyHistory L).Reachable r) (h0 : 0 ≤ s) (hs : s ≤ 2 ^ 30) :
    ∃ o self, (buddyAlloc s).run r.buddy = .ok o self ∧ FirstFit L r.live (blockSize s) o := by
  obtain ⟨t, b, hbuddy, hst, hwf, hlive⟩ := held_history h
  rw [hbuddy, blockSize_eq h0 hs]
  have hmono : ∀ {k : Nat}, k ≤ L → (2 : Int) ^ k ≤ 2 ^ L :=
    fun hk => pow_le_pow_right₀ (by omega) hk
  rcases buddyAlloc_cases h0 hs hst rfl with
    ⟨hlt, hrun⟩ | ⟨hk, hnone, hrun⟩ | ⟨o, b', t', hk, ha, _, hrun⟩
  · have hlarge : (2 : Int) ^ L < 2 ^ Nat.clog 2 s.toNat := pow_lt_pow_right₀ (by omega) hlt
    exact ⟨-2, _, hrun, ⟨fun _ => hlarge, fun _ => rfl⟩, fun hle => by omega,
      fun hle => by omega⟩
  · have hle := hmono hk
    have hno : ¬ ∃ o', Fits L r.live (2 ^ Nat.clog 2 s.toNat) o' := by
      intro hfit
      obtain ⟨o', hfit⟩ := hfit
      obtain ⟨m, hm, _, hfree⟩ := (fits_iff hk hlive).mp hfit
      have hblocked := Blk.alloc_none_blocked hk hwf hnone hm 0
      rw [Nat.zero_add] at hblocked
      exact hfree hblocked
    exact ⟨-1, _, hrun, ⟨fun h => absurd h (by decide), fun h => by omega⟩,
      fun _ hex => absurd hex hno, fun _ => ⟨fun _ => hno, fun _ => rfl⟩⟩
  · have hle := hmono hk
    obtain ⟨m, hm, rfl, hfirst⟩ := Blk.alloc_first hk hwf ha
    have hfree := Blk.alloc_not_blocked hk ha 0
    rw [Nat.zero_add] at hfree
    have hfit : Fits L r.live (2 ^ Nat.clog 2 s.toNat)
        ((m * 2 ^ Nat.clog 2 s.toNat : Nat) : Int) :=
      (fits_iff hk hlive).mpr ⟨m, hm, rfl, hfree⟩
    refine ⟨_, _, hrun, ⟨fun h => by omega, fun h => by omega⟩, fun _ _ => ⟨hfit, ?_⟩,
      fun _ => ⟨fun h => by omega, fun h => absurd ⟨_, hfit⟩ h⟩⟩
    intro o' hfit'
    obtain ⟨m', _, rfl, hfree'⟩ := (fits_iff hk hlive).mp hfit'
    by_contra hlt
    have hmm : m' < m := by
      rw [not_le] at hlt
      exact Nat.lt_of_mul_lt_mul_right (by exact_mod_cast hlt)
    have hblocked := hfirst m' hmm 0
    rw [Nat.zero_add] at hblocked
    exact hfree' hblocked

theorem fourPages_reachable : (buddyHistory 2).Reachable fourPages :=
  .init ⟨⟨0, 7, fun _ => .full⟩, rfl, rfl, rfl⟩

/-- One page, then two, then the first one back: the next page is the first
one again. -/
theorem buddyAlloc_first_fit_fourPages : ∃ r, (buddyHistory 2).Reachable r ∧
    r.live = [(2, 2)] ∧
    ∃ o self, (buddyAlloc 1).run r.buddy = .ok o self ∧ FirstFit 2 r.live (blockSize 1) o := by
  obtain ⟨r, hreach, hrl⟩ := fourPages_reachable.sees [.alloc 1, .alloc 2, .free 0] BuddyRun.live
    [(2, 2)] (by decide +kernel) (by decide +kernel)
  exact ⟨r, hreach, hrl, buddyAlloc_first_fit hreach (by decide) (by decide)⟩

end Aim.Kern
