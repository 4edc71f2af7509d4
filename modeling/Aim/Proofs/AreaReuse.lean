import Aim.Proofs.AreaRun

/-!
# When a request is met

Two promises one expects of a page allocator, and what becomes of them. A
size that was served once and given back can be served again; and a request
is turned down only when no buddy of the area has room. Neither holds. What is
given back is never seen again, so the first promise comes down to how much of
the area is still untouched (`reuse_iff`). And another buddy is opened only
while there are more free pages than opened buddies could hold, where the
counter has already lost what was handed out of them; an untouched buddy may
be left alone for good (`refusal_iff`).
-/

namespace Aim.Kern

open Aim.Lib

/-- The request is met. -/
def Succeeds (r : AreaRun) (pages : Pages) : Prop :=
  ∃ p area', (pageAlloc pages).run r.area = .ok (0, p) area'

/-- The request is turned down. -/
def TurnedDown (r : AreaRun) (pages : Pages) : Prop :=
  ∃ p area', (pageAlloc pages).run r.area = .ok (eof, p) area'

/-- With everything given back the counter stands above the whole area. -/
theorem Ledger.count_of_all_freed {N : Nat} {r : AreaRun} {bs : List Blk}
    (hL : Ledger N r bs) (hlive : r.live = []) {g : Grant} (hg : g ∈ r.given) :
    N + 4095 ≤ r.area.pageNum := by
  have hcount := hL.count
  have hgiven := hL.given_bounds
  have hshort := hL.short
  have hpos : 1 ≤ (r.given.map Grant.pages).sum :=
    Nat.le_trans (hL.place_bounds hg).1
      (List.single_le_sum (fun _ _ => Nat.zero_le _) _ (List.mem_map_of_mem hg))
  have hfreed : r.given = r.freed := by rw [AreaRun.given, hlive, List.nil_append]
  rw [hfreed] at hcount hgiven hpos
  -- The sum stays below `2 ^ 32`, since no page is handed out twice.
  rw [Int.emod_eq_of_lt (by omega) (by omega)] at hcount
  omega

/-- With everything given back, a size that was served before is served again
exactly when some buddy of the area, open or not, has an aligned run of pages
for it that was never handed out. -/
theorem reuse_iff {N : Nat} {r : AreaRun} {pages : Pages}
    (hr : (areaCalls N).Reachable r) (hback : r.live = [])
    (honce : ∃ g ∈ r.given, g.size = pages.size) :
    Succeeds r pages ↔ ∃ i < N / 1024, FreeRun r (blockPages pages.size) i := by
  obtain ⟨bs, hL⟩ := ledger_of_reachable hr
  obtain ⟨g, hg, hsize⟩ := honce
  have hs : pages.size ≤ maxSize := hsize ▸ hL.size g hg
  have hsmall : blockPages pages.size ≤ 1024 := hsize ▸ hL.pages_small hg
  have hcount := hL.count_of_all_freed hback hg
  have hnum := hL.buddyNum_le
  cases ledger_alloc hL hs with
  | granted run result small fits ledger opens live freed count =>
      refine iff_of_true result ?_
      rcases fits with ⟨i, hi, hfree⟩ | ⟨_, hopen⟩
      · exact ⟨i, by omega, hfree⟩
      · exact ⟨_, hopen, hL.freeRun_unopened (Nat.le_refl _) hsmall⟩
  | refused run result full ledger opens live freed count =>
      have hfull := (full hsmall).2
      omega
  | overrun run result small full grow last =>
      -- Every buddy is open and none has room.
      refine iff_of_false ?_ ?_
      · rintro ⟨p, area', hok⟩
        obtain ⟨e, area₂, herr⟩ := result
        rw [hok] at herr
        cases herr
      · rintro ⟨i, hi, hfree⟩
        exact full ⟨i, by omega, hfree⟩

/-- A request of at most four megabytes is turned down for lack of room
exactly when an opened buddy has room, the counter allows another buddy, or
all buddies are open. In the remaining case it is turned down although the
buddies that are not open are untouched. -/
theorem refusal_iff {N : Nat} {r : AreaRun} {pages : Pages}
    (hr : (areaCalls N).Reachable r) (hfreed : r.freed = [])
    (h1 : 1 ≤ pages.size) (h4 : pages.size ≤ 0x400000) :
    (TurnedDown r pages → ∀ i < N / 1024, ¬ FreeRun r (blockPages pages.size) i) ↔
      HasRoom r pages.size ∨ r.area.buddyNum < r.area.pageNum / 1024 ∨
        N / 1024 ≤ r.area.buddyNum := by
  obtain ⟨bs, hL⟩ := ledger_of_reachable hr
  have hs : pages.size ≤ maxSize := Nat.le_trans h4 (by decide)
  have hsmall : blockPages pages.size ≤ 1024 := by
    obtain ⟨hcount, _, _⟩ := pageCount_bounds hs
    rw [blockPages_le_iff hs, blockHeight]
    refine (Nat.clog_le_iff_le_pow (by omega)).mpr ?_
    omega
  have hle := (hL.count_of_no_free hfreed).2
  cases ledger_alloc hL hs with
  | granted run result small fits ledger opens live freed count =>
      refine iff_of_true ?_ ?_
      · rintro ⟨p, area', heof⟩
        obtain ⟨p₂, area₂, hok⟩ := result
        rw [heof] at hok
        cases hok
      · rcases fits with hroom | ⟨hgrow, _⟩
        · exact Or.inl hroom
        · exact Or.inr (Or.inl hgrow)
  | refused run result full ledger opens live freed count =>
      obtain ⟨hroom, hgrow⟩ := full hsmall
      obtain ⟨area', heof⟩ := result
      constructor
      · intro hnone
        by_contra hnot
        simp only [not_or, not_lt, not_le] at hnot
        -- The first buddy that is not open is untouched.
        exact hnone ⟨_, _, heof⟩ _ hnot.2.2
          (hL.freeRun_unopened (Nat.le_refl _) hsmall)
      · intro hcases _ i hi hfree
        rcases hcases with hroom' | hgrow' | hall
        · exact hroom hroom'
        · omega
        · exact hroom ⟨i, by omega, hfree⟩
  | overrun run result small full grow last => omega

/-! ## Where the promises fail -/

theorem reachable_sample (bytes : UInt32) (h : bytes.toNat / 4096 / 1024 ≤ 512) :
    (areaCalls (bytes.toNat / 4096)).Reachable (sampleRun bytes) :=
  .init (sampleRun_init h)

/-- The whole area once and back: asking for it again goes past the table. -/
theorem reuse_fails : ∃ r, (areaCalls 1024).Reachable r ∧ r.live = [] ∧
    (∃ g ∈ r.given, g.size = 0x400000) ∧ ¬ Succeeds r ⟨0, 0x400000, 0⟩ := by
  obtain ⟨r, hreach, hseen⟩ := (reachable_sample 0x400000 (by decide)).sees
    [ask 0x400000, giveBack 0x100000] (fun r => (r.live, r.freed,
      stopped (pageAlloc ⟨0, 0x400000, 0⟩) r.area))
    ([], [⟨0x100000, 0x400000⟩], some (.oob 1)) (by decide +kernel) (by decide +kernel)
  simp only [Prod.mk.injEq] at hseen
  obtain ⟨hlive, hfreed, hstop⟩ := hseen
  obtain ⟨area', herr⟩ := stopped_eq_some hstop
  refine ⟨r, hreach, hlive, ⟨⟨0x100000, 0x400000⟩, by simp [AreaRun.given, hfreed], rfl⟩, ?_⟩
  rintro ⟨p, area', hok⟩
  rw [hok] at herr
  cases herr

/-- One page out and back leaves the rest of the buddy. -/
theorem reuse_iff_onePage : ∃ r, (areaCalls 1024).Reachable r ∧ r.live = [] ∧
    (∃ g ∈ r.given, g.size = 4096) ∧
    (Succeeds r ⟨0, 4096, 0⟩ ↔ ∃ i < 1024 / 1024, FreeRun r (blockPages 4096) i) := by
  obtain ⟨r, hreach, hseen⟩ := (reachable_sample 0x400000 (by decide)).sees
    [ask 4096, giveBack 0x100000] (fun r => (r.live, r.freed)) ([], [⟨0x100000, 4096⟩])
    (by decide +kernel) (by decide +kernel)
  obtain ⟨hlive, hfreed⟩ := Prod.mk.inj hseen
  have honce : ∃ g ∈ r.given, g.size = 4096 :=
    ⟨⟨0x100000, 4096⟩, by simp [AreaRun.given, hfreed], rfl⟩
  exact ⟨r, hreach, hlive, honce, reuse_iff hreach hlive honce⟩

/-- Two buddies, the first one handed out whole: the second is never
opened. -/
theorem refusal_spurious : ∃ r, (areaCalls 2048).Reachable r ∧ r.freed = [] ∧
    TurnedDown r ⟨0, 0x400000, 0⟩ ∧ FreeRun r (blockPages 0x400000) 1 := by
  obtain ⟨r, hreach, hseen⟩ := (reachable_sample 0x800000 (by decide)).sees [ask 0x400000]
    (fun r => (r.freed, r.area.buddyNum,
      returned (pageAlloc ⟨0, 0x400000, 0⟩) r.area fun x _ => x.1)) ([], 1, some eof)
    (by decide +kernel) (by decide +kernel)
  simp only [Prod.mk.injEq] at hseen
  obtain ⟨hfreed, hnum, heof⟩ := hseen
  obtain ⟨⟨code, p⟩, area', hcall, hcode⟩ := returned_eq_some heof
  obtain rfl : code = eof := hcode
  obtain ⟨bs, hL⟩ := ledger_of_reachable hreach
  exact ⟨r, hreach, hfreed, ⟨p, area', hcall⟩,
    hL.freeRun_unopened (by omega) (by decide +kernel)⟩

theorem refusal_iff_fresh :
    (TurnedDown (sampleRun 0x800000) ⟨0, 4096, 0⟩ →
        ∀ i < 2048 / 1024, ¬ FreeRun (sampleRun 0x800000) (blockPages 4096) i) ↔
      HasRoom (sampleRun 0x800000) 4096 ∨
        (sampleRun 0x800000).area.buddyNum < (sampleRun 0x800000).area.pageNum / 1024 ∨
        2048 / 1024 ≤ (sampleRun 0x800000).area.buddyNum :=
  @refusal_iff 2048 _ ⟨0, 4096, 0⟩ (reachable_sample 0x800000 (by decide)) rfl
    (by decide) (by decide)

end Aim.Kern
