import Aim.Kern.Area
import Aim.Lib.Ends
import Aim.Proofs.BuddyRun

/-!
# What `page_alloc` and `page_free` can do

The area is read as a list of buddy trees, one for each opened buddy
(`Holds`), given that the table has distinct non-null entries with large
enough arrays behind them (`Table`). Pages are counted through the whole
area: page `1024 * i + o` is page `o` of the buddy `i`, and `forest` lists the
blocks of all trees in these numbers.

`pageAlloc_outcome` is the one statement about `page_alloc` that everything
after this file uses. It has three outcomes: a block is handed out, the
request is refused, or the call goes past the end of the table. Which one it
is depends on whether an opened buddy has room and on two comparisons of
`buddy_num`, with `page_num / 1024` and with the length of the table.
-/

namespace Aim.Kern

open Aim.Lib Function

/-! ## Areas as lists of trees -/

/-- The table of an area can be used: distinct non-null pointers to buddies
with arrays of `2 ^ 11 - 1` entries. -/
structure Table (area : Area) : Prop where
  nodup : area.buddylist.Nodup
  nonnull : 0 ∉ area.buddylist
  room : ∀ p ∈ area.buddylist, (area.heap p).size = 2 ^ 11 - 1

/-- The opened buddies of an area store these trees. -/
structure Holds (area : Area) (bs : List Blk) : Prop where
  length : bs.length = area.buddyNum
  get : ∀ (i : Nat) (b : Blk), bs[i]? = some b → ∃ p t, area.buddylist[i]? = some p ∧
    area.heap p = ofTree 10 t ∧ Stores t 10 0 b ∧ Blk.Wf 10 b

/-- The blocks of the trees from the buddy `i` on, in page numbers of the
area. -/
def forest : Nat → List Blk → List (Nat × Nat)
  | _, [] => []
  | i, b :: bs => Blk.blocks 10 (1024 * i) b ++ forest (i + 1) bs

/-- The object at `p` was written and nothing else. -/
def Area.put (area : Area) (p : Nat) (b : Buddy) : Area :=
  { area with heap := update area.heap p b }

theorem Area.put_self (area : Area) (p : Nat) : area.put p (area.heap p) = area := by
  rw [Area.put, update_eq_self]

variable {area : Area} {p i k q n : Nat} {bs : List Blk} {s : Int} {pages : Pages}

theorem Table.put (hT : Table area) {b : Buddy} (hb : b.size = 2 ^ 11 - 1) :
    Table (area.put p b) where
  nodup := hT.nodup
  nonnull := hT.nonnull
  room q hq := by
    show (update area.heap p b q).size = _
    by_cases hqp : q = p
    · rw [hqp, update_self]; exact hb
    · rw [update_of_ne hqp]; exact hT.room q hq

/-- An entry of the table names its index. -/
theorem Table.index_inj (hT : Table area) {i j p : Nat} (hi : area.buddylist[i]? = some p)
    (hj : area.buddylist[j]? = some p) : i = j := by
  obtain ⟨hlt, _⟩ := List.getElem?_eq_some_iff.mp hi
  exact (List.getElem?_inj hlt hT.nodup).mp (by rw [hi, hj])

/-- One tree is replaced by another. -/
theorem Holds.put (hT : Table area) (hH : Holds area bs) {j p : Nat} {b' : Blk} {t' : Int → Node}
    (hp : area.buddylist[j]? = some p) (hst : Stores t' 10 0 b') (hwf : Blk.Wf 10 b') :
    Holds (area.put p (ofTree 10 t')) (bs.set j b') where
  length := by rw [List.length_set]; exact hH.length
  get i b hb := by
    by_cases hij : j = i
    · subst hij
      have hb' : b = b' := by
        rw [List.getElem?_set_self'] at hb
        cases hbs : bs[j]? with
        | none => rw [hbs] at hb; cases hb
        | some _ => rw [hbs] at hb; exact (Option.some.inj hb).symm
      subst hb'
      exact ⟨p, t', hp, update_self _ _ _, hst, hwf⟩
    · rw [List.getElem?_set_ne hij] at hb
      obtain ⟨q, t, hq, hheap, hs, hw⟩ := hH.get i b hb
      refine ⟨q, t, hq, ?_, hs, hw⟩
      rw [← hheap]
      refine update_of_ne ?_ _ _
      intro hqp
      exact hij (hT.index_inj hp (hqp ▸ hq))

/-! ## The blocks of a list of trees -/

theorem forest_append (i : Nat) (bs cs : List Blk) :
    forest i (bs ++ cs) = forest i bs ++ forest (i + bs.length) cs := by
  induction bs generalizing i with
  | nil => rfl
  | cons b bs ih =>
      rw [List.cons_append, forest, forest, ih, List.append_assoc,
        List.length_cons, Nat.add_assoc, Nat.add_comm 1]

/-- A page number of a block names the buddy it is in. -/
theorem mem_forest {q : Nat × Nat} :
    q ∈ forest i bs ↔ ∃ (j : Nat) (b : Blk), bs[j]? = some b ∧
      q ∈ Blk.blocks 10 (1024 * (i + j)) b := by
  induction bs generalizing i with
  | nil => simp [forest]
  | cons c bs ih =>
      rw [forest, List.mem_append, ih]
      constructor
      · rintro (hq | ⟨j, b, hb, hq⟩)
        · exact ⟨0, c, rfl, hq⟩
        · refine ⟨j + 1, b, hb, ?_⟩
          rw [show i + (j + 1) = i + 1 + j by omega]
          exact hq
      · rintro ⟨j, b, hb, hq⟩
        cases j with
        | zero =>
            obtain rfl := Option.some.inj hb
            exact Or.inl hq
        | succ j =>
            refine Or.inr ⟨j, b, hb, ?_⟩
            rw [show i + 1 + j = i + (j + 1) by omega]
            exact hq

/-- Replacing one tree by one with another block adds that block. -/
theorem forest_set {i j : Nat} {b b' : Blk} {q : Nat × Nat} (hb : bs[j]? = some b)
    (hperm : (Blk.blocks 10 (1024 * (i + j)) b').Perm (q :: Blk.blocks 10 (1024 * (i + j)) b)) :
    (forest i (bs.set j b')).Perm (q :: forest i bs) := by
  induction bs generalizing i j with
  | nil => cases hb
  | cons c bs ih =>
      cases j with
      | zero =>
          obtain rfl := Option.some.inj hb
          exact hperm.append_right _
      | succ j =>
          rw [show i + (j + 1) = i + 1 + j by omega] at hperm
          have hrest := (ih hb hperm).append_left (Blk.blocks 10 (1024 * i) c)
          exact hrest.trans List.perm_middle

/-! ## Calls on one buddy -/

theorem buddyAt_ok {j p : Nat} (hp : area.buddylist[j]? = some p) :
    (buddyAt j).run area = .ok p area := by
  have h0 : (0 : Int) ≤ (j : Int) := by omega
  simp only [buddyAt, EStateM.run_bind, EStateM.run_get, if_pos h0,
    Int.toNat_natCast, hp]
  rfl

theorem buddyAt_oob {j : Nat} (hj : area.buddylist.length ≤ j) :
    (buddyAt j).run area = .error (.oob j) area := by
  have h0 : (0 : Int) ≤ (j : Int) := by omega
  simp only [buddyAt, EStateM.run_bind, EStateM.run_get, if_pos h0,
    Int.toNat_natCast, List.getElem?_eq_none hj]
  rfl

theorem buddyAt_neg {j : Int} (hj : j < 0) : (buddyAt j).run area = .error (.oob j) area := by
  have h0 : ¬ 0 ≤ j := by omega
  simp only [buddyAt, EStateM.run_bind, EStateM.run_get, if_neg h0]
  rfl

theorem onBuddy_ok {α : Type} {x : EStateM Stop Buddy α} {a : α} {b : Buddy}
    (h : x.run (area.heap p) = .ok a b) :
    (onBuddy p x).run area = .ok a (area.put p b) :=
  run_zoom_ok h

/-- A call of `buddy_alloc` through the table. -/
theorem buddyAllocAt_cases (hT : Table area) (hH : Holds area bs) {j : Nat} {b : Blk}
    (hb : bs[j]? = some b) (h0 : 0 ≤ s) (hs : s ≤ 2 ^ 30) (hk : k = Nat.clog 2 s.toNat) :
    (10 < k ∧ (buddyAllocAt j s).run area = .ok (-2) area) ∨
    (k ≤ 10 ∧ Blk.alloc k 10 b = none ∧
      (buddyAllocAt j s).run area = .ok (-1) area) ∨
    ∃ o b' p x, k ≤ 10 ∧ Blk.alloc k 10 b = some (o, b') ∧
      area.buddylist[j]? = some p ∧ Table (area.put p x) ∧
      Holds (area.put p x) (bs.set j b') ∧
      (buddyAllocAt j s).run area = .ok (o : Int) (area.put p x) := by
  obtain ⟨p, t, hp, hheap, hst, hwf⟩ := hH.get j b hb
  have hsame : ∀ {o : Int}, (buddyAlloc s).run (ofTree 10 t) = .ok o (ofTree 10 t) →
      (buddyAllocAt j s).run area = .ok o area := by
    intro o hrun
    rw [← hheap] at hrun
    rw [buddyAllocAt, run_bind_ok (buddyAt_ok hp), onBuddy_ok hrun, Area.put_self]
  rcases buddyAlloc_cases h0 hs hst hk with
    ⟨hlt, hrun⟩ | ⟨hle, ha, hrun⟩ | ⟨o, b', t', hle, ha, hst', hrun⟩
  · exact Or.inl ⟨hlt, hsame hrun⟩
  · exact Or.inr (Or.inl ⟨hle, ha, hsame hrun⟩)
  · refine Or.inr (Or.inr ⟨o, b', p, ofTree 10 t', hle, ha, hp, hT.put rfl,
      hH.put hT hp hst' ((Blk.alloc_spec hle ha).2.2.1 hwf), ?_⟩)
    rw [← hheap] at hrun
    rw [buddyAllocAt, run_bind_ok (buddyAt_ok hp), onBuddy_ok hrun]

/-- The answer of the loop when no buddy took the request: what the last call
said, or the `-1` the loop started with. -/
def scanMiss (k n : Nat) : Int := if n = 0 ∨ k ≤ 10 then -1 else -2

/-- The `for` of `page_alloc` over the buddies from `i` on. -/
theorem scanBuddies_cases (hT : Table area) (hH : Holds area bs) (h0 : 0 ≤ s) (hs : s ≤ 2 ^ 30)
    (hk : k = Nat.clog 2 s.toNat) : ∀ (n i : Nat) (offset : Int),
    i + n = area.buddyNum → offset = scanMiss k i →
    ((scanBuddies s n i offset).run area =
        .ok (area.buddyNum, scanMiss k area.buddyNum) area ∧
      (k ≤ 10 → ∀ (j : Nat) (b : Blk), i ≤ j → bs[j]? = some b →
        Blk.alloc k 10 b = none)) ∨
    ∃ j b o b' p x, bs[j]? = some b ∧ k ≤ 10 ∧ Blk.alloc k 10 b = some (o, b') ∧
      area.buddylist[j]? = some p ∧ Table (area.put p x) ∧
      Holds (area.put p x) (bs.set j b') ∧
      (scanBuddies s n i offset).run area = .ok (j, (o : Int)) (area.put p x) := by
  intro n
  induction n with
  | zero =>
      intro i offset hi hoff
      refine Or.inl ⟨?_, fun _ j b hj hb => ?_⟩
      · rw [hoff, ← hi]; rfl
      · have hlt := (List.getElem?_eq_some_iff.mp hb).1
        have hlen := hH.length
        omega
  | succ n ih =>
      intro i offset hi hoff
      have hlt : i < bs.length := by have := hH.length; omega
      have hb : bs[i]? = some bs[i] := List.getElem?_eq_getElem hlt
      rw [scanBuddies]
      rcases buddyAllocAt_cases hT hH hb h0 hs hk with
        ⟨hkl, hrun⟩ | ⟨hkl, ha, hrun⟩ | ⟨o, b', p, x, hkl, ha, hp, hT', hH', hrun⟩
      · rw [run_bind_ok hrun, if_neg (by omega)]
        have hmiss : (-2 : Int) = scanMiss k (i + 1) := by
          rw [scanMiss, if_neg (by omega)]
        rcases ih (i + 1) (-2) (by omega) hmiss with ⟨hr, _⟩ | hfound
        · exact Or.inl ⟨hr, fun hle => absurd hle (by omega)⟩
        · exact Or.inr hfound
      · rw [run_bind_ok hrun, if_neg (by omega)]
        have hmiss : (-1 : Int) = scanMiss k (i + 1) := by
          rw [scanMiss, if_pos (Or.inr hkl)]
        rcases ih (i + 1) (-1) (by omega) hmiss with ⟨hr, hnone⟩ | hfound
        · refine Or.inl ⟨hr, fun hle j b hj hbj => ?_⟩
          rcases Nat.lt_or_ge i j with hij | hij
          · exact hnone hle j b hij hbj
          · obtain rfl : i = j := by omega
            rw [hb] at hbj
            rw [← Option.some.inj hbj]
            exact ha
        · exact Or.inr hfound
      · rw [run_bind_ok hrun, if_pos (by omega)]
        exact Or.inr ⟨i, _, o, b', p, x, hb, hkl, ha, hp, hT', hH', rfl⟩

/-! ## Opening a buddy -/

theorem Holds.le_length (hH : Holds area bs) : area.buddyNum ≤ area.buddylist.length := by
  rw [← hH.length]
  cases hn : bs.length with
  | zero => exact Nat.zero_le _
  | succ n =>
      have hlt : n < bs.length := by omega
      obtain ⟨p, _, hp, _⟩ := hH.get n bs[n] (List.getElem?_eq_getElem hlt)
      exact (List.getElem?_eq_some_iff.mp hp).1

/-- `buddy_init` through a pointer that is not null. -/
theorem buddyInitAt_ok (hp : p ≠ 0) (hsz : (area.heap p).size = 2 ^ 11 - 1) :
    ∃ t, (buddyInitAt p 10).run area = .ok () (area.put p (ofTree 10 t)) ∧
      Stores t 10 0 .free := by
  obtain ⟨t, hrun, hst⟩ := buddyInit_spec (L := 10) hsz
  refine ⟨t, ?_, hst⟩
  have hlevel : (onBuddy p (modify fun b => { b with level := 10 })).run area =
      .ok () (area.put p { area.heap p with level := 10 }) := onBuddy_ok rfl
  rw [buddyInit, run_bind_ok (EStateM.run_modify _ _)] at hrun
  rw [buddyInitAt, run_bind_ok hlevel, if_neg hp, pure_bind]
  have hself : (area.put p { area.heap p with level := 10 }).heap p =
      { area.heap p with level := 10 } := update_self _ _ _
  rw [← hself] at hrun
  rw [onBuddy_ok hrun]
  simp only [Area.put, update_idem]

/-- `buddy_num` after `area.buddy_num++`. -/
def Area.grown (area : Area) : Area := { area with buddyNum := area.buddyNum + 1 }

theorem Table.grown (hT : Table area) : Table area.grown :=
  ⟨hT.nodup, hT.nonnull, hT.room⟩

/-- A new buddy joins the opened ones and the others stay as they are. -/
theorem Holds.opened (hT : Table area) (hH : Holds area bs) {t : Int → Node}
    (hp : area.buddylist[area.buddyNum]? = some p) (hst : Stores t 10 0 .free) :
    Holds (area.grown.put p (ofTree 10 t)) (bs ++ [.free]) where
  length := by rw [List.length_append, hH.length]; rfl
  get i b hb := by
    have hlen := hH.length
    rcases Nat.lt_or_ge i bs.length with hi | hi
    · rw [List.getElem?_append_left hi] at hb
      obtain ⟨q, t', hq, hheap, hs, hw⟩ := hH.get i b hb
      refine ⟨q, t', hq, ?_, hs, hw⟩
      rw [← hheap]
      refine update_of_ne ?_ _ _
      intro hqp
      have hij := hT.index_inj hp (hqp ▸ hq)
      omega
    · rw [List.getElem?_append_right hi] at hb
      have hi' : i = area.buddyNum := by
        have hlt := (List.getElem?_eq_some_iff.mp hb).1
        simp only [List.length_singleton] at hlt
        omega
      subst hi'
      rw [hlen, Nat.sub_self] at hb
      obtain rfl := Option.some.inj hb
      exact ⟨p, t, hp, update_self _ _ _, hst, Blk.wf_free _⟩

/-- What every call of `page_alloc` leaves alone. The buddies that were open
before are not touched when another one is opened. -/
structure Opens (area area' : Area) : Prop where
  baseAddr : area'.baseAddr = area.baseAddr
  buddylist : area'.buddylist = area.buddylist
  buddyNum : area'.buddyNum = area.buddyNum ∨
    area'.buddyNum = area.buddyNum + 1 ∧ ∀ (i p : Nat), i < area.buddyNum →
      area.buddylist[i]? = some p → area'.heap p = area.heap p

/-- The same before the counter is written. -/
structure Kept (area area' : Area) : Prop extends Opens area area' where
  pageNum : area'.pageNum = area.pageNum

theorem Kept.refl (area : Area) : Kept area area := ⟨⟨rfl, rfl, Or.inl rfl⟩, rfl⟩

/-- The opened buddy is written and no other. -/
theorem Kept.opened (hT : Table area) {x : Buddy} (hp : area.buddylist[area.buddyNum]? = some p) :
    Kept area (area.grown.put p x) where
  baseAddr := rfl
  buddylist := rfl
  pageNum := rfl
  buddyNum := by
    refine Or.inr ⟨rfl, fun i q hi hq => ?_⟩
    refine update_of_ne ?_ _ _
    intro hqp
    have hij := hT.index_inj hp (hqp ▸ hq)
    omega

/-- The growth branch up to the second `buddy_alloc`. -/
theorem growArea_init (hT : Table area) (hH : Holds area bs) (hlen : area.buddylist.length ≤ 512)
    (hp : area.buddylist[area.buddyNum]? = some p) (hgrow : area.buddyNum < area.pageNum / 1024) :
    ∃ t, Stores t 10 0 .free ∧ ∀ s, (growArea s area.buddyNum).run area =
      (buddyAllocAt area.buddyNum s >>= fun offset => pure (some offset)).run
        (area.grown.put p (ofTree 10 t)) := by
  have hmem : p ∈ area.buddylist := List.mem_of_getElem? hp
  have hp0 : p ≠ 0 := by
    intro h
    exact hT.nonnull (h ▸ hmem)
  have hsz : (area.grown.heap p).size = 2 ^ 11 - 1 := hT.room p hmem
  obtain ⟨t, hinit, hst⟩ := buddyInitAt_ok hp0 hsz
  refine ⟨t, hst, fun s => ?_⟩
  have hle := hH.le_length
  have hmod : (area.buddyNum + 1) % 2 ^ 32 = area.buddyNum + 1 := by omega
  have hset : (set { area with buddyNum := (area.buddyNum + 1) % 2 ^ 32 } :
      EStateM Stop Area PUnit).run area = .ok () area.grown := by
    rw [hmod]; rfl
  have hat : (buddyAt area.buddyNum).run area.grown = .ok p area.grown := buddyAt_ok hp
  simp only [growArea, EStateM.run_bind, EStateM.run_get]
  rw [if_neg (by omega), run_bind_ok hset, run_bind_ok hat, run_bind_ok hinit]
  rfl

/-- The growth branch when there is a table entry for the new buddy: the
first pages of it are taken, unless the request is larger than a buddy. -/
theorem growArea_open (hT : Table area) (hH : Holds area bs) (hlen : area.buddylist.length ≤ 512)
    (h0 : 0 ≤ s) (hs : s ≤ 2 ^ 30) (hk : k = Nat.clog 2 s.toNat)
    (hgrow : area.buddyNum < area.pageNum / 1024) (hroom : area.buddyNum < area.buddylist.length) :
    ∃ area' b', Kept area area' ∧ Table area' ∧ Holds area' (bs ++ [b']) ∧
      (k ≤ 10 → (Blk.blocks 10 (1024 * area.buddyNum) b').Perm
        [(1024 * area.buddyNum, 2 ^ k)] ∧
        (growArea s area.buddyNum).run area = .ok (some 0) area') ∧
      (10 < k → b' = .free ∧
        (growArea s area.buddyNum).run area = .ok (some (-2)) area') := by
  have hp : area.buddylist[area.buddyNum]? = some area.buddylist[area.buddyNum] :=
    List.getElem?_eq_getElem hroom
  generalize area.buddylist[area.buddyNum] = p at hp
  obtain ⟨t, hst, hgrown⟩ := growArea_init hT hH hlen hp hgrow
  have hrun : ∀ {r : Int} {area' : Area},
      (buddyAllocAt area.buddyNum s).run (area.grown.put p (ofTree 10 t)) = .ok r area' →
      (growArea s area.buddyNum).run area = .ok (some r) area' := by
    intro r area' hcall
    rw [hgrown, run_bind_ok hcall]
    rfl
  have hopen := hH.opened hT hp hst
  have hT' : Table (area.grown.put p (ofTree 10 t)) := hT.grown.put rfl
  have hb : (bs ++ [Blk.free])[area.buddyNum]? = some .free := by
    rw [← hH.length, List.getElem?_append_right (Nat.le_refl _), Nat.sub_self]
    rfl
  rcases buddyAllocAt_cases hT' hopen hb h0 hs hk with
    ⟨hkl, hcall⟩ | ⟨hkl, ha, _⟩ | ⟨o, b', q, x, hkl, ha, hq, hT₂, hH₂, hcall⟩
  · exact ⟨area.grown.put p (ofTree 10 t), .free, Kept.opened hT hp, hT', hopen,
      fun hle => absurd hle (by omega), fun _ => ⟨rfl, hrun hcall⟩⟩
  · obtain ⟨b', hb'⟩ := Blk.alloc_free hkl
    rw [hb'] at ha
    cases ha
  · obtain ⟨b₁, hb₁⟩ := Blk.alloc_free hkl
    rw [hb₁] at ha
    simp only [Option.some.injEq, Prod.mk.injEq] at ha
    obtain ⟨rfl, rfl⟩ := ha
    obtain rfl : p = q := Option.some.inj (hp.symm.trans hq)
    have hset : (bs ++ [Blk.free]).set area.buddyNum b₁ = bs ++ [b₁] := by
      rw [← hH.length, List.set_append_right _ _ (Nat.le_refl _), Nat.sub_self]
      rfl
    have hput : (area.grown.put p (ofTree 10 t)).put p x = area.grown.put p x := by
      simp only [Area.put, update_idem]
    rw [hset] at hH₂
    rw [hput] at hT₂ hH₂ hcall
    refine ⟨area.grown.put p x, b₁, Kept.opened hT hp, hT₂, hH₂,
      fun _ => ⟨?_, hrun hcall⟩, fun hlt => absurd hlt (by omega)⟩
    simpa using (Blk.alloc_spec hkl hb₁).2.2.2 (1024 * area.buddyNum)

/-- The growth branch when the table has no entry left. -/
theorem growArea_oob (hlen : area.buddylist.length ≤ 512)
    (hgrow : area.buddyNum < area.pageNum / 1024) (hend : area.buddyNum = area.buddylist.length) :
    (growArea s area.buddyNum).run area = .error (.oob area.buddyNum) area.grown := by
  have hmod : (area.buddyNum + 1) % 2 ^ 32 = area.buddyNum + 1 := by omega
  have hset : (set { area with buddyNum := (area.buddyNum + 1) % 2 ^ 32 } :
      EStateM Stop Area PUnit).run area = .ok () area.grown := by
    rw [hmod]; rfl
  have hat : (buddyAt area.buddyNum).run area.grown =
      .error (.oob area.buddyNum) area.grown := buddyAt_oob (Nat.le_of_eq hend.symm)
  simp only [growArea, EStateM.run_bind, EStateM.run_get]
  rw [if_neg (by omega), run_bind_ok hset, run_bind_error hat]

theorem growArea_eof (hfull : area.pageNum / 1024 ≤ area.buddyNum) :
    (growArea s i).run area = .ok none area := by
  simp only [growArea, EStateM.run_bind, EStateM.run_get]
  rw [if_pos hfull]
  rfl

/-! ## `page_alloc` -/

/-- The address of page `q` of an area. -/
def areaAddr (base q : Nat) : Nat := (base + 4096 * q) % 2 ^ 32

/-- Some opened buddy has room for a block of height `k`. -/
def Roomy (k : Nat) (bs : List Blk) : Prop := ∃ b ∈ bs, (Blk.alloc k 10 b).isSome

theorem pageGrant_ok {j o : Nat} :
    (pageGrant pages s j o).run area =
      .ok (0, { pages with paddr := areaAddr area.baseAddr (1024 * j + o) })
        { area with pageNum := ((area.pageNum - s) % 2 ^ 32).toNat } := by
  have haddr : (((area.baseAddr : Int) + j * 2 ^ 22 + o * 2 ^ 12) % 2 ^ 32).toNat =
      areaAddr area.baseAddr (1024 * j + o) := by
    unfold areaAddr
    omega
  simp only [pageGrant]
  rw [if_neg (by omega), haddr.symm]
  rfl

/-- What a call of `page_alloc` for `s` pages can do, where `2 ^ k` is the
size of the block. -/
inductive AllocOutcome (area : Area) (bs : List Blk) (pages : Pages) (s : Int)
    (k : Nat) : EStateM.Result Stop Area (Int × Pages) → Prop where
  /-- The block that starts at page `q` was handed out. -/
  | granted {q : Nat} {area' : Area} {bs' : List Blk} (hk : k ≤ 10)
      (fits : Roomy k bs ∨ area.buddyNum < area.pageNum / 1024 ∧
        area.buddyNum < area.buddylist.length)
      (kept : Kept area area') (table : Table area') (holds : Holds area' bs')
      (blocks : (forest 0 bs').Perm ((q, 2 ^ k) :: forest 0 bs)) :
      AllocOutcome area bs pages s k
        (.ok (0, { pages with paddr := areaAddr area'.baseAddr q })
          { area' with pageNum := ((area'.pageNum - s) % 2 ^ 32).toNat })
  /-- There was no room, and the counter did not allow another buddy; or the
  request was larger than a buddy. -/
  | refused {area' : Area} {bs' : List Blk}
      (full : k ≤ 10 → ¬ Roomy k bs ∧ area.pageNum / 1024 ≤ area.buddyNum)
      (kept : Kept area area') (table : Table area') (holds : Holds area' bs')
      (blocks : forest 0 bs' = forest 0 bs) :
      AllocOutcome area bs pages s k (.ok (eof, pages) area')
  /-- The counter allowed another buddy, and the table had none. -/
  | overrun (full : k ≤ 10 → ¬ Roomy k bs) (small : k ≤ 10 ∨ area.buddyNum = 0)
      (grow : area.buddyNum < area.pageNum / 1024)
      (last : area.buddyNum = area.buddylist.length) :
      AllocOutcome area bs pages s k (.error (.oob area.buddyNum) area.grown)

/-- The growth branch, as `page_alloc` goes on from it. -/
def pageGrow (pages : Pages) (s : Int) (i : Nat) : EStateM Stop Area (Int × Pages) := do
  match ← growArea s i with
  | none => return (eof, pages)
  | some offset => pageGrant pages s i offset

theorem pageAlloc_of_scan {area area' : Area} {offset : Int} (hsz : pageCount pages.size = s)
    (hscan : (scanBuddies s area.buddyNum 0 (-1)).run area = .ok (i, offset) area') :
    (pageAlloc pages).run area =
      if offset = -1 then (pageGrow pages s i).run area'
      else (pageGrant pages s i offset).run area' := by
  subst hsz
  simp only [pageAlloc, EStateM.run_bind, EStateM.run_get, hscan]
  split <;> rfl

/-- The growth branch, after a scan that found no room. -/
theorem pageGrow_outcome (hT : Table area) (hH : Holds area bs) (hlen : area.buddylist.length ≤ 512)
    (h0 : 0 ≤ s) (hs : s ≤ 2 ^ 30) (hk : k = Nat.clog 2 s.toNat) (hfull : k ≤ 10 → ¬ Roomy k bs)
    (hsmall : k ≤ 10 ∨ area.buddyNum = 0) :
    AllocOutcome area bs pages s k ((pageGrow pages s area.buddyNum).run area) := by
  rcases Nat.lt_or_ge area.buddyNum (area.pageNum / 1024) with hgrow | hno
  · rcases Nat.lt_or_ge area.buddyNum area.buddylist.length with hroom | hend
    · obtain ⟨area', b', hkept, hT', hH', hfit, hbig⟩ :=
        growArea_open hT hH hlen h0 hs hk hgrow hroom
      have hforest : forest 0 (bs ++ [b']) =
          forest 0 bs ++ Blk.blocks 10 (1024 * area.buddyNum) b' := by
        rw [forest_append, Nat.zero_add, hH.length, forest, forest, List.append_nil]
      rcases Nat.lt_or_ge 10 k with hkl | hkl
      · obtain ⟨rfl, hrun⟩ := hbig hkl
        rw [pageGrow, run_bind_ok hrun]
        refine .refused (fun hle => absurd hle (by omega)) hkept hT' hH' ?_
        rw [hforest, Blk.blocks_free, List.append_nil]
      · obtain ⟨hperm, hrun⟩ := hfit hkl
        rw [pageGrow, run_bind_ok hrun]
        have hgrant : (pageGrant pages s area.buddyNum 0).run area' = _ :=
          pageGrant_ok (o := 0)
        simp only []
        rw [hgrant]
        refine .granted hkl (Or.inr ⟨hgrow, hroom⟩) hkept hT' hH' ?_
        rw [hforest]
        exact (hperm.append_left _).trans List.perm_append_comm
    · have hlast : area.buddyNum = area.buddylist.length :=
        Nat.le_antisymm hH.le_length hend
      rw [pageGrow, run_bind_error (growArea_oob hlen hgrow hlast)]
      exact .overrun hfull hsmall hgrow hlast
  · rw [pageGrow, run_bind_ok (growArea_eof hno)]
    exact .refused (fun hle => ⟨hfull hle, hno⟩) (Kept.refl _) hT hH rfl

theorem pageAlloc_outcome (hT : Table area) (hH : Holds area bs)
    (hlen : area.buddylist.length ≤ 512) (hsz : pageCount pages.size = s) (h0 : 0 ≤ s)
    (hs : s ≤ 2 ^ 30) (hk : k = Nat.clog 2 s.toNat) :
    AllocOutcome area bs pages s k ((pageAlloc pages).run area) := by
  have hmiss0 : (-1 : Int) = scanMiss k 0 := rfl
  rcases scanBuddies_cases hT hH h0 hs hk area.buddyNum 0 (-1) (by omega) hmiss0 with
    ⟨hscan, hnone⟩ | ⟨j, b, o, b', p, x, hb, hkl, ha, hp, hT', hH', hscan⟩
  · have hfull : k ≤ 10 → ¬ Roomy k bs := by
      rintro hle ⟨b, hb, hsome⟩
      obtain ⟨j, hj⟩ := List.mem_iff_getElem?.mp hb
      rw [hnone hle j b (Nat.zero_le _) hj] at hsome
      cases hsome
    rw [pageAlloc_of_scan hsz hscan]
    by_cases hsmall : area.buddyNum = 0 ∨ k ≤ 10
    · rw [scanMiss, if_pos hsmall, if_pos rfl, pageGrow]
      exact pageGrow_outcome hT hH hlen h0 hs hk hfull hsmall.symm
    · -- Larger than a buddy, and a buddy has said so.
      rw [scanMiss, if_neg hsmall, if_neg (by omega)]
      exact .refused (fun hle => absurd hle (by omega)) (Kept.refl _) hT hH rfl
  · rw [pageAlloc_of_scan hsz hscan, if_neg (by omega), pageGrant_ok]
    have hroomy : Roomy k bs := ⟨b, List.mem_of_getElem? hb, by rw [ha]; rfl⟩
    refine .granted hkl (Or.inl hroomy) ⟨⟨rfl, rfl, Or.inl rfl⟩, rfl⟩ hT' hH' ?_
    have hperm := (Blk.alloc_spec hkl ha).2.2.2 (1024 * (0 + j))
    rw [Nat.zero_add] at hperm
    exact forest_set hb (by rw [Nat.zero_add]; exact hperm)

/-! ## `page_free` -/

/-- The size of a block, asked for at its first page. -/
theorem buddySizeAt_ok (hH : Holds area bs) (hq : (q, n) ∈ forest 0 bs) :
    q / 1024 < area.buddyNum ∧ n ≤ 1024 ∧
    (buddySizeAt (q / 1024 : Nat) (q % 1024 : Nat)).run area = .ok (n : Int) area := by
  obtain ⟨j, b, hb, hmem⟩ := mem_forest.mp hq
  rw [Nat.zero_add] at hmem
  obtain ⟨hn, hlo, hhi, _⟩ := Blk.blocks_bounds hmem
  simp only at hn hlo hhi
  have hj : q / 1024 = j := by omega
  have hlt : j < area.buddyNum := by
    rw [← hH.length]
    exact (List.getElem?_eq_some_iff.mp hb).1
  obtain ⟨p, t, hp, hheap, hst, _⟩ := hH.get j b hb
  have hsize : Blk.sizeAt 10 b (q % 1024) = some n :=
    (Blk.sizeAt_eq_some_iff (1024 * j) (by omega)).mpr
      ⟨(q, n), hmem, rfl, by simp only; omega, by simp only; omega⟩
  have hrun := buddySize_spec hst (o := q % 1024) (by omega)
  rw [hsize, ← hheap] at hrun
  refine ⟨by omega, by omega, ?_⟩
  rw [buddySizeAt, hj, run_bind_ok (buddyAt_ok hp), onBuddy_ok hrun, Area.put_self]
  rfl

/-- A block whose address did not wrap: its size in bytes is added to the
counter of pages, and nothing else changes. -/
theorem pageFree_ok (hH : Holds area bs) (hlen : area.buddylist.length ≤ 512)
    (hq : (q, n) ∈ forest 0 bs) (hn : 0 < n) (haddr : pages.paddr = areaAddr area.baseAddr q)
    (hwrap : area.baseAddr + 4096 * q < 2 ^ 32) :
    (pageFree pages).run area = .ok { pages with size := 4096 * n }
      { area with pageNum := (area.pageNum + 4096 * n) % 2 ^ 32 } := by
  obtain ⟨hlt, hn', hsize⟩ := buddySizeAt_ok hH hq
  have hle := hH.le_length
  have hdiff : (((pages.paddr : Int) - area.baseAddr) % 2 ^ 64).toNat = 4096 * q := by
    rw [haddr, areaAddr]; omega
  have hN : toInt32 (4096 * q / 2 ^ 22) = ((q / 1024 : Nat) : Int) := by
    rw [show 4096 * q / 2 ^ 22 = q / 1024 by omega, toInt32_of_lt (by omega)]
  have hoff : toInt32 (4096 * q / 2 ^ 12 % 1024) = ((q % 1024 : Nat) : Int) := by
    rw [show 4096 * q / 2 ^ 12 % 1024 = q % 1024 by omega, toInt32_of_lt (by omega)]
  have hbytes : ((BitVec.ofInt 32 ((n : Int) * 2 ^ 12)).toInt % 2 ^ 64).toNat = 4096 * n := by
    have hnat : (BitVec.ofInt 32 ((n : Int) * 2 ^ 12)).toNat = 4096 * n := by
      rw [BitVec.toNat_ofInt]; omega
    rw [BitVec.toInt_eq_toNat_of_lt (by omega), hnat]
    omega
  simp only [pageFree, EStateM.run_bind, EStateM.run_get]
  rw [hdiff, hN, hoff, hsize]
  simp only [hbytes]
  rw [if_pos (by omega)]
  rfl

/-- A block whose address wrapped: the index of its buddy comes out
negative. -/
theorem pageFree_oob (hH : Holds area bs) (hlen : area.buddylist.length ≤ 512)
    (hbase : area.baseAddr < 2 ^ 32) (hq : (q, n) ∈ forest 0 bs)
    (haddr : pages.paddr = areaAddr area.baseAddr q) (hwrap : 2 ^ 32 ≤ area.baseAddr + 4096 * q) :
    ∃ i, (pageFree pages).run area = .error (.oob i) area := by
  obtain ⟨hlt, _⟩ := buddySizeAt_ok hH hq
  have hle := hH.le_length
  have hdiff : (((pages.paddr : Int) - area.baseAddr) % 2 ^ 64).toNat =
      2 ^ 64 - 2 ^ 32 + 4096 * q := by
    rw [haddr, areaAddr]; omega
  have hN : toInt32 ((2 ^ 64 - 2 ^ 32 + 4096 * q) / 2 ^ 22) < 0 := by
    rw [toInt32, BitVec.toInt_neg_iff, BitVec.toNat_ofNat]
    omega
  refine ⟨toInt32 ((2 ^ 64 - 2 ^ 32 + 4096 * q) / 2 ^ 22), ?_⟩
  simp only [pageFree, EStateM.run_bind, EStateM.run_get]
  rw [hdiff, buddySizeAt, run_bind_error (buddyAt_neg hN)]

/-! ## `page_free` of any address -/

theorem treeGet_ends {self : Buddy} (i : Int) :
    Ends False (treeGet i) self fun _ self' => self' = self := by
  unfold treeGet
  refine ends_get_bind ?_
  split
  · exact ends_pure rfl
  · exact ends_throw id

theorem buddySizeLoop_ends {self : Buddy} (offset : Int) (fuel : Nat) (left length i : Int) :
    Ends False (buddySizeLoop offset fuel left length i) self fun _ self' => self' = self := by
  induction fuel generalizing left length i with
  | zero => exact ends_throw id
  | succ fuel ih =>
      rw [buddySizeLoop]
      refine (treeGet_ends _).bind fun mark self' hself => ?_
      subst hself
      cases mark with
      | used => exact ends_pure rfl
      | unused => exact ends_pure rfl
      | split =>
          simp only
          split
          · exact ih _ _ _
          · exact ih _ _ _
      | full =>
          simp only
          split
          · exact ih _ _ _
          · exact ih _ _ _

theorem buddySizeAt_ends (i offset : Int) :
    Ends False (buddySizeAt i offset) area fun _ area' => area' = area := by
  have hat : Ends False (buddyAt i) area fun _ area' => area' = area := by
    unfold buddyAt
    refine ends_get_bind ?_
    split
    · split
      · exact ends_pure rfl
      · exact ends_throw id
    · exact ends_throw id
  refine hat.bind fun p area' harea => ?_
  subst harea
  have hsize : Ends False (buddySize offset) (area'.heap p) fun _ self' =>
      self' = area'.heap p := by
    unfold buddySize
    refine ends_get_bind ?_
    simp only
    split
    · exact ends_pure rfl
    · exact buddySizeLoop_ends _ _ _ _ _
  refine ends_zoom hsize fun _ b hb => ?_
  rw [hb]
  exact area'.put_self p

/-- `page_free` writes nothing but the counter. -/
theorem pageFree_counts (pages : Pages) (area : Area) :
    Ends False (pageFree pages) area fun _ area' => ∃ n, area' = { area with pageNum := n } := by
  rw [pageFree]
  refine ends_get_bind ((buddySizeAt_ends _ _).bind fun length area' harea => ?_)
  subst harea
  simp only
  split
  · exact ends_modify_bind (ends_pure ⟨_, rfl⟩)
  · exact ends_pure ⟨area'.pageNum, rfl⟩

end Aim.Kern
