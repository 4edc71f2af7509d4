import Aim.Lib.Commute
import Aim.Proofs.SimpleRun

/-!
# A class that is left alone

`park o x` sets the head of the list of the class `o` to `x`. A request of
another class does not see that, and neither does a `kfree` of a block of
another class: every function of `simple_alloc.c` is gone through for it, with
the rules for `Commutes`. So what is known of these calls while the list of a
class is empty is known whatever is on that list.
-/

namespace Aim.Kern

open Aim.Lib Mem

variable {σ : Type}

namespace Simple

def park (o x : Nat) (s : Simple σ) : Simple σ :=
  { s with sizes := s.sizes.modify o fun d => { d with firstfree := x } }

end Simple

open Simple (park)

variable {o x o' : Nat} {s : Simple σ}

theorem park_sizes_ne (h : o' ≠ o) : (s.park o x).sizes[o']? = s.sizes[o']? :=
  List.getElem?_modify_ne _ _ (Ne.symm h)

theorem firstOf_park_ne (h : o' ≠ o) : firstOf (s.park o x).sizes o' = firstOf s.sizes o' := by
  rw [firstOf, park_sizes_ne h, firstOf]

theorem firstOf_park_self {d : SizeDescriptor} (h : s.sizes[o]? = some d) :
    firstOf (s.park o x).sizes o = x := by
  have hd : (s.park o x).sizes[o]? = some { d with firstfree := x } := by
    rw [Simple.park]
    simp only
    rw [List.getElem?_modify_eq, h]
    rfl
  exact firstOf_eq hd

/-- Only a head changes. -/
theorem Shape.park (h : Shape s.sizes) : Shape (s.park o x).sizes := by
  rw [Shape, ← h]
  refine List.ext_getElem? fun j => ?_
  rw [List.getElem?_map, List.getElem?_map, Simple.park]
  simp only
  rw [List.getElem?_modify]
  cases s.sizes[j]? with
  | none => rfl
  | some d =>
      by_cases hj : o = j
      · simp [hj]
      · simp [hj]

theorem park_park (y : Nat) : (s.park o x).park o y = s.park o y := by
  rw [Simple.park, Simple.park, Simple.park]
  simp only [List.modify_modify_eq]
  rfl

/-- A head that is set to what it is. -/
theorem park_self (h : firstOf s.sizes o = x) : s.park o x = s := by
  have hsizes : s.sizes.modify o (fun d => { d with firstfree := x }) = s.sizes := by
    refine List.ext_getElem? fun j => ?_
    rw [List.getElem?_modify]
    cases hd : s.sizes[j]? with
    | none => rfl
    | some d =>
        by_cases hj : o = j
        · subst hj
          rw [firstOf_eq hd] at h
          simp [← h]
        · simp [hj]
  rw [Simple.park, hsizes]

/-! ## The accesses -/

theorem commutes_load (a : Nat) : Commutes (park o x) (load a) s := rfl

theorem commutes_store (a v : Nat) : Commutes (park o x) (store a v) s := rfl

theorem commutes_kprintf (fmt : String) (args : List Int) :
    Commutes (park o x) (kprintf fmt args) s := rfl

theorem commutes_onPhys {α : Type} (y : EStateM Stop (Phys σ) α) :
    Commutes (park o x) (onPhys y) s := commutes_zoom rfl fun _ => rfl

theorem sizeAt_eq (i : Int) (s : Simple σ) :
    (sizeAt i).run s = if 0 ≤ i then
      match s.sizes[i.toNat]? with
      | some d => .ok d s
      | none => .error (.oob i) s
    else .error (.oob i) s := by
  rw [sizeAt, run_bind_ok (EStateM.run_get s)]
  by_cases hi : 0 ≤ i
  · rw [if_pos hi, if_pos hi]
    cases s.sizes[i.toNat]? with
    | none => rfl
    | some d => rfl
  · rw [if_neg hi, if_neg hi]
    rfl

/-- Another class. -/
theorem commutes_sizeAt (h : o' ≠ o) : Commutes (park o x) (sizeAt (o' : Int)) s := by
  rw [Commutes, sizeAt_eq, sizeAt_eq, Int.toNat_natCast, park_sizes_ne h]
  cases s.sizes[o']? with
  | none => rfl
  | some d => rfl

/-- A class of which only the other fields are used. -/
theorem commutes_sizeAt_bind {α : Type} {i : Int} {k : SizeDescriptor → EStateM Stop (Simple σ) α}
    (hk : ∀ d : SizeDescriptor, k { d with firstfree := x } = k d)
    (h : ∀ d, Commutes (park o x) (k d) s) : Commutes (park o x) (sizeAt i >>= k) s := by
  have hget : (s.park o x).sizes[i.toNat]? =
      (fun d => if o = i.toNat then { d with firstfree := x } else d) <$> s.sizes[i.toNat]? :=
    List.getElem?_modify _ _ _ _
  rw [Commutes, EStateM.run_bind, EStateM.run_bind, sizeAt_eq, sizeAt_eq, hget]
  by_cases hi : 0 ≤ i
  · rw [if_pos hi, if_pos hi]
    cases s.sizes[i.toNat]? with
    | none => rfl
    | some d =>
        have hd := h d
        rw [Commutes] at hd
        by_cases ho : o = i.toNat
        · simp only [Option.map_eq_map, Option.map_some, if_pos ho, hk]
          exact hd
        · simp only [Option.map_eq_map, Option.map_some, if_neg ho]
          exact hd
  · rw [if_neg hi, if_neg hi]

theorem commutes_modifySize (h : o' ≠ o) (f : SizeDescriptor → SizeDescriptor) :
    Commutes (park o x) (modifySize (o' : Int) f) s := by
  rw [modifySize]
  refine (commutes_sizeAt h).bind ?_
  intro d s' _
  refine commutes_modify ?_
  rw [Simple.park, Simple.park]
  simp only [Int.toNat_natCast]
  have hsizes : (s'.sizes.modify o fun d => { d with firstfree := x }).set o' (f d) =
      (s'.sizes.set o' (f d)).modify o fun d => { d with firstfree := x } := by
    refine List.ext_getElem? fun j => ?_
    rw [List.getElem?_modify, List.getElem?_set, List.getElem?_set, List.getElem?_modify,
      List.length_modify]
    by_cases hj : o' = j
    · subst hj
      by_cases hlt : o' < s'.sizes.length
      · simp [hlt, Ne.symm h]
      · simp [hlt]
    · simp [hj]
  rw [hsizes]

/-! ## `simple_alloc` -/

theorem commutes_takeBlock (h : o' ≠ o) (size page p : Nat) :
    Commutes (park o x) (takeBlock (o' : Int) size page p) s := by
  rw [takeBlock]
  refine (commutes_load p).bind fun flags s _ => commutes_ite (fun _ => ?_) (fun _ => ?_)
  · refine (commutes_load _).bind fun _ s _ => (commutes_store _ _).bind fun _ s _ => ?_
    refine (commutes_load _).bind fun _ s _ => (commutes_store _ _).bind fun _ s _ => ?_
    refine (commutes_load _).bind fun _ s _ => ?_
    have hrest : ∀ s : Simple σ, Commutes (park o x) (do
        modifySize (o' : Int) fun d => { d with
          nmallocs := d.nmallocs + 1
          nbytesmalloced := d.nbytesmalloced + size }
        store p mfUsed
        store (p + 4) size
        return (p + 8) % 2 ^ 32) s := by
      intro s
      refine (commutes_modifySize h _).bind fun _ s _ => (commutes_store _ _).bind fun _ s _ => ?_
      exact (commutes_store _ _).bind fun _ s _ => commutes_pure _
    refine commutes_ite (fun _ => ?_) (fun _ => hrest s)
    refine (commutes_load _).bind fun _ s _ => (commutes_modifySize h _).bind fun _ s _ => ?_
    exact (commutes_store _ _).bind fun _ s _ => hrest s
  · exact (commutes_kprintf _ _).bind fun _ s _ => commutes_pure _

theorem commutes_carveBlocks (sz i p : Nat) : Commutes (park o x) (carveBlocks sz i p) s := by
  induction i generalizing p s with
  | zero => exact commutes_pure p
  | succ i ih =>
      cases i with
      | zero => exact commutes_pure p
      | succ i =>
          rw [carveBlocks]
          refine (commutes_store _ _).bind fun _ s _ => (commutes_store _ _).bind fun _ s _ => ?_
          exact (commutes_load _).bind fun p s _ => ih p

theorem commutes_addPage (h : o' ≠ o) (page : Nat) :
    Commutes (park o x) (addPage (o' : Int) page) s := by
  rw [addPage]
  refine (commutes_sizeAt h).bind fun d s _ => (commutes_modifySize h _).bind fun _ s _ => ?_
  refine (commutes_carveBlocks _ _ _).bind fun p s _ => ?_
  refine (commutes_store _ _).bind fun _ s _ => (commutes_store _ _).bind fun _ s _ => ?_
  refine (commutes_store _ _).bind fun _ s _ => (commutes_store _ _).bind fun _ s _ => ?_
  refine (commutes_store _ _).bind fun _ s _ => (commutes_sizeAt h).bind fun d s _ => ?_
  exact (commutes_store _ _).bind fun _ s _ => commutes_modifySize h _

theorem commutes_getPage (P : PageAllocator σ) : Commutes (park o x) (getPage P) s := by
  rw [getPage]
  refine commutes_get_bind rfl ?_
  refine commutes_ite (fun _ => ?_) (fun _ => commutes_pure _)
  exact (commutes_onPhys _).bind fun _ s _ => commutes_pure _

theorem commutes_simpleAllocLoop (P : PageAllocator σ) (h : o' ≠ o) (size tries : Nat) :
    Commutes (park o x) (simpleAllocLoop P (o' : Int) size tries) s := by
  induction tries generalizing s with
  | zero => exact commutes_throw _
  | succ tries ih =>
      rw [simpleAllocLoop]
      refine (commutes_sizeAt h).bind fun d s _ => ?_
      have hrest : ∀ (p : Nat) (s : Simple σ), Commutes (park o x) (do
          if d.firstfree ≠ 0 ∧ p ≠ 0 then takeBlock (o' : Int) size d.firstfree p
          else
            let page ← getPage P
            if page = 0 then
              kprintf "Couldn't get a free page.....\n" []
              return 0
            else
              addPage (o' : Int) page
              simpleAllocLoop P (o' : Int) size tries) s := by
        intro p s
        refine commutes_ite (fun _ => commutes_takeBlock h _ _ _) (fun _ => ?_)
        refine (commutes_getPage P).bind fun page s _ => ?_
        refine commutes_ite (fun _ => ?_) (fun _ => ?_)
        · exact (commutes_kprintf _ _).bind fun _ s _ => commutes_pure _
        · exact (commutes_addPage h _).bind fun _ s _ => ih
      refine commutes_ite (fun _ => ?_) (fun _ => ?_)
      · exact (commutes_load _).bind fun p s _ => hrest p s
      · exact (commutes_pure _).bind fun p s _ => hrest p s

/-- `kmalloc` of another class. -/
theorem commutes_kmalloc (P : PageAllocator σ) (hshape : Shape s.sizes) {size : Nat}
    (h : orderOf size ≠ o) (flags : Nat) :
    Commutes (park o x) (Vmm.kmalloc (simpleAllocator P) size flags) s := by
  have horder : Commutes (park o x) (getOrder size) s := by
    rcases getOrder_spec hshape size with ⟨hrun, hlarge⟩ | ⟨_, _, hrun⟩
    · rcases getOrder_spec hshape.park size with ⟨hrun', _⟩ | ⟨ho, hfits, _⟩
      · exact commutes_of_ok hrun hrun'
      · have hle := classSize_le ho
        omega
    · rcases getOrder_spec hshape.park size with ⟨_, hlarge⟩ | ⟨_, _, hrun'⟩
      · have hle := classSize_le ‹_›
        omega
      · exact commutes_of_ok hrun hrun'
  have halloc : Commutes (park o x) (simpleAlloc P size) s := by
    unfold simpleAlloc
    refine commutes_ite (fun _ => ?_) (fun _ => ?_)
    · exact (commutes_kprintf _ _).bind fun _ s _ => commutes_pure _
    · refine horder.bind fun order s' hrun => ?_
      refine commutes_ite (fun _ => ?_) (fun hpos => ?_)
      · exact (commutes_kprintf _ _).bind fun _ s _ => commutes_pure _
      · have hord : order = (orderOf size : Int) := by
          rcases getOrder_spec hshape size with ⟨hrun', _⟩ | ⟨_, _, hrun'⟩
          · rw [hrun'] at hrun
            injection hrun with heq _
            omega
          · rw [hrun'] at hrun
            injection hrun with heq _
            exact heq.symm
        rw [hord]
        exact commutes_simpleAllocLoop P h size _
  unfold Vmm.kmalloc
  refine commutes_ite (fun _ => commutes_throw _) (fun _ => ?_)
  refine halloc.bind fun result s _ => commutes_ite (fun _ => ?_) (fun _ => commutes_pure _)
  refine Commutes.bind (g := park o x) ?_ fun _ s _ => commutes_pure _
  exact commutes_modify rfl

/-! ## `simple_free` -/

theorem commutes_findPrev (page fuel pg2 : Nat) :
    Commutes (park o x) (findPrev page fuel pg2) s := by
  induction fuel generalizing pg2 s with
  | zero => exact commutes_throw _
  | succ fuel ih =>
      rw [findPrev]
      refine commutes_ite (fun _ => commutes_pure _) (fun _ => ?_)
      refine (commutes_load _).bind fun next s _ => ?_
      exact commutes_ite (fun _ => ih next) (fun _ => commutes_pure _)

theorem commutes_releasePage (P : PageAllocator σ) (h : o' ≠ o) (page : Nat) :
    Commutes (park o x) (releasePage P (o' : Int) page) s := by
  rw [releasePage]
  refine (commutes_sizeAt h).bind fun d s _ => commutes_ite (fun _ => ?_) (fun _ => ?_)
  · refine (commutes_load _).bind fun _ s _ => (commutes_modifySize h _).bind fun _ s _ => ?_
    exact commutes_onPhys _
  · refine (commutes_findPrev _ _ _).bind fun pg2 s _ => ?_
    refine commutes_ite (fun _ => ?_) (fun _ => ?_)
    · refine (commutes_load _).bind fun _ s _ => (commutes_store _ _).bind fun _ s _ => ?_
      exact commutes_onPhys _
    · exact (commutes_kprintf _ _).bind fun _ s _ => commutes_onPhys _

theorem commutes_putBlock (h : o' ≠ o) (page p : Nat) :
    Commutes (park o x) (putBlock (o' : Int) page p) s := by
  rw [putBlock]
  refine (commutes_store _ _).bind fun _ s _ => (commutes_load _).bind fun _ s _ => ?_
  refine (commutes_store _ _).bind fun _ s _ => (commutes_store _ _).bind fun _ s _ => ?_
  refine (commutes_load _).bind fun _ s _ => (commutes_store _ _).bind fun _ s _ => ?_
  refine (commutes_load _).bind fun _ s _ => ?_
  refine commutes_ite (fun _ => ?_) (fun _ => commutes_pure _)
  refine (commutes_load _).bind fun _ s _ => ?_
  refine commutes_ite (fun _ => commutes_kprintf _ _) (fun _ => ?_)
  refine (commutes_sizeAt h).bind fun d s _ => ?_
  exact (commutes_store _ _).bind fun _ s _ => commutes_modifySize h _

/-- `simple_free` of a block in a page of another class. -/
theorem commutes_simpleFree (P : PageAllocator σ) {o' ptr : Nat} (h : o' ≠ o)
    (hord : toInt32 (load32 s.phys.mem (pageDesc ((ptr + 2 ^ 32 - 8) % 2 ^ 32) + 8)) =
      (o' : Int)) :
    Commutes (park o x) (simpleFree P ptr) s := by
  rw [simpleFree]
  refine commutes_get_bind rfl (commutes_ite (fun _ => ?_) (fun _ => commutes_pure _))
  refine (commutes_load _).bind fun word s' hword => ?_
  have hw : toInt32 word = (o' : Int) := by
    injection hword with heq _
    rw [← heq]
    exact hord
  rw [hw]
  refine (commutes_load _).bind fun _ s _ => (commutes_load _).bind fun _ s _ => ?_
  refine commutes_ite (fun _ => commutes_kprintf _ _) (fun _ => ?_)
  refine (commutes_load _).bind fun _ s _ => (commutes_putBlock h _ _).bind fun _ s _ => ?_
  refine (commutes_load _).bind fun _ s _ => (commutes_load _).bind fun _ s _ => ?_
  refine commutes_sizeAt_bind (fun d => rfl) fun d => ?_
  refine commutes_ite (fun _ => ?_) (fun _ => commutes_modifySize h _)
  exact (commutes_releasePage P h _).bind fun _ s _ => commutes_modifySize h _

end Aim.Kern
