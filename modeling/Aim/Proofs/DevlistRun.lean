import Aim.Kern.Devlist

/-!
# The device index over whole runs

`Listed` says that the ring through `__head` has the entries `l`, and every
function of the index gets one lemma on a listed index. The loops end at the
entry of a node that is not in the list or at that of `__head`, four bytes in
front of it: `l.headD (entryOf E.head)` is where a loop over `l` starts.

`devCalls` is the index with its clients. The allocator is a parameter, and a
record is kept of the entries it handed out, in order: what is added later
stands later in the record, which is what makes the order of insertion a
matter of the state.

The iteration of `__next` is the one function that does not know its end. It
compares the address of an entry with that of `__head`, and the entry of
`__head` is at another address; so the word in front of `__head` is taken for
a device (`forEachDevice_iff`).
-/

namespace Aim.Kern

open Aim.Lib Links Function
open Devlist (entryBytes nodeOffset nodeOf entryOf deviceAt loopFuel found forEachDevice)

variable {σ : Type} {E : DevEnv σ} {e : Nat} {l : List Nat}

/-! ## Addresses -/

/-- There is room for an entry at `e`, apart from `__head`. -/
def EntryAt (E : DevEnv σ) (e : Nat) : Prop :=
  0 < e ∧ e + entryBytes ≤ 2 ^ 32 ∧ (e + entryBytes ≤ E.head ∨ E.head + 12 ≤ e)

instance (E : DevEnv σ) (e : Nat) : Decidable (EntryAt E e) :=
  inferInstanceAs (Decidable (_ ∧ _ ∧ _))

theorem EntryAt.nodeOf_eq (h : EntryAt E e) : nodeOf e = e + 4 := by
  obtain ⟨_, hle, _⟩ := h
  simp only [entryBytes] at hle
  rw [nodeOf, nodeOffset, Nat.mod_eq_of_lt (by omega)]

theorem EntryAt.entryOf_nodeOf (h : EntryAt E e) : entryOf (nodeOf e) = e := by
  rw [h.nodeOf_eq, entryOf, nodeOffset]
  obtain ⟨_, hle, _⟩ := h
  simp only [entryBytes] at hle
  omega

theorem EntryAt.nodeOf_ne_head (h : EntryAt E e) : nodeOf e ≠ E.head := by
  rw [h.nodeOf_eq]
  obtain ⟨_, _, hapart⟩ := h
  simp only [entryBytes] at hapart
  omega

theorem EntryAt.ne_head (h : EntryAt E e) : e ≠ E.head := by
  obtain ⟨_, _, hapart⟩ := h
  simp only [entryBytes] at hapart
  omega

theorem entryOf_head (E : DevEnv σ) : entryOf E.head = E.head - 4 := by
  have hge := E.head_ge
  have hle := E.head_le
  rw [entryOf, nodeOffset]
  omega

theorem nodeOf_entryOf_head (E : DevEnv σ) : nodeOf (entryOf E.head) = E.head := by
  have hge := E.head_ge
  have hle := E.head_le
  rw [entryOf_head, nodeOf, nodeOffset]
  omega

theorem entryOf_head_ne (E : DevEnv σ) : entryOf E.head ≠ E.head := by
  have hge := E.head_ge
  rw [entryOf_head]
  omega

/-! ## The list -/

/-- The list of the index has the entries `l`. -/
structure Listed (E : DevEnv σ) (s : Devlist σ) (l : List Nat) : Prop where
  ring : Ring s.links E.head (l.map nodeOf)
  entry : ∀ e ∈ l, EntryAt E e
  device : ∀ e ∈ l, s.dev e ≠ 0

section Loops

variable {E : DevEnv σ} {s : Devlist σ} {l l₁ l₂ : List Nat} {e : Nat}

/-- The entry a loop looks at is in the list unless its node is `__head`. -/
theorem Listed.entryOf_headD (h : Listed E s l) (hl : ∀ e ∈ l₂, e ∈ l) :
    entryOf ((l₂.map nodeOf).headD E.head) = l₂.headD (entryOf E.head) := by
  cases l₂ with
  | nil => rw [List.map_nil, List.headD_nil, List.headD_nil]
  | cons e l₂ => exact (h.entry e (hl e List.mem_cons_self)).entryOf_nodeOf

theorem Listed.next_head (h : Listed E s l) :
    entryOf (s.links.next E.head) = l.headD (entryOf E.head) := by
  have hring : Ring s.links E.head ([] ++ l.map nodeOf) := h.ring
  have hnext : s.links.next E.head = (l.map nodeOf).headD E.head := hring.next_last
  rw [hnext, h.entryOf_headD fun e he => he]

theorem Listed.next_entry (h : Listed E s (l₁ ++ e :: l₂)) :
    entryOf (s.links.next (nodeOf e)) = l₂.headD (entryOf E.head) := by
  have hring := h.ring
  rw [List.map_append, List.map_cons] at hring
  rw [hring.next_mem, h.entryOf_headD]
  intro x hx
  exact List.mem_append_right _ (List.mem_cons_of_mem _ hx)

theorem Listed.nodup (h : Listed E s l) : l.Nodup :=
  (List.nodup_cons.mp h.ring.nodup).2.of_map _

theorem Listed.length_lt (h : Listed E s l) : l.length < loopFuel := by
  refine length_lt_of_addresses (by decide) h.nodup ?_
  intro e he
  obtain ⟨hpos, hle, _⟩ := h.entry e he
  simp only [entryBytes, loopFuel] at hle ⊢
  exact ⟨hpos, by omega⟩

theorem Listed.head_mem (h : Listed E s (l₁ ++ e :: l₂)) : EntryAt E e ∧ s.dev e ≠ 0 :=
  have hmem : e ∈ l₁ ++ e :: l₂ := List.mem_append_right _ List.mem_cons_self
  ⟨h.entry e hmem, h.device e hmem⟩

theorem deviceAt_ok {d : Nat} (hd : d ≠ 0) : (deviceAt d).run s = .ok (s.device d) s := by
  rw [deviceAt, if_neg hd]
  rfl

/-- A loop that only tests stops at the first entry that passes the test. -/
theorem Listed.forEachEntry {stop : Nat → EStateM Stop (Devlist σ) Bool} {p : Nat → Bool}
    {fuel : Nat} (h : Listed E s (l₁ ++ l₂))
    (hstop : ∀ e ∈ l₂, (stop e).run s = .ok (p e) s) (hfuel : l₂.length < fuel) :
    (Devlist.forEachEntry E stop fuel (l₂.headD (entryOf E.head))).run s =
      .ok ((l₂.dropWhile fun e => !p e).headD (entryOf E.head)) s := by
  induction l₂ generalizing l₁ fuel with
  | nil =>
      obtain ⟨fuel, rfl⟩ : ∃ k, fuel = k + 1 := ⟨fuel - 1, by simp at hfuel; omega⟩
      rw [List.dropWhile_nil, List.headD_nil, Devlist.forEachEntry,
        if_pos (nodeOf_entryOf_head E), EStateM.run_pure]
  | cons e l ih =>
      obtain ⟨fuel, rfl⟩ : ∃ k, fuel = k + 1 := ⟨fuel - 1, by simp at hfuel; omega⟩
      rw [List.length_cons] at hfuel
      have hne := h.head_mem.1.nodeOf_ne_head
      have htest := hstop e List.mem_cons_self
      rw [List.headD_cons, Devlist.forEachEntry, if_neg hne, run_bind_ok htest]
      cases hp : p e with
      | true =>
          rw [List.dropWhile_cons, hp]
          rfl
      | false =>
          have hnext := h.next_entry
          rw [List.append_cons] at h
          have hrest := ih h (fun x hx => hstop x (List.mem_cons_of_mem _ hx))
            (Nat.lt_of_succ_lt_succ hfuel)
          rw [List.dropWhile_cons, hp]
          simp only [Bool.not_false, if_true, Bool.false_eq_true, if_false]
          rw [run_bind_ok (EStateM.run_get _), hnext]
          exact hrest

end Loops

/-! ## Looking up -/

section LookUp

variable {E : DevEnv σ} {s : Devlist σ} {l : List Nat}

/-- The first of the listed devices with the property, `0` if there is none. -/
def firstDevice (s : Devlist σ) (l : List Nat) (p : Device → Bool) : Nat :=
  ((l.map s.dev).find? fun d => p (s.device d)).getD 0

theorem found_run (h : Listed E s l) (p : Device → Bool) :
    (found E ((l.dropWhile fun e => !p (s.device (s.dev e))).headD (entryOf E.head))).run s =
      .ok (firstDevice s l p) s := by
  have hrest : ∀ e l', l.dropWhile (fun e => !p (s.device (s.dev e))) = e :: l' → e ∈ l := by
    intro e l' hl'
    exact (List.dropWhile_suffix _).subset (hl' ▸ List.mem_cons_self)
  have hfirst : firstDevice s l p =
      ((l.dropWhile fun e => !p (s.device (s.dev e))).head?.map s.dev).getD 0 := by
    rw [firstDevice, List.find?_map, List.find?_eq_head?_dropWhile_not]
    rfl
  rw [found, run_bind_ok (EStateM.run_get _), hfirst]
  cases hd : l.dropWhile fun e => !p (s.device (s.dev e)) with
  | nil =>
      rw [List.headD_nil, if_neg (not_not.mpr (nodeOf_entryOf_head E))]
      rfl
  | cons e l' =>
      rw [List.headD_cons, if_pos (h.entry e (hrest e l' hd)).nodeOf_ne_head]
      rfl

/-- A search over the list, for whatever it looks for. -/
theorem Listed.search (h : Listed E s l) (p : Device → Bool) : (do
      let s ← get
      let tmp ← Devlist.forEachEntry E (fun tmp => do
          let s ← get
          let d ← deviceAt (s.dev tmp)
          return p d) loopFuel (entryOf (s.links.next E.head))
      found E tmp : EStateM Stop (Devlist σ) Nat).run s = .ok (firstDevice s l p) s := by
  have hl : Listed E s ([] ++ l) := h
  have htest : ∀ e ∈ l, (do
      let s ← get
      let d ← deviceAt (s.dev e)
      return p d : EStateM Stop (Devlist σ) Bool).run s = .ok (p (s.device (s.dev e))) s := by
    intro e he
    rw [run_bind_ok (EStateM.run_get _), run_bind_ok (deviceAt_ok (h.device e he))]
    rfl
  rw [run_bind_ok (EStateM.run_get _), h.next_head,
    run_bind_ok (hl.forEachEntry htest h.length_lt)]
  exact found_run h p

theorem Listed.fromId (h : Listed E s l) (devno : Nat) : (Devlist.fromId E devno).run s =
    .ok (firstDevice s l fun d => decide (d.devno = devno)) s := h.search _

theorem Listed.fromName (h : Listed E s l) (name : CString) : (Devlist.fromName E name).run s =
    .ok (firstDevice s l fun d => decide (d.name = name)) s := by
  have hsearch := h.search fun d => decide (strcmp d.name name = 0)
  simp only [strcmp_eq_zero] at hsearch
  simpa only [Devlist.fromName, strcmp_eq_zero] using hsearch

end LookUp

/-! ## Adding -/

section Add

variable {E : DevEnv σ} {s : Devlist σ} {l : List Nat} {d e : Nat} {env : σ}

/-- The device number of a listed entry. -/
def Devlist.devnoOf (s : Devlist σ) (e : Nat) : Nat := (s.device (s.dev e)).devno

/-- The index with an entry `e` for `d`, not linked yet. -/
def withEntry (s : Devlist σ) (env : σ) (e d : Nat) : Devlist σ :=
  { s with env := env, dev := update s.dev e d }

/-- An entry that is not in the list is filled in. -/
theorem Listed.filled (h : Listed E s l) (he : e ∉ l) : Listed E (withEntry s env e d) l := by
  refine ⟨h.ring, h.entry, ?_⟩
  intro x hx
  show update s.dev e d x ≠ 0
  have hxe : x ≠ e := fun hxe => he (hxe ▸ hx)
  rw [update_of_ne hxe]
  exact h.device x hx

theorem cmp_run (hd : d ≠ 0) (hx : s.dev e ≠ 0) {this : Nat} (hthis : s.dev this = d) :
    (do return decide ((← Devlist.cmp e this) > 0) : EStateM Stop (Devlist σ) Bool).run s =
      .ok (decide ((s.device d).devno < s.devnoOf e)) s := by
  rw [Devlist.cmp]
  simp only [bind_assoc]
  rw [run_bind_ok (EStateM.run_get _), run_bind_ok (deviceAt_ok hx), hthis,
    run_bind_ok (deviceAt_ok hd)]
  by_cases hgt : (s.device (s.dev e)).devno > (s.device d).devno
  · rw [if_pos hgt, decide_eq_true (show (s.device d).devno < s.devnoOf e from hgt)]
    rfl
  · rw [if_neg hgt, decide_eq_false (show ¬ (s.device d).devno < s.devnoOf e from hgt)]
    split <;> rfl

theorem run_devEnv {α : Type} {x : EStateM Stop σ α} {a : α} (h : x.run s.env = .ok a env) :
    (Devlist.onEnv x).run s = .ok a { s with env := env } := run_zoom_ok h

/-- A request for an entry that is not met. -/
theorem add_failed (hk : (E.kmalloc entryBytes).run s.env = .ok 0 env) :
    (Devlist.add E d).run s = .ok (-1) { s with env := env } := by
  rw [Devlist.add, run_bind_ok (run_devEnv hk), if_pos rfl]
  rfl

/-- The loop of `__add` stops at the first entry of a device with a larger
number. -/
theorem Listed.addLoop (h : Listed E s l) (env : σ) (hd : d ≠ 0) (hnew : e ∉ l) :
    (Devlist.forEachEntry E (fun x => do return decide ((← Devlist.cmp x e) > 0)) loopFuel
      (l.headD (entryOf E.head))).run (withEntry s env e d) =
        .ok ((l.dropWhile fun x => decide (s.devnoOf x ≤ (s.device d).devno)).headD
          (entryOf E.head)) (withEntry s env e d) := by
  have hfill : Listed E (withEntry s env e d) ([] ++ l) := h.filled hnew
  have hdev : ∀ x ∈ l, (withEntry s env e d).dev x = s.dev x := by
    intro x hx
    have hxe : x ≠ e := fun hxe => hnew (hxe ▸ hx)
    exact update_of_ne hxe _ _
  have hthis : (withEntry s env e d).dev e = d := update_self _ _ _
  have htest : ∀ x ∈ l, (do return decide ((← Devlist.cmp x e) > 0) :
      EStateM Stop (Devlist σ) Bool).run (withEntry s env e d) =
        .ok (!decide (s.devnoOf x ≤ (s.device d).devno)) (withEntry s env e d) := by
    intro x hx
    rw [cmp_run hd (by rw [hdev x hx]; exact h.device x hx) hthis]
    have hno : (withEntry s env e d).devnoOf x = s.devnoOf x := by
      rw [Devlist.devnoOf, hdev x hx]
      rfl
    have hnot : decide ((s.device d).devno < s.devnoOf x) =
        !decide (s.devnoOf x ≤ (s.device d).devno) := by
      simp only [← decide_not, not_le]
    rw [hno, ← hnot]
    rfl
  have hloop := hfill.forEachEntry htest h.length_lt
  simp only [Bool.not_not] at hloop
  exact hloop

/-- The entry `e` is linked in before the entries `l₂`. -/
theorem Listed.splice {l₁ l₂ : List Nat} (h : Listed E s (l₁ ++ l₂)) (hd : d ≠ 0)
    (he : EntryAt E e) (hnew : e ∉ l₁ ++ l₂) :
    Listed E { withEntry s env e d with
      links := s.links.addTail (nodeOf e) (nodeOf (l₂.headD (entryOf E.head))) }
      (l₁ ++ e :: l₂) := by
  have hmem : ∀ x ∈ l₁ ++ e :: l₂, x = e ∨ x ∈ l₁ ++ l₂ := fun x hx =>
    List.mem_cons.mp (List.perm_middle.mem_iff.mp hx)
  refine ⟨?_, ?_, ?_⟩
  · have hnode : nodeOf (l₂.headD (entryOf E.head)) = (l₂.map nodeOf).headD E.head := by
      cases l₂ with
      | nil => rw [List.headD_nil, nodeOf_entryOf_head, List.map_nil, List.headD_nil]
      | cons x l₂ => rw [List.headD_cons, List.map_cons, List.headD_cons]
    have hring := h.ring
    rw [List.map_append] at hring
    have hout : nodeOf e ∉ E.head :: (l₁.map nodeOf ++ l₂.map nodeOf) := by
      intro hmem
      rcases List.mem_cons.mp hmem with hmem | hmem
      · exact he.nodeOf_ne_head hmem
      · rw [← List.map_append] at hmem
        obtain ⟨x, hx, hxe⟩ := List.mem_map.mp hmem
        have heq : x = e := by
          rw [← (h.entry x hx).entryOf_nodeOf, hxe, he.entryOf_nodeOf]
        exact hnew (heq ▸ hx)
    show Ring (s.links.addTail (nodeOf e) (nodeOf (l₂.headD (entryOf E.head)))) _ _
    rw [hnode, hring.addTail_eq, List.map_append, List.map_cons]
    exact hring.add hout
  · intro x hx
    rcases hmem x hx with rfl | hx
    · exact he
    · exact h.entry x hx
  · intro x hx
    show update s.dev e d x ≠ 0
    by_cases hxe : x = e
    · rw [hxe, update_self]
      exact hd
    · rw [update_of_ne hxe]
      exact h.device x ((hmem x hx).resolve_left hxe)

/-- `__add` puts the new entry behind the entries of devices whose number is
not larger. -/
theorem Listed.add (h : Listed E s l) (hd : d ≠ 0) (he : EntryAt E e) (hnew : e ∉ l)
    (hk : (E.kmalloc entryBytes).run s.env = .ok e env) :
    ∃ s', (Devlist.add E d).run s = .ok 0 s' ∧ s'.env = env ∧
      s'.dev = update s.dev e d ∧ s'.device = s.device ∧
      Listed E s' (l.takeWhile (fun x => decide (s.devnoOf x ≤ (s.device d).devno)) ++
        e :: l.dropWhile fun x => decide (s.devnoOf x ≤ (s.device d).devno)) := by
  have hloop := h.addLoop env hd hnew
  have hfirst := h.next_head
  have hsplit := List.takeWhile_append_dropWhile
    (p := fun x => decide (s.devnoOf x ≤ (s.device d).devno)) (l := l)
  generalize l.takeWhile (fun x => decide (s.devnoOf x ≤ (s.device d).devno)) = l₁ at hsplit ⊢
  generalize l.dropWhile (fun x => decide (s.devnoOf x ≤ (s.device d).devno)) = l₂
    at hsplit hloop ⊢
  subst hsplit
  refine ⟨{ withEntry s env e d with
    links := s.links.addTail (nodeOf e) (nodeOf (l₂.headD (entryOf E.head))) },
    ?_, rfl, rfl, rfl, h.splice hd he hnew⟩
  rw [Devlist.add, run_bind_ok (run_devEnv hk), if_neg (by have := he.1; omega)]
  refine (run_bind_ok (EStateM.run_modify _ _)).trans ?_
  refine (run_bind_ok (EStateM.run_get _)).trans ?_
  show (Devlist.forEachEntry E _ loopFuel (entryOf (s.links.next E.head)) >>= _).run
    (withEntry s env e d) = _
  rw [hfirst, run_bind_ok hloop]
  rfl

end Add

/-! ## Removing -/

section Remove

variable {E : DevEnv σ} {s : Devlist σ} {l l₁ l₂ : List Nat} {d e : Nat}

/-- The bus of the device of a listed entry. -/
def Devlist.busOf (s : Devlist σ) (e : Nat) : Nat := (s.device (s.dev e)).bus

/-- The last of the entries for `d`, `this` if there is none. -/
def lastEntry (s : Devlist σ) (d this : Nat) (l : List Nat) : Nat :=
  l.foldl (fun this e => if s.dev e = d then e else this) this

theorem Listed.removeLoop {fuel this : Nat} (h : Listed E s (l₁ ++ l₂)) (hfuel : l₂.length < fuel) :
    (Devlist.removeLoop E d fuel (l₂.headD (entryOf E.head)) this).run s =
      .ok (if ∃ e ∈ l₂, s.busOf e = d then none else some (lastEntry s d this l₂)) s := by
  induction l₂ generalizing l₁ fuel this with
  | nil =>
      obtain ⟨fuel, rfl⟩ : ∃ k, fuel = k + 1 := ⟨fuel - 1, by simp at hfuel; omega⟩
      rw [List.headD_nil, Devlist.removeLoop, if_pos (nodeOf_entryOf_head E), if_neg (by simp)]
      rfl
  | cons e l ih =>
      obtain ⟨fuel, rfl⟩ : ∃ k, fuel = k + 1 := ⟨fuel - 1, by simp at hfuel; omega⟩
      rw [List.length_cons] at hfuel
      obtain ⟨hentry, hdev⟩ := h.head_mem
      rw [List.headD_cons, Devlist.removeLoop, if_neg hentry.nodeOf_ne_head,
        run_bind_ok (EStateM.run_get _), run_bind_ok (deviceAt_ok hdev)]
      by_cases hbus : (s.device (s.dev e)).bus = d
      · rw [if_pos hbus, if_pos ⟨e, List.mem_cons_self, hbus⟩]
        rfl
      · have hnext := h.next_entry
        rw [List.append_cons] at h
        have hrest : (Devlist.removeLoop E d fuel (l.headD (entryOf E.head))
            (if s.dev e = d then e else this)).run s = _ := ih h (Nat.lt_of_succ_lt_succ hfuel)
        have hiff : (∃ x ∈ e :: l, s.busOf x = d) ↔ ∃ x ∈ l, s.busOf x = d := by
          rw [List.exists_mem_cons_iff]
          exact or_iff_right hbus
        rw [if_neg hbus, hnext]
        refine hrest.trans ?_
        by_cases hex : ∃ x ∈ l, s.busOf x = d
        · rw [if_pos hex, if_pos (hiff.mpr hex)]
        · rw [if_neg hex, if_neg (mt hiff.mp hex)]
          rfl

/-- What the loop found is the last entry for the device. -/
theorem lastEntry_cases (s : Devlist σ) (d this : Nat) (l : List Nat) :
    (lastEntry s d this l = this ∧ ∀ e ∈ l, s.dev e ≠ d) ∨
      (lastEntry s d this l ∈ l ∧ s.dev (lastEntry s d this l) = d) := by
  induction l generalizing this with
  | nil => exact Or.inl ⟨rfl, nofun⟩
  | cons e l ih =>
      have hstep : lastEntry s d this (e :: l) =
          lastEntry s d (if s.dev e = d then e else this) l := rfl
      rw [hstep]
      rcases ih (if s.dev e = d then e else this) with ⟨hlast, hnone⟩ | ⟨hmem, hdev⟩
      · rw [hlast]
        by_cases hd : s.dev e = d
        · rw [if_pos hd]
          exact Or.inr ⟨List.mem_cons_self, hd⟩
        · rw [if_neg hd]
          refine Or.inl ⟨rfl, ?_⟩
          intro x hx
          rcases List.mem_cons.mp hx with rfl | hx
          · exact hd
          · exact hnone x hx
      · exact Or.inr ⟨List.mem_cons_of_mem _ hmem, hdev⟩

/-- `__remove` of a device that is some device's bus, or not in the index. -/
theorem Listed.remove_refused (h : Listed E s l)
    (hno : (∃ e ∈ l, s.busOf e = d) ∨ ∀ e ∈ l, s.dev e ≠ d) :
    (Devlist.remove E d).run s = .ok (-1) s := by
  have hl : Listed E s ([] ++ l) := h
  rw [Devlist.remove, run_bind_ok (EStateM.run_get _), h.next_head,
    run_bind_ok (hl.removeLoop h.length_lt)]
  by_cases hbus : ∃ e ∈ l, s.busOf e = d
  · rw [if_pos hbus]
    rfl
  · rw [if_neg hbus]
    have hnone := hno.resolve_left hbus
    rcases lastEntry_cases s d 0 l with ⟨hlast, _⟩ | ⟨hmem, hdev⟩
    · simp only [hlast, ne_eq, not_true_eq_false, if_false]
      rfl
    · exact absurd hdev (hnone _ hmem)

/-- `__remove` of any other device takes one of its entries out. -/
theorem Listed.remove_done (h : Listed E s l) (hbus : ∀ e ∈ l, s.busOf e ≠ d)
    (hd : ∃ e ∈ l, s.dev e = d) (hfree : ∀ e ∈ l, ∃ env, (E.kfree e).run s.env = .ok () env) :
    ∃ e ∈ l, s.dev e = d ∧ ∃ s', (Devlist.remove E d).run s = .ok 0 s' ∧
      (E.kfree e).run s.env = .ok () s'.env ∧ s'.dev = s.dev ∧ s'.device = s.device ∧
      Listed E s' (l.erase e) := by
  have hl : Listed E s ([] ++ l) := h
  have hloop : (Devlist.removeLoop E d loopFuel (l.headD (entryOf E.head)) 0).run s = _ :=
    hl.removeLoop h.length_lt
  rw [if_neg (by push Not; exact hbus)] at hloop
  rcases lastEntry_cases s d 0 l with ⟨_, hnone⟩ | ⟨hmem, hdev⟩
  · obtain ⟨e, he, hde⟩ := hd
    exact absurd hde (hnone e he)
  · generalize lastEntry s d 0 l = e at hloop hmem hdev
    obtain ⟨env, henv⟩ := hfree e hmem
    refine ⟨e, hmem, hdev, { s with env := env, links := s.links.del (nodeOf e) }, ?_, henv,
      rfl, rfl, ?_, ?_, ?_⟩
    · have hpos := (h.entry e hmem).1
      have hkfree : (Devlist.onEnv (E.kfree e)).run { s with links := s.links.del (nodeOf e) } =
          .ok () { s with env := env, links := s.links.del (nodeOf e) } := run_devEnv henv
      rw [Devlist.remove, run_bind_ok (EStateM.run_get _), h.next_head, run_bind_ok hloop]
      simp only [show e ≠ 0 by omega, ne_eq, not_false_eq_true, if_true]
      rw [run_bind_ok (EStateM.run_modify _ _), run_bind_ok hkfree]
      rfl
    · obtain ⟨l₁, l₂, _, rfl, herase⟩ := List.exists_erase_eq hmem
      have hring := h.ring
      rw [List.map_append, List.map_cons] at hring
      rw [herase, List.map_append]
      exact hring.del
    · intro x hx
      exact h.entry x (List.mem_of_mem_erase hx)
    · intro x hx
      exact h.device x (List.mem_of_mem_erase hx)

end Remove

/-! ## The component -/

/-- An allocator, with the entries it handed out and did not get back, in the
order in which it handed them out. -/
structure DevHeap (σ : Type) where
  inner : σ
  held : List Nat

/-- The allocator of `E`, with this record. -/
def DevEnv.recorded (E : DevEnv σ) : DevEnv (DevHeap σ) where
  head := E.head
  head_ge := E.head_ge
  head_le := E.head_le
  kmalloc size := do
    let p ← zoom DevHeap.inner (fun i t => { t with inner := i }) (E.kmalloc size)
    if p ≠ 0 then modify fun t => { t with held := t.held ++ [p] }
    return p
  kfree p := do
    zoom DevHeap.inner (fun i t => { t with inner := i }) (E.kfree p)
    modify fun t => { t with held := t.held.erase p }

inductive DevCall where
  | add (d : Nat)
  | remove (d : Nat)
  | setup (d : Nat) (v : Device)

/-- The allocator answers `NULL`, or a block that is not in use. -/
def GrantsEntry (E : DevEnv σ) (t : DevHeap σ) : Prop :=
  match (E.kmalloc entryBytes).run t.inner with
  | .ok e _ => e = 0 ∨ (EntryAt E e ∧ ∀ x ∈ t.held, e + entryBytes ≤ x ∨ x + entryBytes ≤ e)
  | .error _ _ => False

/-- The allocator takes the block at `e` back. -/
def TakesEntry (E : DevEnv σ) (t : DevHeap σ) (e : Nat) : Prop :=
  match (E.kfree e).run t.inner with
  | .ok _ _ => True
  | .error _ _ => False

/-- The device `d` is in the index. -/
def InIndex (s : Devlist (DevHeap σ)) (d : Nat) : Prop := ∃ e ∈ s.env.held, s.dev e = d

/-- The index, from the empty list on. What is added is a device on no bus, or
on one in the index; a device that is not in the index may be changed. -/
def devCalls (E : DevEnv σ) : Machine Stop (Devlist (DevHeap σ)) DevCall where
  init s := s.links.next E.head = E.head ∧ s.links.prev E.head = E.head ∧ s.env.held = []
  legal s
    | .add d => d ≠ 0 ∧ ((s.device d).bus = 0 ∨ InIndex s (s.device d).bus) ∧
        GrantsEntry E s.env
    | .remove _ => ∀ e ∈ s.env.held, TakesEntry E s.env e
    | .setup d _ => ¬ InIndex s d
  step
    | .add d => discard (Devlist.add E.recorded d)
    | .remove d => discard (Devlist.remove E.recorded d)
    | .setup d v => modify fun s => { s with device := update s.device d v }

instance (E : DevEnv σ) (t : DevHeap σ) : Decidable (GrantsEntry E t) := by
  unfold GrantsEntry
  split <;> infer_instance

instance (E : DevEnv σ) (t : DevHeap σ) (e : Nat) : Decidable (TakesEntry E t e) := by
  unfold TakesEntry
  split <;> infer_instance

instance (s : Devlist (DevHeap σ)) (d : Nat) : Decidable (InIndex s d) :=
  inferInstanceAs (Decidable (∃ e ∈ s.env.held, s.dev e = d))

instance (E : DevEnv σ) (s : Devlist (DevHeap σ)) : ∀ c, Decidable ((devCalls E).legal s c)
  | .add _ => inferInstanceAs (Decidable (_ ∧ _ ∧ _))
  | .remove _ => inferInstanceAs (Decidable (∀ e ∈ s.env.held, TakesEntry E s.env e))
  | .setup d _ => inferInstanceAs (Decidable (¬ InIndex s d))

/-! ## The invariant -/

/-- `a` stands before `b`: its device has the smaller number, or the same and
was added first. -/
def Before (s : Devlist (DevHeap σ)) (a b : Nat) : Prop :=
  s.devnoOf a < s.devnoOf b ∨ (s.devnoOf a = s.devnoOf b ∧ [a, b].Sublist s.env.held)

/-- The index has the entries `l`, all of them in their place. -/
structure IndexOk (E : DevEnv σ) (s : Devlist (DevHeap σ)) (l : List Nat) : Prop where
  listed : Listed E.recorded s l
  held : l.Perm s.env.held
  sorted : l.Pairwise (Before s)
  bus : ∀ e ∈ l, s.busOf e = 0 ∨ ∃ x ∈ l, s.dev x = s.busOf e

section Calls

variable {E : DevEnv σ} {s s' : Devlist (DevHeap σ)} {l : List Nat} {d e : Nat} {t : DevHeap σ}

theorem IndexOk.init (h : (devCalls E).init s) : IndexOk E s [] := by
  obtain ⟨hnext, hprev, hheld⟩ := h
  refine ⟨⟨⟨⟨hnext, hprev⟩, List.nodup_singleton _⟩, nofun, nofun⟩, ?_, List.Pairwise.nil, nofun⟩
  rw [hheld]

theorem IndexOk.inIndex_iff (h : IndexOk E s l) : InIndex s d ↔ ∃ e ∈ l, s.dev e = d := by
  constructor
  · intro hi
    obtain ⟨e, he, hd⟩ := hi
    exact ⟨e, h.held.mem_iff.mpr he, hd⟩
  · intro hi
    obtain ⟨e, he, hd⟩ := hi
    exact ⟨e, h.held.mem_iff.mp he, hd⟩

/-- What the allocator can answer. -/
theorem GrantsEntry.cases (h : GrantsEntry E t) :
    (∃ inner, (E.recorded.kmalloc entryBytes).run t = .ok 0 ⟨inner, t.held⟩) ∨
      ∃ e inner, (E.recorded.kmalloc entryBytes).run t = .ok e ⟨inner, t.held ++ [e]⟩ ∧
        EntryAt E e ∧ e ∉ t.held := by
  unfold GrantsEntry at h
  cases hrun : (E.kmalloc entryBytes).run t.inner with
  | error e inner =>
      rw [hrun] at h
      exact absurd h id
  | ok e inner =>
      rw [hrun] at h
      have hcall : (zoom DevHeap.inner (fun i t => { t with inner := i })
          (E.kmalloc entryBytes)).run t = .ok e ⟨inner, t.held⟩ := run_zoom_ok hrun
      have hrec : (E.recorded.kmalloc entryBytes).run t =
          (do if e ≠ 0 then modify fun t => { t with held := t.held ++ [e] }
              return e : EStateM Stop (DevHeap σ) Nat).run ⟨inner, t.held⟩ :=
        run_bind_ok hcall
      rcases h with rfl | ⟨hentry, hapart⟩
      · exact Or.inl ⟨inner, hrec⟩
      · refine Or.inr ⟨e, inner, ?_, hentry, ?_⟩
        · rw [hrec, if_pos (by have := hentry.1; omega)]
          rfl
        · intro hmem
          have hself := hapart e hmem
          simp only [entryBytes] at hself
          omega

theorem TakesEntry.run (h : TakesEntry E t e) :
    ∃ inner, (E.recorded.kfree e).run t = .ok () ⟨inner, t.held.erase e⟩ := by
  unfold TakesEntry at h
  cases hrun : (E.kfree e).run t.inner with
  | error e inner =>
      rw [hrun] at h
      exact absurd h id
  | ok u inner =>
      have hcall : (zoom DevHeap.inner (fun i t => { t with inner := i }) (E.kfree e)).run t =
          .ok () ⟨inner, t.held⟩ := run_zoom_ok hrun
      exact ⟨inner, run_bind_ok hcall⟩

/-- One more element keeps a list sorted where all before it are smaller, and
all behind it larger. -/
theorem pairwise_insert {α : Type} {R : α → α → Prop} {l₁ l₂ : List α} {x : α}
    (h : (l₁ ++ l₂).Pairwise R) (hlow : ∀ a ∈ l₁, R a x) (hhigh : ∀ b ∈ l₂, R x b) :
    (l₁ ++ x :: l₂).Pairwise R := by
  obtain ⟨h₁, h₂, h₁₂⟩ := List.pairwise_append.mp h
  refine List.pairwise_append.mpr ⟨h₁, List.pairwise_cons.mpr ⟨hhigh, h₂⟩, ?_⟩
  intro a ha b hb
  rcases List.mem_cons.mp hb with rfl | hb
  · exact hlow a ha
  · exact h₁₂ a ha b hb

/-- The entries from the first one with a number past `n` on. -/
theorem IndexOk.lt_of_mem_dropWhile (h : IndexOk E s l) {n : Nat} :
    ∀ x ∈ l.dropWhile (fun x => decide (s.devnoOf x ≤ n)), n < s.devnoOf x := by
  intro x hx
  cases hdrop : l.dropWhile fun x => decide (s.devnoOf x ≤ n) with
  | nil =>
      rw [hdrop] at hx
      cases hx
  | cons y l₂ =>
      -- The first of them is past the number, and the others are behind it.
      have hy : n < s.devnoOf y := by
        have hhead := List.head?_dropWhile_not (fun x => decide (s.devnoOf x ≤ n)) l
        rw [hdrop] at hhead
        simpa using hhead
      rw [hdrop] at hx
      rcases List.mem_cons.mp hx with rfl | hx
      · exact hy
      · have hsort := h.sorted
        rw [← List.takeWhile_append_dropWhile (p := fun x => decide (s.devnoOf x ≤ n)) (l := l),
          hdrop] at hsort
        have hyx := (List.pairwise_cons.mp (List.pairwise_append.mp hsort).2.1).1 x hx
        rcases hyx with hlt | ⟨heq, _⟩ <;> omega

/-- The entries found by a loop up to a device number come before the new
one, the others after it. -/
theorem IndexOk.insert (h : IndexOk E s l) (he : e ∉ l)
    (hheld : s'.env.held = s.env.held ++ [e]) (hdev : s'.dev = update s.dev e d)
    (hdevice : s'.device = s.device)
    (hbus : (s.device d).bus = 0 ∨ ∃ x ∈ l, s.dev x = (s.device d).bus)
    (hlisted : Listed E.recorded s' (l.takeWhile (fun x => decide (s.devnoOf x ≤ (s.device d).devno)) ++
      e :: l.dropWhile fun x => decide (s.devnoOf x ≤ (s.device d).devno))) :
    ∃ l', IndexOk E s' l' := by
  have hold : ∀ x ∈ l, s'.dev x = s.dev x := by
    intro x hx
    have hxe : x ≠ e := fun hxe => he (hxe ▸ hx)
    rw [hdev, update_of_ne hxe]
  have hno : ∀ x ∈ l, s'.devnoOf x = s.devnoOf x := by
    intro x hx
    rw [Devlist.devnoOf, hold x hx, hdevice]
    rfl
  have hnew : s'.dev e = d := by rw [hdev, update_self]
  have hnoe : s'.devnoOf e = (s.device d).devno := by rw [Devlist.devnoOf, hnew, hdevice]
  have hlast : ∀ x ∈ l, [x, e].Sublist s'.env.held := by
    intro x hx
    rw [hheld]
    exact (List.singleton_sublist.mpr (h.held.mem_iff.mp hx)).append (List.Sublist.refl [e])
  have hbefore : ∀ a ∈ l, ∀ b ∈ l, Before s a b → Before s' a b := by
    intro a ha b hb hab
    rw [Before, hno a ha, hno b hb]
    rcases hab with hlt | ⟨heq, hsub⟩
    · exact Or.inl hlt
    · exact Or.inr ⟨heq, hheld ▸ hsub.trans (List.sublist_append_left _ _)⟩
  have hsplit := List.takeWhile_append_dropWhile
    (p := fun x => decide (s.devnoOf x ≤ (s.device d).devno)) (l := l)
  have hlow : ∀ x ∈ l.takeWhile (fun x => decide (s.devnoOf x ≤ (s.device d).devno)),
      s.devnoOf x ≤ (s.device d).devno := by
    intro x hx
    simpa using List.all_eq_true.mp List.all_takeWhile x hx
  refine ⟨_, hlisted, ?_, ?_, ?_⟩
  · rw [hheld]
    refine List.perm_middle.trans ?_
    rw [hsplit]
    exact ((h.held.cons e).trans (List.perm_append_singleton e _).symm)
  · have hsort : l.Pairwise (Before s') :=
      h.sorted.imp_of_mem fun ha hb hab => hbefore _ ha _ hb hab
    rw [← hsplit] at hsort
    refine pairwise_insert hsort ?_ ?_
    · intro a ha
      have hal := (List.takeWhile_sublist _).subset ha
      rw [Before, hnoe, hno a hal]
      rcases Nat.lt_or_eq_of_le (hlow a ha) with hlt | heq
      · exact Or.inl hlt
      · exact Or.inr ⟨heq, hlast a hal⟩
    · intro b hb
      rw [Before, hnoe, hno b ((List.dropWhile_sublist _).subset hb)]
      exact Or.inl (h.lt_of_mem_dropWhile b hb)
  · have hmem : ∀ x, x ∈ l.takeWhile (fun x => decide (s.devnoOf x ≤ (s.device d).devno)) ++
        e :: l.dropWhile (fun x => decide (s.devnoOf x ≤ (s.device d).devno)) ↔ x = e ∨ x ∈ l := by
      intro x
      rw [List.perm_middle.mem_iff, List.mem_cons, hsplit]
    intro x hx
    rcases (hmem x).mp hx with rfl | hx
    · rw [Devlist.busOf, hnew, hdevice]
      rcases hbus with hbus | ⟨y, hy, hyd⟩
      · exact Or.inl hbus
      · exact Or.inr ⟨y, (hmem y).mpr (Or.inr hy), (hold y hy).trans hyd⟩
    · have hsame : s'.busOf x = s.busOf x := by
        rw [Devlist.busOf, hold x hx, hdevice]
        rfl
      rw [hsame]
      rcases h.bus x hx with hbus | ⟨y, hy, hyd⟩
      · exact Or.inl hbus
      · exact Or.inr ⟨y, (hmem y).mpr (Or.inr hy), (hold y hy).trans hyd⟩

/-- An entry goes whose device is nobody's bus. -/
theorem IndexOk.erase (h : IndexOk E s l) (hnobus : ∀ x ∈ l, s.busOf x ≠ s.dev e)
    (hheld : s'.env.held = s.env.held.erase e) (hdev : s'.dev = s.dev)
    (hdevice : s'.device = s.device) (hlisted : Listed E.recorded s' (l.erase e)) :
    IndexOk E s' (l.erase e) := by
  have hno : ∀ x, s'.devnoOf x = s.devnoOf x := by
    intro x
    rw [Devlist.devnoOf, hdev, hdevice]
    rfl
  have hbusOf : ∀ x, s'.busOf x = s.busOf x := by
    intro x
    rw [Devlist.busOf, hdev, hdevice]
    rfl
  have hne : ∀ x ∈ l.erase e, x ≠ e := by
    intro x hx hxe
    exact h.listed.nodup.not_mem_erase (hxe ▸ hx)
  refine ⟨hlisted, ?_, ?_, ?_⟩
  · rw [hheld]
    exact h.held.erase e
  · refine (h.sorted.sublist List.erase_sublist).imp_of_mem ?_
    intro a b ha hb hab
    rw [Before, hno, hno, hheld]
    rcases hab with hlt | ⟨heq, hsub⟩
    · exact Or.inl hlt
    · refine Or.inr ⟨heq, ?_⟩
      have hpair := hsub.erase e
      rw [List.erase_of_not_mem] at hpair
      · exact hpair
      · intro hmem
        rcases List.mem_cons.mp hmem with hea | hmem
        · exact hne a ha hea.symm
        · exact hne b hb (List.mem_singleton.mp hmem).symm
  · intro x hx
    rw [hbusOf, hdev]
    rcases h.bus x (List.mem_of_mem_erase hx) with hbus | ⟨y, hy, hyd⟩
    · exact Or.inl hbus
    · refine Or.inr ⟨y, (List.mem_erase_of_ne ?_).mpr hy, hyd⟩
      intro hye
      exact hnobus x (List.mem_of_mem_erase hx) (hye ▸ hyd.symm)

/-- What `dev_add` does: nothing, or the index has one entry more. -/
theorem IndexOk.add (h : IndexOk E s l) (hl : (devCalls E).legal s (.add d)) :
    ∃ ret s', (Devlist.add E.recorded d).run s = .ok ret s' ∧
      ((ret = -1 ∧ ∃ env, s' = { s with env := ⟨env, s.env.held⟩ }) ∨
        (ret = 0 ∧ ∃ l', IndexOk E s' l')) := by
  obtain ⟨hd, hbus, hgrant⟩ := hl
  rw [h.inIndex_iff] at hbus
  rcases hgrant.cases with ⟨inner, hk⟩ | ⟨e, inner, hk, hentry, hnew⟩
  · exact ⟨-1, _, add_failed hk, Or.inl ⟨rfl, inner, rfl⟩⟩
  · have hel : e ∉ l := mt h.held.mem_iff.mp hnew
    have hentry' : EntryAt E.recorded e := hentry
    obtain ⟨s', hrun, henv, hdev, hdevice, hlisted⟩ := h.listed.add hd hentry' hel hk
    refine ⟨0, s', hrun, Or.inr ⟨rfl, ?_⟩⟩
    exact h.insert hel (by rw [henv]) hdev hdevice hbus hlisted

/-- What `dev_remove` does: it refuses, or the index has one entry for the
device less. -/
theorem IndexOk.remove (h : IndexOk E s l) (hl : (devCalls E).legal s (.remove d)) :
    ((¬ InIndex s d ∨ ∃ e ∈ l, s.busOf e = d) ∧
        (Devlist.remove E.recorded d).run s = .ok (-1) s) ∨
      ((InIndex s d ∧ ∀ e ∈ l, s.busOf e ≠ d) ∧ ∃ e ∈ l, s.dev e = d ∧
        ∃ s', (Devlist.remove E.recorded d).run s = .ok 0 s' ∧ s'.dev = s.dev ∧
          s'.device = s.device ∧ IndexOk E s' (l.erase e)) := by
  by_cases hbus : ∃ e ∈ l, s.busOf e = d
  · exact Or.inl ⟨Or.inr hbus, h.listed.remove_refused (Or.inl hbus)⟩
  · by_cases hin : InIndex s d
    · have hnobus : ∀ e ∈ l, s.busOf e ≠ d := fun e he hed => hbus ⟨e, he, hed⟩
      have hfree : ∀ e ∈ l, ∃ env, (E.recorded.kfree e).run s.env = .ok () env := by
        intro e he
        obtain ⟨inner, hrun⟩ := TakesEntry.run (hl e (h.held.mem_iff.mp he))
        exact ⟨_, hrun⟩
      obtain ⟨e, he, hed, s', hrun, hkfree, hdev, hdevice, hlisted⟩ :=
        h.listed.remove_done hnobus (h.inIndex_iff.mp hin) hfree
      refine Or.inr ⟨⟨hin, hnobus⟩, e, he, hed, s', hrun, hdev, hdevice, ?_⟩
      obtain ⟨inner, hrun'⟩ := TakesEntry.run (hl e (h.held.mem_iff.mp he))
      rw [hrun'] at hkfree
      injection hkfree with _ henv
      exact h.erase (fun x hx => hed ▸ hnobus x hx) (by rw [← henv]) hdev hdevice hlisted
    · refine Or.inl ⟨Or.inl hin, h.listed.remove_refused (Or.inr ?_)⟩
      intro e he hed
      exact hin (h.inIndex_iff.mpr ⟨e, he, hed⟩)

/-- A device that is not in the index is nothing to it. -/
theorem IndexOk.setup {v : Device} (h : IndexOk E s l) (hl : ¬ InIndex s d) :
    IndexOk E { s with device := update s.device d v } l := by
  have hsame : ∀ e ∈ l, update s.device d v (s.dev e) = s.device (s.dev e) := by
    intro e he
    refine update_of_ne ?_ _ _
    exact fun hed => hl (h.inIndex_iff.mpr ⟨e, he, hed⟩)
  refine ⟨⟨h.listed.ring, h.listed.entry, h.listed.device⟩, h.held, ?_, ?_⟩
  · refine h.sorted.imp_of_mem ?_
    intro a b ha hb hab
    simp only [Before, Devlist.devnoOf] at hab ⊢
    rw [hsame a ha, hsame b hb]
    exact hab
  · intro e he
    have hbus := h.bus e he
    simp only [Devlist.busOf] at hbus ⊢
    rw [hsame e he]
    exact hbus

end Calls

theorem index_invariant (E : DevEnv σ) :
    (devCalls E).Invariant fun s => ∃ l, IndexOk E s l where
  init s hs := ⟨[], IndexOk.init hs⟩
  step s c hs hl := by
    obtain ⟨l, h⟩ := hs
    cases c with
    | add d =>
        obtain ⟨ret, s', hrun, hret⟩ := h.add hl
        have hstep : ((devCalls E).step (.add d)).run s = .ok () s' := run_discard_ok hrun
        refine ⟨s', hstep, ?_⟩
        rcases hret with ⟨_, env, rfl⟩ | ⟨_, hok⟩
        · exact ⟨l, ⟨h.listed.ring, h.listed.entry, h.listed.device⟩, h.held, h.sorted, h.bus⟩
        · exact hok
    | remove d =>
        rcases h.remove hl with ⟨_, hrun⟩ | ⟨_, e, _, _, s', hrun, _, _, hok⟩
        · have hstep : ((devCalls E).step (.remove d)).run s = .ok () s := run_discard_ok hrun
          exact ⟨s, hstep, l, h⟩
        · have hstep : ((devCalls E).step (.remove d)).run s = .ok () s' := run_discard_ok hrun
          exact ⟨s', hstep, _, hok⟩
    | setup d v => exact ⟨_, rfl, l, h.setup hl⟩

/-! ## What the calls answer -/

/-- The list has the entries `l`, with the same devices as in `s`. -/
def SameList (E : DevEnv σ) (s s' : Devlist (DevHeap σ)) (l : List Nat) : Prop :=
  Ring s'.links E.head (l.map nodeOf) ∧ ∀ e ∈ l, s'.dev e = s.dev e

/-- What every call answers in the state `s`, when the list has the entries
`l`. -/
structure AnswersOk (E : DevEnv σ) (s : Devlist (DevHeap σ)) (l : List Nat) : Prop where
  add : ∀ d, (devCalls E).legal s (.add d) →
    ∃ ret s', (Devlist.add E.recorded d).run s = .ok ret s' ∧
      (ret = 0 ∨ (ret = -1 ∧ SameList E s s' l))
  remove : ∀ d, (devCalls E).legal s (.remove d) →
    ∃ ret s', (Devlist.remove E.recorded d).run s = .ok ret s' ∧
      (ret = 0 ↔ InIndex s d ∧ ∀ e ∈ l, s.busOf e ≠ d) ∧
      ((ret = 0 ∧ ∃ e ∈ l, s.dev e = d ∧ SameList E s s' (l.erase e)) ∨
        (ret = -1 ∧ SameList E s s' l))
  fromId : ∀ devno, (Devlist.fromId E.recorded devno).run s =
    .ok (((l.map s.dev).find? fun d => (s.device d).devno = devno).getD 0) s
  fromId_null : ∀ devno, (Devlist.fromId E.recorded devno).run s = .ok 0 s ↔
    ∀ d, InIndex s d → (s.device d).devno ≠ devno
  fromName : ∀ name, (Devlist.fromName E.recorded name).run s =
    .ok (((l.map s.dev).find? fun d => (s.device d).name = name).getD 0) s
  fromName_null : ∀ name, (Devlist.fromName E.recorded name).run s = .ok 0 s ↔
    ∀ d, InIndex s d → (s.device d).name ≠ name

variable {s : Devlist (DevHeap σ)}

/-- `NULL` is the answer only when there is no such device. -/
theorem IndexOk.firstDevice_eq_zero (h : IndexOk E s l) (p : Device → Bool) :
    firstDevice s l p = 0 ↔ ∀ d, InIndex s d → p (s.device d) = false := by
  have hmem : ∀ d, InIndex s d ↔ d ∈ l.map s.dev := by
    intro d
    rw [h.inIndex_iff, List.mem_map]
  rw [firstDevice]
  cases hfind : (l.map s.dev).find? fun d => p (s.device d) with
  | none =>
      rw [List.find?_eq_none] at hfind
      refine ⟨fun _ d hd => ?_, fun _ => rfl⟩
      simpa using hfind d ((hmem d).mp hd)
  | some d =>
      have hd := (hmem d).mpr (List.mem_of_find?_eq_some hfind)
      have hp : p (s.device d) = true := by simpa using List.find?_some hfind
      constructor
      · intro h0
        obtain ⟨e, he, hed⟩ := h.inIndex_iff.mp hd
        exact absurd (hed.trans h0) (h.listed.device e he)
      · intro hall
        exact absurd hp (by rw [hall d hd]; decide)

theorem run_ok_iff {τ α : Type} {x : EStateM Stop τ α} {t : τ} {a b : α}
    (h : x.run t = .ok a t) : x.run t = .ok b t ↔ a = b := by
  rw [h, EStateM.Result.ok.injEq]
  exact and_iff_left rfl

theorem IndexOk.answers (h : IndexOk E s l) :
    AnswersOk E s l where
  add d hl := by
    obtain ⟨ret, s', hrun, hret⟩ := h.add hl
    refine ⟨ret, s', hrun, ?_⟩
    rcases hret with ⟨hret, env, rfl⟩ | ⟨hret, _⟩
    · exact Or.inr ⟨hret, h.listed.ring, fun e he => rfl⟩
    · exact Or.inl hret
  remove d hl := by
    rcases h.remove hl with ⟨hno, hrun⟩ | ⟨hyes, e, he, hed, s', hrun, hdev, _, hok⟩
    · refine ⟨-1, s, hrun, ⟨fun h0 => absurd h0 (by decide), fun hyes => ?_⟩,
        Or.inr ⟨rfl, h.listed.ring, fun e he => rfl⟩⟩
      rcases hno with hin | ⟨e, he, hed⟩
      · exact absurd hyes.1 hin
      · exact absurd hed (hyes.2 e he)
    · exact ⟨0, s', hrun, ⟨fun _ => hyes, fun _ => rfl⟩,
        Or.inl ⟨rfl, e, he, hed, hok.listed.ring, fun x hx => by rw [hdev]⟩⟩
  fromId devno := h.listed.fromId devno
  fromId_null devno := by
    rw [run_ok_iff (h.listed.fromId devno), h.firstDevice_eq_zero]
    simp only [decide_eq_false_iff_not, ne_eq]
  fromName name := h.listed.fromName name
  fromName_null name := by
    rw [run_ok_iff (h.listed.fromName name), h.firstDevice_eq_zero]
    simp only [decide_eq_false_iff_not, ne_eq]

/-- In every state of the index the list is in order and no bus is missing,
and every call returns with the right answer. -/
theorem devlist_run_ok {E : DevEnv σ} {s : Devlist (DevHeap σ)}
    (h : (devCalls E).Reachable s) :
    ∃ l, IndexOk E s l ∧ AnswersOk E s l ∧ (devCalls E).Returns s := by
  obtain ⟨l, hok⟩ := Machine.reachable_of_inv (index_invariant E) h
  exact ⟨l, hok, hok.answers, (index_invariant E).returns ⟨l, hok⟩⟩

/-- An allocator that hands out one block after the other. -/
def bumpDevEnv : DevEnv Nat where
  head := 0x1000
  head_ge := by decide
  head_le := by decide
  kmalloc size := do
    let p ← get
    set (p + size)
    return p
  kfree _ := return ()

/-- The empty list, with the device `1` a bus and all others on it. -/
def noDevices : Devlist (DevHeap Nat) where
  env := ⟨0x2000, []⟩
  links := ⟨fun _ => 0x1000, fun _ => 0x1000⟩
  dev := fun _ => 0
  device := fun d => if d = 1 then ⟨.ofString "bus", 9, 0⟩ else ⟨.ofString "disk", 4, 1⟩

theorem noDevices_reachable : (devCalls bumpDevEnv).Reachable noDevices := .init ⟨rfl, rfl, rfl⟩

/-- A bus and two devices on it. The bus is not removed, the first of the
devices is. -/
theorem devlist_run_ok_bus : ∃ s, (devCalls bumpDevEnv).Reachable s ∧
    s.env.held = [0x2000, 0x2020] ∧
    ∃ l, IndexOk bumpDevEnv s l ∧ AnswersOk bumpDevEnv s l ∧ (devCalls bumpDevEnv).Returns s := by
  obtain ⟨s, hreach, hsh⟩ := noDevices_reachable.sees
    [.add 1, .add 2, .add 3, .remove 1, .remove 2] (fun s => s.env.held) [0x2000, 0x2020]
    (by decide +kernel) (by decide +kernel)
  exact ⟨s, hreach, hsh, devlist_run_ok hreach⟩

end Aim.Kern
