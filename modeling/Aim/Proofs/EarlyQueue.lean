import Aim.Kern.EarlyKmmap
import Aim.Lib.Ends

/-!
# Overlaps in the queue of early mappings

`early_mapping_add` refuses an entry that `OVERLAP`s a queued one. The test
compares the starts strictly both ways, so it finds every overlap of two
ranges but two: ranges with the same start, of which neither is larger, and a
range that ends at the top of the address space, whose end is computed as 0
(`overlap_of_meet`). Entries that avoid the two keep the queue free of
overlaps, in every run.
-/

namespace Aim.Kern

open Aim.Lib

/-! ## The component -/

inductive EarlyCall where
  | clear
  | add (entry : EarlyMapping)
  | addMemory (base size : Nat)
  | addKmmap (base size : Nat)

/-- The queue from the zeroes of the static variables on. -/
def earlyCalls (K : KmmapLayout) : Machine Stop EarlyQueue EarlyCall where
  init s := s = ⟨[], 0, 0⟩
  legal _ _ := True
  step
    | .clear => earlyMappingClear K
    | .add entry => discard (earlyMappingAdd K entry)
    | .addMemory base size => discard (earlyMappingAddMemory K base size)
    | .addKmmap base size => discard (earlyMappingAddKmmap K base size)

/-- The range is not empty and does not go past the address space. -/
def EarlyMapping.Sound (e : EarlyMapping) : Prop := 0 < e.size ∧ e.vaddr + e.size ≤ 2 ^ 32

/-- The virtual ranges of two entries have no address in common. -/
def EarlyMapping.Apart (a b : EarlyMapping) : Prop :=
  ∀ v, ¬ ((a.vaddr ≤ v ∧ v < a.vaddr + a.size) ∧ b.vaddr ≤ v ∧ v < b.vaddr + b.size)

/-- The ranges of the queue are pairwise disjoint. -/
def RangesApart (s : EarlyQueue) : Prop :=
  s.queue.Pairwise fun a b => a.Sound → b.Sound → a.Apart b

/-- No queued entry starts at `v`. -/
def NewStart (s : EarlyQueue) (v : Nat) : Prop := ∀ q ∈ s.queue, q.vaddr ≠ v

/-- A call adds at a new start, and not up to the top of the address space. -/
def AddsApart (s : EarlyQueue) : EarlyCall → Prop
  | .clear => True
  | .add entry => NewStart s entry.vaddr ∧ entry.vaddr + entry.size ≠ 2 ^ 32
  | .addMemory _ _ => NewStart s s.memTop
  | .addKmmap _ _ => NewStart s s.kmmapTop

instance (s : EarlyQueue) (v : Nat) : Decidable (NewStart s v) :=
  inferInstanceAs (Decidable (∀ q ∈ s.queue, q.vaddr ≠ v))

instance (s : EarlyQueue) : ∀ c, Decidable (AddsApart s c)
  | .clear => inferInstanceAs (Decidable True)
  | .add _ => inferInstanceAs (Decidable (_ ∧ _))
  | .addMemory _ _ => inferInstanceAs (Decidable (NewStart s s.memTop))
  | .addKmmap _ _ => inferInstanceAs (Decidable (NewStart s s.kmmapTop))

instance (K : KmmapLayout) (s : EarlyQueue) (c : EarlyCall) :
    Decidable (((earlyCalls K).restrict AddsApart).legal s c) :=
  inferInstanceAs (Decidable (True ∧ AddsApart s c))

/-! ## The test -/

/-- Two ranges that meet and start apart are found to overlap, unless one of
them ends at the top. -/
theorem overlap_of_meet {a b : EarlyMapping} (ha : a.Sound) (hb : b.Sound)
    (htopa : a.vaddr + a.size ≠ 2 ^ 32) (htopb : b.vaddr + b.size ≠ 2 ^ 32)
    (hstart : b.vaddr ≠ a.vaddr) (h : overlap a.vaddr a.size b.vaddr b.size = false) :
    b.Apart a := by
  obtain ⟨_, ha⟩ := ha
  obtain ⟨_, hb⟩ := hb
  rw [overlap, Nat.mod_eq_of_lt (by omega), Nat.mod_eq_of_lt (by omega)] at h
  simp only [Bool.or_eq_false_iff, Bool.and_eq_false_iff, decide_eq_false_iff_not] at h
  obtain ⟨hab, hba⟩ := h
  intro v hv
  omega

/-! ## The calls -/

variable {K : KmmapLayout} {s : EarlyQueue} {entry : EarlyMapping}

/-- What `early_mapping_add` does: it refuses, for one of three reasons, or the entry
stands at the end of the queue and overlaps none of the others. -/
theorem earlyMappingAdd_cases (entry : EarlyMapping) (hlen : s.queue.length ≤ earlyQueueLength) :
    (∃ ret, ret < 0 ∧ (earlyMappingAdd K entry).run s = .ok ret s ∧
      (s.queue.length = earlyQueueLength ∨ K.valid entry = false ∨
        ∃ q ∈ s.queue, overlap entry.vaddr entry.size q.vaddr q.size = true)) ∨
      (s.queue.length < earlyQueueLength ∧
        (∀ q ∈ s.queue, overlap entry.vaddr entry.size q.vaddr q.size = false) ∧
        (earlyMappingAdd K entry).run s = .ok 0 { s with queue := s.queue ++ [entry] }) := by
  have hassert : (earlyMappingAdd K entry).run s =
      (if s.queue.length = earlyQueueLength then return -enomem
        else if !K.valid entry then return -einval
        else if s.queue.any fun q => overlap entry.vaddr entry.size q.vaddr q.size then
          return -einval
        else do
          set { s with queue := s.queue ++ [entry] }
          return 0 : EStateM Stop EarlyQueue Int).run s := by
    rw [earlyMappingAdd, run_bind_ok (EStateM.run_get _), require, decide_eq_true hlen]
    rfl
  rw [hassert]
  by_cases hfull : s.queue.length = earlyQueueLength
  · rw [if_pos hfull]
    exact Or.inl ⟨-enomem, by decide, rfl, .inl hfull⟩
  · rw [if_neg hfull]
    cases hvalid : K.valid entry with
    | false => exact Or.inl ⟨-einval, by decide, rfl, .inr (.inl rfl)⟩
    | true =>
        cases hany : s.queue.any fun q => overlap entry.vaddr entry.size q.vaddr q.size with
        | true =>
            exact Or.inl ⟨-einval, by decide, rfl, .inr (.inr (List.any_eq_true.mp hany))⟩
        | false =>
            refine Or.inr ⟨by omega, ?_, rfl⟩
            intro q hq
            simpa using List.any_eq_false.mp hany q hq

/-- The invariant of a run of calls that add apart. -/
structure QueueInv (s : EarlyQueue) : Prop where
  length : s.queue.length ≤ earlyQueueLength
  apart : RangesApart s
  top : ∀ q ∈ s.queue, q.vaddr + q.size ≠ 2 ^ 32

theorem QueueInv.append {s s' : EarlyQueue} (h : QueueInv s)
    (hlen : s.queue.length < earlyQueueLength)
    (hover : ∀ q ∈ s.queue, overlap entry.vaddr entry.size q.vaddr q.size = false)
    (hstart : NewStart s entry.vaddr) (htop : entry.vaddr + entry.size ≠ 2 ^ 32)
    (hs' : s'.queue = s.queue ++ [entry]) : QueueInv s' := by
  refine ⟨?_, ?_, ?_⟩
  · rw [hs', List.length_append, List.length_singleton]
    omega
  · rw [RangesApart, hs', List.pairwise_append]
    refine ⟨h.apart, List.pairwise_singleton _ _, ?_⟩
    intro q hq e he
    obtain rfl := List.mem_singleton.mp he
    intro hqs hes
    exact overlap_of_meet hes hqs htop (h.top q hq) (hstart q hq) (hover q hq)
  · intro q hq
    rw [hs'] at hq
    rcases List.mem_append.mp hq with hq | hq
    · exact h.top q hq
    · rw [List.mem_singleton.mp hq]
      exact htop

theorem QueueInv.same {s s' : EarlyQueue} (h : QueueInv s) (hs' : s'.queue = s.queue) :
    QueueInv s' := by
  obtain ⟨hlen, hapart, htop⟩ := h
  rw [← hs'] at hlen htop
  rw [RangesApart, ← hs'] at hapart
  exact ⟨hlen, hapart, htop⟩

theorem earlyMappingAdd_ends (h : QueueInv s) (hstart : NewStart s entry.vaddr)
    (htop : entry.vaddr + entry.size ≠ 2 ^ 32) :
    Ends True (earlyMappingAdd K entry) s fun _ s' => QueueInv s' := by
  rcases earlyMappingAdd_cases (K := K) entry h.length with
    ⟨ret, _, hadd, _⟩ | ⟨hlen, hover, hadd⟩
  · exact ends_of_ok hadd h
  · exact ends_of_ok hadd (h.append hlen hover hstart htop rfl)

/-- The end of the two calls that add at a top: the top moves if the entry stands in
the queue. -/
theorem earlyMappingAdd_move_ends {move : EarlyQueue → EarlyQueue}
    (hmove : ∀ s, (move s).queue = s.queue) (result : Nat) (h : QueueInv s)
    (hstart : NewStart s entry.vaddr) (htop : entry.vaddr + entry.size ≠ 2 ^ 32) :
    Ends True (do
      let ret ← earlyMappingAdd K entry
      if ret < 0 then return 0
      else
        modify move
        return result) s fun _ s' => QueueInv s' := by
  refine (earlyMappingAdd_ends h hstart htop).bind ?_
  intro ret s' hs'
  by_cases hret : ret < 0
  · rw [if_pos hret]
    exact ends_pure hs'
  · rw [if_neg hret]
    exact ends_modify_bind (ends_pure (hs'.same (hmove s')))

theorem earlyMappingAddMemory_ends {base size : Nat} (h : QueueInv s)
    (hstart : NewStart s s.memTop) :
    Ends True (earlyMappingAddMemory K base size) s fun _ s' => QueueInv s' := by
  rw [earlyMappingAddMemory]
  refine ends_get_bind ?_
  by_cases hfull : s.memTop ≥ K.kmmapBase
  · rw [if_pos hfull]
    exact ends_pure h
  · rw [if_neg hfull]
    -- The size is cut down to what is left below `KMMAP_BASE`.
    have hlt := K.kmmap_lt
    have hcut : s.memTop + (if size > K.kmmapBase - s.memTop then K.kmmapBase - s.memTop
        else size) ≠ 2 ^ 32 := by
      split <;> omega
    refine earlyMappingAdd_move_ends ?_ _ h hstart hcut
    exact fun _ => rfl

theorem earlyMappingAddKmmap_ends {base size : Nat} (h : QueueInv s)
    (hstart : NewStart s s.kmmapTop) :
    Ends True (earlyMappingAddKmmap K base size) s fun _ s' => QueueInv s' := by
  rw [earlyMappingAddKmmap]
  refine ends_get_bind ?_
  by_cases hfull : s.kmmapTop ≥ K.reservedBase
  · rw [if_pos hfull]
    exact ends_pure h
  · rw [if_neg hfull]
    by_cases hlarge : size > K.reservedBase - s.kmmapTop
    · rw [if_pos hlarge]
      exact ends_pure h
    · rw [if_neg hlarge]
      have hlt := K.reserved_lt
      refine earlyMappingAdd_move_ends ?_ _ h hstart (by simp only; omega)
      exact fun _ => rfl

theorem earlyCalls_ends {c : EarlyCall} (h : QueueInv s) (hc : AddsApart s c) :
    Ends True ((earlyCalls K).step c) s fun _ s' => QueueInv s' := by
  cases c with
  | clear => exact ends_modify ⟨Nat.zero_le _, List.Pairwise.nil, nofun⟩
  | add entry => exact ends_discard (earlyMappingAdd_ends h hc.1 hc.2)
  | addMemory base size => exact ends_discard (earlyMappingAddMemory_ends h hc)
  | addKmmap base size => exact ends_discard (earlyMappingAddKmmap_ends h hc)

/-- In every run of calls that add apart the ranges of the queue are pairwise
disjoint. -/
theorem earlyQueue_apart {K : KmmapLayout} {s : EarlyQueue}
    (h : ((earlyCalls K).restrict AddsApart).Reachable s) : RangesApart s := by
  have hinv : QueueInv s := by
    refine Machine.reachable_of_kept ?_ ?_ h
    · intro s hs
      rw [show s = ⟨[], 0, 0⟩ from hs]
      exact ⟨Nat.zero_le _, List.Pairwise.nil, nofun⟩
    · intro s c s' hs hl hrun
      exact (earlyCalls_ends hs hl.2).of_run hrun
  exact hinv.apart

/-- The default layout on i386. -/
def i386Layout : KmmapLayout where
  kernBase := 0x80000000
  kmmapBase := 0xf0000000
  reservedBase := 0xfffff000
  kmmap_lt := by decide
  reserved_lt := by decide
  valid _ := true

/-- Memory and a device, mapped one after the other. -/
theorem earlyQueue_apart_two : ∃ s, ((earlyCalls i386Layout).restrict AddsApart).Reachable s ∧
    s.queue.length = 2 ∧ RangesApart s := by
  have hinit : ((earlyCalls i386Layout).restrict AddsApart).Reachable ⟨[], 0, 0⟩ := .init rfl
  obtain ⟨s, hreach, hsl⟩ := hinit.sees
    [.clear, .addMemory 0 0x10000000, .addKmmap 0xfee00000 0x1000] (fun s => s.queue.length) 2
    (by decide +kernel) (by decide +kernel)
  exact ⟨s, hreach, hsl, earlyQueue_apart hreach⟩

/-- The same entry twice is accepted twice. -/
theorem earlyQueue_twice : ∃ s, (earlyCalls i386Layout).Reachable s ∧
    s.queue = [⟨0, 0x80000000, 0x1000, .other⟩, ⟨0, 0x80000000, 0x1000, .other⟩] ∧
    ¬ RangesApart s := by
  have hinit : (earlyCalls i386Layout).Reachable ⟨[], 0, 0⟩ := .init rfl
  obtain ⟨s, hreach, hsq⟩ := hinit.sees [.clear, .add ⟨0, 0x80000000, 0x1000, .other⟩,
      .add ⟨0, 0x80000000, 0x1000, .other⟩] EarlyQueue.queue
    [⟨0, 0x80000000, 0x1000, .other⟩, ⟨0, 0x80000000, 0x1000, .other⟩]
    ⟨trivial, trivial, trivial, trivial⟩ (by decide +kernel)
  refine ⟨s, hreach, hsq, ?_⟩
  intro hapart
  rw [RangesApart, hsq, List.pairwise_cons] at hapart
  have hsound : (⟨0, 0x80000000, 0x1000, .other⟩ : EarlyMapping).Sound := by
    unfold EarlyMapping.Sound
    decide
  exact hapart.1 _ List.mem_cons_self hsound hsound 0x80000000 (by decide)

end Aim.Kern
