import Aim.Proofs.EarlyQueue

/-!
# The windows of the early mappings

`early_mapping_add_memory` and `early_mapping_add_kmmap` each hand out a window of
the address space from its start on: from `KERN_BASE` to `KMMAP_BASE`, and from
there to `RESERVED_BASE`. Between them the entries of either kind lie one behind the
other (`Tiles`), so a new one, at the top of its window, is behind all others of its
kind, and the other kind is in the other window: the test for overlaps finds nothing.

What a call does then depends on the length of the queue and the room in its window
alone (`earlyMappingAddMemory_eq`, `earlyMappingAddKmmap_eq`). `early_mapping_valid`
accepts every entry, as it does on the architectures there are.
-/

namespace Aim.Kern

open Aim.Lib

/-! ## The component -/

inductive WindowCall where
  | memory (base size : Nat)
  | kmmap (base size : Nat)

/-- The two calls, from a cleared queue on. -/
def windowCalls (K : KmmapLayout) : Machine Stop EarlyQueue WindowCall where
  init s := ∃ s₀, (earlyMappingClear K).run s₀ = .ok () s
  legal _ _ := True
  step
    | .memory base size => discard (earlyMappingAddMemory K base size)
    | .kmmap base size => discard (earlyMappingAddKmmap K base size)

/-- The ranges go from `lo` to `hi`, each from the end of the one before. -/
def Tiles : Nat → List EarlyMapping → Nat → Prop
  | lo, [], hi => lo = hi
  | lo, e :: es, hi => e.vaddr = lo ∧ Tiles (lo + e.size) es hi

variable {es : List EarlyMapping} {lo hi st₁ len₁ st₂ len₂ : Nat} {e : EarlyMapping}

theorem Tiles.concat (h : Tiles lo es hi) (he : e.vaddr = hi) :
    Tiles lo (es ++ [e]) (hi + e.size) := by
  induction es generalizing lo with
  | nil =>
      obtain rfl : lo = hi := h
      exact ⟨he, rfl⟩
  | cons e' es ih => exact ⟨h.1, ih h.2⟩

theorem Tiles.le (h : Tiles lo es hi) : lo ≤ hi := by
  induction es generalizing lo with
  | nil => exact le_of_eq h
  | cons e es ih => exact (Nat.le_add_right lo e.size).trans (ih h.2)

theorem Tiles.inside (h : Tiles lo es hi) (he : e ∈ es) :
    lo ≤ e.vaddr ∧ e.vaddr + e.size ≤ hi := by
  induction es generalizing lo with
  | nil => cases he
  | cons e' es ih =>
      rcases List.mem_cons.mp he with rfl | he
      · exact ⟨h.1.ge, h.1 ▸ h.2.le⟩
      · exact ⟨(Nat.le_add_right lo e'.size).trans (ih h.2 he).1, (ih h.2 he).2⟩

/-- The queued entries of a kind, in the order of their calls. -/
def EarlyQueue.ofType (s : EarlyQueue) (type : MappingType) : List EarlyMapping :=
  s.queue.filter fun q => q.type = type

/-- The invariant of the two calls. -/
structure Windows (K : KmmapLayout) (s : EarlyQueue) : Prop where
  length : s.queue.length ≤ earlyQueueLength
  types : ∀ q ∈ s.queue, q.type = .memory ∨ q.type = .kmmap
  memory : Tiles K.kernBase (s.ofType .memory) s.memTop
  kmmap : Tiles K.kmmapBase (s.ofType .kmmap) s.kmmapTop
  memTop_le : s.memTop ≤ K.kmmapBase
  kmmapTop_le : s.kmmapTop ≤ K.reservedBase

/-! ## The test -/

theorem overlap_of_before (h : st₂ + len₂ ≤ st₁) :
    overlap st₁ len₁ st₂ len₂ = false := by
  have hend := Nat.mod_le (st₂ + len₂) (2 ^ 32)
  simp only [overlap, Bool.or_eq_false_iff, Bool.and_eq_false_iff, decide_eq_false_iff_not]
  omega

theorem overlap_of_behind (h : st₁ + len₁ ≤ st₂) :
    overlap st₁ len₁ st₂ len₂ = false := by
  have hend := Nat.mod_le (st₁ + len₁) (2 ^ 32)
  simp only [overlap, Bool.or_eq_false_iff, Bool.and_eq_false_iff, decide_eq_false_iff_not]
  omega

/-! ## The calls -/

section Calls

variable {K : KmmapLayout} {s : EarlyQueue} {refused : Prop} {q e : EarlyMapping}

/-- The call answers 0 and does nothing when it refuses, and otherwise leaves `s'`. -/
def AnswersUnless (refused : Prop) (x : EStateM Stop EarlyQueue Nat) (s : EarlyQueue)
    (result : Nat) (s' : EarlyQueue) : Prop :=
  (refused → x.run s = .ok 0 s) ∧ (¬ refused → x.run s = .ok result s')

theorem answersUnless_of_refused {x : EStateM Stop EarlyQueue Nat} {result : Nat} {s' : EarlyQueue}
    (h : refused) (hrun : x.run s = .ok 0 s) :
    AnswersUnless refused x s result s' := ⟨fun _ => hrun, fun hno => absurd h hno⟩

/-- The end of both calls, for an entry that overlaps none: only the length of the
queue can be in the way. -/
theorem answersUnless_add (entry : EarlyMapping) (move : EarlyQueue → EarlyQueue) (result : Nat)
    (hrefused : refused ↔ s.queue.length = earlyQueueLength)
    (hlen : s.queue.length ≤ earlyQueueLength) (hvalid : K.valid entry = true)
    (hover : ∀ q ∈ s.queue, overlap entry.vaddr entry.size q.vaddr q.size = false) :
    AnswersUnless refused (do
      let ret ← earlyMappingAdd K entry
      if ret < 0 then return 0
      else
        modify move
        return result) s result (move { s with queue := s.queue ++ [entry] }) := by
  rw [AnswersUnless, hrefused]
  rcases earlyMappingAdd_cases (K := K) entry hlen with
    ⟨ret, hret, hrun, hfull | hbad | ⟨q, hq, hbad⟩⟩ | ⟨hroom, -, hrun⟩
  · refine answersUnless_of_refused hfull ?_
    rw [run_bind_ok hrun, if_pos hret]
    rfl
  · rw [hvalid] at hbad
    cases hbad
  · rw [hover q hq] at hbad
    cases hbad
  · refine ⟨fun hfull => absurd hfull hroom.ne, fun _ => ?_⟩
    rw [run_bind_ok hrun, if_neg (by decide), run_bind_ok (EStateM.run_modify _ _)]
    rfl

theorem Windows.memory_inside (h : Windows K s) (hq : q ∈ s.queue) (htype : q.type = .memory) :
    K.kernBase ≤ q.vaddr ∧ q.vaddr + q.size ≤ s.memTop :=
  h.memory.inside (List.mem_filter.mpr ⟨hq, decide_eq_true htype⟩)

theorem Windows.kmmap_inside (h : Windows K s) (hq : q ∈ s.queue) (htype : q.type = .kmmap) :
    K.kmmapBase ≤ q.vaddr ∧ q.vaddr + q.size ≤ s.kmmapTop :=
  h.kmmap.inside (List.mem_filter.mpr ⟨hq, decide_eq_true htype⟩)

/-- The room that is left in the window of the memory. -/
def memoryRoom (K : KmmapLayout) (s : EarlyQueue) : Nat := K.kmmapBase - s.memTop

theorem earlyMappingAddMemory_eq (h : Windows K s) (hvalid : ∀ entry, K.valid entry = true)
    (base size : Nat) :
    AnswersUnless (s.queue.length = earlyQueueLength ∨ K.kmmapBase ≤ s.memTop)
      (earlyMappingAddMemory K base size) s (min size (memoryRoom K s))
      { s with
        queue := s.queue ++ [⟨base, s.memTop, min size (memoryRoom K s), .memory⟩]
        memTop := s.memTop + min size (memoryRoom K s) } := by
  have hsize : (if size > K.kmmapBase - s.memTop then K.kmmapBase - s.memTop else size) =
      min size (memoryRoom K s) := by
    rw [memoryRoom]
    split
    · omega
    · omega
  by_cases hend : K.kmmapBase ≤ s.memTop
  · refine answersUnless_of_refused (.inr hend) ?_
    rw [earlyMappingAddMemory, run_bind_ok (EStateM.run_get _), if_pos hend]
    rfl
  have hlt := K.kmmap_lt
  generalize hcut : min size (memoryRoom K s) = cut at *
  have hfits : s.memTop + cut ≤ K.kmmapBase := by
    rw [← hcut, memoryRoom]
    omega
  have hover : ∀ q ∈ s.queue, overlap s.memTop cut q.vaddr q.size = false := by
    intro q hq
    rcases h.types q hq with htype | htype
    · exact overlap_of_before (h.memory_inside hq htype).2
    · exact overlap_of_behind (hfits.trans (h.kmmap_inside hq htype).1)
  have hadds := answersUnless_add ⟨base, s.memTop, cut, .memory⟩
    (fun s => { s with memTop := (s.memTop + cut) % 2 ^ 32 }) cut (or_iff_left hend) h.length
    (hvalid _) hover
  rw [AnswersUnless, earlyMappingAddMemory, run_bind_ok (EStateM.run_get _), if_neg hend]
  simp only [hsize]
  rwa [AnswersUnless, Nat.mod_eq_of_lt (show s.memTop + cut < 2 ^ 32 by omega)] at hadds

theorem earlyMappingAddKmmap_eq (h : Windows K s) (hvalid : ∀ entry, K.valid entry = true)
    (base size : Nat) :
    AnswersUnless (s.queue.length = earlyQueueLength ∨ K.reservedBase ≤ s.kmmapTop ∨
        K.reservedBase - s.kmmapTop < size)
      (earlyMappingAddKmmap K base size) s s.kmmapTop
      { s with
        queue := s.queue ++ [⟨base, s.kmmapTop, size, .kmmap⟩]
        kmmapTop := s.kmmapTop + size } := by
  by_cases hend : K.reservedBase ≤ s.kmmapTop
  · refine answersUnless_of_refused (.inr (.inl hend)) ?_
    rw [earlyMappingAddKmmap, run_bind_ok (EStateM.run_get _), if_pos hend]
    rfl
  by_cases hlarge : K.reservedBase - s.kmmapTop < size
  · refine answersUnless_of_refused (.inr (.inr hlarge)) ?_
    rw [earlyMappingAddKmmap, run_bind_ok (EStateM.run_get _), if_neg hend, if_pos hlarge]
    rfl
  have hlt := K.reserved_lt
  have hover : ∀ q ∈ s.queue, overlap s.kmmapTop size q.vaddr q.size = false := by
    intro q hq
    rcases h.types q hq with htype | htype
    · exact overlap_of_before ((h.memory_inside hq htype).2.trans (h.memTop_le.trans h.kmmap.le))
    · exact overlap_of_before (h.kmmap_inside hq htype).2
  have hadds := answersUnless_add ⟨base, s.kmmapTop, size, .kmmap⟩
    (fun s => { s with kmmapTop := (s.kmmapTop + size) % 2 ^ 32 }) s.kmmapTop
    (or_iff_left (not_or.mpr ⟨hend, hlarge⟩)) h.length (hvalid _) hover
  rw [AnswersUnless, earlyMappingAddKmmap, run_bind_ok (EStateM.run_get _), if_neg hend,
    if_neg hlarge]
  rwa [AnswersUnless, Nat.mod_eq_of_lt (show s.kmmapTop + size < 2 ^ 32 by omega)] at hadds

/-! ## Runs -/

theorem Windows.init (hkern : K.kernBase ≤ K.kmmapBase) (hkmmap : K.kmmapBase ≤ K.reservedBase) :
    Windows K ⟨[], K.kernBase, K.kmmapBase⟩ where
  length := Nat.zero_le _
  types := nofun
  memory := rfl
  kmmap := rfl
  memTop_le := hkern
  kmmapTop_le := hkmmap

theorem Windows.types_concat (h : Windows K s) (he : e.type = .memory ∨ e.type = .kmmap) :
    ∀ q ∈ s.queue ++ [e], q.type = .memory ∨ q.type = .kmmap := by
  intro q hq
  rcases List.mem_append.mp hq with hq | hq
  · exact h.types q hq
  · rw [List.mem_singleton.mp hq]
    exact he

theorem filter_concat_same (es : List EarlyMapping) (e : EarlyMapping) :
    (es ++ [e]).filter (fun q => q.type = e.type) = es.filter (fun q => q.type = e.type) ++ [e] := by
  simp

theorem filter_concat_other (es : List EarlyMapping) {type : MappingType} (h : e.type ≠ type) :
    (es ++ [e]).filter (fun q => q.type = type) = es.filter (fun q => q.type = type) := by
  simp [h]

theorem Windows.addMemory (h : Windows K s) (hroom : s.queue.length ≠ earlyQueueLength)
    (base : Nat) {cut : Nat} (hfits : s.memTop + cut ≤ K.kmmapBase) :
    Windows K { s with
      queue := s.queue ++ [⟨base, s.memTop, cut, .memory⟩]
      memTop := s.memTop + cut } where
  length := by
    have hlen := h.length
    rw [List.length_append, List.length_singleton]
    omega
  types := h.types_concat (.inl rfl)
  memory := by
    rw [EarlyQueue.ofType, filter_concat_same s.queue ⟨base, s.memTop, cut, .memory⟩]
    exact h.memory.concat rfl
  kmmap := by
    rw [EarlyQueue.ofType, filter_concat_other s.queue (by simp)]
    exact h.kmmap
  memTop_le := hfits
  kmmapTop_le := h.kmmapTop_le

theorem Windows.addKmmap (h : Windows K s) (hroom : s.queue.length ≠ earlyQueueLength)
    (base : Nat) {size : Nat} (hfits : s.kmmapTop + size ≤ K.reservedBase) :
    Windows K { s with
      queue := s.queue ++ [⟨base, s.kmmapTop, size, .kmmap⟩]
      kmmapTop := s.kmmapTop + size } where
  length := by
    have hlen := h.length
    rw [List.length_append, List.length_singleton]
    omega
  types := h.types_concat (.inr rfl)
  memory := by
    rw [EarlyQueue.ofType, filter_concat_other s.queue (by simp)]
    exact h.memory
  kmmap := by
    rw [EarlyQueue.ofType, filter_concat_same s.queue ⟨base, s.kmmapTop, size, .kmmap⟩]
    exact h.kmmap.concat rfl
  memTop_le := h.memTop_le
  kmmapTop_le := hfits

/-- Every call returns and keeps the windows. -/
theorem windowCalls_step (h : Windows K s) (hvalid : ∀ entry, K.valid entry = true)
    (c : WindowCall) : ∃ s', ((windowCalls K).step c).run s = .ok () s' ∧ Windows K s' := by
  cases c with
  | memory base size =>
      obtain ⟨hrefuses, hadds⟩ := earlyMappingAddMemory_eq h hvalid base size
      by_cases hrefused : s.queue.length = earlyQueueLength ∨ K.kmmapBase ≤ s.memTop
      · exact ⟨s, run_discard_ok (hrefuses hrefused), h⟩
      · refine ⟨_, run_discard_ok (hadds hrefused), h.addMemory (by omega) base ?_⟩
        rw [memoryRoom]
        omega
  | kmmap base size =>
      obtain ⟨hrefuses, hadds⟩ := earlyMappingAddKmmap_eq h hvalid base size
      by_cases hrefused : s.queue.length = earlyQueueLength ∨ K.reservedBase ≤ s.kmmapTop ∨
          K.reservedBase - s.kmmapTop < size
      · exact ⟨s, run_discard_ok (hrefuses hrefused), h⟩
      · exact ⟨_, run_discard_ok (hadds hrefused), h.addKmmap (by omega) base (by omega)⟩

end Calls

/-- In every run the two windows are tiled, and what the next call does depends on
the room that is left. -/
theorem earlyWindows_run (K : KmmapLayout) (hkern : K.kernBase < K.kmmapBase)
    (hkmmap : K.kmmapBase < K.reservedBase) (hvalid : ∀ entry, K.valid entry = true)
    (s : EarlyQueue) (h : (windowCalls K).Reachable s) :
    Windows K s ∧
    (∀ base size,
      AnswersUnless (s.queue.length = earlyQueueLength ∨ K.kmmapBase ≤ s.memTop)
        (earlyMappingAddMemory K base size) s (min size (memoryRoom K s))
        { s with
          queue := s.queue ++ [⟨base, s.memTop, min size (memoryRoom K s), .memory⟩]
          memTop := s.memTop + min size (memoryRoom K s) }) ∧
    ∀ base size,
      AnswersUnless (s.queue.length = earlyQueueLength ∨ K.reservedBase ≤ s.kmmapTop ∨
          K.reservedBase - s.kmmapTop < size)
        (earlyMappingAddKmmap K base size) s s.kmmapTop
        { s with
          queue := s.queue ++ [⟨base, s.kmmapTop, size, .kmmap⟩]
          kmmapTop := s.kmmapTop + size } := by
  have hinv : (windowCalls K).Invariant (Windows K) := by
    refine ⟨fun s hs => ?_, fun s c hs _ => windowCalls_step hs hvalid c⟩
    obtain ⟨s₀, hclear⟩ := hs
    cases hclear
    exact .init hkern.le hkmmap.le
  have hwindows := Machine.reachable_of_inv hinv h
  exact ⟨hwindows, earlyMappingAddMemory_eq hwindows hvalid,
    earlyMappingAddKmmap_eq hwindows hvalid⟩

/-- More memory than there is room for, and a device. -/
theorem earlyWindows_run_two : ∃ s, (windowCalls i386Layout).Reachable s ∧
    s.queue.length = 2 ∧ s.memTop = i386Layout.kmmapBase ∧ Windows i386Layout s := by
  have hinit : (windowCalls i386Layout).Reachable ⟨[], 0x80000000, 0xf0000000⟩ :=
    .init ⟨⟨[], 0, 0⟩, rfl⟩
  obtain ⟨s, hreach, hseen⟩ := hinit.sees [.memory 0 0x80000000, .kmmap 0xfee00000 0x1000]
    (fun s => (s.queue.length, s.memTop)) (2, 0xf0000000) ⟨trivial, trivial, trivial⟩
    (by decide +kernel)
  refine ⟨s, hreach, congrArg Prod.fst hseen, congrArg Prod.snd hseen, ?_⟩
  exact (earlyWindows_run i386Layout (by decide) (by decide) (fun _ => rfl) s hreach).1

end Aim.Kern
