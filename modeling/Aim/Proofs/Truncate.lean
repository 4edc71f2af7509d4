import Aim.Proofs.Format

/-!
# `vsnprintf` cuts its output off

What `vsnprintf` prints does not depend on how much room there is. So all that is
to be known about a full array is what `set_ch` does with a list of characters
(`run_forM_setCh`).

A conversion is a `%`, then any `l`s and digits, and a letter the function knows.
-/

namespace Aim.Kern

open Aim.Lib Function

/-! ## The array -/

/-- The characters of `l` from index `pos` on. -/
def blit (str : Nat → UInt8) (pos : Nat) : List UInt8 → Nat → UInt8
  | [] => str
  | c :: l => blit (update str pos c) (pos + 1) l

variable {str : Nat → UInt8} {l full fmt : List UInt8} {size pos i : Nat} {va : VaList}

theorem blit_of_lt (h : i < pos) : blit str pos l i = str i := by
  induction l generalizing str pos with
  | nil => rfl
  | cons c l ih =>
      rw [blit, ih (by omega), update_of_ne (by omega)]

theorem blit_of_ge (h : pos + l.length ≤ i) : blit str pos l i = str i := by
  induction l generalizing str pos with
  | nil => rfl
  | cons c l ih =>
      rw [List.length_cons] at h
      rw [blit, ih (by omega), update_of_ne (by omega)]

/-- The last one. -/
theorem blit_concat (str : Nat → UInt8) (pos : Nat) (l : List UInt8) (c : UInt8) :
    blit str pos (l ++ [c]) (pos + l.length) = c := by
  induction l generalizing str pos with
  | nil => exact update_self pos c str
  | cons d l ih =>
      rw [List.cons_append, blit, List.length_cons, Nat.add_comm l.length, ← Nat.add_assoc, ih]

/-- What is in the array. -/
theorem map_blit (str : Nat → UInt8) (pos : Nat) (l : List UInt8) :
    (List.range l.length).map (fun i => blit str pos l (pos + i)) = l := by
  induction l generalizing str pos with
  | nil => rfl
  | cons c l ih =>
      rw [List.length_cons, List.range_succ_eq_map, List.map_cons, List.map_map]
      congr 1
      · show blit (update str pos c) (pos + 1) l pos = c
        rw [blit_of_lt (by omega), update_self]
      · have htail := ih (update str pos c) (pos + 1)
        simp only [Nat.add_assoc, Nat.add_comm 1] at htail
        exact htail

/-! ## `set_ch` -/

/-- A list of characters: all of them, or as many as there is room for, with a
NUL in the last place. -/
theorem run_forM_setCh {b : OutBuf} (h : b.pos < size) :
    (l.forM (setCh size)).run b = if b.pos + l.length < size
      then .ok ⟨⟩ ⟨blit b.str b.pos l, b.pos + l.length⟩
      else .error (.ret size)
        ⟨update (blit b.str b.pos (l.take (size - b.pos))) (size - 1) 0, size⟩ := by
  induction l generalizing b with
  | nil => exact (if_pos h).symm
  | cons c l ih =>
      have hcons : (c :: l).forM (setCh size) = setCh size c >>= fun _ => l.forM (setCh size) :=
        rfl
      have hfits : ¬ size ≤ b.pos := by omega
      by_cases hlast : b.pos + 1 = size
      · -- The array is full.
        have hrun : (setCh size c).run b = .error (.ret size)
            ⟨update (update b.str b.pos c) (size - 1) 0, size⟩ := by
          simp [setCh, hfits, hlast]
        have htake : (c :: l).take (size - b.pos) = [c] := by
          rw [show size - b.pos = 1 by omega]
          rfl
        rw [hcons, run_bind_error hrun, if_neg (by rw [List.length_cons]; omega), htake]
        rfl
      · have hrun : (setCh size c).run b =
            .ok () ⟨update b.str b.pos c, b.pos + 1⟩ := by
          simp [setCh, hfits, hlast]
        have hpos : b.pos + 1 < size := by omega
        have hrest := ih (b := ⟨update b.str b.pos c, b.pos + 1⟩) hpos
        have htake : (c :: l).take (size - b.pos) = c :: l.take (size - (b.pos + 1)) := by
          rw [show size - b.pos = size - (b.pos + 1) + 1 by omega, List.take_succ_cons]
        rw [hcons, run_bind_ok hrun, hrest, htake, List.length_cons]
        simp only [blit, Nat.add_assoc, Nat.add_comm 1]

/-! ## What is printed -/

/-- The computation puts some characters and has some answer, whatever the size
of the array. -/
def Prints {α : Type} (x : Nat → Print α) : Prop := ∃ l a, ∀ size, Emits (setCh size) (x size) l a

/-- The formats whose conversions are all complete: behind a `%` stand any `l`s
and digits, and then the letter of a conversion. -/
inductive Complete : List UInt8 → Prop where
  | nil : Complete []
  | text {c : UInt8} {fmt : List UInt8} (hc : c ≠ chr '%') (h : Complete fmt) :
      Complete (c :: fmt)
  | conv {mods : List UInt8} {c : UInt8} {k : Conv} {fmt : List UInt8}
      (hmods : ∀ m ∈ mods, m = chr 'l' ∨ isDigit m = true) (hc : Conv.ofChar c = some k)
      (h : Complete fmt) : Complete (chr '%' :: mods ++ c :: fmt)

/-- The letter of a conversion is neither of the modifiers. -/
theorem conv_letter {c : UInt8} {k : Conv} (h : Conv.ofChar c = some k) :
    isDigit c = false ∧ c ≠ chr 'l' ∧ c ≠ chr '0' := by
  rw [Conv.ofChar] at h
  repeat' split at h
  all_goals first
    | (rename_i hc; subst hc; decide)
    | cases h

theorem Complete.whole (h : Complete fmt) : Whole fmt := by
  induction h with
  | nil => exact .nil
  | text hc h ih => exact .text hc ih
  | @conv mods c k fmt hmods hc h ih =>
      obtain ⟨hdigit, hl, -⟩ := conv_letter hc
      refine .conv (fun m hm => ?_) (by simp [isModifier, hdigit, hl]) ih
      rcases hmods m hm with rfl | hm
      · rfl
      · simp [isModifier, hm]

/-- A format that ends in the text prints something, and the NUL. -/
theorem prints_fmtLoop (va : VaList) (h : Whole fmt) (st : FmtState) :
    Prints fun size => fmtLoop size va fmt .text st := by
  refine ⟨(formatter va).output (.text, st) fmt ++ [0], (), ?_⟩
  intro size
  simp only [fmtLoop_whole size va st h]
  exact emits_forM _

/-! ## The array after a call -/

/-- A call with `size` bytes: it returns, and the first of the characters in
`full` are there, as many as leave room for the NUL behind them; nothing behind
the `size` bytes has changed. -/
structure CutTo (full : List UInt8) (size : Nat) (str str' : Nat → UInt8) : Prop where
  text : (List.range (min full.length (size - 1))).map str' = full.take (size - 1)
  nul : str' (min full.length (size - 1)) = 0
  frame : ∀ i, size ≤ i → str' i = str i

/-- All characters and the NUL. -/
theorem cutTo_all (h : full.length + 1 < size) (str : Nat → UInt8) :
    CutTo full size str (blit str 0 (full ++ [0])) := by
  have hall := map_blit str 0 (full ++ [0])
  rw [List.length_append, List.length_singleton, List.range_succ, List.map_append,
    List.map_singleton] at hall
  obtain ⟨htext, hnul⟩ := List.append_inj hall (by simp)
  simp only [Nat.zero_add] at htext hnul
  refine ⟨?_, ?_, ?_⟩
  · rw [Nat.min_eq_left (by omega), List.take_of_length_le (by omega)]
    exact htext
  · rw [Nat.min_eq_left (by omega)]
    exact List.singleton_inj.mp hnul
  · intro i hi
    exact blit_of_ge (by rw [List.length_append, List.length_singleton]; omega)

/-- As many as fit. -/
theorem cutTo_full (hsize : 1 ≤ size) (h : ¬ full.length + 1 < size) (str : Nat → UInt8) :
    CutTo full size str
      (update (blit str 0 ((full ++ [0]).take size)) (size - 1) 0) := by
  have hmin : min full.length (size - 1) = size - 1 := by omega
  have hlen : ((full ++ [0]).take size).length = size := by
    rw [List.length_take, List.length_append, List.length_singleton]
    omega
  refine ⟨?_, ?_, ?_⟩
  · have hall := congrArg (List.take (size - 1)) (map_blit str 0 ((full ++ [0]).take size))
    have htake : (full ++ [0]).take (size - 1) = full.take (size - 1) :=
      List.take_append_of_le_length (by omega)
    rw [hlen, List.take_take, Nat.min_eq_left (by omega), ← List.map_take, List.take_range,
      Nat.min_eq_left (by omega), htake] at hall
    rw [hmin, ← hall]
    refine List.map_congr_left ?_
    intro i hi
    have hlt := List.mem_range.mp hi
    rw [update_of_ne (by omega), Nat.zero_add]
  · rw [hmin, update_self]
  · intro i hi
    rw [update_of_ne (by omega)]
    exact blit_of_ge (by omega)

theorem run_vsnprintf {fmt : CString} {r : EStateM.Result Leave OutBuf Unit}
    (h : (fmtLoop size va fmt.bytes .text ⟨0, 0, 0, 0⟩).run ⟨str, 0⟩ = r) :
    (vsnprintf size fmt va).run str = Print.finish r := congrArg Print.finish h

section Calls

variable {size : Nat} {fmt : CString} {va : VaList} (str : Nat → UInt8)

/-- The loop on a format that ends in the text. -/
theorem fmtLoop_run (h : Whole fmt.bytes) (hsize : 1 ≤ size) :
    (fmtLoop size va fmt.bytes .text ⟨0, 0, 0, 0⟩).run ⟨str, 0⟩ =
      if (fullText va fmt.bytes).length + 1 < size then
        .ok () ⟨blit str 0 (fullText va fmt.bytes ++ [0]), (fullText va fmt.bytes).length + 1⟩
      else
        .error (.ret size)
          ⟨update (blit str 0 ((fullText va fmt.bytes ++ [0]).take size)) (size - 1) 0, size⟩ := by
  have hsink := run_forM_setCh (l := fullText va fmt.bytes ++ [0]) (b := ⟨str, 0⟩) hsize
  have hloop : fmtLoop size va fmt.bytes .text ⟨0, 0, 0, 0⟩ =
      (fullText va fmt.bytes ++ [0]).forM (setCh size) := fmtLoop_whole size va _ h
  rwa [List.length_append, List.length_singleton, Nat.zero_add, Nat.sub_zero, ← hloop] at hsink

/-- A call with room for the text and more than the NUL. -/
theorem vsnprintf_fits (h : Whole fmt.bytes) (hfit : (fullText va fmt.bytes).length + 1 < size) :
    (vsnprintf size fmt va).run str = .ok (asInt (fullText va fmt.bytes).length)
      (blit str 0 (fullText va fmt.bytes ++ [0])) := by
  rw [run_vsnprintf (fmtLoop_run str h (by omega)), if_pos hfit, Print.finish, Nat.cast_add, Nat.cast_one, Int.add_sub_cancel]

/-- A call that fills the array. -/
theorem vsnprintf_fills (h : Whole fmt.bytes) (hsize : 1 ≤ size)
    (hfull : ¬ (fullText va fmt.bytes).length + 1 < size) :
    (vsnprintf size fmt va).run str = .ok (asInt size)
      (update (blit str 0 ((fullText va fmt.bytes ++ [0]).take size)) (size - 1) 0) := by
  rw [run_vsnprintf (fmtLoop_run str h hsize), if_neg hfull]
  rfl

/-- With room enough, a format that does not end in the text is read past its
end. -/
theorem vsnprintf_not_whole (h : ¬ Whole fmt.bytes)
    (hfit : (fullText va fmt.bytes).length + 2 < size) :
    ∃ str', (vsnprintf size fmt va).run str = .error (.oob 1) str' := by
  have hsink := run_forM_setCh (l := fullText va fmt.bytes ++ [chr '%', 0]) (b := ⟨str, 0⟩)
    (show 0 < size by omega)
  have hloop : fmtLoop size va fmt.bytes .text ⟨0, 0, 0, 0⟩ =
      ((fullText va fmt.bytes ++ [chr '%', 0]).forM (setCh size) >>=
        fun _ => throw (.stop (.oob 1))) := fmtLoop_not_whole size va _ h
  have hlen : (fullText va fmt.bytes ++ [chr '%', 0]).length =
      (fullText va fmt.bytes).length + 2 := List.length_append
  rw [hlen, Nat.zero_add, if_pos hfit] at hsink
  have hrun := congrArg (fun x => EStateM.run x ⟨str, 0⟩) hloop
  simp only [run_bind_ok hsink] at hrun
  exact ⟨_, run_vsnprintf hrun⟩

end Calls

/-- For every complete format and all arguments there is a text that every call
prints, cut to the size of the array. -/
theorem vsnprintf_cut (fmt : CString) (va : VaList) (h : Complete fmt.bytes) :
    ∃ full : List UInt8, ∀ size, 1 ≤ size → ∀ str, ∃ result str',
      (vsnprintf size fmt va).run str = .ok result str' ∧ CutTo full size str str' := by
  refine ⟨fullText va fmt.bytes, ?_⟩
  intro size hsize str
  by_cases hfit : (fullText va fmt.bytes).length + 1 < size
  · exact ⟨_, _, vsnprintf_fits str h.whole hfit, cutTo_all hfit str⟩
  · exact ⟨_, _, vsnprintf_fills str h.whole hsize hfit, cutTo_full hsize hfit str⟩

/-- The format of a message with a number and a string. -/
def sampleFmt : CString := .ofString "%d: %08lx %s\n"

theorem sampleFmt_complete : Complete sampleFmt.bytes := by
  have hbytes : sampleFmt.bytes = chr '%' :: [] ++ chr 'd' :: chr ':' :: chr ' ' ::
      (chr '%' :: [chr '0', chr '8', chr 'l'] ++ chr 'x' :: chr ' ' ::
        (chr '%' :: [] ++ chr 's' :: [chr '\n'])) := by
    decide +kernel
  have hmods : ∀ m ∈ [chr '0', chr '8', chr 'l'], m = chr 'l' ∨ isDigit m = true := by
    intro m hm
    simp only [List.mem_cons, List.not_mem_nil, or_false] at hm
    rcases hm with rfl | rfl | rfl
    · exact .inr rfl
    · exact .inr rfl
    · exact .inl rfl
  rw [hbytes]
  refine .conv (k := .d) nofun rfl (.text (by decide) (.text (by decide) ?_))
  refine .conv (k := .x) hmods rfl (.text (by decide) ?_)
  exact .conv (k := .s) nofun rfl (.text (by decide) .nil)

def sampleArgs : VaList := ⟨fun i => [-5, 0xbeef, 0x1000].getD i 0, fun _ => .ofString "ok"⟩

theorem vsnprintf_cut_sample : Complete sampleFmt.bytes ∧
    ∃ full : List UInt8, ∀ size, 1 ≤ size → ∀ str, ∃ result str',
      (vsnprintf size sampleFmt sampleArgs).run str = .ok result str' ∧
        CutTo full size str str' :=
  ⟨sampleFmt_complete, vsnprintf_cut sampleFmt sampleArgs sampleFmt_complete⟩

/-- Ten bytes, and the ones behind them. -/
example : (returned (vsnprintf 10 sampleFmt sampleArgs) (fun _ => 0xff)
    fun _ str => (List.range 12).map str) =
      some ("-5: 0000".toUTF8.data.toList ++ [chr 'b', 0, 0xff, 0xff]) := by
  decide +kernel

/-! ## The text of a format -/

/-- With room enough a call returns, and has written the text and a NUL behind
it. -/
def Outputs (fmt : CString) (va : VaList) (full : List UInt8) : Prop :=
  ∀ size, full.length + 1 < size → ∀ str, ∃ result,
    (vsnprintf size fmt va).run str = .ok result (blit str 0 (full ++ [0]))

theorem length_le_of_blit {full full' : List UInt8}
    (h : blit (fun _ => 0xff) 0 (full ++ [0]) = blit (fun _ => 0xff) 0 (full' ++ [0])) :
    full'.length ≤ full.length := by
  by_contra hlt
  have hnul : blit (fun _ => 0xff) 0 (full' ++ [0]) full'.length = 0 := by
    have hlast := blit_concat (fun _ => 0xff) 0 full' 0
    rw [Nat.zero_add] at hlast
    exact hlast
  have hff : blit (fun _ => 0xff) 0 (full ++ [0]) full'.length = 0xff :=
    blit_of_ge (by rw [List.length_append, List.length_singleton]; omega)
  rw [← h, hff] at hnul
  exact absurd hnul (by decide)

theorem blit_inj {full full' : List UInt8}
    (h : blit (fun _ => 0xff) 0 (full ++ [0]) = blit (fun _ => 0xff) 0 (full' ++ [0])) :
    full = full' := by
  have hlen := Nat.le_antisymm (length_le_of_blit h.symm) (length_le_of_blit h)
  have hmap := map_blit (fun _ => 0xff) 0 (full ++ [0])
  have hmap' := map_blit (fun _ => 0xff) 0 (full' ++ [0])
  have hlen' : (full ++ [0]).length = (full' ++ [0]).length := by simp [hlen]
  rw [h, hlen', hmap'] at hmap
  exact (List.append_cancel_right hmap).symm

/-- Only the formats that end in the text have one, and it is what they print. -/
theorem outputs_iff {fmt : CString} :
    Outputs fmt va full ↔ Whole fmt.bytes ∧ full = fullText va fmt.bytes := by
  constructor
  · intro h
    obtain ⟨result, hrun⟩ := h ((fullText va fmt.bytes).length + full.length + 3) (by omega)
      fun _ => 0xff
    by_cases hwhole : Whole fmt.bytes
    · refine ⟨hwhole, ?_⟩
      rw [vsnprintf_fits _ hwhole (by omega)] at hrun
      exact (blit_inj (EStateM.Result.ok.inj hrun).2).symm
    · obtain ⟨str', hstop⟩ := vsnprintf_not_whole (fun _ => 0xff) hwhole
        (show (fullText va fmt.bytes).length + 2 <
          (fullText va fmt.bytes).length + full.length + 3 by omega)
      rw [hstop] at hrun
      cases hrun
  · rintro ⟨hwhole, rfl⟩ size hfit str
    exact ⟨_, vsnprintf_fits str hwhole hfit⟩

end Aim.Kern
