import Aim.Kern.Panic
import Aim.Proofs.Truncate

/-!
# How a call of `vsnprintf` ends

The NUL behind the text goes through `set_ch` like any other character. If it
takes the last place of the array, the call answers `size`, as if something had
been cut off; if there is more room, it answers the length of the text. Both are
an `int`. So the answer tells whether the text was cut, but for a text of
`size - 1` characters and for answers from 2 GB on, and with it the test of
`panic`.

A format may end within a conversion. The NUL is then taken for a letter that
the function does not know, and printed, and the loop goes on behind it.
-/

namespace Aim.Kern

open Aim.Lib

/-! ## The result -/

/-- The result is the length of the text, or at least `size` if the text does not
fit. -/
def TellsCut (len size : Nat) (result : Int) : Prop :=
  (len < size → result = len) ∧ (size ≤ len → (size : Int) ≤ result)

theorem tellsCut_fits {len size : Nat} (h : len + 1 < size) (hsize : size < 2 ^ 32) :
    TellsCut len size (asInt len) ↔ min len size < 2 ^ 31 := by
  rw [Nat.min_eq_left (by omega)]
  rcases Nat.lt_or_ge len (2 ^ 31) with hlen | hlen
  · rw [asInt_of_small (by omega) (by omega)]
    exact iff_of_true ⟨fun _ => rfl, fun hle => absurd hle (by omega)⟩ hlen
  · rw [asInt_of_large (by omega) (by omega)]
    refine iff_of_false ?_ (by omega)
    intro htells
    have hresult := htells.1 (by omega)
    omega

theorem tellsCut_fills {len size : Nat} (h : size ≤ len) (hsize : size < 2 ^ 32) :
    TellsCut len size (asInt size) ↔ min len size < 2 ^ 31 := by
  rw [Nat.min_eq_right h]
  rcases Nat.lt_or_ge size (2 ^ 31) with hlt | hge
  · rw [asInt_of_small (by omega) (by omega)]
    exact iff_of_true ⟨fun hlen => absurd hlen (by omega), fun _ => le_rfl⟩ hlt
  · rw [asInt_of_large (by omega) (by omega)]
    refine iff_of_false ?_ (by omega)
    intro htells
    have hresult := htells.2 h
    omega

/-- The NUL in the last place. -/
theorem not_tellsCut_last (len : Nat) : ¬ TellsCut len (len + 1) (asInt (len + 1 : Nat)) := by
  intro htells
  have hresult := htells.1 (Nat.lt_succ_self len)
  rw [asInt, Int.bmod_def] at hresult
  omega

/-- `panic` prints three strings if the result is at least `BUFSIZ`. -/
theorem run_panic {fmt : CString} {va : VaList} {str str' : Nat → UInt8} {result : Int}
    (h : (vsnprintf bufsiz fmt va).run str = .ok result str') : ∃ strings,
      (panic fmt va).run str = .ok strings str' ∧
        (strings.length = 3 ↔ (bufsiz : Int) ≤ result) := by
  refine ⟨_, run_bind_ok h, ?_⟩
  by_cases hcut : (bufsiz : Int) ≤ result
  · simp [hcut]
  · simp [hcut]

/-- What it says of a text of `len` characters. -/
theorem panic_warns {fmt : CString} (va : VaList) (h : Whole fmt.bytes) (str : Nat → UInt8) :
    ∃ strings str', (panic fmt va).run str = .ok strings str' ∧
      (strings.length = 3 ↔ bufsiz ≤ (fullText va fmt.bytes).length + 1) := by
  by_cases hfit : (fullText va fmt.bytes).length + 1 < bufsiz
  · obtain ⟨strings, hrun, hwarns⟩ := run_panic (vsnprintf_fits str h hfit)
    rw [bufsiz] at hfit
    refine ⟨strings, _, hrun, hwarns.trans ?_⟩
    rw [asInt_of_small (by omega) (by omega), bufsiz]
    omega
  · obtain ⟨strings, hrun, hwarns⟩ := run_panic (vsnprintf_fills str h (by decide) hfit)
    exact ⟨strings, _, hrun, hwarns.trans (iff_of_true (by decide) (by omega))⟩

/-- For every complete format and all arguments the result tells whether the text
was cut, and `panic` says so when it was, except for a text that fills the array
with its NUL and for results that are no `int`. -/
theorem vsnprintf_tellsCut_iff (fmt : CString) (va : VaList) (h : Complete fmt.bytes) :
    ∃ full, Outputs fmt va full ∧
      (∀ size, 1 ≤ size → size < 2 ^ 32 → ∀ str, ∃ result str',
        (vsnprintf size fmt va).run str = .ok result str' ∧
          (TellsCut full.length size result ↔
            full.length + 1 ≠ size ∧ min full.length size < 2 ^ 31)) ∧
      ∀ str, ∃ strings str', (panic fmt va).run str = .ok strings str' ∧
        ((strings.length = 3 ↔ bufsiz ≤ full.length) ↔ full.length + 1 ≠ bufsiz) := by
  have hwhole := h.whole
  refine ⟨fullText va fmt.bytes, outputs_iff.mpr ⟨hwhole, rfl⟩, ?_, ?_⟩
  · intro size hsize hlt str
    by_cases hfit : (fullText va fmt.bytes).length + 1 < size
    · refine ⟨_, _, vsnprintf_fits str hwhole hfit, ?_⟩
      rw [tellsCut_fits hfit hlt]
      exact ⟨fun hmin => ⟨by omega, hmin⟩, And.right⟩
    · refine ⟨_, _, vsnprintf_fills str hwhole hsize hfit, ?_⟩
      rcases Nat.lt_or_ge (fullText va fmt.bytes).length size with hlast | hcut
      · obtain rfl : size = (fullText va fmt.bytes).length + 1 := by omega
        exact iff_of_false (not_tellsCut_last _) fun hne => hne.1 rfl
      · rw [tellsCut_fills hcut hlt]
        exact ⟨fun hmin => ⟨by omega, hmin⟩, And.right⟩
  · intro str
    obtain ⟨strings, str', hrun, hwarns⟩ := panic_warns va hwhole str
    refine ⟨strings, str', hrun, ?_⟩
    rw [hwarns]
    omega

theorem vsnprintf_tellsCut_sample : Complete sampleFmt.bytes ∧
    ∃ full, Outputs sampleFmt sampleArgs full ∧
      (∀ size, 1 ≤ size → size < 2 ^ 32 → ∀ str, ∃ result str',
        (vsnprintf size sampleFmt sampleArgs).run str = .ok result str' ∧
          (TellsCut full.length size result ↔
            full.length + 1 ≠ size ∧ min full.length size < 2 ^ 31)) ∧
      ∀ str, ∃ strings str', (panic sampleFmt sampleArgs).run str = .ok strings str' ∧
        ((strings.length = 3 ↔ bufsiz ≤ full.length) ↔ full.length + 1 ≠ bufsiz) :=
  ⟨sampleFmt_complete, vsnprintf_tellsCut_iff sampleFmt sampleArgs sampleFmt_complete⟩

/-- `"ok"` in three bytes: all of it is there, and the result is 3. A message of
1023 characters is printed as a whole, and said to be truncated. -/
theorem vsnprintf_last_place :
    Complete (CString.ofString "ok").bytes ∧
    Outputs (.ofString "ok") sampleArgs [chr 'o', chr 'k'] ∧
    returned (vsnprintf 3 (.ofString "ok") sampleArgs) (fun _ => 0xff)
      (fun result str => (result, (List.range 4).map str)) =
        some (3, [chr 'o', chr 'k', 0, 0xff]) ∧ ¬ TellsCut 2 3 3 ∧
    ∃ full, Outputs (.ofString "%1023u") ⟨fun _ => 0, fun _ => .ofString ""⟩ full ∧
      full.length + 1 = bufsiz ∧
      returned (panic (.ofString "%1023u") ⟨fun _ => 0, fun _ => .ofString ""⟩) (fun _ => 0)
        (fun strings _ => strings.length) = some 3 := by
  have hbytes : (CString.ofString "ok").bytes = [chr 'o', chr 'k'] := by decide +kernel
  refine ⟨?_, outputs_iff.mpr ⟨?_, by decide +kernel⟩, by decide +kernel, ?_,
    _, outputs_iff.mpr ⟨?_, rfl⟩, by decide +kernel, by decide +kernel⟩
  · rw [hbytes]
    exact .text (by decide) (.text (by decide) .nil)
  · rw [whole_iff]
    decide +kernel
  · intro htells
    exact absurd (htells.1 (by decide)) (by decide)
  · rw [whole_iff]
    decide +kernel

/-! ## The end of the format -/

theorem vsnprintf_returns {size : Nat} (hsize : 1 ≤ size) {fmt : CString} {va : VaList}
    (h : Prints fun size => fmtLoop size va fmt.bytes .text ⟨0, 0, 0, 0⟩) (str : Nat → UInt8) :
    ∃ result str', (vsnprintf size fmt va).run str = .ok result str' := by
  obtain ⟨l, _, hl⟩ := h
  have hsink := run_forM_setCh (l := l) (b := ⟨str, 0⟩) (show 0 < size by omega)
  have hloop : fmtLoop size va fmt.bytes .text ⟨0, 0, 0, 0⟩ = l.forM (setCh size) :=
    (hl size).trans (by simp)
  rw [← hloop] at hsink
  split at hsink
  · exact ⟨_, _, run_vsnprintf hsink⟩
  · exact ⟨_, _, run_vsnprintf hsink⟩

/-- With room enough a call returns, and reads no more than the format, exactly
when the format ends in the text. -/
theorem vsnprintf_returns_iff (fmt : CString) (va : VaList) :
    (∃ room, ∀ size, room ≤ size → ∀ str, ∃ result str',
      (vsnprintf size fmt va).run str = .ok result str') ↔ Whole fmt.bytes := by
  refine ⟨fun h => ?_, fun h => ⟨1, fun size hsize str => ?_⟩⟩
  · obtain ⟨room, hroom⟩ := h
    by_contra hwhole
    obtain ⟨result, str', hrun⟩ :=
      hroom (room + (fullText va fmt.bytes).length + 3) (by omega) fun _ => 0
    obtain ⟨str'', hstop⟩ := vsnprintf_not_whole (fun _ => 0) hwhole
      (show (fullText va fmt.bytes).length + 2 < room + (fullText va fmt.bytes).length + 3 by omega)
    rw [hstop] at hrun
    cases hrun
  · exact vsnprintf_returns hsize (prints_fmtLoop va h _) str

/-- A `%` at the end, or one with modifiers only. -/
theorem vsnprintf_past_end :
    stopped (vsnprintf 0x7fffffff (.ofString "%") sampleArgs) (fun _ => 0) = some (.oob 1) ∧
    stopped (vsnprintf 0x7fffffff (.ofString "%0") sampleArgs) (fun _ => 0) = some (.oob 1) ∧
    stopped (vsnprintf 0x7fffffff (.ofString "%12") sampleArgs) (fun _ => 0) = some (.oob 1) ∧
    stopped (vsnprintf 0x7fffffff (.ofString "%l") sampleArgs) (fun _ => 0) = some (.oob 1) := by
  decide +kernel

end Aim.Kern
