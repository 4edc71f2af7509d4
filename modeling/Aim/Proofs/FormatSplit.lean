import Aim.Proofs.PrintNumber

/-!
# One format behind another

The flags, the width and the number of `l`s stand in locals that go from one
conversion to the next. A conversion that the function knows resets the flags and
the width, and one of a number also `longflag`; a letter it does not know resets
nothing. So what a format prints depends on what stood before it: on a width and
on `l`s, but not on the zero flag, which is never looked at.

`formats_independent_iff`: the formats behind which every other one prints what it
prints alone are those that leave no width and no `l`.
-/

namespace Aim.Kern

open Aim.Lib

/-- One string behind another. -/
def CString.append (f g : CString) : CString := .ofBytes (f.bytes ++ g.bytes)

/-- The arguments from the `n`-th word on. -/
def VaList.drop (va : VaList) (n : Nat) : VaList := ⟨fun i => va.word (i + n), va.string⟩

/-- Where a format leaves the loop, and the locals. The arguments do not matter to
either. -/
def fmtEnd (fmt : List UInt8) : Mode × FmtState :=
  fmt.foldl (fun s ch => (s.1.next ch, s.2.next s.1 ch)) (.text, ⟨0, 0, 0, 0⟩)

/-- What is printed for `f` and `g` is what is printed for `f`, and what is printed
for `g` with the arguments that `f` leaves. -/
def Independent (f g : CString) (va : VaList) : Prop :=
  ∀ full, Outputs (f.append g) va full ↔ ∃ text text',
    Outputs f va text ∧ Outputs g (va.drop (fmtEnd f.bytes).2.ap) text' ∧ full = text ++ text'

/-! ## Locals that make no difference -/

/-- The locals of two loops that print the same: the second one has the arguments
from the `n`-th word on. -/
structure Shifted (n : Nat) (st st' : FmtState) : Prop where
  flag : st.flag &&& flagNeg = st'.flag &&& flagNeg
  width : st.width = st'.width
  longflag : st.longflag = st'.longflag
  ap : st.ap = st'.ap + n

theorem getint_drop (va : VaList) (n longflag ap : Nat) :
    (va.getint longflag (ap + n)).1 = ((va.drop n).getint longflag ap).1 := by
  rw [VaList.getint, VaList.getint]
  split
  · rfl
  · rw [VaList.drop, Nat.add_right_comm]

theorem getuint_drop (va : VaList) (n longflag ap : Nat) :
    (va.getuint longflag (ap + n)).1 = ((va.drop n).getuint longflag ap).1 := by
  rw [VaList.getuint, VaList.getuint]
  split
  · rfl
  · rw [VaList.drop, Nat.add_right_comm]

theorem uintText_congr (base n : Nat) {flag flag' : Nat}
    (h : flag &&& flagNeg = flag' &&& flagNeg) (width : Int) :
    uintText base n flag width = uintText base n flag' width := by
  rw [uintText, uintText, signText, signText, h]

theorem or_and_flagNeg {flag flag' : Nat} (h : flag &&& flagNeg = flag' &&& flagNeg) (bit : Nat) :
    (flag ||| bit) &&& flagNeg = (flag' ||| bit) &&& flagNeg := by
  rw [Nat.and_or_distrib_right, Nat.and_or_distrib_right, h]

variable {st st' : FmtState} {n : Nat} {f : CString}

theorem convText_shifted (va : VaList) (h : Shifted n st st') (k : Conv) :
    convText va st k = convText (va.drop n) st' k := by
  obtain ⟨hflag, hwidth, hlongflag, hap⟩ := h
  have huint : ∀ base, uintText base (va.getuint st.longflag st.ap).1.toNat st.flag st.width =
      uintText base ((va.drop n).getuint st'.longflag st'.ap).1.toNat st'.flag st'.width := by
    intro base
    rw [hwidth, hlongflag, hap, getuint_drop, uintText_congr base _ hflag]
  cases k with
  | d =>
      rw [convText, convText, hwidth, hlongflag, hap]
      simp only [getint_drop, uintText_congr 10 _ hflag,
        uintText_congr 10 _ (or_and_flagNeg hflag flagNeg)]
  | o => exact huint 8
  | x => exact huint 16
  | p =>
      rw [convText, convText, hap, getuint_drop,
        uintText_congr 16 _ (or_and_flagNeg hflag flagZeropad)]
  | u => exact huint 10
  | c =>
      rw [convText, convText, hap]
      rfl
  | s =>
      rw [convText, convText, hap, hwidth]
      rfl
  | percent => rfl

theorem convNext_shifted (h : Shifted n st st') (k : Conv) :
    Shifted n (convNext st k) (convNext st' k) := by
  obtain ⟨hflag, hwidth, hlongflag, hap⟩ := h
  cases k with
  | d | o | x | u =>
      refine ⟨rfl, rfl, rfl, ?_⟩
      show st.ap + argWords st.longflag = st'.ap + argWords st'.longflag + n
      rw [hlongflag]
      omega
  | p =>
      refine ⟨rfl, rfl, rfl, ?_⟩
      show st.ap + 1 = st'.ap + 1 + n
      omega
  | c | s =>
      refine ⟨rfl, rfl, hlongflag, ?_⟩
      show st.ap + 1 = st'.ap + 1 + n
      omega
  | percent => exact ⟨rfl, rfl, hlongflag, hap⟩

theorem next_shifted (h : Shifted n st st') (mode : Mode) (ch : UInt8) :
    Shifted n (st.next mode ch) (st'.next mode ch) := by
  have hdigit : Shifted n { st with width := widthDigit st.width ch }
      { st' with width := widthDigit st'.width ch } :=
    ⟨h.flag, congrArg (widthDigit · ch) h.width, h.longflag, h.ap⟩
  rw [FmtState.next, FmtState.next]
  split
  · exact h
  · split
    · exact hdigit
    · split
      · exact ⟨h.flag, h.width, congrArg (· + 1) h.longflag, h.ap⟩
      · split
        · exact ⟨or_and_flagNeg h.flag flagZeropad, h.width, h.longflag, h.ap⟩
        · split
          · exact hdigit
          · cases Conv.ofChar ch with
            | none => exact h
            | some k => exact convNext_shifted h k

theorem printed_shifted (va : VaList) (h : Shifted n st st') (mode : Mode) (ch : UInt8) :
    printed va mode st ch = printed (va.drop n) mode st' ch := by
  rw [printed, printed]
  cases Conv.ofChar ch with
  | none => rw [Option.elim_none, Option.elim_none]
  | some k => rw [Option.elim_some, Option.elim_some, convText_shifted va h k]

theorem output_shifted (va : VaList) (h : Shifted n st st') (mode : Mode) (fmt : List UInt8) :
    (formatter va).output (mode, st) fmt = (formatter (va.drop n)).output (mode, st') fmt := by
  refine (Transducer.output_eq_of_related (R := fun s t => s.1 = t.1 ∧ Shifted n s.2 t.2) ?_ ?_
    (show mode = mode ∧ _ from ⟨rfl, h⟩) fmt).1
  · rintro ⟨mode, st⟩ ⟨mode', st'⟩ ch ⟨hmode, hst⟩
    obtain rfl : mode = mode' := hmode
    exact printed_shifted va hst mode ch
  · rintro ⟨mode, st⟩ ⟨mode', st'⟩ ch ⟨hmode, hst⟩
    obtain rfl : mode = mode' := hmode
    exact ⟨rfl, next_shifted hst mode ch⟩

theorem convNext_flag (st : FmtState) (k : Conv) : (convNext st k).flag = 0 := by
  cases k <;> rfl

/-- A sign never stays behind. -/
theorem next_flagNeg (mode : Mode) {st : FmtState} (h : st.flag &&& flagNeg = 0) (ch : UInt8) :
    (st.next mode ch).flag &&& flagNeg = 0 := by
  rw [FmtState.next]
  split
  · exact h
  · split
    · exact h
    · split
      · exact h
      · split
        · show (st.flag ||| flagZeropad) &&& flagNeg = 0
          rw [Nat.and_or_distrib_right, h]
          rfl
        · split
          · exact h
          · cases hk : Conv.ofChar ch with
            | none => exact h
            | some k =>
                rw [Option.elim_some, convNext_flag]
                exact Nat.zero_and _

theorem fmtEnd_flagNeg (fmt : List UInt8) : (fmtEnd fmt).2.flag &&& flagNeg = 0 := by
  have hkept : ∀ va, ((formatter va).final (.text, ⟨0, 0, 0, 0⟩) fmt).2.flag &&& flagNeg = 0 :=
    fun va => Transducer.final_of_kept (P := fun s : Mode × FmtState => s.2.flag &&& flagNeg = 0)
      (fun s ch hs => next_flagNeg s.1 hs ch) rfl fmt
  exact hkept ⟨fun _ => 0, fun _ => .ofString ""⟩

/-! ## The end of the first format -/

theorem final_eq_fmtEnd (va : VaList) (fmt : List UInt8) :
    (formatter va).final (.text, ⟨0, 0, 0, 0⟩) fmt = fmtEnd fmt := rfl

theorem fmtEnd_of_whole {fmt : List UInt8} (h : Whole fmt) : (fmtEnd fmt).1 = .text := by
  have hmode := formatter_final_fst ⟨fun _ => 0, fun _ => .ofString ""⟩ (.text, ⟨0, 0, 0, 0⟩) fmt
  rw [final_eq_fmtEnd] at hmode
  exact hmode.trans ((whole_iff fmt).mp h)

theorem bytes_append (f g : CString) : (f.append g).bytes = f.bytes ++ g.bytes := by
  refine List.takeWhile_eq_self_iff.mpr ?_
  intro b hb
  rcases List.mem_append.mp hb with hb | hb
  · simpa using f.nonzero b hb
  · simpa using g.nonzero b hb

theorem whole_append {f g : List UInt8} (h : Whole f) : Whole (f ++ g) ↔ Whole g := by
  rw [whole_iff, whole_iff, List.foldl_append, (whole_iff f).mp h]

/-- All there is to it: what `g` prints with the locals that `f` leaves. -/
theorem independent_iff (h : Whole f.bytes) (g : CString) (va : VaList) :
    Independent f g va ↔ (Whole g.bytes →
      (formatter va).output (.text, (fmtEnd f.bytes).2) g.bytes =
        fullText (va.drop (fmtEnd f.bytes).2.ap) g.bytes) := by
  have hsplit : fullText va (f.append g).bytes = fullText va f.bytes ++
      (formatter va).output (.text, (fmtEnd f.bytes).2) g.bytes := by
    have hend : (.text, (fmtEnd f.bytes).2) = fmtEnd f.bytes :=
      Prod.ext (fmtEnd_of_whole h).symm rfl
    rw [bytes_append, fullText, fullText, Transducer.output_append, final_eq_fmtEnd, hend]
  simp only [Independent, outputs_iff, hsplit]
  rw [bytes_append, whole_append h]
  constructor
  · intro hind hg
    obtain ⟨text, text', ⟨-, rfl⟩, ⟨-, rfl⟩, heq⟩ := (hind _).mp ⟨hg, rfl⟩
    exact List.append_cancel_left heq
  · intro hout full
    constructor
    · rintro ⟨hg, rfl⟩
      exact ⟨_, _, ⟨h, rfl⟩, ⟨hg, rfl⟩, by rw [hout hg]⟩
    · rintro ⟨text, text', ⟨-, rfl⟩, ⟨hg, rfl⟩, rfl⟩
      exact ⟨hg, by rw [hout hg]⟩

/-- Nothing left that a later conversion would see. -/
theorem independent_of_clean (h : Whole f.bytes) (hwidth : (fmtEnd f.bytes).2.width = 0)
    (hlongflag : (fmtEnd f.bytes).2.longflag = 0) (g : CString) (va : VaList) :
    Independent f g va := by
  refine (independent_iff h g va).mpr fun _ => ?_
  refine output_shifted va ⟨?_, hwidth, hlongflag, (Nat.zero_add _).symm⟩ .text g.bytes
  rw [fmtEnd_flagNeg]
  rfl

/-! ## What is left shows -/

/-- Every word of the arguments is the same. -/
def sameArgs (c : BitVec 32) : VaList := ⟨fun _ => c, fun _ => .ofString ""⟩

/-- An unsigned number in a field that was left: as many places as it has. -/
theorem length_uintText {flag : Nat} (hflag : flag &&& flagNeg = 0) (n : Nat) {width : Int}
    (hwidth : width ≠ 0) : (uintText 10 n flag width).length = width.toNat := by
  rw [uintText_nonneg 10 hflag, numberText, if_neg hwidth, signOf_of_nonneg (Int.natCast_nonneg n)]
  split
  · rw [List.nil_append, length_field]
  · rw [List.length_nil]
    omega

/-- The number that `g` prints alone. -/
theorem convText_sameArgs (c : BitVec 32) (n : Nat) {longflag : Nat} (h : longflag ≤ 1) :
    convText ((sameArgs c).drop n) ⟨0, 0, longflag, 0⟩ .u = numeral 10 c.toNat := by
  have htext := convText_number .u ((sameArgs c).drop n) (Nat.zero_and flagNeg) 0 longflag
  have hvalue : Number.u.value ((sameArgs c).drop n) longflag = c.toNat := if_pos h
  rw [hvalue, numberText, if_pos rfl, signOf_of_nonneg (Int.natCast_nonneg _),
    Int.natAbs_natCast] at htext
  exact htext

/-- A width shows in a number with another number of digits. -/
theorem width_of_independent (h : Whole f.bytes) (hind : ∀ g va, Independent f g va) :
    (fmtEnd f.bytes).2.width = 0 := by
  by_contra hwidth
  have hlen : ∀ c : BitVec 32, (fmtEnd f.bytes).2.width.toNat =
      max 1 (Nat.digits 10 c.toNat).length := by
    intro c
    have hmods : ∀ m ∈ ([] : List UInt8), isModifier m = true := nofun
    have heq := (independent_iff h _ _).mp (hind (numberFmt [] .u) (sameArgs c))
      (whole_numberFmt hmods .u)
    rw [fullText, output_numberFmt hmods, output_numberFmt hmods, Transducer.final_nil,
      Transducer.final_nil] at heq
    have hright := convText_sameArgs c (fmtEnd f.bytes).2.ap (Nat.zero_le 1)
    have hleft : (convText (sameArgs c) (fmtEnd f.bytes).2 .u).length = _ :=
      length_uintText (fmtEnd_flagNeg f.bytes) _ hwidth
    rw [← hleft, ← length_numeral_eq, ← hright]
    exact congrArg List.length heq
  have hone := hlen 0#32
  have htwo := hlen 10#32
  rw [hone] at htwo
  norm_num at htwo

/-- An `l` shows in a number of two words. -/
theorem longflag_of_independent (h : Whole f.bytes) (hind : ∀ g va, Independent f g va) :
    (fmtEnd f.bytes).2.longflag = 0 := by
  have hwidth := width_of_independent h hind
  by_contra hlong
  have hmods : ∀ m ∈ List.replicate 1 (chr 'l'), isModifier m = true := fun m hm => isModifier_ls hm
  have heq := (independent_iff h _ _).mp (hind (numberFmt (List.replicate 1 (chr 'l')) .u)
    (sameArgs 1)) (whole_numberFmt hmods .u)
  rw [fullText, output_numberFmt hmods, output_numberFmt hmods, final_ls _ _ Mode.conv_ne_text,
    final_ls _ _ Mode.conv_ne_text] at heq
  have hright := convText_sameArgs 1#32 (fmtEnd f.bytes).2.ap le_rfl
  have hlarge : ((sameArgs 1).getuint ((fmtEnd f.bytes).2.longflag + 1)
      (fmtEnd f.bytes).2.ap).1.toNat = 2 ^ 32 + 1 := by
    rw [VaList.getuint, if_neg (by omega)]
    show (1#32 ++ 1#32).toNat = 2 ^ 32 + 1
    decide
  have hleft : convText (sameArgs 1) ⟨(fmtEnd f.bytes).2.flag, (fmtEnd f.bytes).2.width,
      (fmtEnd f.bytes).2.longflag + 1, (fmtEnd f.bytes).2.ap⟩ .u = numeral 10 (2 ^ 32 + 1) := by
    show uintText 10 _ _ _ = _
    rw [hlarge, hwidth, uintText_nonneg 10 (fmtEnd_flagNeg f.bytes), numberText, if_pos rfl,
      signOf_of_nonneg (Int.natCast_nonneg _), Int.natAbs_natCast, List.nil_append]
  have hlen := congrArg List.length ((hleft.symm.trans heq).trans hright)
  rw [length_numeral_eq, length_numeral_eq] at hlen
  norm_num at hlen

/-- Behind a format every other one prints what it prints alone, exactly if it
leaves no width and no `l`. -/
theorem formats_independent_iff (f : CString) (h : Whole f.bytes) :
    (∀ g va, Independent f g va) ↔
      (fmtEnd f.bytes).2.width = 0 ∧ (fmtEnd f.bytes).2.longflag = 0 :=
  ⟨fun hind => ⟨width_of_independent h hind, longflag_of_independent h hind⟩,
    fun hclean => independent_of_clean h hclean.1 hclean.2⟩

theorem formats_independent_sample : Whole sampleFmt.bytes ∧
    ((∀ g va, Independent sampleFmt g va) ↔
      (fmtEnd sampleFmt.bytes).2.width = 0 ∧ (fmtEnd sampleFmt.bytes).2.longflag = 0) :=
  ⟨sampleFmt_complete.whole, formats_independent_iff sampleFmt sampleFmt_complete.whole⟩

/-- The two `l`s of `"%lls"` go on to the `"%d"` behind it, which prints 4294967301
and not 5. -/
theorem formats_not_independent :
    returned (vsnprintf 64 (.ofString "%lls%d")
        ⟨fun i => [0, 5, 1].getD i 0, fun _ => .ofString ""⟩)
        (fun _ => 0) (fun result str => (List.range result.toNat).map str) =
      some ("(null)4294967301".toUTF8.data.toList) ∧
    ¬ Independent (.ofString "%lls") (.ofString "%d")
      ⟨fun i => [0, 5, 1].getD i 0, fun _ => .ofString ""⟩ := by
  refine ⟨by decide +kernel, fun hind => ?_⟩
  have htext := (independent_iff ((whole_iff _).mpr (by decide +kernel)) _ _).mp hind
    ((whole_iff _).mpr (by decide +kernel))
  exact absurd (congrArg List.length htext) (by decide +kernel)

end Aim.Kern
