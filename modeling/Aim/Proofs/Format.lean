import Aim.Lib.Transducer
import Aim.Kern.Snprintf
import Mathlib.Data.List.DropRight
import Mathlib.Data.Nat.Digits.Lemmas

/-!
# What `vsnprintf` prints

The loop over the format is a transducer (`formatter`): a character of the format
moves it between the text and the conversions, changes the locals, and has some
characters printed, which are put through `set_ch` one after the other. None of
this looks at the array, at `pos` or at `size`. So what a format prints is a list
of characters (`fullText`), and what becomes of them is a matter of `set_ch`
alone.

The digits of a number are taken apart from the last one on and stand in `buf`
in that order; `numeral` is the order they are printed in. Of a number in a field
the last places are printed (`field`), with zeros in front, whatever the flags
are. `buf` has room for 25 digits, and the longest number, 64 bits in base 8, has
22.
-/

namespace Aim.Kern

open Aim.Lib

/-! ## Numbers -/

/-- The digits as they stand in `buf`. -/
def lowDigits (base n : Nat) : List UInt8 :=
  if n = 0 then [chr '0'] else (Nat.digits base n).map digits

def numeral (base n : Nat) : List UInt8 := (lowDigits base n).reverse

/-- The last `w` places of a text. -/
def field (w : Nat) (text : List UInt8) : List UInt8 :=
  List.replicate (w - text.length) (chr '0') ++ text.rtake w

def signText (flag : Nat) : List UInt8 := if flag &&& flagNeg ≠ 0 then [chr '-'] else []

def uintText (base n flag : Nat) (width : Int) : List UInt8 :=
  if width = 0 then signText flag ++ numeral base n
  else if 0 < width then signText flag ++ field width.toNat (numeral base n)
  else []

theorem length_numeral (base n : Nat) : (numeral base n).length = (lowDigits base n).length :=
  List.length_reverse

variable {buf : List UInt8} {base : Nat} {mode : Mode}

theorem readBuf_of_lt {i : Nat} (h : i < buf.length) :
    readBuf buf i = pure buf[i] := by
  simp only [readBuf, List.getElem?_eq_getElem h]

theorem pushBuf_of_lt {c : UInt8} (h : buf.length < bufBytes) :
    pushBuf buf c = pure (buf ++ [c]) := by
  rw [pushBuf, if_neg (by omega)]

/-- A number below `8 ^ k` has at most `k` digits, and there is room for them. -/
theorem digitLoop_digits (hbase : 8 ≤ base) {k fuel uval : Nat} (hval : uval < 8 ^ k)
    (hfuel : k < fuel) (hroom : buf.length + k ≤ bufBytes) :
    digitLoop base fuel uval buf = pure (buf ++ (Nat.digits base uval).map digits) := by
  induction k generalizing fuel uval buf with
  | zero =>
      obtain ⟨fuel, rfl⟩ := Nat.exists_eq_succ_of_ne_zero (by omega : fuel ≠ 0)
      obtain rfl : uval = 0 := by omega
      rw [digitLoop, if_neg (by omega), Nat.digits_zero, List.map_nil, List.append_nil]
  | succ k ih =>
      obtain ⟨fuel, rfl⟩ := Nat.exists_eq_succ_of_ne_zero (by omega : fuel ≠ 0)
      rcases Nat.eq_zero_or_pos uval with rfl | hpos
      · rw [digitLoop, if_neg (by omega), Nat.digits_zero, List.map_nil, List.append_nil]
      · have hdiv : uval / base < 8 ^ k := by
          refine Nat.div_lt_of_lt_mul (lt_of_lt_of_le hval ?_)
          rw [Nat.pow_succ, Nat.mul_comm]
          exact Nat.mul_le_mul_right _ hbase
        have hroom' : (buf ++ [digits (uval % base)]).length + k ≤ bufBytes := by
          rw [List.length_append, List.length_singleton]
          omega
        rw [digitLoop, if_pos hpos, pushBuf_of_lt (by omega), pure_bind,
          ih hdiv (by omega) hroom', Nat.digits_def' (by omega) hpos, List.map_cons,
          List.append_assoc, List.singleton_append]

theorem buf_lowDigits (hbase : 8 ≤ base) (uval : BitVec 64) :
    (digitLoop base 65 uval.toNat [] >>= someDigit) = pure (lowDigits base uval.toNat) := by
  have hval : uval.toNat < 8 ^ 22 := lt_trans uval.isLt (by decide)
  rw [digitLoop_digits hbase hval (by decide) (by decide), pure_bind, List.nil_append, lowDigits,
    someDigit]
  by_cases h0 : uval.toNat = 0
  · rw [if_pos h0, h0, Nat.digits_zero]
    exact pushBuf_of_lt (show ([] : List UInt8).length < bufBytes by decide)
  · have hsome : ((Nat.digits base uval.toNat).map digits).length ≠ 0 := by
      rw [List.length_map]
      exact fun h => Nat.digits_ne_nil_iff_ne_zero.mpr h0 (List.length_eq_zero_iff.mp h)
    rw [if_neg hsome, if_neg h0]

section Numbers

variable {size : Nat}

theorem emits_digitsDown (buf : List UInt8) {n : Nat} (h : n ≤ buf.length) :
    Emits (setCh size) (digitsDown size buf n) (buf.take n).reverse () := by
  induction n with
  | zero => exact emits_pure ()
  | succ n ih =>
      have hn : n < buf.length := by omega
      rw [digitsDown, readBuf_of_lt hn, pure_bind, List.take_succ_eq_append_getElem hn,
        List.reverse_append]
      exact (emits_put _).bind (ih (by omega))

theorem emits_fieldDown (fill : UInt8) (buf : List UInt8) (n : Nat) :
    Emits (setCh size) (fieldDown size fill buf n)
      (List.replicate (n - buf.length) fill ++ (buf.take n).reverse) () := by
  induction n with
  | zero =>
      rw [Nat.zero_sub]
      exact emits_pure ()
  | succ n ih =>
      by_cases h : buf.length ≤ n
      · rw [List.take_of_length_le h] at ih
        rw [fieldDown, if_pos h, List.take_of_length_le (by omega), Nat.succ_sub h,
          List.replicate_succ, List.cons_append]
        exact (emits_put fill).bind ih
      · have hn : n < buf.length := by omega
        have hnone : n - buf.length = 0 := by omega
        have hnone' : n + 1 - buf.length = 0 := by omega
        rw [hnone] at ih
        rw [fieldDown, if_neg h, readBuf_of_lt hn, pure_bind,
          List.take_succ_eq_append_getElem hn, List.reverse_append, hnone']
        exact (emits_put _).bind ih

theorem emits_putSign (flag : Nat) : Emits (setCh size) (putSign size flag) (signText flag) () := by
  by_cases h : flag &&& flagNeg ≠ 0
  · rw [putSign, signText, if_pos h, if_pos h]
    exact emits_put _
  · rw [putSign, signText, if_neg h, if_neg h]
    exact emits_pure ()

/-- The condition of the second branch. -/
theorem or_flagZeropad_ne_zero (flag : Nat) : flag ||| flagZeropad ≠ 0 := by
  intro h
  exact absurd (Nat.or_eq_zero_iff.mp h).2 (by decide)

theorem rtake_numeral (base n w : Nat) :
    (numeral base n).rtake w = ((lowDigits base n).take w).reverse := by
  rw [List.rtake_eq_reverse_take_reverse, numeral, List.reverse_reverse]

theorem emits_printUint {base : Nat} (hbase : 8 ≤ base) (uval : BitVec 64) (flag : Nat)
    (width : Int) : Emits (setCh size) (printUint size base uval flag width)
      (uintText base uval.toNat flag width) () := by
  have hbuf := buf_lowDigits hbase uval
  rw [printUint, ← bind_assoc, hbuf, pure_bind, uintText]
  by_cases h0 : width = 0
  · rw [if_pos h0, if_pos h0]
    have hall : Emits (setCh size) (digitsDown size _ _) _ () :=
      emits_digitsDown (lowDigits base uval.toNat) le_rfl
    rw [List.take_length] at hall
    exact (emits_putSign flag).bind hall
  · rw [if_neg h0, if_neg h0]
    by_cases hpos : 0 < width
    · rw [if_pos ⟨hpos, or_flagZeropad_ne_zero flag⟩, if_pos hpos, field, rtake_numeral,
        length_numeral]
      exact (emits_putSign flag).bind (emits_fieldDown _ _ _)
    · rw [if_neg (fun h => hpos h.1), if_neg hpos, if_neg hpos]
      exact emits_pure ()

end Numbers

/-! ## Conversions -/

/-- The string an argument points to. -/
def VaList.str (va : VaList) (ap : Nat) : CString :=
  if va.word ap = 0 then .ofString "(null)" else va.string (va.word ap)

def convText (va : VaList) (st : FmtState) : Conv → List UInt8
  | .d =>
      let val := (va.getint st.longflag st.ap).1
      if val.slt 0 then uintText 10 (-val).toNat (st.flag ||| flagNeg) st.width
      else uintText 10 val.toNat st.flag st.width
  | .o => uintText 8 (va.getuint st.longflag st.ap).1.toNat st.flag st.width
  | .x => uintText 16 (va.getuint st.longflag st.ap).1.toNat st.flag st.width
  | .p => uintText 16 (va.getuint 1 st.ap).1.toNat (st.flag ||| flagZeropad) 8
  | .u => uintText 10 (va.getuint st.longflag st.ap).1.toNat st.flag st.width
  | .c => [UInt8.ofBitVec ((va.word st.ap).setWidth 8)]
  | .s =>
      let s := va.str st.ap
      s.bytes ++ List.replicate (st.width - asInt s.bytes.length).toNat (chr ' ')
  | .percent => [chr '%']

/-- The words that a number takes up. -/
def argWords (longflag : Nat) : Nat := if longflag = 0 ∨ longflag = 1 then 1 else 2

/-- The locals after a conversion. `longflag` is only reset by those of
numbers. -/
def convNext (st : FmtState) : Conv → FmtState
  | .d | .o | .x | .u => ⟨0, 0, 0, st.ap + argWords st.longflag⟩
  | .p => ⟨0, 0, 0, st.ap + 1⟩
  | .c | .s => { st with ap := st.ap + 1 }.done
  | .percent => st.done

theorem getint_snd (va : VaList) (longflag ap : Nat) :
    (va.getint longflag ap).2 = ap + argWords longflag := by
  rw [VaList.getint, argWords]
  split <;> rfl

theorem getuint_snd (va : VaList) (longflag ap : Nat) :
    (va.getuint longflag ap).2 = ap + argWords longflag := by
  rw [VaList.getuint, argWords]
  split <;> rfl

section Conversions

variable {size base : Nat}

theorem emits_spaces (n : Nat) :
    Emits (setCh size) (spaces size n) (List.replicate n (chr ' ')) () := by
  induction n with
  | zero => exact emits_pure ()
  | succ n ih => exact (emits_put _).bind ih

/-- A number, and the locals behind it. -/
theorem emits_number (hbase : 8 ≤ base) (uval : BitVec 64) (flag : Nat) (width : Int)
    (st : FmtState) : Emits (setCh size)
      (printUint size base uval flag width >>= fun _ => pure st)
      (uintText base uval.toNat flag width) st := by
  have hbind : Emits (setCh size) (printUint size base uval flag width >>= fun _ => pure st)
      (uintText base uval.toNat flag width ++ []) st :=
    (emits_printUint hbase uval flag width).bind (emits_pure st)
  rw [List.append_nil] at hbind
  exact hbind

theorem emits_convUint (va : VaList) (hbase : 8 ≤ base) (st : FmtState) :
    Emits (setCh size) (convUint size va base st)
      (uintText base (va.getuint st.longflag st.ap).1.toNat st.flag st.width)
      ⟨0, 0, 0, st.ap + argWords st.longflag⟩ := by
  rw [← getuint_snd va]
  exact emits_number hbase _ _ _ _

theorem emits_conv (va : VaList) (st : FmtState) (k : Conv) :
    Emits (setCh size) (conv size va st k) (convText va st k) (convNext st k) := by
  cases k with
  | d =>
      rw [conv, convText, convNext, ← getint_snd va]
      by_cases hneg : (va.getint st.longflag st.ap).1.slt 0
      · simp only [hneg, if_true]
        exact emits_number (by decide) _ _ _ _
      · simp only [hneg]
        exact emits_number (by decide) _ _ _ _
  | o => exact emits_convUint va (by decide : 8 ≤ 8) st
  | x => exact emits_convUint va (by decide : 8 ≤ 16) st
  | p =>
      exact emits_convUint va (by decide : 8 ≤ 16)
        { st with flag := st.flag ||| flagZeropad, longflag := 1, width := 8 }
  | u => exact emits_convUint va (by decide : 8 ≤ 10) st
  | c => exact (emits_put _).bind (emits_pure _)
  | s =>
      have hspaces : Emits (setCh size)
          (spaces size (st.width - asInt (va.str st.ap).bytes.length).toNat >>= fun _ =>
            pure { st with ap := st.ap + 1 }.done)
          (List.replicate (st.width - asInt (va.str st.ap).bytes.length).toNat (chr ' ') ++ [])
          { st with ap := st.ap + 1 }.done :=
        (emits_spaces _).bind (emits_pure _)
      rw [List.append_nil] at hspaces
      exact (emits_forM (va.str st.ap).bytes).bind hspaces
  | percent => exact (emits_put _).bind (emits_pure _)

end Conversions

/-! ## The format -/

/-- The `l`s and digits behind a `%`. -/
def isModifier (ch : UInt8) : Bool := ch = chr 'l' || isDigit ch

def Mode.next (mode : Mode) (ch : UInt8) : Mode :=
  if mode = .text then if ch = chr '%' then .conv else .text
  else if mode = .width ∧ isDigit ch then .width
  else if ch = chr 'l' ∨ ch = chr '0' then .conv
  else if isDigit ch then .width
  else .text

def FmtState.next (mode : Mode) (st : FmtState) (ch : UInt8) : FmtState :=
  if mode = .text then st
  else if mode = .width ∧ isDigit ch then { st with width := widthDigit st.width ch }
  else if ch = chr 'l' then { st with longflag := st.longflag + 1 }
  else if ch = chr '0' then { st with flag := st.flag ||| flagZeropad }
  else if isDigit ch then { st with width := widthDigit st.width ch }
  else (Conv.ofChar ch).elim st (convNext st)

def printed (va : VaList) (mode : Mode) (st : FmtState) (ch : UInt8) : List UInt8 :=
  if mode = .text then if ch = chr '%' then [] else [ch]
  else if isModifier ch then []
  else (Conv.ofChar ch).elim [chr '%', ch] (convText va st)

def formatter (va : VaList) : Transducer (Mode × FmtState) UInt8 UInt8 where
  out s ch := printed va s.1 s.2 ch
  next s ch := (s.1.next ch, s.2.next s.1 ch)

theorem Mode.conv_ne_text : Mode.conv ≠ .text := nofun

theorem Mode.width_ne_text : Mode.width ≠ .text := nofun

theorem isDigit_zero : isDigit (chr '0') = true := by decide

theorem runs_fmtLoop (size : Nat) (va : VaList) :
    (formatter va).Runs (setCh size) fun fmt s => fmtLoop size va fmt s.1 s.2 := by
  rintro ch fmt ⟨mode, st⟩
  show fmtLoop size va (ch :: fmt) mode st = ((printed va mode st ch).forM (setCh size) >>=
    fun _ => fmtLoop size va fmt (mode.next ch) (st.next mode ch))
  by_cases htext : mode = .text
  · subst htext
    rw [fmtLoop, printed, Mode.next, FmtState.next, if_pos rfl, if_pos rfl, if_pos rfl]
    by_cases hc : ch = chr '%'
    · simp [hc]
    · simp [hc]
  · rw [fmtLoop, printed, Mode.next, FmtState.next, if_neg htext, if_neg htext, if_neg htext]
    · by_cases hw : mode = .width ∧ isDigit ch = true
      · simp [hw, isModifier]
      · rw [if_neg hw, if_neg hw, if_neg hw]
        by_cases hl : ch = chr 'l'
        · simp [hl, isModifier]
        · by_cases h0 : ch = chr '0'
          · simp [h0, isModifier, isDigit_zero, show chr '0' ≠ chr 'l' by decide]
          · by_cases hd : isDigit ch = true
            · simp [hl, h0, hd, isModifier]
            · simp only [hl, h0, hd, isModifier]
              cases Conv.ofChar ch with
              | none => simp
              | some k => simp [(emits_conv va st k).bind_eq]
    · exact htext

/-! ## The end of the format -/

/-- The formats that end in the text: behind a `%` stand any `l`s and digits, and
then a letter, which need not be one of a conversion. -/
inductive Whole : List UInt8 → Prop where
  | nil : Whole []
  | text {c : UInt8} {fmt : List UInt8} (hc : c ≠ chr '%') (h : Whole fmt) : Whole (c :: fmt)
  | conv {mods : List UInt8} {c : UInt8} {fmt : List UInt8}
      (hmods : ∀ m ∈ mods, isModifier m = true) (hc : isModifier c = false) (h : Whole fmt) :
      Whole (chr '%' :: mods ++ c :: fmt)

theorem formatter_final_fst (va : VaList) (s : Mode × FmtState) (fmt : List UInt8) :
    ((formatter va).final s fmt).1 = fmt.foldl Mode.next s.1 := by
  induction fmt generalizing s with
  | nil => rfl
  | cons ch fmt ih => exact ih _

theorem Mode.next_eq_text (h : mode ≠ .text) (ch : UInt8) :
    mode.next ch = .text ↔ isModifier ch = false := by
  have hzero := isDigit_zero
  rw [Mode.next, isModifier, if_neg h]
  by_cases hl : ch = chr 'l'
  · simp [hl, show isDigit (chr 'l') = false by decide]
  · by_cases h0 : ch = chr '0'
    · by_cases hw : mode = .width <;> simp [h0, hw, hzero]
    · by_cases hd : isDigit ch = true
      · by_cases hw : mode = .width <;> simp [hl, h0, hd, hw]
      · simp [hl, h0, hd]

theorem foldl_mods {mods : List UInt8} (hmods : ∀ m ∈ mods, isModifier m = true)
    (hmode : mode ≠ .text) : mods.foldl Mode.next mode ≠ .text := by
  induction mods generalizing mode with
  | nil => exact hmode
  | cons m mods ih =>
      refine ih (fun m' hm' => hmods m' (List.mem_cons_of_mem _ hm')) ?_
      intro htext
      have hm := (Mode.next_eq_text hmode m).mp htext
      rw [hmods m List.mem_cons_self] at hm
      cases hm

/-- A format that ends in the text, read from the text and from within a
conversion. -/
theorem whole_of_foldl (fmt : List UInt8) :
    (fmt.foldl Mode.next .text = .text → Whole fmt) ∧
      ∀ mode ≠ Mode.text, fmt.foldl Mode.next mode = .text → ∃ mods c rest,
        fmt = mods ++ c :: rest ∧ (∀ m ∈ mods, isModifier m = true) ∧ isModifier c = false ∧
          Whole rest := by
  induction fmt with
  | nil => exact ⟨fun _ => .nil, fun mode hmode h => absurd h hmode⟩
  | cons ch fmt ih =>
      refine ⟨fun h => ?_, fun mode hmode h => ?_⟩
      · by_cases hc : ch = chr '%'
        · subst hc
          obtain ⟨mods, c, rest, rfl, hmods, hc, hrest⟩ := ih.2 .conv nofun h
          exact .conv hmods hc hrest
        · have hnext : Mode.text.next ch = .text := by simp [Mode.next, hc]
          rw [List.foldl_cons, hnext] at h
          exact .text hc (ih.1 h)
      · cases hm : isModifier ch with
        | false =>
            rw [List.foldl_cons, (Mode.next_eq_text hmode ch).mpr hm] at h
            exact ⟨[], ch, fmt, rfl, nofun, hm, ih.1 h⟩
        | true =>
            have hnext : mode.next ch ≠ .text := by
              intro htext
              rw [(Mode.next_eq_text hmode ch).mp htext] at hm
              cases hm
            obtain ⟨mods, c, rest, rfl, hmods, hc, hrest⟩ := ih.2 _ hnext h
            exact ⟨ch :: mods, c, rest, rfl, List.forall_mem_cons.mpr ⟨hm, hmods⟩, hc, hrest⟩

theorem whole_iff (fmt : List UInt8) : Whole fmt ↔ fmt.foldl Mode.next .text = .text := by
  refine ⟨fun h => ?_, (whole_of_foldl fmt).1⟩
  induction h with
  | nil => rfl
  | @text c fmt hc h ih =>
      have hnext : Mode.text.next c = .text := by simp [Mode.next, hc]
      rw [List.foldl_cons, hnext, ih]
  | @conv mods c fmt hmods hc h ih =>
      have hmode := foldl_mods hmods Mode.conv_ne_text
      have hfirst : Mode.text.next (chr '%') = .conv := rfl
      rw [List.cons_append, List.foldl_cons, hfirst, List.foldl_append, List.foldl_cons,
        (Mode.next_eq_text hmode c).mpr hc, ih]

section Loop

variable (size : Nat) (va : VaList) {fmt : List UInt8} (st : FmtState)

/-- A format that ends in the text prints its text, and the NUL. -/
theorem fmtLoop_whole (h : Whole fmt) : fmtLoop size va fmt .text st =
    ((formatter va).output (.text, st) fmt ++ [0]).forM (setCh size) := by
  have hloop := (runs_fmtLoop size va).append (.text, st) fmt []
  have hmode : ((formatter va).final (.text, st) fmt).1 = .text := by
    rw [formatter_final_fst]
    exact (whole_iff fmt).mp h
  simp only [List.append_nil, hmode, fmtLoop] at hloop
  rw [hloop]
  simp

/-- Another one prints a `%` and the NUL, and goes on behind it. -/
theorem fmtLoop_not_whole (h : ¬ Whole fmt) : fmtLoop size va fmt .text st =
    (((formatter va).output (.text, st) fmt ++ [chr '%', 0]).forM (setCh size) >>=
      fun _ => throw (.stop (.oob 1))) := by
  have hloop := (runs_fmtLoop size va).append (.text, st) fmt []
  have hmode : ((formatter va).final (.text, st) fmt).1 ≠ .text := by
    rw [formatter_final_fst]
    exact fun htext => h ((whole_iff fmt).mpr htext)
  simp only [List.append_nil] at hloop
  rw [hloop, fmtLoop]
  · simp
  · exact hmode

end Loop

/-- All that a format prints. -/
def fullText (va : VaList) (fmt : List UInt8) : List UInt8 :=
  (formatter va).output (.text, ⟨0, 0, 0, 0⟩) fmt

end Aim.Kern
