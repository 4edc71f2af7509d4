import Aim.Proofs.Truncate

/-!
# The numbers `vsnprintf` prints

A number without a width is printed as its numeral: read back, it is the argument
(`vsnprintf_numeral`).

A width is no minimum. The loops of a field run over its places and not over the
digits, so a number with more digits loses the first ones; and the padding is
always of zeros, since the condition of that branch is `flag | FLAG_ZEROPAD`. What
remains is a field that is as wide as the number, and one that is wider where
zeros were asked for (`fieldText_iff`).
-/

namespace Aim.Kern

open Aim.Lib

/-! ## Reading a number -/

/-- The characters of some digits. -/
def digitText (ds : List Nat) : List UInt8 := ds.map fun d => chr (Nat.digitChar d)

def digitValue (base : Nat) (ch : UInt8) : Option Nat :=
  (List.range base).find? fun d => chr (Nat.digitChar d) = ch

def readNat (base : Nat) (text : List UInt8) : Option Nat :=
  if text = [] then none
  else (text.mapM (digitValue base)).map fun ds => Nat.ofDigits base ds.reverse

/-- Spaces, a sign and a number. -/
def readInt (base : Nat) (text : List UInt8) : Option Int :=
  match text.dropWhile (· = chr ' ') with
  | [] => none
  | ch :: rest =>
      if ch = chr '-' then (readNat base rest).map fun (n : Nat) => -(n : Int)
      else (readNat base (ch :: rest)).map fun (n : Nat) => (n : Int)

/-- The numeral of a number: the digits of the base, and no zero in front. -/
structure IsNumeral (base n : Nat) (text : List UInt8) : Prop where
  value : readNat base text = some n
  lead : text.head? = some (chr '0') → text = [chr '0']

def signOf (v : Int) : List UInt8 := if v < 0 then [chr '-'] else []

section Reading

variable {base n : Nat} (hbase : base = 8 ∨ base = 10 ∨ base = 16) {text : List UInt8}

include hbase

theorem digitValue_digitChar {d : Nat} (hd : d < base) :
    digitValue base (chr (Nat.digitChar d)) = some d := by
  revert d
  rcases hbase with rfl | rfl | rfl <;> decide

omit hbase in
theorem digitText_of_mapM {ds : List Nat} (h : text.mapM (digitValue base) = some ds) :
    text = digitText ds ∧ ∀ d ∈ ds, d < base := by
  induction text generalizing ds with
  | nil =>
      obtain rfl : [] = ds := Option.some.inj h
      exact ⟨rfl, nofun⟩
  | cons ch text ih =>
      simp only [List.mapM_cons, Option.bind_eq_bind, Option.bind_eq_some_iff, Option.pure_def,
        Option.some.injEq] at h
      obtain ⟨d, hd, ds', hds', rfl⟩ := h
      obtain ⟨rfl, hlt⟩ := ih hds'
      have hch : chr (Nat.digitChar d) = ch := by simpa using List.find?_some hd
      have hmem := List.mem_range.mp (List.mem_of_find?_eq_some hd)
      exact ⟨by rw [digitText, digitText, List.map_cons, hch], List.forall_mem_cons.mpr ⟨hmem, hlt⟩⟩

theorem readNat_digitText {ds : List Nat} (hne : ds ≠ []) (hds : ∀ d ∈ ds, d < base) :
    readNat base (digitText ds) = some (Nat.ofDigits base ds.reverse) := by
  have hmap : ∀ ds : List Nat, (∀ d ∈ ds, d < base) →
      (digitText ds).mapM (digitValue base) = some ds := by
    intro ds hds
    induction ds with
    | nil => rfl
    | cons d ds ih =>
        obtain ⟨hd, hds⟩ := List.forall_mem_cons.mp hds
        simp only [digitText, List.map_cons, List.mapM_cons] at ih ⊢
        rw [digitValue_digitChar hbase hd, ih hds]
        rfl
  rw [readNat, if_neg (by simpa [digitText] using hne), hmap ds hds]
  rfl

omit hbase in
theorem digitText_of_readNat (h : readNat base text = some n) :
    ∃ ds, text = digitText ds ∧ ds ≠ [] ∧ (∀ d ∈ ds, d < base) ∧
      n = Nat.ofDigits base ds.reverse := by
  rw [readNat] at h
  split at h
  · cases h
  · next hne =>
      obtain ⟨ds, hds, rfl⟩ := Option.map_eq_some_iff.mp h
      obtain ⟨rfl, hlt⟩ := digitText_of_mapM hds
      exact ⟨ds, rfl, by simpa [digitText] using hne, hlt, rfl⟩

/-- Zeros in front change nothing. -/
theorem readNat_zeros (k : Nat) (h : readNat base text = some n) :
    readNat base (List.replicate k (chr '0') ++ text) = some n := by
  obtain ⟨ds, rfl, hne, hlt, rfl⟩ := digitText_of_readNat h
  have hzeros : List.replicate k (chr '0') ++ digitText ds =
      digitText (List.replicate k 0 ++ ds) := by
    rw [digitText, digitText, List.map_append, List.map_replicate]
    rfl
  have hlt' : ∀ d ∈ List.replicate k 0 ++ ds, d < base := by
    intro d hd
    rcases List.mem_append.mp hd with hd | hd
    · rw [List.eq_of_mem_replicate hd]
      omega
    · exact hlt d hd
  rw [hzeros, readNat_digitText hbase (by simp [hne]) hlt', List.reverse_append,
    List.reverse_replicate, Nat.ofDigits_append_replicate_zero]

/-- A sign in front is read as one. -/
theorem readInt_signOf {v : Int} (h : readNat base text = some v.natAbs) :
    readInt base (signOf v ++ text) = some v := by
  obtain ⟨ds, rfl, hne, hlt, hn⟩ := digitText_of_readNat h
  have hskip : ∀ (ch : UInt8) (text : List UInt8), ch ≠ chr ' ' →
      (ch :: text).dropWhile (· = chr ' ') = ch :: text :=
    fun ch text hch => List.dropWhile_cons_of_neg (by simpa using hch)
  by_cases hneg : v < 0
  · have hsign : signOf v = [chr '-'] := if_pos hneg
    rw [hsign, List.singleton_append, readInt, hskip _ _ (by decide)]
    simp only [if_true, h, Option.map_some, Option.some.injEq]
    omega
  · have hsign : signOf v = [] := if_neg hneg
    obtain ⟨d, ds, rfl⟩ := List.exists_cons_of_ne_nil hne
    have hd : d < 16 := by
      have := hlt d List.mem_cons_self
      omega
    have hfirst : ∀ d < 16, chr (Nat.digitChar d) ≠ chr ' ' ∧ chr (Nat.digitChar d) ≠ chr '-' := by
      decide
    obtain ⟨hspace, hminus⟩ := hfirst d hd
    rw [digitText, List.map_cons] at h
    rw [hsign, List.nil_append, readInt, digitText, List.map_cons, hskip _ _ hspace]
    simp only [if_neg hminus, h, Option.map_some, Option.some.injEq]
    omega

/-- A number has at least the digits of its numeral. -/
theorem le_length_of_readNat (h : readNat base text = some n) :
    max 1 (Nat.digits base n).length ≤ text.length := by
  obtain ⟨ds, rfl, hne, hlt, rfl⟩ := digitText_of_readNat h
  have hone : 1 < base := by omega
  have hpow : Nat.ofDigits base ds.reverse < base ^ ds.reverse.length :=
    Nat.ofDigits_lt_base_pow_length hone fun d hd => hlt d (List.mem_reverse.mp hd)
  have hpos := List.length_pos_of_ne_nil hne
  rw [List.length_reverse] at hpow
  rw [digitText, List.length_map, max_le_iff]
  exact ⟨hpos, (Nat.digits_length_le_iff hone _).mpr hpow⟩

/-! ## Numerals -/

theorem numeral_eq (n : Nat) :
    numeral base n = digitText (if n = 0 then [0] else (Nat.digits base n).reverse) := by
  by_cases h0 : n = 0
  · rw [numeral, lowDigits, if_pos h0, if_pos h0]
    rfl
  · have hdigits : ∀ d < 16, digits d = chr (Nat.digitChar d) := by decide
    rw [numeral, lowDigits, if_neg h0, if_neg h0, digitText, List.map_reverse]
    congr 1
    refine List.map_congr_left fun d hd => hdigits d ?_
    have := Nat.digits_lt_base (by omega : 1 < base) hd
    omega

omit hbase in
theorem length_numeral_eq (base n : Nat) :
    (numeral base n).length = max 1 (Nat.digits base n).length := by
  rw [length_numeral, lowDigits]
  by_cases h0 : n = 0
  · rw [if_pos h0, h0, Nat.digits_zero]
    rfl
  · have hpos := List.length_pos_of_ne_nil (Nat.digits_ne_nil_iff_ne_zero (b := base).mpr h0)
    rw [if_neg h0, List.length_map]
    omega

theorem isNumeral_numeral (n : Nat) : IsNumeral base n (numeral base n) := by
  have hone : 1 < base := by omega
  rw [numeral_eq hbase]
  by_cases h0 : n = 0
  · rw [if_pos h0, h0]
    refine ⟨readNat_digitText hbase (by simp) ?_, fun _ => rfl⟩
    intro d hd
    rw [List.mem_singleton.mp hd]
    omega
  · have hne := Nat.digits_ne_nil_iff_ne_zero (b := base).mpr h0
    have hlt : ∀ d ∈ (Nat.digits base n).reverse, d < base :=
      fun d hd => Nat.digits_lt_base hone (List.mem_reverse.mp hd)
    rw [if_neg h0]
    refine ⟨?_, ?_⟩
    · rw [readNat_digitText hbase (by simpa using hne) hlt, List.reverse_reverse,
        Nat.ofDigits_digits]
    · intro hhead
      rw [digitText, List.head?_map, List.head?_reverse, List.getLast?_eq_some_getLast hne,
        Option.map_some, Option.some.injEq] at hhead
      have hzero : ∀ d < 16, chr (Nat.digitChar d) = chr '0' → d = 0 := by decide
      have hlast : (Nat.digits base n).getLast hne < 16 := by
        have := Nat.digits_lt_base hone (List.getLast_mem hne)
        omega
      exact absurd (hzero _ hlast hhead) (Nat.getLast_digit_ne_zero base h0)

end Reading

/-! ## The conversions of numbers -/

inductive Number where
  | d
  | u
  | o
  | x
  deriving DecidableEq, Repr

namespace Number

def letter : Number → Char
  | .d => 'd'
  | .u => 'u'
  | .o => 'o'
  | .x => 'x'

def conv : Number → Conv
  | .d => .d
  | .u => .u
  | .o => .o
  | .x => .x

def base : Number → Nat
  | .d | .u => 10
  | .o => 8
  | .x => 16

/-- The argument of a conversion with `n` `l`s. From two on it is a `long long`. -/
def value (va : VaList) (n : Nat) : Number → Int
  | .d => if n ≤ 1 then (va.word 0).toInt else (va.word 1 ++ va.word 0).toInt
  | .u | .o | .x => if n ≤ 1 then (va.word 0).toNat else (va.word 1 ++ va.word 0).toNat

theorem base_cases (k : Number) : k.base = 8 ∨ k.base = 10 ∨ k.base = 16 := by
  cases k <;> decide

theorem ofChar_letter (k : Number) : Conv.ofChar (chr k.letter) = some k.conv := by
  cases k <;> rfl

end Number

theorem getint_value (va : VaList) (n : Nat) : (va.getint n 0).1.toInt = Number.d.value va n := by
  rw [VaList.getint, Number.value]
  by_cases h : n ≤ 1
  · rw [if_pos (by omega), if_pos h]
    exact BitVec.toInt_signExtend_of_le (by decide)
  · rw [if_neg (by omega), if_neg h]

theorem getuint_value (va : VaList) (n : Nat) :
    ((va.getuint n 0).1.toNat : Int) = Number.u.value va n := by
  rw [VaList.getuint, Number.value]
  by_cases h : n ≤ 1
  · rw [if_pos (by omega), if_pos h, BitVec.toNat_setWidth_of_le (by decide)]
  · rw [if_neg (by omega), if_neg h]

variable {val : BitVec 64} {flag w : Nat}

/-- The two's complement of a negative number is its magnitude, also for the
smallest one. -/
theorem toNat_neg_of_neg (h : val.toInt < 0) : (-val).toNat = val.toInt.natAbs := by
  have hlt := val.isLt
  rw [BitVec.toInt_eq_toNat_cond] at h ⊢
  rw [BitVec.toNat_neg]
  by_cases hsmall : 2 * val.toNat < 2 ^ 64
  · rw [if_pos hsmall] at h
    omega
  · rw [if_neg hsmall]
    omega

theorem natAbs_lt (k : Number) (va : VaList) (n : Nat) : (k.value va n).natAbs < 2 ^ 64 := by
  have hint := (va.getint n 0).1.toInt_lt
  have hint' := (va.getint n 0).1.le_toInt
  have huint := (va.getuint n 0).1.isLt
  have hvalue := getuint_value va n
  rw [getint_value] at hint hint'
  cases k with
  | d => omega
  | u => omega
  | o =>
      rw [show Number.o.value va n = Number.u.value va n from rfl]
      omega
  | x =>
      rw [show Number.x.value va n = Number.u.value va n from rfl]
      omega

theorem slt_zero_iff : val.slt 0 = true ↔ val.toInt < 0 :=
  BitVec.slt_iff_toInt_lt

theorem toNat_of_nonneg (h : ¬ val.toInt < 0) : (val.toNat : Int) = val.toInt := by
  have hlt := val.isLt
  rw [BitVec.toInt_eq_toNat_cond] at h ⊢
  by_cases hsmall : 2 * val.toNat < 2 ^ 64
  · rw [if_pos hsmall]
  · rw [if_neg hsmall] at h
    omega

/-- What is printed for a number in a field; a field of width 0 is none. -/
def numberText (base : Nat) (v width : Int) : List UInt8 :=
  if width = 0 then signOf v ++ numeral base v.natAbs
  else if 0 < width then signOf v ++ field width.toNat (numeral base v.natAbs)
  else []

theorem signOf_of_nonneg {v : Int} (h : 0 ≤ v) : signOf v = [] := if_neg (by omega)

theorem uintText_nonneg (base : Nat) (hflag : flag &&& flagNeg = 0) (n : Nat) (width : Int) :
    uintText base n flag width = numberText base n width := by
  have hsign : signText flag = [] := if_neg fun h => h hflag
  rw [uintText, numberText, hsign, signOf_of_nonneg (Int.natCast_nonneg n), Int.natAbs_natCast]

theorem uintText_neg (base : Nat) (hflag : flag &&& flagNeg = 0) {v : Int} (hv : v < 0)
    (width : Int) :
    uintText base v.natAbs (flag ||| flagNeg) width = numberText base v width := by
  have hneg : (flag ||| flagNeg) &&& flagNeg = flagNeg := by
    rw [Nat.and_or_distrib_right, hflag, Nat.zero_or, Nat.and_self]
  have hsign : signText (flag ||| flagNeg) = [chr '-'] := by
    rw [signText, hneg]
    rfl
  rw [uintText, numberText, hsign, signOf, if_pos hv]

theorem convText_number (k : Number) (va : VaList) (hflag : flag &&& flagNeg = 0) (width : Int)
    (n : Nat) :
    convText va ⟨flag, width, n, 0⟩ k.conv = numberText k.base (k.value va n) width := by
  have huint : ∀ base, uintText base (va.getuint n 0).1.toNat flag width =
      numberText base (Number.u.value va n) width := by
    intro base
    rw [uintText_nonneg base hflag, getuint_value]
  cases k with
  | d =>
      show (if (va.getint n 0).1.slt 0 then _ else _) = _
      by_cases hneg : (va.getint n 0).1.toInt < 0
      · rw [if_pos (slt_zero_iff.mpr hneg), ← getint_value]
        show uintText 10 (-(va.getint n 0).1).toNat (flag ||| flagNeg) width = _
        rw [toNat_neg_of_neg hneg]
        exact uintText_neg 10 hflag hneg width
      · rw [if_neg (fun h => hneg (slt_zero_iff.mp h)), ← getint_value, ← toNat_of_nonneg hneg]
        exact uintText_nonneg 10 hflag _ width
  | u => exact huint 10
  | o => exact huint 8
  | x => exact huint 16

/-! ## A format of one conversion -/

def numberFmt (mods : List UInt8) (k : Number) : CString :=
  .ofBytes (chr '%' :: (mods ++ [chr k.letter]))

theorem output_mods (va : VaList) {mods : List UInt8} (hmods : ∀ m ∈ mods, isModifier m = true)
    {mode : Mode} (hmode : mode ≠ .text) (st : FmtState) :
    (formatter va).output (mode, st) mods = [] := by
  induction mods generalizing mode st with
  | nil => rfl
  | cons m mods ih =>
      obtain ⟨hm, hmods⟩ := List.forall_mem_cons.mp hmods
      have hnext : mode.next m ≠ .text := by
        intro htext
        rw [(Mode.next_eq_text hmode m).mp htext] at hm
        cases hm
      have hout : (formatter va).out (mode, st) m = [] := by
        show printed va mode st m = []
        rw [printed, if_neg hmode, if_pos hm]
      rw [Transducer.output, hout, List.nil_append]
      exact ih hmods hnext _

section OneConversion

variable {mods : List UInt8} (hmods : ∀ m ∈ mods, isModifier m = true) (k : Number)

include hmods

theorem bytes_numberFmt : (numberFmt mods k).bytes = chr '%' :: (mods ++ [chr k.letter]) := by
  refine List.takeWhile_eq_self_iff.mpr ?_
  intro b hb
  have hzero : isModifier 0 = false := by decide
  rcases List.mem_cons.mp hb with rfl | hb
  · decide
  · rcases List.mem_append.mp hb with hb | hb
    · refine decide_eq_true fun h0 => ?_
      rw [h0] at hb
      rw [hmods 0 hb] at hzero
      cases hzero
    · rw [List.mem_singleton.mp hb]
      cases k <;> decide

omit hmods in
theorem Number.letter_not_modifier : isModifier (chr k.letter) = false := by
  obtain ⟨hdigit, hl, -⟩ := conv_letter k.ofChar_letter
  simp [isModifier, hdigit, hl]

theorem whole_numberFmt : Whole (numberFmt mods k).bytes := by
  rw [bytes_numberFmt hmods k]
  exact .conv hmods k.letter_not_modifier .nil

theorem output_numberFmt (va : VaList) (st : FmtState) :
    (formatter va).output (.text, st) (numberFmt mods k).bytes =
      convText va ((formatter va).final (.conv, st) mods).2 k.conv := by
  have hmode : ((formatter va).final (.conv, st) mods).1 ≠ .text := by
    rw [formatter_final_fst]
    exact foldl_mods hmods Mode.conv_ne_text
  have hletter : ¬ isModifier (chr k.letter) = true := by simp [k.letter_not_modifier]
  have hpercent : (formatter va).next (.text, st) (chr '%') = (.conv, st) := rfl
  rw [bytes_numberFmt hmods k, Transducer.output, Transducer.output_append, hpercent]
  show [] ++ ((formatter va).output (.conv, st) mods ++ (printed va _ _ _ ++ [])) = _
  rw [output_mods va hmods Mode.conv_ne_text, printed, if_neg hmode, if_neg hletter,
    k.ofChar_letter]
  simp

theorem outputs_number {va : VaList} {text : List UInt8} : Outputs (numberFmt mods k) va text ↔
    text = convText va ((formatter va).final (.conv, ⟨0, 0, 0, 0⟩) mods).2 k.conv := by
  rw [outputs_iff, and_iff_right (whole_numberFmt hmods k), fullText, output_numberFmt hmods k]

end OneConversion

/-! ### Modifiers -/

theorem final_ls (va : VaList) (n : Nat) {mode : Mode} (hmode : mode ≠ .text) (st : FmtState) :
    ((formatter va).final (mode, st) (List.replicate n (chr 'l'))).2 =
      { st with longflag := st.longflag + n } := by
  induction n generalizing mode st with
  | zero => rfl
  | succ n ih =>
      have hnext : (formatter va).next (mode, st) (chr 'l') =
          (.conv, { st with longflag := st.longflag + 1 }) := by
        show (mode.next (chr 'l'), st.next mode (chr 'l')) = _
        simp [Mode.next, FmtState.next, hmode, show isDigit (chr 'l') = false by decide]
      rw [List.replicate_succ, Transducer.final_cons, hnext, ih Mode.conv_ne_text, Nat.add_assoc,
        Nat.add_comm 1]

/-- The digits of a width. -/
theorem widthDigit_asInt {d : Nat} (hd : d < 10) (x : Nat) :
    widthDigit (asInt x) (chr (Nat.digitChar d)) = asInt (10 * x + d : Nat) := by
  have hval : ∀ d < 10, (chr (Nat.digitChar d)).toNat = (chr '0').toNat + d := by decide
  rw [widthDigit, hval d hd]
  simp only [asInt, Int.bmod_mul_bmod, Int.bmod_add_bmod]
  congr 1
  push_cast
  omega

theorem final_width (va : VaList) {ds : List Nat} (hds : ∀ d ∈ ds, d < 10)
    (flag longflag ap x : Nat) :
    (formatter va).final (.width, ⟨flag, asInt x, longflag, ap⟩) (digitText ds) =
      (.width, ⟨flag, asInt (ds.foldl (fun y d => 10 * y + d) x : Nat), longflag, ap⟩) := by
  induction ds generalizing x with
  | nil => rfl
  | cons d ds ih =>
      obtain ⟨hd, hds⟩ := List.forall_mem_cons.mp hds
      have hdigit : ∀ d < 10, isDigit (chr (Nat.digitChar d)) = true := by decide
      have hnext : (formatter va).next (.width, ⟨flag, asInt x, longflag, ap⟩)
          (chr (Nat.digitChar d)) =
            (.width, ⟨flag, asInt (10 * x + d : Nat), longflag, ap⟩) := by
        show (Mode.width.next _, FmtState.next .width _ _) = _
        rw [Mode.next, FmtState.next, if_neg Mode.width_ne_text, if_neg Mode.width_ne_text,
          if_pos ⟨rfl, hdigit d hd⟩, if_pos ⟨rfl, hdigit d hd⟩, widthDigit_asInt hd]
      rw [digitText, List.map_cons, Transducer.final_cons, hnext]
      exact ih hds _

theorem final_numeral (va : VaList) (hw : 1 ≤ w) (flag longflag ap : Nat) :
    (formatter va).final (.conv, ⟨flag, 0, longflag, ap⟩) (digitText (Nat.digits 10 w).reverse) =
      (.width, ⟨flag, asInt w, longflag, ap⟩) := by
  have hne := Nat.digits_ne_nil_iff_ne_zero (b := 10).mpr (by omega : w ≠ 0)
  have hlt : ∀ d ∈ (Nat.digits 10 w).reverse, d < 10 :=
    fun d hd => Nat.digits_lt_base (by decide) (List.mem_reverse.mp hd)
  have hvalue : (Nat.digits 10 w).reverse.foldl (fun y d => 10 * y + d) 0 = w := by
    rw [List.foldl_reverse]
    have hofDigits := Nat.ofDigits_digits 10 w
    rw [Nat.ofDigits_eq_foldr] at hofDigits
    simpa [Nat.add_comm] using hofDigits
  obtain ⟨d, ds, hcons⟩ := List.exists_cons_of_ne_nil (List.reverse_ne_nil_iff.mpr hne)
  have hlead : d ≠ 0 := by
    have hlast := Nat.getLast_digit_ne_zero 10 (by omega : w ≠ 0)
    rw [← List.head_reverse (List.reverse_ne_nil_iff.mpr hne)] at hlast
    simpa [hcons] using hlast
  rw [hcons] at hlt hvalue ⊢
  obtain ⟨hd, hds⟩ := List.forall_mem_cons.mp hlt
  have hfirst : ∀ d < 10, d ≠ 0 → isDigit (chr (Nat.digitChar d)) = true ∧
      chr (Nat.digitChar d) ≠ chr 'l' ∧ chr (Nat.digitChar d) ≠ chr '0' := by decide
  obtain ⟨hdigit, hl, h0⟩ := hfirst d hd hlead
  have hnext : (formatter va).next (.conv, ⟨flag, 0, longflag, ap⟩) (chr (Nat.digitChar d)) =
      (.width, ⟨flag, asInt (10 * 0 + d : Nat), longflag, ap⟩) := by
    show (Mode.conv.next _, FmtState.next .conv _ _) = _
    rw [← widthDigit_asInt hd 0, show asInt (0 : Nat) = 0 from rfl]
    simp [Mode.next, FmtState.next, hdigit, hl, h0]
  rw [List.foldl_cons] at hvalue
  rw [digitText, List.map_cons, Transducer.final_cons, hnext]
  have hrest := final_width va hds flag longflag ap (10 * 0 + d)
  rw [hvalue] at hrest
  exact hrest

/-- The modifiers of a field: a 0 or not, the width, and `n` `l`s. -/
def fieldMods (zero : Bool) (w n : Nat) : List UInt8 :=
  (if zero then [chr '0'] else []) ++ digitText (Nat.digits 10 w).reverse ++
    List.replicate n (chr 'l')

theorem isModifier_ls {n : Nat} {m : UInt8} (hm : m ∈ List.replicate n (chr 'l')) :
    isModifier m = true := by
  rw [List.eq_of_mem_replicate hm]
  rfl

theorem isModifier_fieldMods (zero : Bool) (w n : Nat) :
    ∀ m ∈ fieldMods zero w n, isModifier m = true := by
  intro m hm
  rcases List.mem_append.mp hm with hm | hm
  · rcases List.mem_append.mp hm with hm | hm
    · cases zero with
      | false => cases hm
      | true =>
          rw [List.mem_singleton.mp hm]
          rfl
    · obtain ⟨d, hd, rfl⟩ := List.mem_map.mp hm
      have hdigit : ∀ d < 10, isModifier (chr (Nat.digitChar d)) = true := by decide
      exact hdigit d (Nat.digits_lt_base (by decide) (List.mem_reverse.mp hd))
  · exact isModifier_ls hm

theorem final_fieldMods (va : VaList) (zero : Bool) (hw : 1 ≤ w) (n : Nat) :
    ((formatter va).final (.conv, ⟨0, 0, 0, 0⟩) (fieldMods zero w n)).2 =
      ⟨if zero then flagZeropad else 0, asInt w, n, 0⟩ := by
  have hzero : (formatter va).final (.conv, ⟨0, 0, 0, 0⟩) (if zero then [chr '0'] else []) =
      (.conv, ⟨if zero then flagZeropad else 0, 0, 0, 0⟩) := by
    cases zero <;> rfl
  rw [fieldMods, Transducer.final_append, Transducer.final_append, hzero, final_numeral va hw,
    final_ls va n Mode.width_ne_text, Nat.zero_add]

/-! ## Numbers without a width -/

/-- Every number is printed as its numeral, with a sign if it is negative, and is
what one reads there. -/
theorem vsnprintf_numeral (k : Number) (n : Nat) (va : VaList) : ∃ num,
    Outputs (numberFmt (List.replicate n (chr 'l')) k) va (signOf (k.value va n) ++ num) ∧
      IsNumeral k.base (k.value va n).natAbs num ∧
      readInt k.base (signOf (k.value va n) ++ num) = some (k.value va n) := by
  have hnum := isNumeral_numeral k.base_cases (k.value va n).natAbs
  refine ⟨numeral k.base (k.value va n).natAbs, ?_, hnum, readInt_signOf k.base_cases hnum.value⟩
  rw [outputs_number (fun m hm => isModifier_ls hm), final_ls va n Mode.conv_ne_text, Nat.zero_add,
    convText_number k va (Nat.zero_and flagNeg) 0 n]
  rfl

/-! ## Fields -/

/-- The text of a number in a field of at least `w` places. -/
structure FieldText (base : Nat) (zero : Bool) (w : Nat) (v : Int) (text : List UInt8) : Prop where
  width : w ≤ text.length
  value : readInt base text = some v
  padded : ∃ num j, IsNumeral base v.natAbs num ∧ text =
    if zero then signOf v ++ (List.replicate j (chr '0') ++ num)
    else List.replicate j (chr ' ') ++ (signOf v ++ num)

theorem length_field (w : Nat) (text : List UInt8) : (field w text).length = w := by
  rw [field, List.length_append, List.length_replicate, List.rtake, List.length_drop]
  omega

theorem field_of_le {text : List UInt8} (h : text.length ≤ w) :
    field w text = List.replicate (w - text.length) (chr '0') ++ text := by
  rw [field, List.rtake, Nat.sub_eq_zero_of_le h, List.drop_zero]

theorem length_signOf (v : Int) : (signOf v).length ≤ 1 := by
  rw [signOf]
  split <;> decide

section Field

variable {base w : Nat} (hbase : base = 8 ∨ base = 10 ∨ base = 16) {zero : Bool} {v : Int}

include hbase

/-- A field that is as wide as the number, or wider and to be filled with zeros. -/
theorem fieldText_fits (hlen : (numeral base v.natAbs).length ≤ w)
    (hpad : zero = true ∨ (numeral base v.natAbs).length = w) :
    FieldText base zero w v (signOf v ++ field w (numeral base v.natAbs)) := by
  have hnum := isNumeral_numeral hbase v.natAbs
  rw [field_of_le hlen]
  refine ⟨?_, readInt_signOf hbase (readNat_zeros hbase _ hnum.value), ?_⟩
  · simp only [List.length_append, List.length_replicate]
    omega
  · refine ⟨_, w - (numeral base v.natAbs).length, hnum, ?_⟩
    rcases hpad with rfl | hpad
    · rfl
    · rw [Nat.sub_eq_zero_of_le (by omega)]
      cases zero <;> rfl

/-- A field that is narrower loses digits. -/
theorem not_fieldText_narrow (hlen : w < (numeral base v.natAbs).length) {text : List UInt8}
    (htext : text.length ≤ (signOf v).length + w) : ¬ FieldText base zero w v text := by
  intro h
  obtain ⟨num, j, hnum, hpadded⟩ := h.padded
  have hdigits := le_length_of_readNat hbase hnum.value
  rw [← length_numeral_eq] at hdigits
  have hlong : (signOf v).length + num.length ≤ text.length := by
    rw [hpadded]
    split <;> simp only [List.length_append] <;> omega
  omega

omit hbase in
/-- Zeros are no spaces. -/
theorem not_fieldText_zeros (hlen : (numeral base v.natAbs).length < w) :
    ¬ FieldText base false w v (signOf v ++ field w (numeral base v.natAbs)) := by
  intro h
  obtain ⟨num, j, hnum, hpadded⟩ := h.padded
  rw [field_of_le (by omega), if_neg (by nofun)] at hpadded
  obtain ⟨k, hk⟩ := Nat.exists_eq_add_of_lt hlen
  rw [show w - (numeral base v.natAbs).length = k + 1 by omega, List.replicate_succ,
    List.cons_append] at hpadded
  cases j with
  | zero =>
      have hzeros := List.append_cancel_left hpadded
      have hone := hnum.lead (by rw [← hzeros]; rfl)
      rw [hone, List.cons.injEq, List.append_eq_nil_iff] at hzeros
      have hsome := length_numeral_eq base v.natAbs
      rw [hzeros.2.2, List.length_nil] at hsome
      omega
  | succ j =>
      rw [List.replicate_succ, List.cons_append] at hpadded
      by_cases hneg : v < 0
      · rw [signOf, if_pos hneg, List.singleton_append, List.cons.injEq] at hpadded
        exact absurd hpadded.1 (by decide)
      · rw [signOf, if_neg hneg, List.nil_append, List.cons.injEq] at hpadded
        exact absurd hpadded.1 (by decide)

end Field

/-- A field is right for a number exactly if its width is an `int`, the digits fit,
and where they leave room the field is to be filled with zeros. -/
theorem fieldText_iff (k : Number) (zero : Bool) {w : Nat} (hw : 1 ≤ w) (n : Nat) (va : VaList) :
    (∃ text, Outputs (numberFmt (fieldMods zero w n) k) va text ∧
      FieldText k.base zero w (k.value va n) text) ↔
      w < 2 ^ 31 ∧ max 1 (Nat.digits k.base (k.value va n).natAbs).length ≤ w ∧
        (zero = true ∨ max 1 (Nat.digits k.base (k.value va n).natAbs).length = w) := by
  have hflag : (if zero then flagZeropad else 0) &&& flagNeg = 0 := by cases zero <;> rfl
  have hshort : (numeral k.base (k.value va n).natAbs).length ≤ 22 := by
    have hone : 1 < k.base := by
      have := k.base_cases
      omega
    have hpow : 2 ^ 64 ≤ k.base ^ 22 :=
      le_trans (by decide) (Nat.pow_le_pow_left (by have := k.base_cases; omega : 8 ≤ k.base) 22)
    rw [length_numeral_eq, max_le_iff]
    exact ⟨by decide, (Nat.digits_length_le_iff hone _).mpr (lt_of_lt_of_le (natAbs_lt k va n) hpow)⟩
  have hsign := length_signOf (k.value va n)
  simp only [outputs_number (isModifier_fieldMods zero w n), final_fieldMods va zero hw,
    convText_number k va hflag, exists_eq_left, ← length_numeral_eq]
  rcases Nat.lt_or_ge w (2 ^ 31) with hlt | hge
  · -- The width is what the digits say.
    have htext : numberText k.base (k.value va n) (asInt w) =
        signOf (k.value va n) ++ field w (numeral k.base (k.value va n).natAbs) := by
      rw [asInt_of_small (by omega) (by omega), numberText, if_neg (by omega), if_pos (by omega),
        Int.toNat_natCast]
    rw [htext, and_iff_right hlt]
    rcases Nat.lt_trichotomy (numeral k.base (k.value va n).natAbs).length w with h | h | h
    · cases zero with
      | true => exact iff_of_true (fieldText_fits k.base_cases (by omega) (.inl rfl)) ⟨by omega, .inl rfl⟩
      | false => exact iff_of_false (not_fieldText_zeros h) (by simp; omega)
    · exact iff_of_true (fieldText_fits k.base_cases (by omega) (.inr h)) ⟨by omega, .inr h⟩
    · refine iff_of_false (not_fieldText_narrow k.base_cases h ?_) (by omega)
      rw [List.length_append, length_field]
  · -- It is another one, and a smaller one.
    refine iff_of_false ?_ (by omega)
    intro h
    have hwidth := h.width
    have hmod : asInt (w : Int) ≤ w - 2 ^ 32 := by
      rw [asInt, Int.bmod_def]
      omega
    rw [numberText] at hwidth
    split at hwidth
    · rw [List.length_append] at hwidth
      omega
    · split at hwidth
      · rw [List.length_append, length_field] at hwidth
        omega
      · simp at hwidth
        omega

/-- A negative number in eight places, to be filled with zeros. -/
theorem fieldText_eight : 1 ≤ 8 ∧
    ((∃ text, Outputs (numberFmt (fieldMods true 8 0) .d) sampleArgs text ∧
      FieldText Number.d.base true 8 (Number.d.value sampleArgs 0) text) ↔
      8 < 2 ^ 31 ∧ max 1 (Nat.digits Number.d.base (Number.d.value sampleArgs 0).natAbs).length ≤ 8 ∧
        (true = true ∨
          max 1 (Nat.digits Number.d.base (Number.d.value sampleArgs 0).natAbs).length = 8)) :=
  ⟨by decide, fieldText_iff .d true (by decide) 0 sampleArgs⟩

/-- 12345 in two places and 7 in three. -/
theorem field_drops_digits :
    (returned (vsnprintf 16 (.ofString "%2d") ⟨fun _ => 12345, fun _ => .ofString ""⟩)
        (fun _ => 0xff) (fun result str => (result, (List.range 4).map str)) =
      some (2, [chr '4', chr '5', 0, 0xff]) ∧ ¬ FieldText 10 false 2 12345 [chr '4', chr '5']) ∧
    returned (vsnprintf 16 (.ofString "%3u") ⟨fun _ => 7, fun _ => .ofString ""⟩)
        (fun _ => 0xff) (fun result str => (result, (List.range 4).map str)) =
      some (3, [chr '0', chr '0', chr '7', 0]) ∧
      ¬ FieldText 10 false 3 7 [chr '0', chr '0', chr '7'] :=
  ⟨⟨by decide +kernel, not_fieldText_narrow (.inr (.inl rfl)) (by decide +kernel) (by decide)⟩,
    by decide +kernel,
    not_fieldText_zeros (show (numeral 10 (7 : Int).natAbs).length < 3 by decide +kernel)⟩

end Aim.Kern
