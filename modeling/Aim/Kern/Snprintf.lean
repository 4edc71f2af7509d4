import Aim.Kern.Libc

/-!
# `lib/libc/snprintf.c`

`vsnprintf` writes a character at a time through `set_ch`, which returns from
the whole function when the array is full. The locals of the function are passed
along; what is left to write to is the array `str`, by index, and `pos`. A write
behind `size` bytes, and an access to the digits in `buf` that are not there,
stop with an error of their own.

The arguments are the words on the stack, of which an `int`, a `long` and a
pointer take one and a `long long` two. A pointer stands for the string it
points to.

`pos` is compared with `size` as an unsigned number, and an index is an address
in the end, so it is a number that does not wrap before `size` is reached.
-/

namespace Aim.Kern

open Aim.Lib

/-- How the function is left early: by `return`, or by an error. -/
inductive Leave where
  | ret (result : Nat)
  | stop (e : Stop)
  deriving DecidableEq, Repr

structure OutBuf where
  str : Nat → UInt8
  pos : Nat

abbrev Print := EStateM Leave OutBuf

def setCh (size : Nat) (ch : UInt8) : Print Unit := do
  let b ← get
  if size ≤ b.pos then throw (.stop (.oob b.pos))
  set { b with str := Function.update b.str b.pos ch, pos := b.pos + 1 }
  if b.pos + 1 = size then do
    modify fun b => { b with str := Function.update b.str (size - 1) 0 }
    throw (.ret size)

/-- A character of the source text. -/
def chr (c : Char) : UInt8 := c.toNat.toUInt8

def isDigit (ch : UInt8) : Bool := chr '0' ≤ ch ∧ ch ≤ chr '9'

/-- The macro `digits`. -/
def digits (x : Nat) : UInt8 :=
  if x.toUInt8 ≤ 9 then chr '0' + x.toUInt8 else chr 'a' + x.toUInt8 - 10

/-- The words of the arguments, and the strings that pointers point to. -/
structure VaList where
  word : Nat → BitVec 32
  string : BitVec 32 → CString

/-- `getint`: the value, and what follows it. -/
def VaList.getint (va : VaList) (longflag ap : Nat) : BitVec 64 × Nat :=
  if longflag = 0 ∨ longflag = 1 then ((va.word ap).signExtend 64, ap + 1)
  else (va.word (ap + 1) ++ va.word ap, ap + 2)

/-- `getuint`. -/
def VaList.getuint (va : VaList) (longflag ap : Nat) : BitVec 64 × Nat :=
  if longflag = 0 ∨ longflag = 1 then ((va.word ap).setWidth 64, ap + 1)
  else (va.word (ap + 1) ++ va.word ap, ap + 2)

def flagZeropad : Nat := 0x002

def flagNeg : Nat := 0x100

/-! ## Numbers -/

/-- `sizeof(buf)`. -/
def bufBytes : Nat := 25

/-- `buf[buf_pos++] = ch`. -/
def pushBuf (buf : List UInt8) (ch : UInt8) : Print (List UInt8) := do
  if bufBytes ≤ buf.length then throw (.stop (.oob buf.length))
  return buf ++ [ch]

def readBuf (buf : List UInt8) (i : Nat) : Print UInt8 :=
  match buf[i]? with
  | some ch => return ch
  | none => throw (.stop (.oob i))

/-- The loop that takes a number apart, from its last digit. -/
def digitLoop (base : Nat) : Nat → Nat → List UInt8 → Print (List UInt8)
  | 0, _, _ => throw (.stop .fuel)
  | fuel + 1, uval, buf =>
      if 0 < uval then do
        let buf ← pushBuf buf (digits (uval % base))
        digitLoop base fuel (uval / base) buf
      else return buf

/-- The loop that prints the digits, with `n` left. -/
def digitsDown (size : Nat) (buf : List UInt8) : Nat → Print Unit
  | 0 => return ()
  | n + 1 => do
      setCh size (← readBuf buf n)
      digitsDown size buf n

/-- The loops that print the digits in a field, with `n` places left. -/
def fieldDown (size : Nat) (fill : UInt8) (buf : List UInt8) : Nat → Print Unit
  | 0 => return ()
  | n + 1 => do
      if buf.length ≤ n then setCh size fill else setCh size (← readBuf buf n)
      fieldDown size fill buf n

/-- `if (buf_pos == 0) buf[buf_pos++] = '0'`. -/
def someDigit (buf : List UInt8) : Print (List UInt8) :=
  if buf.length = 0 then pushBuf buf (chr '0') else return buf

/-- `if (flag & FLAG_NEG) set_ch('-')`. -/
def putSign (size flag : Nat) : Print Unit :=
  if flag &&& flagNeg ≠ 0 then setCh size (chr '-') else return ()

/-- `if (flag & FLAG_NEG) buf[buf_pos++] = '-'`. -/
def pushSign (flag : Nat) (buf : List UInt8) : Print (List UInt8) :=
  if flag &&& flagNeg ≠ 0 then pushBuf buf (chr '-') else return buf

/-- From the label `print_uint`. The condition of the second branch has `|` where
one expects `&`, and is true for every width. -/
def printUint (size base : Nat) (uval : BitVec 64) (flag : Nat) (width : Int) : Print Unit := do
  let buf ← digitLoop base 65 uval.toNat []
  let buf ← someDigit buf
  if width = 0 then do
    putSign size flag
    digitsDown size buf buf.length
  else if 0 < width ∧ flag ||| flagZeropad ≠ 0 then do
    putSign size flag
    fieldDown size (chr '0') buf width.toNat
  else if 0 < width then do
    let buf ← pushSign flag buf
    fieldDown size (chr ' ') buf width.toNat
  else return ()

/-! ## Conversions -/

/-- The locals that go from one conversion to the next. -/
structure FmtState where
  flag : Nat
  width : Int
  longflag : Nat
  ap : Nat
  deriving DecidableEq

inductive Conv where
  | d
  | o
  | x
  | p
  | u
  | c
  | s
  | percent
  deriving DecidableEq, Repr

def Conv.ofChar (ch : UInt8) : Option Conv :=
  if ch = chr 'd' then some .d
  else if ch = chr 'o' then some .o
  else if ch = chr 'x' then some .x
  else if ch = chr 'p' then some .p
  else if ch = chr 'u' then some .u
  else if ch = chr 'c' then some .c
  else if ch = chr 's' then some .s
  else if ch = chr '%' then some .percent
  else none

/-- After a conversion. -/
def FmtState.done (st : FmtState) : FmtState := { st with flag := 0, width := 0 }

/-- From the label `get_uint`. -/
def convUint (size : Nat) (va : VaList) (base : Nat) (st : FmtState) : Print FmtState := do
  let (uval, ap) := va.getuint st.longflag st.ap
  printUint size base uval st.flag st.width
  return { st with longflag := 0, ap := ap }.done

def spaces (size : Nat) : Nat → Print Unit
  | 0 => return ()
  | n + 1 => do
      setCh size (chr ' ')
      spaces size n

def conv (size : Nat) (va : VaList) (st : FmtState) : Conv → Print FmtState
  | .d => do
      let (val, ap) := va.getint st.longflag st.ap
      let (uval, flag) := if val.slt 0 then (-val, st.flag ||| flagNeg) else (val, st.flag)
      printUint size 10 uval flag st.width
      return { st with longflag := 0, ap := ap }.done
  | .o => convUint size va 8 st
  | .x => convUint size va 16 st
  | .p => convUint size va 16
      { st with flag := st.flag ||| flagZeropad, longflag := 1, width := 8 }
  | .u => convUint size va 10 st
  | .c => do
      setCh size (UInt8.ofBitVec ((va.word st.ap).setWidth 8))
      return { st with ap := st.ap + 1 }.done
  | .s => do
      let p := va.word st.ap
      let s := if p = 0 then .ofString "(null)" else va.string p
      s.bytes.forM (setCh size)
      spaces size (st.width - asInt s.bytes.length).toNat
      return { st with ap := st.ap + 1 }.done
  | .percent => do
      setCh size (chr '%')
      return st.done

/-! ## The format -/

/-- Where the loop is: in the text, behind a `%`, or in the digits of a width. -/
inductive Mode where
  | text
  | conv
  | width
  deriving DecidableEq, Repr

/-- The digits of a width, on an `ssize_t`. -/
def widthDigit (width : Int) (ch : UInt8) : Int :=
  asInt (asInt (width * 10) + (ch.toNat - (chr '0').toNat))

/-- The loop over the format. A format that ends within a conversion is read
past its end: the default case prints the terminating NUL as a character. -/
def fmtLoop (size : Nat) (va : VaList) : List UInt8 → Mode → FmtState → Print Unit
  | [], .text, _ => setCh size 0
  | [], _, _ => do
      setCh size (chr '%')
      setCh size 0
      throw (.stop (.oob 1))
  | ch :: fmt, .text, st =>
      if ch = chr '%' then fmtLoop size va fmt .conv st
      else do
        setCh size ch
        fmtLoop size va fmt .text st
  | ch :: fmt, mode, st =>
      if mode = .width ∧ isDigit ch then
        fmtLoop size va fmt .width { st with width := widthDigit st.width ch }
      else if ch = chr 'l' then
        fmtLoop size va fmt .conv { st with longflag := st.longflag + 1 }
      else if ch = chr '0' then
        fmtLoop size va fmt .conv { st with flag := st.flag ||| flagZeropad }
      else if isDigit ch then
        fmtLoop size va fmt .width { st with width := widthDigit st.width ch }
      else
        match Conv.ofChar ch with
        | some k => do
            let st ← conv size va st k
            fmtLoop size va fmt .text st
        | none => do
            setCh size (chr '%')
            setCh size ch
            fmtLoop size va fmt .text st

/-- What a call of `vsnprintf` comes to: the number of characters without the NUL
at the end of the format, or what an early `return` answers. -/
def Print.finish : EStateM.Result Leave OutBuf Unit → EStateM.Result Stop (Nat → UInt8) Int
  | .ok _ b => .ok (asInt (b.pos - 1)) b.str
  | .error (.ret result) b => .ok (asInt result) b.str
  | .error (.stop e) b => .error e b.str

def vsnprintf (size : Nat) (fmt : CString) (va : VaList) : EStateM Stop (Nat → UInt8) Int :=
  fun str => Print.finish ((fmtLoop size va fmt.bytes .text ⟨0, 0, 0, 0⟩).run ⟨str, 0⟩)

end Aim.Kern
