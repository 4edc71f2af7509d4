import Aim.Kern.Snprintf

/-!
# `kern/panic/panic.c`

`panic` formats its message into the static array `__buf` and prints it by
`kputs`, with a word before it where it was cut. The state is the array. That
interrupts are off and the other processors are stopped is left out, as is
`__local_panic`, which does not return.
-/

namespace Aim.Kern

open Aim.Lib

/-- `BUFSIZ`. -/
def bufsiz : Nat := 1024

/-- The strings that are printed. -/
def panic (fmt : CString) (va : VaList) : EStateM Stop (Nat → UInt8) (List CString) := do
  let result ← vsnprintf bufsiz fmt va
  let buf ← get
  return .ofString "----- KERNEL PANIC -----\n" ::
    (if (bufsiz : Int) ≤ result then [.ofString "PANIC: message is truncated."] else []) ++
      [.ofBytes ((List.range bufsiz).map buf)]

end Aim.Kern
