import Aim.Lib.Run
import Mathlib.Data.List.TakeWhile

/-!
# `lib/libc`: strings and blocks of bytes

A C string is its bytes up to the terminating NUL. `strcmp` compares byte by
byte, with the NUL as the byte behind the end. `memcmp` compares two blocks of
the same length.
-/

namespace Aim.Kern

structure CString where
  bytes : List UInt8
  nonzero : ∀ b ∈ bytes, b ≠ 0
  deriving DecidableEq

/-- The string at the start of some bytes. -/
def CString.ofBytes (bytes : List UInt8) : CString where
  bytes := bytes.takeWhile (· ≠ 0)
  nonzero b hb := by simpa using List.all_eq_true.mp List.all_takeWhile b hb

def CString.ofString (s : String) : CString := .ofBytes s.toUTF8.data.toList

def strcmpLoop : List UInt8 → List UInt8 → Int
  | [], [] => 0
  | [], c₂ :: _ => 0 - c₂.toNat
  | c₁ :: _, [] => c₁.toNat - 0
  | c₁ :: s₁, c₂ :: s₂ => if c₁ = c₂ then strcmpLoop s₁ s₂ else c₁.toNat - c₂.toNat

def strcmp (s₁ s₂ : CString) : Int := strcmpLoop s₁.bytes s₂.bytes

theorem strcmpLoop_eq_zero {s₁ s₂ : List UInt8} (h₁ : ∀ b ∈ s₁, b ≠ 0) (h₂ : ∀ b ∈ s₂, b ≠ 0) :
    strcmpLoop s₁ s₂ = 0 ↔ s₁ = s₂ := by
  have hpos : ∀ {c : UInt8}, c ≠ 0 → (c.toNat : Int) ≠ 0 := by
    intro c hc h0
    exact hc (UInt8.toNat_inj.mp (by simpa using h0))
  induction s₁ generalizing s₂ with
  | nil =>
      cases s₂ with
      | nil => simp [strcmpLoop]
      | cons c₂ s₂ =>
          have hc := hpos (h₂ c₂ List.mem_cons_self)
          simp only [strcmpLoop, reduceCtorEq, iff_false]
          omega
  | cons c₁ s₁ ih =>
      cases s₂ with
      | nil =>
          have hc := hpos (h₁ c₁ List.mem_cons_self)
          simp only [strcmpLoop, reduceCtorEq, iff_false]
          omega
      | cons c₂ s₂ =>
          rw [strcmpLoop, List.cons.injEq]
          by_cases hc : c₁ = c₂
          · have htail : strcmpLoop s₁ s₂ = 0 ↔ s₁ = s₂ :=
              ih (fun b hb => h₁ b (List.mem_cons_of_mem _ hb))
                fun b hb => h₂ b (List.mem_cons_of_mem _ hb)
            rw [if_pos hc]
            exact ⟨fun h => ⟨hc, htail.mp h⟩, fun h => htail.mpr h.2⟩
          · rw [if_neg hc]
            constructor
            · intro h
              exact absurd (UInt8.toNat_inj.mp (by omega)) hc
            · intro h
              exact absurd h.1 hc

/-- `strcmp` answers 0 for equal strings only. -/
theorem strcmp_eq_zero {s₁ s₂ : CString} : strcmp s₁ s₂ = 0 ↔ s₁ = s₂ := by
  rw [strcmp, strcmpLoop_eq_zero s₁.nonzero s₂.nonzero, CString.mk.injEq]

/-- The string in an array of `dsize` bytes after `strlcpy`, where the source
ends within these bytes. -/
def strlcpy (src : CString) (dsize : Nat) : CString := .ofBytes (src.bytes.take dsize)

theorem strlcpy_of_lt {src : CString} {dsize : Nat} (h : src.bytes.length < dsize) :
    strlcpy src dsize = src := by
  rw [strlcpy, List.take_of_length_le (by omega), CString.mk.injEq]
  exact List.takeWhile_eq_self_iff.mpr fun b hb => by simpa using src.nonzero b hb

/-- `memcmp`. The last bytes are compared outside of the loop. -/
def memcmp : List UInt8 → List UInt8 → Int
  | b₁ :: buf₁, b₂ :: buf₂ =>
      if buf₁ ≠ [] ∧ b₁ = b₂ then memcmp buf₁ buf₂ else b₁.toNat - b₂.toNat
  | _, _ => 0

/-- `memcmp` answers 0 for equal blocks only. -/
theorem memcmp_eq_zero {buf₁ buf₂ : List UInt8} (h : buf₁.length = buf₂.length) :
    memcmp buf₁ buf₂ = 0 ↔ buf₁ = buf₂ := by
  have hbyte : ∀ {a b : UInt8}, (a.toNat : Int) - b.toNat = 0 ↔ a = b := by
    intro a b
    refine ⟨fun h => UInt8.toNat_inj.mp (by omega), fun h => ?_⟩
    rw [h]
    omega
  induction buf₁ generalizing buf₂ with
  | nil =>
      cases buf₂ with
      | nil => simp [memcmp]
      | cons b₂ buf₂ => cases h
  | cons b₁ buf₁ ih =>
      cases buf₂ with
      | nil => cases h
      | cons b₂ buf₂ =>
          have hlen : buf₁.length = buf₂.length := Nat.succ.inj h
          have htail := ih hlen
          rw [memcmp, List.cons.injEq]
          by_cases hround : buf₁ ≠ [] ∧ b₁ = b₂
          · rw [if_pos hround]
            exact ⟨fun h => ⟨hround.2, htail.mp h⟩, fun h => htail.mpr h.2⟩
          · rw [if_neg hround]
            constructor
            · intro hb
              have hlast : buf₁ = [] := Decidable.byContradiction fun hne =>
                hround ⟨hne, hbyte.mp hb⟩
              have hlast₂ : buf₂ = [] := by
                rw [← List.length_eq_zero_iff, ← hlen, hlast]
                rfl
              exact ⟨hbyte.mp hb, by rw [hlast, hlast₂]⟩
            · intro hb
              exact hbyte.mpr hb.1

end Aim.Kern
