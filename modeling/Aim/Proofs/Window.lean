import Aim.Kern.Pmm

/-!
# Memory seen through the window

A physical byte below `KERN_BASE` is seen at two kernel addresses. `Sees a f`
says that the kernel address `a` is one of those of the physical address `f`,
and the lemmas reduce accesses by kernel address to what they do to physical
words.
-/

namespace Aim.Kern

open Aim.Lib Mem

variable {m : Mem} {a f x v n i : Nat} {c : UInt8}

def Sees (a f : Nat) : Prop := f < kernBase ∧ (a = f ∨ a = f + kernBase)

theorem sees_low (h : f < kernBase) : Sees f f := ⟨h, .inl rfl⟩

theorem sees_high (h : f < kernBase) : Sees (f + kernBase) f := ⟨h, .inr rfl⟩

theorem sees_pa2kva (h : f < kernBase) : Sees (pa2kva f) f := by
  refine ⟨h, Or.inr ?_⟩
  rw [pa2kva]
  rw [kernBase] at *
  omega

theorem Sees.premapAddr_eq (h : Sees a f) : premapAddr a = f := by
  obtain ⟨hf, ha⟩ := h
  rw [premapAddr]
  rw [kernBase] at *
  split <;> omega

/-- Further along in a stretch that stays below `KERN_BASE`. -/
theorem Sees.add (h : Sees a f) (hi : f + i < kernBase) : Sees ((a + i) % 2 ^ 32) (f + i) := by
  obtain ⟨hf, ha⟩ := h
  refine ⟨hi, ?_⟩
  rw [kernBase] at *
  omega

/-- The distance goes round in `2 ^ 31`. -/
theorem windowDist_int (a x : Nat) : windowDist a x = (((x : Int) - a) % 2 ^ 31).toNat := by
  rw [windowDist, Mem.dist, Mem.dist, kernBase]
  omega

/-- A physical byte is as far behind the kernel address as behind the physical one. -/
theorem windowDist_eq (h : Sees a f) : windowDist a x = (((x : Int) - f) % 2 ^ 31).toNat := by
  obtain ⟨-, ha⟩ := h
  rw [kernBase] at ha
  rw [windowDist_int]
  omega

theorem windowDist_pa2kva (f x : Nat) :
    windowDist (pa2kva f) x = (((x : Int) - f) % 2 ^ 31).toNat := by
  rw [windowDist_int, pa2kva, kernBase]
  omega

theorem windowDist_lt_iff (h : Sees a f) (hx : x < kernBase) (hn : f + n ≤ kernBase) :
    windowDist a x < n ↔ f ≤ x ∧ x < f + n := by
  rw [windowDist_eq h]
  obtain ⟨hf, -⟩ := h
  rw [kernBase] at *
  omega

theorem windowDist_add (h : Sees a f) (hi : f + i < kernBase) : windowDist a (f + i) = i := by
  rw [windowDist_eq h]
  rw [kernBase] at hi
  omega

theorem kload32_bytes (m : Mem) (a : Nat) : kload32 m a =
    (m (premapAddr (a % 2 ^ 32))).toNat + 2 ^ 8 * (m (premapAddr ((a + 1) % 2 ^ 32))).toNat +
      2 ^ 16 * (m (premapAddr ((a + 2) % 2 ^ 32))).toNat +
      2 ^ 24 * (m (premapAddr ((a + 3) % 2 ^ 32))).toNat := rfl

theorem kload32_lt (m : Mem) (a : Nat) : kload32 m a < 2 ^ 32 := by
  have h0 := (m (premapAddr (a % 2 ^ 32))).toNat_lt
  have h1 := (m (premapAddr ((a + 1) % 2 ^ 32))).toNat_lt
  have h2 := (m (premapAddr ((a + 2) % 2 ^ 32))).toNat_lt
  have h3 := (m (premapAddr ((a + 3) % 2 ^ 32))).toNat_lt
  rw [kload32_bytes]
  omega

theorem kload32_eq (h : Sees a f) (hf : f + 4 ≤ kernBase) : kload32 m a = load32 m f := by
  have hbyte : ∀ i < 4, premapAddr ((a + i) % 2 ^ 32) = (f + i) % 2 ^ 32 := by
    intro i hi
    rw [(h.add (show f + i < kernBase by omega)).premapAddr_eq, Nat.mod_eq_of_lt]
    rw [kernBase] at hf
    omega
  have h0 := hbyte 0 (by omega)
  rw [Nat.add_zero, Nat.add_zero] at h0
  rw [kload32_bytes, load32, h0, hbyte 1 (by omega), hbyte 2 (by omega), hbyte 3 (by omega)]

theorem kstore32_at (h : Sees a f) (hi : i < 4) (hf : f + 4 ≤ kernBase) :
    kstore32 m a v (f + i) = UInt8.ofNat (v / 2 ^ (8 * i)) := by
  have hlt : f + i < kernBase := by omega
  rw [kstore32, windowDist_add h hlt, if_pos ⟨hlt, hi⟩]

theorem load32_kstore32_self (h : Sees a f) (hf : f + 4 ≤ kernBase) :
    load32 (kstore32 m a v) f = v % 2 ^ 32 := by
  have hbyte : ∀ i < 4, kstore32 m a v ((f + i) % 2 ^ 32) = UInt8.ofNat (v / 2 ^ (8 * i)) := by
    intro i hi
    rw [Nat.mod_eq_of_lt (by rw [kernBase] at hf; omega)]
    exact kstore32_at h hi hf
  have h0 := hbyte 0 (by omega)
  rw [Nat.add_zero] at h0
  rw [load32, h0, hbyte 1 (by omega), hbyte 2 (by omega), hbyte 3 (by omega)]
  simp only [UInt8.toNat_ofNat']
  omega

theorem kstore32_of_outside (h : Sees a f) (hf : f + 4 ≤ kernBase) (hx : x < f ∨ f + 4 ≤ x) :
    kstore32 m a v x = m x := by
  rw [kstore32]
  refine if_neg fun hin => ?_
  have := (windowDist_lt_iff h hin.1 hf).mp hin.2
  omega

theorem load32_kstore32_ne {b : Nat} (h : Sees a f) (hf : f + 4 ≤ kernBase)
    (hb : b + 4 ≤ 2 ^ 32) (hne : f + 4 ≤ b ∨ b + 4 ≤ f) :
    load32 (kstore32 m a v) b = load32 m b :=
  load32_congr hb fun x hlo hhi => kstore32_of_outside h hf (by omega)

theorem kfill_of_outside (h : Sees a f) (hf : f + n ≤ kernBase) (hx : x < f ∨ f + n ≤ x) :
    kfill m a c n x = m x := by
  rw [kfill]
  refine if_neg fun hin => ?_
  have := (windowDist_lt_iff h hin.1 hf).mp hin.2
  omega

/-- A fill that the kernel sees at the physical addresses themselves, or through the
window. -/
theorem kfill_eq_put (hf : f + n ≤ kernBase) : kfill m (pa2kva f) c n = m.put f n fun _ => c := by
  funext x
  have hin : x < kernBase ∧ windowDist (pa2kva f) x < n ↔ f ≤ x ∧ x < f + n := by
    rw [windowDist_pa2kva]
    rw [kernBase] at *
    omega
  rw [kfill, put]
  simp only [hin]

theorem kfill_congr {a' : Nat} (m : Mem) (c : UInt8) (n : Nat) (h : a % 2 ^ 32 = a' % 2 ^ 32) :
    kfill m a c n = kfill m a' c n := by
  funext x
  have hd : windowDist a x = windowDist a' x := by
    rw [windowDist_int, windowDist_int]
    omega
  rw [kfill, kfill, hd]

@[simp] theorem kfill_zero (m : Mem) (a : Nat) (c : UInt8) : kfill m a c 0 = m := by
  funext x
  exact if_neg fun h => Nat.not_lt_zero _ h.2

/-- Two fills next to each other are one. -/
theorem kfill_kfill (m : Mem) (a : Nat) (c : UInt8) (n k : Nat) :
    kfill (kfill m a c n) (a + n) c k = kfill m a c (n + k) := by
  funext x
  have hd : windowDist a x < n ∨ windowDist (a + n) x = windowDist a x - n := by
    rw [windowDist_int, windowDist_int]
    omega
  unfold kfill
  grind

/-- A fill with what is there already. -/
theorem kfill_eq_self_iff : kfill m a c n = m ↔ ∀ x < kernBase, windowDist a x < n → m x = c := by
  constructor
  · intro h x hx hd
    have hfill := congrFun h x
    rw [kfill, if_pos ⟨hx, hd⟩] at hfill
    exact hfill.symm
  · intro h
    funext x
    rw [kfill]
    split
    · next hx => exact (h x hx.1 hx.2).symm
    · rfl

theorem load32_kfill_zero {b : Nat} (h : Sees a f) (hf : f + n ≤ kernBase) (hlo : f ≤ b)
    (hhi : b + 4 ≤ f + n) : load32 (kfill m a 0 n) b = 0 := by
  have hbyte : ∀ i < 4, kfill m a 0 n ((b + i) % 2 ^ 32) = 0 := by
    intro i hi
    have hlt : b + i < kernBase := by omega
    rw [Nat.mod_eq_of_lt (by rw [kernBase] at hf; omega), kfill]
    exact if_pos ⟨hlt, (windowDist_lt_iff h hlt hf).mpr (by omega)⟩
  have h0 := hbyte 0 (by omega)
  rw [Nat.add_zero] at h0
  rw [load32, h0, hbyte 1 (by omega), hbyte 2 (by omega), hbyte 3 (by omega)]
  rfl

theorem kcopy_of_outside {src : Nat} (h : Sees a f) (hf : f + n ≤ kernBase)
    (hx : x < f ∨ f + n ≤ x) : kcopy m a src n x = m x := by
  rw [kcopy]
  refine if_neg fun hin => ?_
  have := (windowDist_lt_iff h hin.1 hf).mp hin.2
  omega

end Aim.Kern
