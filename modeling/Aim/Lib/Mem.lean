import Aim.Lib.Run

/-!
# A 32-bit byte memory

Addresses are natural numbers and are reduced modulo `2 ^ 32` when memory is
accessed, so an access at the top of the address space wraps around as it
does on the machine. Words are little-endian.

The results about words are of two kinds: what is read back from the place
that was written, and what is read next to it. The second kind is always
reduced to bytes by `load32_congr`.
-/

namespace Aim.Lib

open Function

/-- The contents of the address space. Only addresses below `2 ^ 32` are ever
looked at. -/
def Mem : Type := Nat → UInt8

namespace Mem

/-- How far the address `x` lies behind `a`, going round. -/
def dist (a x : Nat) : Nat := (((x : Int) - a) % 2 ^ 32).toNat

def load32 (m : Mem) (a : Nat) : Nat :=
  (m (a % 2 ^ 32)).toNat + 2 ^ 8 * (m ((a + 1) % 2 ^ 32)).toNat +
    2 ^ 16 * (m ((a + 2) % 2 ^ 32)).toNat + 2 ^ 24 * (m ((a + 3) % 2 ^ 32)).toNat

def store8 (m : Mem) (a : Nat) (v : UInt8) : Mem := update m (a % 2 ^ 32) v

def store32 (m : Mem) (a v : Nat) : Mem := fun x =>
  if dist a x < 4 then UInt8.ofNat (v / 2 ^ (8 * dist a x)) else m x

/-- The `n` bytes from `a` on are set to `b`. -/
def fill (m : Mem) (a : Nat) (b : UInt8) (n : Nat) : Mem := fun x =>
  if dist a x < n then b else m x

theorem dist_add {a i : Nat} (hi : i < 2 ^ 32) : dist a ((a + i) % 2 ^ 32) = i := by
  unfold dist
  omega

/-- An address outside `[a, a + n)`, for a range that does not go round. -/
theorem le_dist {a n x : Nat} (ha : a + n ≤ 2 ^ 32) (hx : x < 2 ^ 32)
    (h : x < a ∨ a + n ≤ x) : n ≤ dist a x := by
  unfold dist
  omega

theorem load32_lt (m : Mem) (a : Nat) : load32 m a < 2 ^ 32 := by
  unfold load32
  have h0 := (m (a % 2 ^ 32)).toNat_lt
  have h1 := (m ((a + 1) % 2 ^ 32)).toNat_lt
  have h2 := (m ((a + 2) % 2 ^ 32)).toNat_lt
  have h3 := (m ((a + 3) % 2 ^ 32)).toNat_lt
  omega

variable {m m' : Mem} {v : UInt8}

theorem byte_of_load32 {a v i : Nat} (h : load32 m a = v) (hi : i < 4) :
    (m ((a + i) % 2 ^ 32)).toNat = v / 2 ^ (8 * i) % 256 := by
  have h0 := (m (a % 2 ^ 32)).toNat_lt
  have h1 := (m ((a + 1) % 2 ^ 32)).toNat_lt
  have h2 := (m ((a + 2) % 2 ^ 32)).toNat_lt
  have h3 := (m ((a + 3) % 2 ^ 32)).toNat_lt
  unfold load32 at h
  rcases (by omega : i = 0 ∨ i = 1 ∨ i = 2 ∨ i = 3) with rfl | rfl | rfl | rfl
  · rw [Nat.add_zero]
    omega
  · omega
  · omega
  · omega

/-- A word that was moved. -/
theorem load32_moved {a b : Nat} (ha : a + 4 ≤ 2 ^ 32) (hb : b + 4 ≤ 2 ^ 32)
    (h : ∀ i < 4, m' (a + i) = m (b + i)) : load32 m' a = load32 m b := by
  have hbyte : ∀ i < 4, m' ((a + i) % 2 ^ 32) = m ((b + i) % 2 ^ 32) := by
    intro i hi
    rw [Nat.mod_eq_of_lt (by omega), Nat.mod_eq_of_lt (by omega), h i hi]
  have h0 := hbyte 0 (by omega)
  rw [Nat.add_zero, Nat.add_zero] at h0
  rw [load32, load32, h0, hbyte 1 (by omega), hbyte 2 (by omega), hbyte 3 (by omega)]

/-- A word is what its bytes are. -/
theorem load32_congr {a : Nat} (ha : a + 4 ≤ 2 ^ 32) (h : ∀ x, a ≤ x → x < a + 4 → m' x = m x) :
    load32 m' a = load32 m a := by
  unfold load32
  rw [h (a % 2 ^ 32) (by omega) (by omega), h ((a + 1) % 2 ^ 32) (by omega) (by omega),
    h ((a + 2) % 2 ^ 32) (by omega) (by omega), h ((a + 3) % 2 ^ 32) (by omega) (by omega)]

theorem store32_at (m : Mem) (a v : Nat) {i : Nat} (hi : i < 4) :
    store32 m a v ((a + i) % 2 ^ 32) = UInt8.ofNat (v / 2 ^ (8 * i)) := by
  rw [store32, dist_add (by omega), if_pos hi]

theorem load32_store32_self (m : Mem) (a v : Nat) : load32 (store32 m a v) a = v % 2 ^ 32 := by
  have h0 := store32_at m a v (show 0 < 4 by omega)
  rw [Nat.add_zero] at h0
  rw [load32, h0, store32_at m a v (show 1 < 4 by omega),
    store32_at m a v (show 2 < 4 by omega), store32_at m a v (show 3 < 4 by omega)]
  simp only [UInt8.toNat_ofNat']
  omega

theorem store32_of_outside {a v x : Nat} (ha : a + 4 ≤ 2 ^ 32) (hx : x < 2 ^ 32)
    (h : x < a ∨ a + 4 ≤ x) : store32 m a v x = m x := by
  have hd := le_dist ha hx h
  rw [store32, if_neg (by omega)]

theorem load32_store32_ne {a b v : Nat} (ha : a + 4 ≤ 2 ^ 32) (hb : b + 4 ≤ 2 ^ 32)
    (h : a + 4 ≤ b ∨ b + 4 ≤ a) :
    load32 (store32 m a v) b = load32 m b :=
  load32_congr hb fun x hlo hhi => store32_of_outside ha (by omega) (by omega)

theorem fill_again (m : Mem) (a : Nat) (b : UInt8) (n : Nat) :
    fill (fill m a b n) a b n = fill m a b n := by
  funext x
  unfold fill
  split <;> rfl

/-- A fill with what is there already. -/
theorem fill_eq_self_iff {a n : Nat} {b : UInt8} :
    fill m a b n = m ↔ ∀ x, dist a x < n → m x = b := by
  constructor
  · intro h x hx
    have hfill := congrFun h x
    rw [fill, if_pos hx] at hfill
    exact hfill.symm
  · intro h
    funext x
    rw [fill]
    split
    · next hx => exact (h x hx).symm
    · rfl

theorem load32_fill_ne {a b n : Nat} {c : UInt8} (ha : a + n ≤ 2 ^ 32) (hb : b + 4 ≤ 2 ^ 32)
    (h : a + n ≤ b ∨ b + 4 ≤ a) :
    load32 (fill m a c n) b = load32 m b := by
  refine load32_congr hb fun x hlo hhi => ?_
  have hd : n ≤ dist a x := le_dist ha (by omega) (by omega)
  rw [fill, if_neg (by omega)]

theorem store8_self {a x : Nat} (h : x = a % 2 ^ 32) : store8 m a v x = v := by
  rw [h]
  exact update_self _ _ _

theorem store8_ne {a x : Nat} (h : x ≠ a % 2 ^ 32) :
    store8 m a v x = m x := update_of_ne h _ _

theorem load32_store8_ne {a b : Nat} (ha : a < 2 ^ 32) (hb : b + 4 ≤ 2 ^ 32)
    (h : a < b ∨ b + 4 ≤ a) :
    load32 (store8 m a v) b = load32 m b := by
  refine load32_congr hb fun x hlo hhi => ?_
  exact store8_ne (by omega)

/-- A word that is written byte by byte. -/
theorem load32_store8_bytes (m : Mem) (a : Nat) {v : Nat} (hv : v < 2 ^ 32) :
    load32 ((((m.store8 a (UInt8.ofNat v)).store8 (a + 1) (UInt8.ofNat (v / 2 ^ 8))).store8
      (a + 2) (UInt8.ofNat (v / 2 ^ 16))).store8 (a + 3) (UInt8.ofNat (v / 2 ^ 24))) a = v := by
  rw [load32]
  simp (disch := omega) only [store8_self, store8_ne, UInt8.toNat_ofNat']
  omega

/-! ## Blocks -/

/-- The `n` bytes from `a` on are `f 0`, `f 1` and so on. The block goes round at the
end of the address space. -/
def write (m : Mem) (a n : Nat) (f : Nat → UInt8) : Mem := fun x =>
  if x < 2 ^ 32 ∧ dist a x < n then f (dist a x) else m x

/-- The same for a block that does not go round. -/
def put (m : Mem) (a n : Nat) (f : Nat → UInt8) : Mem := fun x =>
  if a ≤ x ∧ x < a + n then f (x - a) else m x

section Blocks

variable {m : Mem} {a n : Nat} {f g : Nat → UInt8}

theorem write_eq_put (h : a + n ≤ 2 ^ 32) : write m a n f = put m a n f := by
  funext x
  have hin : (x < 2 ^ 32 ∧ dist a x < n) ↔ (a ≤ x ∧ x < a + n) := by
    unfold dist
    omega
  rw [write, put]
  by_cases hx : a ≤ x ∧ x < a + n
  · have hd : dist a x = x - a := by
      unfold dist
      omega
    rw [if_pos hx, if_pos (hin.mpr hx), hd]
  · rw [if_neg hx, if_neg (mt hin.mp hx)]

theorem put_at {i : Nat} (h : i < n) : put m a n f (a + i) = f i := by
  rw [put, if_pos (by omega), Nat.add_sub_cancel_left]

theorem put_of_mem {x : Nat} (hlo : a ≤ x) (hhi : x < a + n) : put m a n f x = f (x - a) :=
  if_pos ⟨hlo, hhi⟩

theorem put_of_outside {x : Nat} (h : x < a ∨ a + n ≤ x) : put m a n f x = m x := by
  rw [put, if_neg (by omega)]

@[simp] theorem put_zero : put m a 0 f = m := by
  funext x
  exact put_of_outside (by omega)

theorem put_congr (h : ∀ i < n, f i = g i) : put m a n f = put m a n g := by
  funext x
  by_cases hx : a ≤ x ∧ x < a + n
  · rw [put_of_mem hx.1 hx.2, put_of_mem hx.1 hx.2, h _ (by omega)]
  · rw [put_of_outside (by omega), put_of_outside (by omega)]

/-- A block in two parts. -/
theorem put_put (m : Mem) (a n k : Nat) (f : Nat → UInt8) :
    put (put m a n f) (a + n) k (fun i => f (n + i)) = put m a (n + k) f := by
  funext x
  by_cases hlow : a ≤ x ∧ x < a + n
  · rw [put_of_outside (by omega), put_of_mem hlow.1 hlow.2, put_of_mem hlow.1 (by omega)]
  · by_cases hhigh : a + n ≤ x ∧ x < a + n + k
    · rw [put_of_mem hhigh.1 hhigh.2, put_of_mem (by omega) (by omega)]
      congr 1
      omega
    · rw [put_of_outside (by omega), put_of_outside (by omega), put_of_outside (by omega)]

theorem store8_eq_put (h : a < 2 ^ 32) (v : UInt8) : store8 m a v = put m a 1 fun _ => v := by
  funext x
  by_cases hx : x = a
  · rw [store8_self (by omega), put_of_mem (by omega) (by omega)]
  · rw [store8_ne (by omega), put_of_outside (by omega)]

/-- The first byte is stored before the others. -/
theorem put_store8_first (h : a < 2 ^ 32) :
    put (store8 m a (f 0)) (a + 1) n (fun i => f (i + 1)) = put m a (n + 1) f := by
  have hfirst : put m a 1 (fun _ => f 0) = put m a 1 f :=
    put_congr fun i hi => by rw [Nat.lt_one_iff.mp hi]
  have hparts := put_put m a 1 n f
  simp only [Nat.add_comm 1] at hparts
  rwa [store8_eq_put h, hfirst]

/-- The last byte is stored before the others. -/
theorem put_store8_last (h : a + n < 2 ^ 32) :
    put (store8 m (a + n) (f n)) a n f = put m a (n + 1) f := by
  funext x
  rcases Nat.lt_trichotomy x (a + n) with hx | rfl | hx
  · rcases Nat.lt_or_ge x a with hlo | hlo
    · rw [put_of_outside (by omega), put_of_outside (by omega), store8_ne (by omega)]
    · rw [put_of_mem hlo hx, put_of_mem hlo (by omega)]
  · rw [put_of_outside (by omega), put_at (by omega), store8_self (by omega)]
  · rw [put_of_outside (by omega), put_of_outside (by omega), store8_ne (by omega)]

end Blocks

/-! ## Writes of several words -/

/-- Nothing was written but the words at `ws`. -/
def SameBut (m m' : Mem) (ws : List Nat) : Prop :=
  ∀ a, a + 4 ≤ 2 ^ 32 → (∀ w ∈ ws, w + 4 ≤ a ∨ a + 4 ≤ w) → load32 m' a = load32 m a

theorem SameBut.refl (m : Mem) (ws : List Nat) : SameBut m m ws := fun _ _ _ => rfl

theorem SameBut.store {ws : List Nat} (h : SameBut m m' ws) {w v : Nat} (hw : w ∈ ws)
    (hlt : w + 4 ≤ 2 ^ 32) : SameBut m (store32 m' w v) ws := by
  intro a ha hap
  rw [load32_store32_ne hlt ha (hap w hw)]
  exact h a ha hap

end Mem

end Aim.Lib
