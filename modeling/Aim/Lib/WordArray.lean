import Aim.Lib.Run

/-!
# Arrays of words as arrays of bits

Bit `i` of an array of words of `w` bits is bit `i % w` of word `i / w`. A word put
together from two neighbours has the bits from some place on (`Spells.funnel`). A search
over such an array answers one more than the number of the bit it finds, and 0 if
there is none (`NextFrom`); from one answer to the next it visits all of them
(`visits_eq`). A loop that stores a word for each of some indices leaves each of
them in its place and the rest as it was (`foldlM_store`).
-/

namespace Aim.Lib

/-! ## Bits -/

section Bits

variable {w i : Nat} {ws : List (BitVec w)} {x : BitVec w} {f : Nat → BitVec w} {p : Nat → Bool}

/-- Behind the array there are zeros. -/
def bit (ws : List (BitVec w)) (i : Nat) : Bool := (ws.getD (i / w) 0).getLsbD (i % w)

theorem bit_cons_of_lt (x : BitVec w) (ws : List (BitVec w)) (h : i < w) :
    bit (x :: ws) i = x.getLsbD i := by
  rw [bit, Nat.div_eq_of_lt h, Nat.mod_eq_of_lt h, List.getD_cons_zero]

theorem bit_cons_add (hw : 0 < w) (x : BitVec w) (ws : List (BitVec w)) (i : Nat) :
    bit (x :: ws) (w + i) = bit ws i := by
  rw [bit, bit, Nat.add_div_left i hw, Nat.add_mod_left, List.getD_cons_succ]

theorem bit_drop (hw : 0 < w) (ws : List (BitVec w)) (k i : Nat) :
    bit (ws.drop k) i = bit ws (w * k + i) := by
  rw [bit, bit, Nat.mul_add_div hw, Nat.mul_add_mod, List.getD_eq_getElem?_getD,
    List.getD_eq_getElem?_getD, List.getElem?_drop]

theorem bit_take (ws : List (BitVec w)) {k i : Nat} (h : i < w * k) :
    bit (ws.take k) i = bit ws i := by
  rw [bit, bit, List.getD_eq_getElem?_getD, List.getD_eq_getElem?_getD,
    List.getElem?_take_of_lt (Nat.div_lt_of_lt_mul h)]

theorem bit_of_getElem? {k j : Nat} (h : ws[k]? = some x) (hj : j < w) :
    bit ws (w * k + j) = x.getLsbD j := by
  rw [bit, Nat.mul_add_div (by omega), Nat.mul_add_mod, Nat.div_eq_of_lt hj, Nat.mod_eq_of_lt hj,
    Nat.add_zero, List.getD_eq_getElem?_getD, h, Option.getD_some]

theorem bit_eq_of_getElem? (h : ws[i / w]? = some x) :
    bit ws i = x.getLsbD (i % w) := by
  rw [bit, List.getD_eq_getElem?_getD, h, Option.getD_some]

theorem bit_replicate_zero (n i : Nat) : bit (List.replicate n (0 : BitVec w)) i = false := by
  rw [bit, List.getD_eq_getElem?_getD, List.getElem?_replicate]
  split
  · exact BitVec.getLsbD_zero
  · exact BitVec.getLsbD_zero

theorem bit_of_length_le (h : w * ws.length ≤ i) : bit ws i = false := by
  rcases Nat.eq_zero_or_pos w with rfl | hw
  · exact BitVec.getLsbD_of_ge _ _ (Nat.zero_le _)
  · have hout : ws.length ≤ i / w := (Nat.le_div_iff_mul_le hw).mpr (by rwa [Nat.mul_comm])
    rw [bit, List.getD_eq_getElem?_getD, List.getElem?_eq_none hout]
    exact BitVec.getLsbD_zero

theorem getLsbD_mask {k i : Nat} (hi : i < w) :
    (BitVec.ofNat w (2 ^ k - 1)).getLsbD i = decide (i < k) := by
  rw [BitVec.getLsbD_ofNat, Nat.testBit_two_pow_sub_one, decide_eq_true hi, Bool.true_and]

/-- The words `f` are those of the bits `p`. -/
def Spells (f : Nat → BitVec w) (p : Nat → Bool) : Prop :=
  ∀ q, ∀ j < w, (f q).getLsbD j = p (w * q + j)

theorem spells_bit (ws : List (BitVec w)) : Spells (fun q => ws.getD q 0) (bit ws) := by
  intro q j hj
  rw [bit, Nat.mul_add_div (by omega), Nat.mul_add_mod, Nat.div_eq_of_lt hj, Nat.mod_eq_of_lt hj,
    Nat.add_zero]

/-- A word put together from the upper part of one and the lower part of the next. -/
theorem Spells.funnel (h : Spells f p) (q : Nat) {rem j : Nat} (hrem : rem ≤ w) (hj : j < w) :
    (f (q + 1) <<< (w - rem) ||| f q >>> rem).getLsbD j = p (w * q + j + rem) := by
  rw [BitVec.getLsbD_or, BitVec.getLsbD_shiftLeft, BitVec.getLsbD_ushiftRight]
  by_cases hlow : rem + j < w
  · rw [h q _ hlow, decide_eq_true (show j < w - rem by omega), Bool.not_true, Bool.and_false,
      Bool.false_and, Bool.false_or, show w * q + (rem + j) = w * q + j + rem by omega]
  · rw [BitVec.getLsbD_of_ge (f q) _ (by omega), Bool.or_false, h (q + 1) _ (by omega),
      decide_eq_true hj, decide_eq_false (show ¬ j < w - rem by omega), Bool.not_false,
      Bool.true_and, Bool.true_and, Nat.mul_succ]
    congr 1
    omega

/-- A zero in front of the words. -/
def wordsUp (f : Nat → BitVec w) : Nat → BitVec w
  | 0 => 0
  | q + 1 => f q

theorem Spells.wordsUp (h : Spells f p) :
    Spells (wordsUp f) fun i => decide (w ≤ i) && p (i - w) := by
  intro q j hj
  cases q with
  | zero =>
      dsimp only
      rw [Nat.mul_zero, Nat.zero_add, decide_eq_false (by omega), Bool.false_and]
      exact BitVec.getLsbD_zero
  | succ q =>
      dsimp only
      rw [Nat.mul_succ, decide_eq_true (by omega), Bool.true_and,
        show w * q + w + j - w = w * q + j by omega]
      exact h q j hj

end Bits

/-! ## Searches -/

/-- The answer of a search from `b` on, below `n`. -/
def NextFrom (p : Nat → Prop) (b n r : Nat) : Prop :=
  (r = 0 ∧ ∀ i, b ≤ i → i < n → ¬ p i) ∨
    ∃ j, r = j + 1 ∧ b ≤ j ∧ j < n ∧ p j ∧ ∀ i, b ≤ i → i < j → ¬ p i

section Searches

variable {p q : Nat → Prop} {b n r r' m a c l h : Nat}

theorem NextFrom.of_none (h : ∀ i, b ≤ i → i < n → ¬ p i) : NextFrom p b n 0 := .inl ⟨rfl, h⟩

/-- What is known not to be there need not be searched. -/
theorem NextFrom.skip {b' : Nat} (h : NextFrom p b' n r) (hle : b ≤ b')
    (hskip : ∀ i, b ≤ i → i < b' → ¬ p i) : NextFrom p b n r := by
  have hfront : ∀ m, (∀ i, b' ≤ i → i < m → ¬ p i) → ∀ i, b ≤ i → i < m → ¬ p i := by
    intro m hm i hi him
    rcases Nat.lt_or_ge i b' with hlt | hge
    · exact hskip i hi hlt
    · exact hm i hge him
  rcases h with ⟨rfl, hnone⟩ | ⟨j, rfl, hj, hjn, hpj, hfirst⟩
  · exact .inl ⟨rfl, hfront n hnone⟩
  · exact .inr ⟨j, rfl, hle.trans hj, hjn, hpj, hfront j hfirst⟩

/-- What was found is found in a larger range. -/
theorem NextFrom.widen (h : NextFrom p b m r) (hr : r ≠ 0) (hle : m ≤ n) :
    NextFrom p b n r := by
  rcases h with ⟨rfl, -⟩ | ⟨j, rfl, hj, hjm, hpj, hfirst⟩
  · exact absurd rfl hr
  · exact .inr ⟨j, rfl, hj, hjm.trans_le hle, hpj, hfirst⟩

theorem NextFrom.unique (h : NextFrom p b n r) (h' : NextFrom p b n r') : r = r' := by
  rcases h with ⟨rfl, hnone⟩ | ⟨j, rfl, hj, hjn, hpj, hfirst⟩
  · rcases h' with ⟨rfl, -⟩ | ⟨j', rfl, hj', hjn', hpj', -⟩
    · rfl
    · exact absurd hpj' (hnone j' hj' hjn')
  · rcases h' with ⟨rfl, hnone⟩ | ⟨j', rfl, hj', hjn', hpj', hfirst'⟩
    · exact absurd hpj (hnone j hj hjn)
    · rcases Nat.lt_trichotomy j j' with hlt | rfl | hlt
      · exact absurd hpj (hfirst' j hj hlt)
      · rfl
      · exact absurd hpj' (hfirst j' hj' hlt)

theorem NextFrom.iff_eq (h : NextFrom p b n r) : NextFrom p b n r' ↔ r' = r :=
  ⟨fun h' => h'.unique h, fun heq => heq ▸ h⟩

theorem NextFrom.congr (h : NextFrom p b n r) (hpq : ∀ i < n, (p i ↔ q i)) :
    NextFrom q b n r := by
  rcases h with ⟨rfl, hnone⟩ | ⟨j, rfl, hj, hjn, hpj, hfirst⟩
  · exact .inl ⟨rfl, fun i hi hin hq => hnone i hi hin ((hpq i hin).mpr hq)⟩
  · exact .inr ⟨j, rfl, hj, hjn, (hpq j hjn).mp hpj,
      fun i hi hij hq => hfirst i hi hij ((hpq i (hij.trans hjn)).mpr hq)⟩

/-- A range in two parts: what the second answers counts from behind the first. -/
theorem NextFrom.join (hl : NextFrom p 0 a l) (hh : NextFrom (fun i => p (a + i)) 0 c h) :
    NextFrom p 0 (a + c) (if l = 0 then if h = 0 then 0 else h + a else l) := by
  rcases hl with ⟨rfl, hnone⟩ | ⟨j, rfl, -, hj, hpj, hfirst⟩
  · rw [if_pos rfl]
    have hnone' : ∀ m, (∀ i, 0 ≤ i → i < m → ¬ p (a + i)) → ∀ i, 0 ≤ i → i < a + m → ¬ p i := by
      intro m hm i _ hi
      rcases Nat.lt_or_ge i a with hlt | hge
      · exact hnone i i.zero_le hlt
      · have hp := hm (i - a) (Nat.zero_le _) (by omega)
        rwa [Nat.add_sub_cancel' hge] at hp
    rcases hh with ⟨rfl, hrest⟩ | ⟨j, rfl, -, hj, hpj, hfirst⟩
    · exact .inl ⟨if_pos rfl, hnone' c hrest⟩
    · refine .inr ⟨a + j, ?_, Nat.zero_le _, by omega, hpj, hnone' j hfirst⟩
      rw [if_neg (Nat.succ_ne_zero j)]
      omega
  · rw [if_neg (Nat.succ_ne_zero j)]
    exact .inr ⟨j, rfl, Nat.zero_le _, by omega, hpj, hfirst⟩

/-- The answer of a search below `n` from its end. -/
def LastBelow (p : Nat → Prop) (n r : Nat) : Prop :=
  (r = 0 ∧ ∀ i < n, ¬ p i) ∨ ∃ j, r = j + 1 ∧ j < n ∧ p j ∧ ∀ i, j < i → i < n → ¬ p i

theorem LastBelow.exists (p : Nat → Prop) (n : Nat) : ∃ r, LastBelow p n r := by
  induction n with
  | zero => exact ⟨0, .inl ⟨rfl, fun i hi => absurd hi (Nat.not_lt_zero i)⟩⟩
  | succ n ih =>
      by_cases hp : p n
      · exact ⟨n + 1, .inr ⟨n, rfl, Nat.lt_succ_self n, hp, fun i hi hin => by omega⟩⟩
      · have hlast : ∀ i, i < n + 1 → (i < n → ¬ p i) → ¬ p i := by
          intro i hi hbelow
          rcases Nat.lt_succ_iff_lt_or_eq.mp hi with hlt | rfl
          · exact hbelow hlt
          · exact hp
        obtain ⟨r, ⟨rfl, hnone⟩ | ⟨j, rfl, hj, hpj, habove⟩⟩ := ih
        · exact ⟨0, .inl ⟨rfl, fun i hi => hlast i hi (hnone i)⟩⟩
        · exact ⟨j + 1, .inr ⟨j, rfl, by omega, hpj, fun i hji hi => hlast i hi (habove i hji)⟩⟩

theorem LastBelow.unique (h : LastBelow p n r) (h' : LastBelow p n r') : r = r' := by
  rcases h with ⟨rfl, hnone⟩ | ⟨j, rfl, hj, hpj, habove⟩
  · rcases h' with ⟨rfl, -⟩ | ⟨j', rfl, hj', hpj', -⟩
    · rfl
    · exact absurd hpj' (hnone j' hj')
  · rcases h' with ⟨rfl, hnone⟩ | ⟨j', rfl, hj', hpj', habove'⟩
    · exact absurd hpj (hnone j hj)
    · rcases Nat.lt_trichotomy j j' with hlt | rfl | hlt
      · exact absurd hpj' (habove j' hlt hj')
      · rfl
      · exact absurd hpj (habove' j hlt hj)

theorem LastBelow.iff_eq (h : LastBelow p n r) : LastBelow p n r' ↔ r' = r :=
  ⟨fun h' => h'.unique h, fun heq => heq ▸ h⟩

theorem LastBelow.eq_zero_iff (h : LastBelow p n r) : r = 0 ↔ ∀ i < n, ¬ p i := by
  rcases h with ⟨rfl, hnone⟩ | ⟨j, rfl, hj, hpj, -⟩
  · simpa using hnone
  · simpa using ⟨j, hj, hpj⟩

theorem LastBelow.le (h : LastBelow p n r) : r ≤ n := by
  rcases h with ⟨rfl, -⟩ | ⟨j, rfl, hj, -⟩
  · exact n.zero_le
  · exact hj

/-- Only the places below `m` count. -/
theorem LastBelow.narrow (h : LastBelow q n r) (hm : m ≤ n) (hq : ∀ i < n, (q i ↔ i < m ∧ p i)) :
    LastBelow p m r := by
  rcases h with ⟨rfl, hnone⟩ | ⟨j, rfl, hj, hqj, habove⟩
  · exact .inl ⟨rfl, fun i hi hpi => hnone i (by omega) ((hq i (by omega)).mpr ⟨hi, hpi⟩)⟩
  · obtain ⟨hjm, hpj⟩ := (hq j hj).mp hqj
    exact .inr ⟨j, rfl, hjm, hpj, fun i hji hi hpi =>
      habove i hji (by omega) ((hq i (by omega)).mpr ⟨hi, hpi⟩)⟩

/-- A range in two parts, of which the second is looked at first. -/
theorem LastBelow.join (hl : LastBelow p a l) (hh : LastBelow (fun i => p (a + i)) c h) :
    LastBelow p (a + c) (if h = 0 then l else h + a) := by
  have hsplit : ∀ b, (∀ i, b ≤ i → i < c → ¬ p (a + i)) → ∀ i, a + b ≤ i → i < a + c → ¬ p i := by
    intro b hb i hbi hi
    have hp := hb (i - a) (by omega) (by omega)
    rwa [Nat.add_sub_cancel' (by omega)] at hp
  rcases hh with ⟨rfl, hnone⟩ | ⟨j, rfl, hj, hpj, habove⟩
  · rw [if_pos rfl]
    have hhigh := hsplit 0 fun i _ hi => hnone i hi
    have hlow : ∀ i, (i < a → ¬ p i) → i < a + c → ¬ p i := by
      intro i hlt hi
      rcases Nat.lt_or_ge i a with hia | hia
      · exact hlt hia
      · exact hhigh i hia hi
    rcases hl with ⟨rfl, hrest⟩ | ⟨j, rfl, hj, hpj, habove⟩
    · exact .inl ⟨rfl, fun i hi => hlow i (hrest i) hi⟩
    · exact .inr ⟨j, rfl, by omega, hpj, fun i hji hi => hlow i (habove i hji) hi⟩
  · rw [if_neg (Nat.succ_ne_zero j)]
    refine .inr ⟨a + j, by omega, by omega, hpj, ?_⟩
    exact fun i hji hi => hsplit (j + 1) (fun i hi => habove i hi) i hji hi

end Searches

/-- The answers of a search that counts from 1, each time from behind the last one,
until there is none. -/
def visits {ε : Type} (out : ε) (find : Nat → Except ε Nat) : Nat → Nat → Except ε (List Nat)
  | 0, _ => .error out
  | fuel + 1, b => do
      let i ← find b
      if i = 0 then return []
      else do
        let is ← visits out find fuel (i + 1)
        return i :: is

/-- They are all there are, in their order. -/
theorem visits_eq {ε : Type} {out : ε} {find : Nat → Except ε Nat} {p : Nat → Bool} {n : Nat}
    (hfind : ∀ b, ∃ r, find (b + 1) = .ok r ∧ NextFrom (fun i => p i = true) b n r)
    (fuel b : Nat) (hb : b ≤ n) (hfuel : n < b + fuel) : visits out find fuel (b + 1) =
      .ok ((List.range' (b + 1) (n - b)).filter fun i => p (i - 1)) := by
  have hnone : ∀ m b, (∀ i, b ≤ i → i < b + m → ¬ p i = true) →
      (List.range' (b + 1) m).filter (fun i => p (i - 1)) = [] := by
    intro m b h
    refine List.filter_eq_nil_iff.mpr fun i hi => ?_
    obtain ⟨hlo, hhi⟩ := List.mem_range'_1.mp hi
    exact h (i - 1) (by omega) (by omega)
  induction fuel generalizing b with
  | zero => omega
  | succ fuel ih =>
      obtain ⟨r, hr, hnext⟩ := hfind b
      rcases hnext with ⟨rfl, hempty⟩ | ⟨j, rfl, hbj, hjn, hpj, hfirst⟩
      · rw [hnone (n - b) b fun i hi hin => hempty i hi (by omega)]
        rw [visits, hr]
        rfl
      · have hsplit : List.range' (b + 1) (n - b) =
            List.range' (b + 1) (j - b) ++ (j + 1) :: List.range' (j + 1 + 1) (n - (j + 1)) := by
          rw [← List.range'_succ, show j + 1 = b + 1 + (j - b) by omega, List.range'_append_1]
          congr 1
          omega
        have hrest := ih (j + 1) (by omega) (by omega)
        rw [hsplit, List.filter_append, hnone (j - b) b fun i hi hij => hfirst i hi (by omega),
          List.nil_append, List.filter_cons_of_pos (by simpa using hpj)]
        have hround : visits out find (fuel + 1) (b + 1) =
            (visits out find fuel (j + 1 + 1) >>= fun is => .ok ((j + 1) :: is)) := by
          rw [visits, hr]
          rfl
        rw [hround, hrest]
        rfl

/-! ## Stores -/

section Stores

variable {α ε : Type}

/-- The list after a word was stored for each index. -/
def storeAll (place : Nat → Nat) (val : Nat → α) (ks : List Nat) (dst : List α) : List α :=
  ks.foldl (fun dst k => dst.set (place k) (val k)) dst

variable {place : Nat → Nat} {val : Nat → α} {ks : List Nat} {dst : List α}

theorem length_storeAll (dst : List α) : (storeAll place val ks dst).length = dst.length := by
  induction ks generalizing dst with
  | nil => rfl
  | cons k ks ih =>
      rw [storeAll, List.foldl_cons]
      exact (ih _).trans List.length_set

theorem getElem?_storeAll_of_ne {i : Nat} (h : ∀ k ∈ ks, place k ≠ i) (dst : List α) :
    (storeAll place val ks dst)[i]? = dst[i]? := by
  induction ks generalizing dst with
  | nil => rfl
  | cons k ks ih =>
      obtain ⟨hk, hks⟩ := List.forall_mem_cons.mp h
      rw [storeAll, List.foldl_cons]
      exact (ih hks _).trans (List.getElem?_set_ne hk)

/-- Where the places differ, the order does not matter. -/
theorem getElem?_storeAll (place : Nat → Nat) (val : Nat → α) {k : Nat} (hk : k ∈ ks)
    (hinj : ∀ k' ∈ ks, place k' = place k → k' = k) (hlt : place k < dst.length) :
    (storeAll place val ks dst)[place k]? = some (val k) := by
  induction ks generalizing dst with
  | nil => cases hk
  | cons k' ks ih =>
      obtain ⟨hk', hks⟩ := List.forall_mem_cons.mp hinj
      rw [storeAll, List.foldl_cons]
      by_cases hin : k ∈ ks
      · exact ih hin hks (by rwa [List.length_set])
      · obtain rfl : k = k' := (List.mem_cons.mp hk).resolve_right hin
        have hother : ∀ k' ∈ ks, place k' ≠ place k := by
          intro k' hk' heq
          rw [hks k' hk' heq] at hk'
          exact hin hk'
        exact (getElem?_storeAll_of_ne hother _).trans (List.getElem?_set_self hlt)

/-- A loop of stores that are all in place. -/
theorem foldlM_store {step : List α → Nat → Except ε (List α)}
    (hstep : ∀ dst' : List α, dst'.length = dst.length → ∀ k ∈ ks,
      step dst' k = .ok (dst'.set (place k) (val k))) :
    ks.foldlM step dst = .ok (storeAll place val ks dst) := by
  induction ks generalizing dst with
  | nil => rfl
  | cons k ks ih =>
      rw [List.foldlM_cons, hstep dst rfl k List.mem_cons_self]
      refine ih fun dst' hdst' k' hk' => hstep dst' ?_ k' (List.mem_cons_of_mem _ hk')
      rw [hdst', List.length_set]

end Stores

end Aim.Lib
