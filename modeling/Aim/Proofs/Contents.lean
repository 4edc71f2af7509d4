import Aim.Proofs.PageRange

/-!
# What is in the frames

The contract `BaseSpec` keeps the words of page indexes. This module adds what is
in the frames of user pages. `Quiet` says that nobody who hands something out writes
to a user's frame that is out already, and that is all there is to assume: a page
index is only written in its own frames, and a copy only to the frame it is made in.

`BaseSpec.beside` puts both into the terms of `PagerSpec`, so what is known of walks
through a page index also says what they leave alone: the other page indexes, whose
frames are `X`, and all user frames.
-/

namespace Aim.Kern

open Aim.Lib Mem

variable {σ : Type}

/-- The frames `F` have the same bytes. -/
def SameBytes (F : Set Nat) (m m' : Mem) : Prop := ∀ a ∈ F, ∀ i < pgSize, m' (a + i) = m (a + i)

section Bytes

variable {F P : Set Nat} {m m' m'' : Mem} {a b f n i : Nat}

theorem SameBytes.refl (F : Set Nat) (m : Mem) : SameBytes F m m := fun _ _ _ _ => rfl

theorem SameBytes.trans (h : SameBytes F m m') (h' : SameBytes F m' m'') : SameBytes F m m'' :=
  fun a ha i hi => (h' a ha i hi).trans (h a ha i hi)

theorem SameBytes.mono {F' : Set Nat} (h : SameBytes F m m') (hF : F' ⊆ F) : SameBytes F' m m' :=
  fun a ha => h a (hF ha)

/-- A byte of a frame that is not one of `P` is outside of `P`. -/
theorem outside_of_frame (ha : IsFrame a) (haP : a ∉ P) (hP : ∀ x ∈ P, IsFrame x)
    (hi : i < pgSize) : ∀ x ∈ P, a + i < x ∨ x + pgSize ≤ a + i := by
  intro x hx
  have hne : a ≠ x := fun he => haP (he ▸ hx)
  have := (hP x hx).disjoint ha hne
  omega

theorem SameOutside.sameBytes (h : SameOutside P m m') (hP : ∀ x ∈ P, IsFrame x)
    (hF : ∀ a ∈ F, IsFrame a ∧ a ∉ P) : SameBytes F m m' := fun a ha i hi =>
  h (a + i) (outside_of_frame (hF a ha).1 (hF a ha).2 hP hi)

theorem SameOutside.sameWords (h : SameOutside P m m') (hP : ∀ x ∈ P, IsFrame x)
    (hF : ∀ a ∈ F, IsFrame a ∧ a ∉ P) : SameWords F m m' := by
  intro a ha i hi
  obtain ⟨haf, haP⟩ := hF a ha
  have hle := haf.word_le hi
  refine load32_congr (by rw [kernBase] at hle; omega) fun x hlo hhi => ?_
  obtain ⟨j, rfl⟩ : ∃ j, x = a + j := ⟨x - a, by omega⟩
  exact h _ (outside_of_frame haf haP hP (by rw [pgSize]; omega))

theorem kcopy_at {src : Nat} (ha : Sees a f) (hb : Sees src b) (hf : f + n ≤ kernBase)
    (hbn : b + n ≤ kernBase) (hi : i < n) : kcopy m a src n (f + i) = m (b + i) := by
  have hlt : f + i < kernBase := by omega
  rw [kcopy, windowDist_add ha hlt, if_pos ⟨hlt, hi⟩, (hb.add (by omega)).premapAddr_eq]

end Bytes

/-- The bytes of `byte` were written to the places `dest`, one after the other, and
nothing else was. -/
structure Written (m m' : Mem) (dest : Nat → Nat) (byte : Nat → UInt8) (n : Nat) : Prop where
  written : ∀ i < n, m' (dest i) = byte i
  rest : ∀ x, (∀ i < n, x ≠ dest i) → m' x = m x

section Written

variable {m m₁ m' : Mem} {dest : Nat → Nat} {byte : Nat → UInt8} {k n : Nat}

theorem Written.none (m : Mem) (dest : Nat → Nat) (byte : Nat → UInt8) : Written m m dest byte 0 :=
  ⟨fun _ hi => absurd hi (Nat.not_lt_zero _), fun _ _ => rfl⟩

/-- Another stretch, which does not come back to the places of the first one. -/
theorem Written.append (h : Written m m₁ dest byte k)
    (h' : Written m₁ m' (fun i => dest (k + i)) (fun i => byte (k + i)) n)
    (hinj : ∀ i < k + n, ∀ j < k + n, dest i = dest j → i = j) :
    Written m m' dest byte (k + n) := by
  refine ⟨fun i hi => ?_, fun x hx => ?_⟩
  · by_cases hik : i < k
    · rw [h'.rest (dest i) fun j hj he => ?_]
      · exact h.written i hik
      · have := hinj i hi (k + j) (by omega) he
        omega
    · have hnew := h'.written (i - k) (by omega)
      rw [Nat.add_sub_of_le (not_lt.mp hik)] at hnew
      exact hnew
  · rw [h'.rest x fun j hj => hx (k + j) (by omega)]
    exact h.rest x fun i hi => hx i (by omega)

/-- Frames where nothing was written have the same words. -/
theorem Written.sameWords {F : Set Nat} (h : Written m m' dest byte n)
    (hF : ∀ a ∈ F, IsFrame a) (hdest : ∀ i < n, ∀ a ∈ F, dest i < a ∨ a + pgSize ≤ dest i) :
    SameWords F m m' := by
  intro a ha i hi
  have hle := (hF a ha).word_le hi
  refine load32_congr (by rw [kernBase] at hle; omega) fun x hlo hhi => ?_
  refine h.rest x fun j hj he => ?_
  have := hdest j hj a ha
  rw [pgSize] at this
  omega

variable {a f b src : Nat} {c : UInt8}

theorem kfill_written (ha : Sees a f) (hf : f + n ≤ kernBase) :
    Written m (kfill m a c n) (fun i => f + i) (fun _ => c) n := by
  refine ⟨fun i hi => ?_, fun x hx => kfill_of_outside ha hf ?_⟩
  · have hlt : f + i < kernBase := by omega
    rw [kfill, windowDist_add ha hlt, if_pos ⟨hlt, hi⟩]
  · by_contra hin
    exact hx (x - f) (by omega) (by omega)

theorem kcopy_written (ha : Sees a f) (hb : Sees src b) (hf : f + n ≤ kernBase)
    (hbn : b + n ≤ kernBase) :
    Written m (kcopy m a src n) (fun i => f + i) (fun i => m (b + i)) n := by
  refine ⟨fun i hi => kcopy_at ha hb hf hbn hi, fun x hx => kcopy_of_outside ha hf ?_⟩
  by_contra hin
  exact hx (x - f) (by omega) (by omega)

end Written

/-- Whoever hands something out leaves the user frames that are out alone. -/
structure BaseSpec.Quiet {B : Base σ} (S : BaseSpec B) : Prop where
  kmalloc : ∀ s O U P n, S.Out s O U P → Ends False (B.kmalloc n) s fun _ s' =>
    SameBytes U s.mem s'.mem
  allocPages : ∀ s O U P, S.Out s O U P → Ends False (B.allocPages ⟨0, pgSize, 0⟩) s fun _ s' =>
    SameBytes U s.mem s'.mem
  pgalloc : ∀ s O U P, S.Out s O U P → Ends False B.pager.pgalloc s fun _ s' =>
    SameBytes U s.mem s'.mem

/-- The page indexes in the frames `P` and the user frames `U` are left alone. -/
structure Leaves {B : Base σ} (S : BaseSpec B) (U P : Set Nat) (m m' : Mem) : Prop where
  words : SameWords P m m'
  bytes : S.Quiet → SameBytes U m m'

section Leaves

variable {B : Base σ} {S : BaseSpec B} {U P : Set Nat} {m m' m'' : Mem}

theorem Leaves.trans (h : Leaves S U P m m') (h' : Leaves S U P m' m'') : Leaves S U P m m'' :=
  ⟨h.words.trans h'.words, fun hq => (h.bytes hq).trans (h'.bytes hq)⟩

theorem Leaves.mono {U' P' : Set Nat} (h : Leaves S U P m m') (hU : U' ⊆ U) (hP : P' ⊆ P) :
    Leaves S U' P' m m' :=
  ⟨h.words.mono hP, fun hq => (h.bytes hq).mono hU⟩

/-- From what a contract says of the words, and what `Quiet` says of the bytes. -/
theorem ends_leaves {total : Prop} {α : Type} {x : EStateM Stop (Phys σ) α} {s : Phys σ}
    {Q : α → Phys σ → Prop}
    (h : Ends total x s fun a s' => SameWords P s.mem s'.mem ∧ Q a s')
    (hq : S.Quiet → Ends False x s fun _ s' => SameBytes U s.mem s'.mem) :
    Ends total x s fun a s' => Leaves S U P s.mem s'.mem ∧ Q a s' := by
  by_cases hquiet : S.Quiet
  · refine (h.and (hq hquiet)).imp fun a s' ha => ?_
    exact ⟨⟨ha.1.1, fun _ => ha.2⟩, ha.1.2⟩
  · exact h.imp fun a s' ha => ⟨⟨ha.1, fun hc => absurd hc hquiet⟩, ha.2⟩

end Leaves

/-- Walks through one page index, beside others in the frames `X`. -/
def BaseSpec.beside {B : Base σ} (S : BaseSpec B) (O U X : Set Nat) (m₀ : Mem) :
    PagerSpec B.pager where
  Out s Q := S.Out s O U (Q ∪ X) ∧ (∀ a ∈ Q, a ∉ X) ∧ Leaves S U X m₀ s.mem
  frame s Q h a ha := S.frame s O U (Q ∪ X) h.1 a (.inr (.inl ha))
  write s Q m h hm := by
    obtain ⟨hout, hapart, hleaves⟩ := h
    have hQ : ∀ x ∈ Q, IsFrame x := fun x hx => page hout (.inl hx)
    refine ⟨S.write s O U (Q ∪ X) m hout
      (hm.mono (Set.subset_union_left.trans Set.subset_union_right)), hapart, hleaves.trans ?_⟩
    refine ⟨hm.sameWords hQ fun a ha => ⟨page hout (.inr ha), fun haQ => hapart a haQ ha⟩,
      fun _ => hm.sameBytes hQ fun a ha => ⟨user hout ha, fun haQ => ?_⟩⟩
    exact S.apart s O U (Q ∪ X) hout a ha (.inl haQ)
  pgalloc s Q h := by
    obtain ⟨hout, hapart, hleaves⟩ := h
    refine (ends_leaves (S.pgalloc s O U (Q ∪ X) hout)
      fun hq => hq.pgalloc s O U (Q ∪ X) hout).imp ?_
    intro a s' ha
    obtain ⟨hs, haP, hout'⟩ := ha
    refine ⟨hs.words.mono Set.subset_union_left, fun haQ => haP (.inl haQ), ?_, ?_,
      hleaves.trans (hs.mono subset_rfl Set.subset_union_right)⟩
    · rw [Set.insert_union]
      exact hout'
    · intro x hx
      rcases hx with rfl | hx
      · exact fun hX => haP (.inr hX)
      · exact hapart x hx

/-- `map_pages` of one page, whether or not it was present. -/
theorem mapPages_one {G : Pager σ} {S : PagerSpec G} {s : Phys σ} {d g va a flags : Nat}
    {Q : Set Nat} (h : S.Has s d Q) (hg : Sees g d) (hva : IsPage va) :
    Ends False (mapPages G g va a pgSize flags) s fun r s' => ∃ Q', S.Has s' d Q' ∧
      (0 ≤ r → ∀ va', rawEntry s'.mem d va' =
        if pdx va' = pdx va ∧ ptx va' = ptx va then (a ||| flags ||| pteP) % 2 ^ 32
        else rawEntry s.mem d va') := by
  obtain ⟨hlast, hfirst⟩ := lastPage_one hva
  rw [mapPages, hlast, hfirst, show (2 : Nat) ^ 20 = 1048575 + 1 from rfl, mapLoop]
  refine (walkpgdir_walks h hg).weaken.bind ?_
  intro pte s₁ hs₁
  obtain ⟨Q₁, -, h₁, ⟨hraw, -⟩, ⟨hpte, hat⟩ | ⟨hpte, -⟩⟩ := hs₁
  · rw [if_neg hpte]
    refine ends_kload_bind ?_
    by_cases hp : kload32 s₁.mem pte &&& pteP ≠ 0
    · rw [if_pos hp]
      exact ends_throw id
    rw [if_neg hp]
    refine ends_kstore_bind ?_
    rw [if_pos rfl]
    refine ends_pure ⟨Q₁, h₁.store hat, fun _ va' => ?_⟩
    rw [(h₁.index.store hat).2.2.2 va', Nat.mod_mod, hraw va']
  · rw [if_pos hpte]
    exact ends_pure ⟨Q₁, h₁, fun hr => absurd hr (by decide)⟩

/-! ## Page indexes of address spaces -/

section IndexAt

variable {low : Prop} {m : Mem} {d va : Nat} {X : Set Nat} {maps : Nat → Option (Nat × Nat)}

theorem IndexAt.tableAt_eq (h : IndexAt low m d X maps) {i t : Nat} (hi : i < 1024)
    (ht : tableAt m d i = some t) : word m d i = t + 7 ∧ t ∈ X ∧ t ≠ d := by
  obtain ⟨hp, hround⟩ := tableAt_some ht
  rcases h.entry i hi with h0 | ⟨t', ht', hne, hw⟩
  · rw [h0] at hp
    exact absurd (Nat.zero_and _) hp
  · rw [hw, table_addr (h.frame t' ht')] at hround
    rw [← hround]
    exact ⟨hw, ht', hne⟩

theorem IndexAt.twoLevel (h : IndexAt low m d X maps) : TwoLevel m d X where
  dir := h.dir
  frame := h.frame
  small i hi t ht := by
    obtain ⟨hw, htX, -⟩ := h.tableAt_eq hi ht
    rw [hw]
    exact table_small (h.frame t htX)
  table i hi t ht := (h.tableAt_eq hi ht).2
  inj i hi j hj t hti htj := h.inj i hi j hj t (h.tableAt_eq hi hti).1 (h.tableAt_eq hj htj).1

end IndexAt

end Aim.Kern
