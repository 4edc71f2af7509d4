import Aim.Proofs.SimpleHeap

/-!
# What the functions of `simple_alloc.c` do

One statement for each function, about the words it leaves in memory and the
heads of the lists in `sizes`. The hypotheses are about the addresses it is
called with and the words it finds there; nothing is said yet about pages
being in order.
-/

namespace Aim.Kern

open Aim.Lib Mem

variable {σ : Type} {sizes : List SizeDescriptor} {o : Nat} {d d' : SizeDescriptor} {s : Simple σ}

namespace Simple

def write (s : Simple σ) (a v : Nat) : Simple σ :=
  { s with phys := { s.phys with mem := s.phys.mem.store32 a v } }

def setSize (s : Simple σ) (o : Nat) (d : SizeDescriptor) : Simple σ :=
  { s with sizes := s.sizes.set o d }

@[simp] theorem mem_write (s : Simple σ) (a v : Nat) :
    (s.write a v).phys.mem = s.phys.mem.store32 a v := by
  rw [write]

@[simp] theorem sizes_write (s : Simple σ) (a v : Nat) : (s.write a v).sizes = s.sizes := by
  rw [write]

@[simp] theorem mem_setSize (s : Simple σ) (o : Nat) (d : SizeDescriptor) :
    (s.setSize o d).phys.mem = s.phys.mem := rfl

@[simp] theorem sizes_setSize (s : Simple σ) (o : Nat) (d : SizeDescriptor) :
    (s.setSize o d).sizes = s.sizes.set o d := rfl

end Simple

/-- Only memory and the table were written. -/
structure SameRest (s s' : Simple σ) : Prop where
  pmm : s'.phys.pmm = s.phys.pmm
  on : s'.isPageAllocOn = s.isPageAllocOn
  pt : s'.tmpMemPt = s.tmpMemPt
  console : s'.console = s.console

theorem SameRest.refl (s : Simple σ) : SameRest s s := ⟨rfl, rfl, rfl, rfl⟩

theorem SameRest.write (s : Simple σ) (a v : Nat) : SameRest s (s.write a v) := by
  rw [Simple.write]
  exact ⟨rfl, rfl, rfl, rfl⟩

theorem SameRest.setSize (s : Simple σ) (o : Nat) (d : SizeDescriptor) :
    SameRest s (s.setSize o d) := ⟨rfl, rfl, rfl, rfl⟩

theorem SameRest.trans {s s' s'' : Simple σ} (h : SameRest s s') (h' : SameRest s' s'') :
    SameRest s s'' :=
  ⟨h'.pmm.trans h.pmm, h'.on.trans h.on, h'.pt.trans h.pt, h'.console.trans h.console⟩

/-! ## The table -/

/-- The sizes and block numbers are as they were initialised. -/
def Shape (sizes : List SizeDescriptor) : Prop :=
  sizes.map (fun d => (d.size, d.nblocks)) = classes

/-- The head of the list of class `o`. -/
def firstOf (sizes : List SizeDescriptor) (o : Nat) : Nat :=
  (sizes[o]?.map SizeDescriptor.firstfree).getD 0

theorem Shape.length (h : Shape sizes) : sizes.length = 9 := by
  have hlen := congrArg List.length h
  rwa [List.length_map] at hlen

theorem Shape.get (h : Shape sizes) (ho : o < 9) :
    ∃ d, sizes[o]? = some d ∧ d.size = classSize o ∧ d.nblocks = classBlocks o := by
  have hlt : o < sizes.length := by rw [h.length]; exact ho
  refine ⟨sizes[o], List.getElem?_eq_getElem hlt, ?_⟩
  have hget : classes[o]? = some (sizes[o].size, sizes[o].nblocks) := by
    rw [← h, List.getElem?_map, List.getElem?_eq_getElem hlt]
    rfl
  rw [classSize, classBlocks, List.getD_eq_getElem?_getD, hget]
  exact ⟨rfl, rfl⟩

theorem Shape.set (h : Shape sizes) (hd : sizes[o]? = some d) (hsize : d'.size = d.size)
    (hblocks : d'.nblocks = d.nblocks) : Shape (sizes.set o d') := by
  obtain ⟨hlt, rfl⟩ := List.getElem?_eq_some_iff.mp hd
  have hself : (sizes.set o sizes[o]).map (fun d => (d.size, d.nblocks)) = classes := by
    rw [List.set_getElem_self]
    exact h
  rw [Shape, List.map_set, hsize, hblocks]
  rw [List.map_set] at hself
  exact hself

theorem firstOf_set (hd : sizes[o]? = some d) :
    firstOf (sizes.set o d') = Function.update (firstOf sizes) o d'.firstfree := by
  obtain ⟨hlt, _⟩ := List.getElem?_eq_some_iff.mp hd
  funext o'
  by_cases heq : o' = o
  · subst heq
    rw [firstOf, List.getElem?_set_self hlt, Function.update_self]
    rfl
  · rw [firstOf, List.getElem?_set_ne (Ne.symm heq), Function.update_of_ne heq, firstOf]

theorem firstOf_eq (hd : sizes[o]? = some d) : firstOf sizes o = d.firstfree := by
  rw [firstOf, hd]
  rfl

/-- A write that is not to `firstfree`. -/
theorem firstOf_set_stat (hd : sizes[o]? = some d) (hfirst : d'.firstfree = d.firstfree) :
    firstOf (sizes.set o d') = firstOf sizes := by
  rw [firstOf_set hd, hfirst, ← firstOf_eq hd, Function.update_eq_self]

/-! ## Accesses -/

theorem run_load (a : Nat) (s : Simple σ) :
    (load a).run s = .ok (s.phys.mem.load32 a) s := rfl

theorem run_store (a v : Nat) (s : Simple σ) :
    (store a v).run s = .ok () (s.write a v) := rfl

theorem run_sizeAt (hd : s.sizes[o]? = some d) : (sizeAt (o : Int)).run s = .ok d s := by
  have h0 : (0 : Int) ≤ (o : Int) := by omega
  simp only [sizeAt, EStateM.run_bind, EStateM.run_get, if_pos h0, Int.toNat_natCast, hd]
  rfl

theorem run_modifySize (hd : s.sizes[o]? = some d) (f : SizeDescriptor → SizeDescriptor) :
    (modifySize (o : Int) f).run s = .ok () (s.setSize o (f d)) := by
  rw [modifySize, run_bind_ok (run_sizeAt hd), EStateM.run_modify, Int.toNat_natCast]
  rfl

/-! ## `simple_alloc` takes a block -/

/-- What `simple_alloc` has done to the page when `k` free blocks are left. The
last one takes the page off its list. -/
structure PageTaken (s s' : Simple σ) (o page p k : Nat) : Prop where
  rest : SameRest s s'
  shape : Shape s'.sizes
  same : SameBut s.phys.mem s'.phys.mem (written page p)
  first : load32 s'.phys.mem (page + 4) = load32 s.phys.mem (p + 4)
  nfree : load32 s'.phys.mem (page + 12) = k
  link : load32 s'.phys.mem page = if k = 0 then 0 else load32 s.phys.mem page
  head : firstOf s'.sizes = if k = 0 then
    Function.update (firstOf s.sizes) o (load32 s.phys.mem page) else firstOf s.sizes

/-- The block is marked as well. -/
structure Taken (s s' : Simple σ) (o page p k : Nat) : Prop
    extends PageTaken s s' o page p k where
  used : load32 s'.phys.mem p = mfUsed

theorem PageTaken.mark {s t : Simple σ} {o page p k size : Nat} (h : PageTaken s t o page p k)
    (hp : page + 16 ≤ p) (hlt : p + 8 < 2 ^ 32) (hd : t.sizes[o]? = some d)
    (hfirst : d'.firstfree = d.firstfree) (hsize : d'.size = d.size)
    (hblocks : d'.nblocks = d.nblocks) :
    Taken s (((t.setSize o d').write p mfUsed).write (p + 4) size) o page p k where
  rest := (h.rest.trans (.setSize _ _ _)).trans ((SameRest.write _ _ _).trans (.write _ _ _))
  shape := by
    simp only [Simple.sizes_write, Simple.sizes_setSize]
    exact h.shape.set hd hsize hblocks
  same := by
    simp only [Simple.mem_write, Simple.mem_setSize]
    exact (h.same.store (by simp [written]) (by omega)).store (by simp [written]) (by omega)
  first := by
    simp (disch := omega) only [Simple.mem_write, Simple.mem_setSize, load32_store32_ne]
    exact h.first
  nfree := by
    simp (disch := omega) only [Simple.mem_write, Simple.mem_setSize, load32_store32_ne]
    exact h.nfree
  link := by
    simp (disch := omega) only [Simple.mem_write, Simple.mem_setSize, load32_store32_ne]
    exact h.link
  head := by
    simp only [Simple.sizes_write, Simple.sizes_setSize]
    rw [firstOf_set_stat hd hfirst]
    exact h.head
  used := by
    simp (disch := omega) only [Simple.mem_write, Simple.mem_setSize, load32_store32_self,
      load32_store32_ne]
    rfl

theorem takeBlock_spec (size : Nat) {o page p k : Nat} (hshape : Shape s.sizes) (ho : o < 9)
    (hp : page + 16 ≤ p) (hlt : p + 8 < 2 ^ 32) (hflag : load32 s.phys.mem p = mfFree)
    (hnfree : load32 s.phys.mem (page + 12) = k + 1) :
    ∃ s', (takeBlock (o : Int) size page p).run s = .ok (p + 8) s' ∧
      Taken s s' o page p k ∧ load32 s'.phys.mem (p + 4) = size % 2 ^ 32 := by
  obtain ⟨d, hd, _, _⟩ := hshape.get ho
  have hnext := load32_lt s.phys.mem (p + 4)
  have hk := load32_lt s.phys.mem (page + 12)
  have hret : (p + 8) % 2 ^ 32 = p + 8 := Nat.mod_eq_of_lt hlt
  rw [takeBlock, run_bind_ok (run_load _ _), if_pos hflag, run_bind_ok (run_load _ _),
    run_bind_ok (run_store _ _ _), run_bind_ok (run_load _ _),
    run_bind_ok (run_store _ _ _), run_bind_ok (run_load _ _)]
  generalize hs₁ : (s.write (page + 4) _).write (page + 12) _ = s₁
  have hmem₁ : s₁.phys.mem = (s.phys.mem.store32 (page + 4)
      (load32 s.phys.mem (p + 4))).store32 (page + 12) (k + 1 + 2 ^ 32 - 1) := by
    rw [← hs₁]
    simp (disch := omega) only [Simple.mem_write, load32_store32_ne, hnfree]
  have hrest₁ : SameRest s s₁ :=
    hs₁ ▸ (SameRest.write s _ _).trans (SameRest.write _ _ _)
  have hsizes₁ : s₁.sizes = s.sizes := by
    rw [← hs₁, Simple.sizes_write, Simple.sizes_write]
  have hd₁ : s₁.sizes[o]? = some d := by rw [hsizes₁]; exact hd
  have hsame₁ : SameBut s.phys.mem s₁.phys.mem (written page p) := by
    rw [hmem₁]
    exact ((SameBut.refl _ _).store (by simp [written]) (by omega)).store
      (by simp [written]) (by omega)
  have hfirst₁ : load32 s₁.phys.mem (page + 4) = load32 s.phys.mem (p + 4) := by
    rw [hmem₁]
    simp (disch := omega) only [load32_store32_self, load32_store32_ne]
    omega
  have hnfree₁ : load32 s₁.phys.mem (page + 12) = k := by
    rw [hmem₁, load32_store32_self]
    omega
  have hlink₁ : load32 s₁.phys.mem page = load32 s.phys.mem page := by
    rw [hmem₁]
    simp (disch := omega) only [load32_store32_ne]
  rw [hnfree₁, hret]
  by_cases hk0 : k = 0
  · -- The page is full now and leaves the list of its class.
    rw [if_pos hk0, run_bind_ok (run_load _ _), run_bind_ok (run_modifySize hd₁ _),
      run_bind_ok (run_store _ _ _), hlink₁]
    generalize hs₂ : (s₁.setSize o _).write page 0 = s₂
    have hsizes₂ : s₂.sizes = s.sizes.set o { d with firstfree := load32 s.phys.mem page } := by
      rw [← hs₂, Simple.sizes_write, Simple.sizes_setSize, hsizes₁]
    have hd₂ : s₂.sizes[o]? = some { d with firstfree := load32 s.phys.mem page } := by
      rw [hsizes₂, List.getElem?_set_self (by rw [hshape.length]; exact ho)]
    have hmem₂ : s₂.phys.mem = s₁.phys.mem.store32 page 0 := by
      rw [← hs₂, Simple.mem_write, Simple.mem_setSize]
    have hpage : PageTaken s s₂ o page p k := by
      constructor
      · exact hs₂ ▸ (hrest₁.trans (.setSize _ _ _)).trans (.write _ _ _)
      · rw [hsizes₂]; exact hshape.set hd rfl rfl
      · rw [hmem₂]; exact hsame₁.store (by simp [written]) (by omega)
      · rw [hmem₂, load32_store32_ne (by omega) (by omega) (by omega)]; exact hfirst₁
      · rw [hmem₂, load32_store32_ne (by omega) (by omega) (by omega)]; exact hnfree₁
      · rw [hmem₂, load32_store32_self, if_pos hk0]; rfl
      · rw [hsizes₂, firstOf_set hd, if_pos hk0]
    rw [run_bind_ok (run_modifySize hd₂ _), run_bind_ok (run_store _ _ _),
      run_bind_ok (run_store _ _ _)]
    exact ⟨_, rfl, hpage.mark hp hlt hd₂ rfl rfl rfl, load32_store32_self _ _ _⟩
  · have hpage : PageTaken s s₁ o page p k := by
      constructor
      · exact hrest₁
      · rw [hsizes₁]; exact hshape
      · exact hsame₁
      · exact hfirst₁
      · exact hnfree₁
      · rw [if_neg hk0]; exact hlink₁
      · rw [if_neg hk0, hsizes₁]
    rw [if_neg hk0, run_bind_ok (run_modifySize hd₁ _), run_bind_ok (run_store _ _ _),
      run_bind_ok (run_store _ _ _)]
    exact ⟨_, rfl, hpage.mark hp hlt hd₁ rfl rfl rfl, load32_store32_self _ _ _⟩

/-! ## `simple_alloc` cuts a page into blocks -/

/-- The headers of the blocks `0` to `j - 1` from `p` on were written, each
linked to the next. -/
structure Carved (s s' : Simple σ) (sz p j : Nat) : Prop where
  rest : SameRest s s'
  sizes : s'.sizes = s.sizes
  flag : ∀ k < j, load32 s'.phys.mem (p + k * sz) = mfFree
  next : ∀ k < j, load32 s'.phys.mem (p + k * sz + 4) = p + (k + 1) * sz
  other : ∀ a, a + 4 ≤ 2 ^ 32 → a + 4 ≤ p ∨ p + j * sz ≤ a →
    load32 s'.phys.mem a = load32 s.phys.mem a

theorem carveBlocks_spec {sz p j : Nat} (hsz : 8 ≤ sz) (hlt : p + (j + 1) * sz ≤ 2 ^ 32) :
    ∃ s', (carveBlocks sz (j + 1) p).run s = .ok (p + j * sz) s' ∧ Carved s s' sz p j := by
  induction j generalizing p s with
  | zero =>
      refine ⟨s, by rw [Nat.zero_mul]; rfl, .refl s, rfl, ?_, ?_, fun _ _ _ => rfl⟩
      · intro k hk; omega
      · intro k hk; omega
  | succ j ih =>
      rw [Nat.add_mul, Nat.add_mul, Nat.one_mul] at hlt
      have hnext : (p + sz) % 2 ^ 32 = p + sz := Nat.mod_eq_of_lt (by omega)
      rw [carveBlocks, run_bind_ok (run_store _ _ _), run_bind_ok (run_store _ _ _),
        run_bind_ok (run_load _ _), Simple.mem_write, load32_store32_self, hnext]
      generalize hs₁ : (s.write p mfFree).write (p + 4) (p + sz) = s₁
      have hmem₁ : s₁.phys.mem = (s.phys.mem.store32 p mfFree).store32 (p + 4) (p + sz) := by
        rw [← hs₁, Simple.mem_write, Simple.mem_write]
      obtain ⟨s', hrun, hC⟩ := ih (s := s₁) (p := p + sz)
        (by rw [Nat.add_mul, Nat.one_mul]; omega)
      have hshift : ∀ k, p + sz + k * sz = p + (k + 1) * sz := by
        intro k; rw [Nat.add_mul, Nat.one_mul]; omega
      refine ⟨s', by rw [hrun, hshift], ?_, ?_, ?_, ?_, ?_⟩
      · exact (hs₁ ▸ (SameRest.write s _ _).trans (.write _ _ _)).trans hC.rest
      · rw [hC.sizes, ← hs₁, Simple.sizes_write, Simple.sizes_write]
      · intro k hk
        cases k with
        | zero =>
            rw [Nat.zero_mul, Nat.add_zero, hC.other p (by omega) (by omega), hmem₁,
              load32_store32_ne (by omega) (by omega) (by omega), load32_store32_self]
            rfl
        | succ k => rw [← hshift]; exact hC.flag k (by omega)
      · intro k hk
        cases k with
        | zero =>
            rw [Nat.zero_mul, Nat.add_zero, hC.other (p + 4) (by omega) (by omega), hmem₁,
              load32_store32_self, hnext, Nat.zero_add, Nat.one_mul]
        | succ k => rw [← hshift, ← hshift]; exact hC.next k (by omega)
      · intro a ha hout
        rw [Nat.add_mul, Nat.one_mul] at hout
        rw [hC.other a ha (by omega), hmem₁, load32_store32_ne (by omega) ha (by omega),
          load32_store32_ne (by omega) ha (by omega)]

/-- A page was cut into blocks and is the first of its class. -/
structure Added (s s' : Simple σ) (o page : Nat) : Prop where
  rest : SameRest s s'
  shape : Shape s'.sizes
  fresh : PageAt s'.phys.mem page (classSize o) (classBlocks o) o
    (pageBlocks page (classSize o) (classBlocks o))
  link : load32 s'.phys.mem page = firstOf s.sizes o
  head : firstOf s'.sizes = Function.update (firstOf s.sizes) o page
  other : ∀ a, a + 4 ≤ 2 ^ 32 → a + 4 ≤ page ∨ page + 4096 ≤ a →
    load32 s'.phys.mem a = load32 s.phys.mem a

/-- The words `simple_alloc` writes after the loop over the blocks: the header
of the last block `p`, and the descriptor. -/
def sealPage (m : Mem) (o n page p first : Nat) : Mem :=
  (((((m.store32 p mfFree).store32 (p + 4) 0).store32 (page + 8) o).store32
    (page + 12) n).store32 (page + 4) (page + 16)).store32 page first

theorem Carved.seal {s s₂ : Simple σ} {o n sz page first : Nat} (hL : Layout sz n)
    (ho : o < 2 ^ 32) (hn : n < 2 ^ 32)
    (hpage : 0 < page ∧ page + 4096 ≤ 2 ^ 32) (hfirst : first < 2 ^ 32)
    (hC : Carved s s₂ sz (page + 16) (n - 1)) {m : Mem}
    (hm : m = sealPage s₂.phys.mem o n page (page + 16 + (n - 1) * sz) first) :
    PageAt m page sz n o (pageBlocks page sz n) ∧ load32 m page = first ∧
      ∀ a, a + 4 ≤ 2 ^ 32 → a + 4 ≤ page ∨ page + 4096 ≤ a →
        load32 m a = load32 s.phys.mem a := by
  have hpos := hL.pos
  have hsz := hL.header
  have hfits := hL.fits
  have hlast : n * sz = (n - 1) * sz + sz := by
    rw [← Nat.succ_mul, Nat.succ_eq_add_one, Nat.sub_add_cancel hpos]
  have hbefore : ∀ k, k + 1 < n → k * sz + sz ≤ (n - 1) * sz := by
    intro k hk
    rw [← Nat.succ_mul]
    exact Nat.mul_le_mul_right _ (by omega)
  have hflag := hC.flag
  have hnext := hC.next
  have hother := hC.other
  rw [sealPage] at hm
  generalize he : (n - 1) * sz = e at hm hlast hbefore hother
  refine ⟨PageAt.fresh hL hpage.1 ?_ ?_ ?_ ?_ ?_ ?_, ?_, ?_⟩
  · rw [hm]
    simp (disch := omega) only [load32_store32_self, load32_store32_ne]
    omega
  · rw [hm]
    simp (disch := omega) only [load32_store32_self, load32_store32_ne]
    omega
  · rw [hm]
    simp (disch := omega) only [load32_store32_self, load32_store32_ne]
    omega
  · intro k hk
    rw [hm]
    by_cases hk1 : k + 1 < n
    · have hb := hbefore k hk1
      simp (disch := omega) only [load32_store32_ne]
      exact hflag k (by omega)
    · -- The last block.
      have hke : k * sz = e := by rw [← he, show k = n - 1 by omega]
      simp (disch := omega) only [load32_store32_self, load32_store32_ne, hke]
      rfl
  · intro k hk1
    have hb := hbefore k hk1
    rw [hm]
    simp (disch := omega) only [load32_store32_ne]
    exact hnext k (by omega)
  · rw [hm, he]
    simp (disch := omega) only [load32_store32_self, load32_store32_ne]
    rfl
  · rw [hm, load32_store32_self]
    omega
  · intro a ha hout
    rw [hm]
    simp (disch := omega) only [load32_store32_ne]
    exact hother a ha (by omega)

theorem addPage_spec {o page : Nat} (hshape : Shape s.sizes) (ho : o < 8)
    (hpage : 0 < page ∧ page + 4096 ≤ 2 ^ 32) (hfirst : firstOf s.sizes o < 2 ^ 32) :
    ∃ s', (addPage (o : Int) page).run s = .ok () s' ∧ Added s s' o page := by
  obtain ⟨d, hd, hsize, hblocks⟩ := hshape.get (show o < 9 by omega)
  have hL := class_layout ho
  have hn := hL.pos
  have hsz := hL.header
  have hfits := hL.fits
  have hsmall := classBlocks_lt ho
  have hp16 : (page + 16) % 2 ^ 32 = page + 16 := Nat.mod_eq_of_lt (by omega)
  have hord : ((o : Int) % 2 ^ 32).toNat = o := by omega
  rw [addPage, run_bind_ok (run_sizeAt hd), run_bind_ok (run_modifySize hd _)]
  generalize hs₁ : s.setSize o _ = s₁
  have hsizes₁ : s₁.sizes = s.sizes.set o { d with npages := d.npages + 1 } := by
    rw [← hs₁, Simple.sizes_setSize]
  have hmem₁ : s₁.phys.mem = s.phys.mem := by rw [← hs₁, Simple.mem_setSize]
  obtain ⟨s₂, hrun₂, hC⟩ := carveBlocks_spec (s := s₁) (p := page + 16)
    (j := classBlocks o - 1) (show 8 ≤ classSize o by omega)
    (by rw [Nat.sub_add_cancel hn]; omega)
  rw [Nat.sub_add_cancel hn, ← hsize, ← hblocks, ← hp16] at hrun₂
  have hd₂ : s₂.sizes[o]? = some { d with npages := d.npages + 1 } := by
    rw [hC.sizes, hsizes₁, List.getElem?_set_self (by rw [hshape.length]; omega)]
  rw [run_bind_ok hrun₂, hp16, hord, run_bind_ok (run_store _ _ _),
    run_bind_ok (run_store _ _ _), run_bind_ok (run_store _ _ _),
    run_bind_ok (run_store _ _ _), run_bind_ok (run_store _ _ _)]
  generalize hs₃ : Simple.write _ (page + 4) _ = s₃
  have hsizes₃ : s₃.sizes = s₂.sizes := by
    rw [← hs₃]
    simp only [Simple.sizes_write]
  have hd₃ : s₃.sizes[o]? = some { d with npages := d.npages + 1 } := by
    rw [hsizes₃]; exact hd₂
  have hshape₃ : Shape s₃.sizes := by
    rw [hsizes₃, hC.sizes, hsizes₁]
    exact hshape.set hd rfl rfl
  have hfirst₃ : firstOf s₃.sizes = firstOf s.sizes := by
    rw [hsizes₃, hC.sizes, hsizes₁]
    exact firstOf_set_stat hd rfl
  have hd₄ : (s₃.write page d.firstfree).sizes[o]? =
      some { d with npages := d.npages + 1 } := by
    rw [Simple.sizes_write]; exact hd₃
  rw [run_bind_ok (run_sizeAt hd₃), run_bind_ok (run_store _ _ _), run_modifySize hd₄]
  refine ⟨_, rfl, ?_⟩
  have hseal := hC.seal hL (show o < 2 ^ 32 by omega) (by omega) hpage hfirst
    (m := (s₃.write page d.firstfree).phys.mem) (by
      rw [Simple.mem_write, ← hs₃, firstOf_eq hd, ← hsize, ← hblocks]
      simp only [Simple.mem_write, sealPage])
  constructor
  · have hrest₃ : SameRest s₂ s₃ := hs₃ ▸
      ((((SameRest.write s₂ _ _).trans (.write _ _ _)).trans (.write _ _ _)).trans
        (.write _ _ _)).trans (.write _ _ _)
    have hrest₁ : SameRest s s₁ := hs₁ ▸ SameRest.setSize _ _ _
    exact ((hrest₁.trans hC.rest).trans hrest₃).trans ((SameRest.write _ _ _).trans
      (.setSize _ _ _))
  · exact hshape₃.set hd₃ rfl rfl
  · exact hseal.1
  · exact hseal.2.1
  · rw [Simple.sizes_setSize, Simple.sizes_write, firstOf_set hd₃, hfirst₃]
  · intro a ha hout
    rw [← hmem₁]
    exact hseal.2.2 a ha hout

/-! ## `simple_free` puts a block back -/

/-- The block `p` of `page`, which had `k` free blocks, was put on its free
list. The first one puts the page on the list of its class. -/
structure Returned (s s' : Simple σ) (o page p k : Nat) : Prop where
  rest : SameRest s s'
  shape : Shape s'.sizes
  same : SameBut s.phys.mem s'.phys.mem (written page p)
  first : load32 s'.phys.mem (page + 4) = p
  next : load32 s'.phys.mem (p + 4) = load32 s.phys.mem (page + 4)
  nfree : load32 s'.phys.mem (page + 12) = k + 1
  free : load32 s'.phys.mem p = mfFree
  link : load32 s'.phys.mem page =
    if k = 0 then firstOf s.sizes o else load32 s.phys.mem page
  head : firstOf s'.sizes =
    if k = 0 then Function.update (firstOf s.sizes) o page else firstOf s.sizes

/-- The words `simple_free` writes to the block and its page. -/
def returnBlock (m : Mem) (page p k : Nat) : Mem :=
  (((m.store32 p mfFree).store32 (p + 4) (load32 m (page + 4))).store32 (page + 4) p).store32
    (page + 12) (k + 1)

theorem putBlock_spec {o page p k : Nat} (hshape : Shape s.sizes) (ho : o < 9) (hp : page + 16 ≤ p)
    (hlt : p + 8 < 2 ^ 32) (hk : k + 1 < 2 ^ 32) (hfirst : firstOf s.sizes o < 2 ^ 32)
    (hnfree : load32 s.phys.mem (page + 12) = k) (hlink : k = 0 → load32 s.phys.mem page = 0) :
    ∃ s', (putBlock (o : Int) page p).run s = .ok () s' ∧ Returned s s' o page p k := by
  obtain ⟨d, hd, _, _⟩ := hshape.get ho
  have hnext := load32_lt s.phys.mem (page + 4)
  rw [putBlock, run_bind_ok (run_store _ _ _), run_bind_ok (run_load _ _),
    run_bind_ok (run_store _ _ _), run_bind_ok (run_store _ _ _), run_bind_ok (run_load _ _),
    run_bind_ok (run_store _ _ _), run_bind_ok (run_load _ _)]
  generalize hs₁ : Simple.write _ (page + 12) _ = s₁
  have hmem₁ : s₁.phys.mem = returnBlock s.phys.mem page p k := by
    rw [← hs₁, returnBlock]
    simp (disch := omega) only [Simple.mem_write, load32_store32_ne, hnfree]
  have hrest₁ : SameRest s s₁ := hs₁ ▸ (((SameRest.write s _ _).trans (.write _ _ _)).trans
    (.write _ _ _)).trans (.write _ _ _)
  have hsizes₁ : s₁.sizes = s.sizes := by
    rw [← hs₁]
    simp only [Simple.sizes_write]
  have hd₁ : s₁.sizes[o]? = some d := by rw [hsizes₁]; exact hd
  rw [returnBlock] at hmem₁
  have hsame₁ : SameBut s.phys.mem s₁.phys.mem (written page p) := by
    rw [hmem₁]
    exact ((((SameBut.refl _ _).store (by simp [written]) (by omega)).store
      (by simp [written]) (by omega)).store (by simp [written]) (by omega)).store
      (by simp [written]) (by omega)
  have hfirst₁ : load32 s₁.phys.mem (page + 4) = p := by
    rw [hmem₁]
    simp (disch := omega) only [load32_store32_self, load32_store32_ne]
    omega
  have hnext₁ : load32 s₁.phys.mem (p + 4) = load32 s.phys.mem (page + 4) := by
    rw [hmem₁]
    simp (disch := omega) only [load32_store32_self, load32_store32_ne]
    omega
  have hnfree₁ : load32 s₁.phys.mem (page + 12) = k + 1 := by
    rw [hmem₁, load32_store32_self]
    omega
  have hfree₁ : load32 s₁.phys.mem p = mfFree := by
    rw [hmem₁]
    simp (disch := omega) only [load32_store32_self, load32_store32_ne]
    rfl
  have hlink₁ : load32 s₁.phys.mem page = load32 s.phys.mem page := by
    rw [hmem₁]
    simp (disch := omega) only [load32_store32_ne]
  rw [hnfree₁]
  by_cases hk0 : k = 0
  · -- The page was full and comes back on the list of its class.
    have hnull : ¬ load32 s₁.phys.mem page ≠ 0 := by
      rw [hlink₁, hlink hk0]
      exact fun h => h rfl
    have hd₂ : (s₁.write page d.firstfree).sizes[o]? = some d := by
      rw [Simple.sizes_write]; exact hd₁
    rw [if_pos (by omega), run_bind_ok (run_load _ _), if_neg hnull,
      run_bind_ok (run_sizeAt hd₁), run_bind_ok (run_store _ _ _), run_modifySize hd₂]
    refine ⟨_, rfl, ?_⟩
    constructor
    · exact (hrest₁.trans (.write _ _ _)).trans (.setSize _ _ _)
    · rw [Simple.sizes_setSize, Simple.sizes_write, hsizes₁]
      exact hshape.set hd rfl rfl
    · rw [Simple.mem_setSize, Simple.mem_write]
      exact hsame₁.store (by simp [written]) (by omega)
    · rw [Simple.mem_setSize, Simple.mem_write,
        load32_store32_ne (by omega) (by omega) (by omega)]
      exact hfirst₁
    · rw [Simple.mem_setSize, Simple.mem_write,
        load32_store32_ne (by omega) (by omega) (by omega)]
      exact hnext₁
    · rw [Simple.mem_setSize, Simple.mem_write,
        load32_store32_ne (by omega) (by omega) (by omega)]
      exact hnfree₁
    · rw [Simple.mem_setSize, Simple.mem_write,
        load32_store32_ne (by omega) (by omega) (by omega)]
      exact hfree₁
    · rw [firstOf_eq hd] at hfirst
      rw [Simple.mem_setSize, Simple.mem_write, load32_store32_self, if_pos hk0,
        firstOf_eq hd, Nat.mod_eq_of_lt hfirst]
    · rw [Simple.sizes_setSize, Simple.sizes_write, hsizes₁, firstOf_set hd, if_pos hk0]
  · rw [if_neg (by omega)]
    refine ⟨s₁, rfl, hrest₁, by rw [hsizes₁]; exact hshape, hsame₁, hfirst₁, hnext₁,
      hnfree₁, hfree₁, ?_, ?_⟩
    · rw [if_neg hk0]; exact hlink₁
    · rw [if_neg hk0, hsizes₁]

/-- The walk along the list of a class stops in front of the page. -/
theorem findPrev_spec {page prev first : Nat} {l₁ l₂ : List Nat}
    (hchain : Chain 0 (load32 s.phys.mem) first (l₁ ++ prev :: page :: l₂))
    (hnot : page ∉ l₁ ++ [prev]) {fuel : Nat} (hfuel : l₁.length < fuel) :
    (findPrev page fuel first).run s = .ok prev s := by
  induction l₁ generalizing first fuel with
  | nil =>
      obtain ⟨rfl, hne, hrest⟩ := hchain
      cases fuel with
      | zero => exact absurd hfuel (Nat.not_lt_zero _)
      | succ fuel =>
          have hnext : ¬ load32 s.phys.mem first ≠ page := fun h => h hrest.1
          rw [findPrev, if_neg hne, run_bind_ok (run_load _ _), if_neg hnext]
          rfl
  | cons q l₁ ih =>
      obtain ⟨rfl, hne, hrest⟩ := hchain
      cases fuel with
      | zero => exact absurd hfuel (Nat.not_lt_zero _)
      | succ fuel =>
          have hstep : load32 s.phys.mem first ≠ page := by
            intro heq
            have hhead : load32 s.phys.mem first ∈ l₁ ++ [prev] := by
              cases l₁ with
              | nil => rw [hrest.1]; exact List.mem_cons_self
              | cons r l₁ => rw [hrest.1]; exact List.mem_cons_self
            exact hnot (List.mem_cons_of_mem _ (heq ▸ hhead))
          rw [findPrev, if_neg hne, run_bind_ok (run_load _ _), if_pos hstep]
          exact ih hrest (fun hmem => hnot (List.mem_cons_of_mem _ hmem))
            (Nat.lt_of_succ_lt_succ hfuel)

/-! ## `get_order` -/

/-- The class a request of `size` bytes is served from. -/
def orderOf (size : Nat) : Nat := classes.findIdx fun c => size + 8 ≤ c.1

theorem getOrderFrom_spec {size : Nat} {ds : List SizeDescriptor}
    (hend : ∃ d ∈ ds, d.size = 0) (k : Nat) (s : Simple σ) :
    (getOrderFrom size ds (k : Int)).run s = .ok (-1) s ∧
        (∀ (j : Nat) (d : SizeDescriptor), ds[j]? = some d →
          (∀ i ≤ j, ∀ e : SizeDescriptor, ds[i]? = some e → e.size ≠ 0) → d.size < size) ∨
      ∃ j d, ds[j]? = some d ∧ d.size ≠ 0 ∧ size ≤ d.size ∧
        (ds.map (fun d => (d.size, d.nblocks))).findIdx (fun c => size ≤ c.1) = j ∧
        (getOrderFrom size ds (k : Int)).run s = .ok ((k + j : Nat) : Int) s := by
  induction ds generalizing k with
  | nil =>
      obtain ⟨d, hd, _⟩ := hend
      cases hd
  | cons d ds ih =>
      rw [getOrderFrom]
      by_cases h0 : d.size = 0
      · rw [if_pos h0]
        refine Or.inl ⟨rfl, ?_⟩
        intro j e _ hpos
        exact absurd h0 (hpos 0 (Nat.zero_le j) d rfl)
      · rw [if_neg h0]
        by_cases hle : size ≤ d.size
        · rw [if_pos hle]
          exact Or.inr ⟨0, d, rfl, h0, hle, by simp [List.findIdx_cons, hle], rfl⟩
        · rw [if_neg hle]
          have hend' : ∃ d ∈ ds, d.size = 0 := by
            obtain ⟨e, he, hz⟩ := hend
            rcases List.mem_cons.mp he with rfl | he
            · exact absurd hz h0
            · exact ⟨e, he, hz⟩
          rcases ih hend' (k + 1) with ⟨hrun, hlt⟩ | ⟨j, e, hj, he0, hele, hidx, hrun⟩
          · refine Or.inl ⟨hrun, ?_⟩
            intro j e hj hpos
            cases j with
            | zero =>
                obtain rfl := Option.some.inj hj
                omega
            | succ j =>
                exact hlt j e hj fun i hi f hf => hpos (i + 1) (by omega) f hf
          · refine Or.inr ⟨j + 1, e, hj, he0, hele, ?_, ?_⟩
            · rw [List.map_cons, List.findIdx_cons, hidx, decide_eq_false hle]
              rfl
            · rw [show k + (j + 1) = k + 1 + j by omega]
              exact hrun

/-- `get_order` answers `-1` or the first class whose blocks are large enough. -/
theorem getOrder_spec (hshape : Shape s.sizes) (size : Nat) :
    (getOrder size).run s = .ok (-1) s ∧ 4080 < size + 8 ∨
      orderOf size < 8 ∧ size + 8 ≤ classSize (orderOf size) ∧
        (getOrder size).run s = .ok ((orderOf size : Nat) : Int) s := by
  obtain ⟨last, hlast, hzero, _⟩ := hshape.get (show 8 < 9 by omega)
  have hend : ∃ d ∈ s.sizes, d.size = 0 := ⟨last, List.mem_of_getElem? hlast, hzero⟩
  have hrun : (getOrder size).run s = (getOrderFrom (size + 8) s.sizes ((0 : Nat) : Int)).run s :=
    rfl
  rw [hrun]
  rcases getOrderFrom_spec hend 0 s with ⟨h, hlt⟩ | ⟨j, d, hd, h0, hle, hidx, h⟩
  · obtain ⟨d, hd, hsize, _⟩ := hshape.get (show 7 < 9 by omega)
    refine Or.inl ⟨h, ?_⟩
    rw [show 4080 = classSize 7 from rfl, ← hsize]
    refine hlt 7 d hd ?_
    intro i hi e he h0
    obtain ⟨e', he', hesize, _⟩ := hshape.get (show i < 9 by omega)
    rw [he] at he'
    obtain rfl := Option.some.inj he'
    have hheader := (class_layout (show i < 8 by omega)).header
    omega
  · have hj : j < 9 := by
      have hlt := (List.getElem?_eq_some_iff.mp hd).1
      rwa [hshape.length] at hlt
    obtain ⟨e, he, hsize, _⟩ := hshape.get hj
    rw [hd] at he
    obtain rfl := Option.some.inj he
    have hj8 : j ≠ 8 := by
      intro heq
      rw [heq] at hsize
      exact h0 hsize
    have hord : orderOf size = j := by
      rw [orderOf, ← hshape]
      exact hidx
    rw [Nat.zero_add] at h
    rw [hord]
    exact Or.inr ⟨by omega, by rw [← hsize]; exact hle, h⟩

end Aim.Kern
