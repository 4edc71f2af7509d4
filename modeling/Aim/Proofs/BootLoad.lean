import Aim.Proofs.Readseg

/-!
# The boot loader and the bytes around a segment

For each segment whole sectors are read, and then the rest of the segment is
cleared. So loading a segment is two blocks of writes (`loadSegment`), and loading
the kernel is one such pair for each header of the file, as long as none of the
blocks reaches the scratch space with the headers (`run_bootLoad`).

A segment has its bytes right after it was loaded. Later ones cannot touch them with
their own bytes, but with the rest of their sectors: what the file has in front of a
segment comes to the addresses in front of it, where the segment before it may end
(`bootLoad_iff`). With a gap in front of every segment that is as large as its offset
in a sector nothing is lost (`sectorsAgree_of_gaps`).
-/

namespace Aim.Kern

open Aim.Lib

/-! ## Headers -/

/-- The kernel on the disk, as bytes. -/
def kernelFile (disk : Nat → UInt8) (m : Mem) : Mem := fun i =>
  disk (sectSize * firstSector m + i)

/-- The program headers of a file. -/
def phdrs (file : Mem) : List Phdr :=
  (List.range (ePhnum file 0)).map fun k => phdrAt file (ePhoff file 0 + phdrSize * k)

/-- The scratch space has the start of the file. -/
def InScratch (file m : Mem) : Prop := ∀ i < scratchSize, m (scratch + i) = file i

section Headers

variable {file m : Mem} {a : Nat}

theorem InScratch.load32 (h : InScratch file m) (ha : a + 4 ≤ scratchSize) :
    m.load32 (scratch + a) = file.load32 a := by
  rw [scratchSize] at ha
  refine Mem.load32_moved (by rw [scratch]; omega) (by omega) fun i hi => ?_
  rw [Nat.add_assoc]
  exact h (a + i) (by rw [scratchSize]; omega)

theorem InScratch.phdrAt (h : InScratch file m) (ha : a + phdrSize ≤ scratchSize) :
    phdrAt m (scratch + a) = phdrAt file a := by
  rw [phdrSize] at ha
  rw [Aim.Kern.phdrAt, Aim.Kern.phdrAt]
  simp only [Nat.add_assoc]
  rw [h.load32 (by omega), h.load32 (by omega), h.load32 (by omega), h.load32 (by omega)]

theorem InScratch.ePhoff (h : InScratch file m) : ePhoff m scratch = ePhoff file 0 := by
  rw [Aim.Kern.ePhoff, h.load32 (by decide), Aim.Kern.ePhoff]

theorem InScratch.ePhnum (h : InScratch file m) : ePhnum m scratch = ePhnum file 0 := by
  have h44 := h 44 (by decide)
  have h45 := h 45 (by decide)
  rw [Aim.Kern.ePhnum, Aim.Kern.ePhnum]
  rw [show (scratch + 44) % 2 ^ 32 = scratch + 44 from rfl,
    show (scratch + 45) % 2 ^ 32 = scratch + 45 from rfl, h44, h45]
  rfl

/-- A block that is not in the scratch space. -/
def Apart (a n : Nat) : Prop := n = 0 ∨ a + n ≤ scratch ∨ scratch + scratchSize ≤ a

theorem InScratch.put (h : InScratch file m) {n : Nat} (ha : Apart a n) (f : Nat → UInt8) :
    InScratch file (m.put a n f) := by
  intro i hi
  rw [Mem.put_of_outside]
  · exact h i hi
  · rcases ha with h | h | h
    · omega
    · omega
    · omega

end Headers

/-! ## One segment -/

/-- Where the sectors of a segment start. -/
def Phdr.start (h : Phdr) : Nat := h.paddr - h.offset % sectSize

/-- How many bytes they have. -/
def Phdr.span (h : Phdr) : Nat := sectSize * sectorsFor h.filesz h.offset

/-- The sectors of a segment, and then the bytes the file does not have. -/
def loadSegment (file m : Mem) (h : Phdr) : Mem :=
  (m.put h.start h.span fun i => file (h.offset - h.offset % sectSize + i)).put
    (h.paddr + h.filesz) (h.memsz - h.filesz) fun _ => 0

/-- No pointer and no offset goes round, and the sectors and the segment are away from
the scratch space. -/
structure Phdr.Fits (diskOffset : Nat) (h : Phdr) : Prop where
  disk : h.offset + diskOffset < 2 ^ 32
  front : h.offset % sectSize ≤ h.paddr
  sectors : h.start + h.span < 2 ^ 32
  mem : h.paddr + h.memsz ≤ 2 ^ 32
  sectors_apart : Apart h.start h.span
  mem_apart : Apart h.paddr h.memsz

section Segment

variable {disk : Nat → UInt8} {file m : Mem} {base : Nat} {h : Phdr}

theorem InScratch.loadSegment (hm : InScratch file m) (hfits : h.Fits base) :
    InScratch file (loadSegment file m h) := by
  refine (hm.put hfits.sectors_apart _).put ?_ _
  rcases hfits.mem_apart with hzero | hapart | hapart
  · exact .inl (by omega)
  · by_cases hrest : h.memsz - h.filesz = 0
    · exact .inl hrest
    · exact .inr (.inl (by omega))
  · exact .inr (.inr (by omega))

theorem run_clearRest (hfits : h.Fits base) : (clearRest h.paddr h).run m =
    .ok () (m.put (h.paddr + h.filesz) (h.memsz - h.filesz) fun _ => 0) := by
  rw [clearRest]
  by_cases hrest : h.memsz > h.filesz
  · have hmem := hfits.mem
    rw [if_pos hrest, ← Mem.write_eq_put (by omega)]
    rfl
  · rw [if_neg hrest, show h.memsz - h.filesz = 0 by omega, Mem.put_zero]
    rfl

/-- The sectors of a segment come from the file. -/
theorem run_readseg_file (hfile : ∀ i, file i = disk (base + i)) (hbase : base % sectSize = 0)
    (hfits : h.Fits base) :
    (readseg disk h.paddr h.filesz ((h.offset + base) % 2 ^ 32)).run m =
      .ok () (m.put h.start h.span fun i => file (h.offset - h.offset % sectSize + i)) := by
  have hrem : (h.offset + base) % sectSize = h.offset % sectSize := by
    rw [Nat.add_mod, hbase, Nat.add_zero, Nat.mod_mod]
  have hcount : sectorsFor h.filesz (h.offset + base) = sectorsFor h.filesz h.offset := by
    rw [sectorsFor, sectorsFor, hrem]
  have hle := Nat.mod_le h.offset sectSize
  rw [Nat.mod_eq_of_lt hfits.disk, run_readseg hfits.disk (hrem ▸ hfits.front)]
  · rw [hrem, hcount]
    simp only [hfile]
    refine congrArg (EStateM.Result.ok ()) (Mem.put_congr fun i _ => ?_)
    congr 1
    omega
  · rw [hrem, hcount]
    exact hfits.sectors

end Segment

/-! ## The loop -/

section Loop

variable {disk : Nat → UInt8} {file : Mem} {base phoff n : Nat}

theorem run_loadLoop (hfile : ∀ i, file i = disk (base + i)) (hbase : base % sectSize = 0)
    (htable : phoff + phdrSize * n ≤ scratchSize)
    (hfits : ∀ k < n, (phdrAt file (phoff + phdrSize * k)).Fits base) {k r : Nat} (hk : k + r = n)
    {fuel : Nat} (hfuel : r < fuel) {m : Mem} (hm : InScratch file m) :
    (loadLoop disk base (scratch + (phoff + phdrSize * n)) fuel
      (scratch + (phoff + phdrSize * k))).run m =
        .ok () (((List.range' k r).map fun k => phdrAt file (phoff + phdrSize * k)).foldl
          (loadSegment file) m) := by
  obtain ⟨fuel, rfl⟩ : ∃ f, fuel = f + 1 := ⟨fuel - 1, by omega⟩
  have hsize : scratch + scratchSize < 2 ^ 32 := by decide
  induction r generalizing k fuel m with
  | zero =>
      obtain rfl : k = n := hk
      rw [loadLoop, if_neg (Nat.lt_irrefl _)]
      rfl
  | succ r ih =>
      have hstep : phdrSize * (k + 1) ≤ phdrSize * n := Nat.mul_le_mul_left _ (by omega)
      rw [Nat.mul_succ] at hstep
      have hpos : 0 < phdrSize := by decide
      have hh := hfits k (by omega)
      have hagain : ∀ f, phdrAt (m.put _ _ f) (scratch + (phoff + phdrSize * k)) = _ :=
        fun f => (hm.put hh.sectors_apart f).phdrAt (by omega)
      obtain ⟨fuel, rfl⟩ : ∃ f, fuel = f + 1 := ⟨fuel - 1, by omega⟩
      have hnext : (scratch + (phoff + phdrSize * k) + phdrSize) % 2 ^ 32 =
          scratch + (phoff + phdrSize * (k + 1)) := by
        rw [Nat.mul_succ]
        omega
      rw [loadLoop, if_pos (by omega), run_bind_ok (show EStateM.run get m = .ok m m from rfl),
        hm.phdrAt (by omega), run_bind_ok (run_readseg_file hfile hbase hh),
        run_bind_ok (show EStateM.run get _ = .ok _ _ from rfl), hagain,
        run_bind_ok (run_clearRest hh), hnext]
      exact ih (by omega) (hm.loadSegment hh) fuel (by omega)

end Loop

variable {disk : Nat → UInt8} {file m : Mem}

theorem run_readseg_scratch {base : Nat} (hfile : ∀ i, file i = disk (base + i))
    (hbase : base % sectSize = 0) (hlt : base < 2 ^ 32) :
    (readseg disk scratch scratchSize base).run m =
      .ok () (m.put scratch scratchSize fun i => file i) := by
  have hcount : sectSize * sectorsFor scratchSize base = scratchSize := by
    rw [sectorsFor, hbase]
    decide
  rw [run_readseg hlt (by rw [hbase]; decide)]
  · simp only [hbase, hcount, Nat.sub_zero, hfile]
  · rw [hbase, hcount]
    decide

theorem ePhnum_lt (m : Mem) (elf : Nat) : ePhnum m elf < 2 ^ 16 := by
  have hlow := (m ((elf + 44) % 2 ^ 32)).toNat_lt
  have hhigh := (m ((elf + 45) % 2 ^ 32)).toNat_lt
  rw [ePhnum]
  omega

/-- What `bootmain` loads. -/
theorem run_bootLoad (hfile : kernelFile disk m = file) (hbase : sectSize * firstSector m < 2 ^ 32)
    (htable : ePhoff file 0 + phdrSize * ePhnum file 0 ≤ scratchSize)
    (hfits : ∀ h ∈ phdrs file, h.Fits (sectSize * firstSector m)) :
    (bootLoad disk).run m =
      .ok () ((phdrs file).foldl (loadSegment file)
        (m.put scratch scratchSize fun i => file i)) := by
  have hbyte : ∀ i, file i = disk (sectSize * firstSector m + i) := fun i => by
    rw [← hfile, kernelFile]
  have hoffset : firstSector m * sectSize % 2 ^ 32 = sectSize * firstSector m := by
    rw [Nat.mul_comm, Nat.mod_eq_of_lt hbase]
  have hread := run_readseg_scratch (m := m) hbyte (Nat.mul_mod_right _ _) hbase
  have hscratch : InScratch file (m.put scratch scratchSize fun i => file i) :=
    fun i hi => Mem.put_at hi
  generalize (m.put scratch scratchSize fun i => file i) = m₀ at hread hscratch ⊢
  have hsize : scratch + scratchSize < 2 ^ 32 := by decide
  have hph : (scratch + ePhoff m₀ scratch) % 2 ^ 32 = scratch + ePhoff file 0 := by
    rw [hscratch.ePhoff]
    exact Nat.mod_eq_of_lt (by omega)
  have heph : ((scratch + ePhoff m₀ scratch) % 2 ^ 32 + phdrSize * ePhnum m₀ scratch) % 2 ^ 32 =
      scratch + (ePhoff file 0 + phdrSize * ePhnum file 0) := by
    rw [hph, hscratch.ePhnum, Nat.add_assoc]
    exact Nat.mod_eq_of_lt (by omega)
  have hloop := run_loadLoop hbyte (Nat.mul_mod_right _ _) htable
    (fun k hk => hfits _ (List.mem_map_of_mem (List.mem_range.mpr hk))) (Nat.zero_add _)
    (ePhnum_lt file 0) hscratch
  rw [Nat.mul_zero, Nat.add_zero, ← List.range_eq_range', ← heph, ← hph] at hloop
  rw [bootLoad, run_bind_ok (show EStateM.run get m = .ok m m from rfl), hoffset,
    run_bind_ok hread, run_bind_ok (show EStateM.run get m₀ = .ok m₀ m₀ from rfl)]
  exact hloop

/-! ## What becomes of a segment -/

/-- The byte of a segment at the address `x`. -/
def Phdr.wanted (file : Mem) (h : Phdr) (x : Nat) : UInt8 :=
  if x < h.paddr + h.filesz then file (h.offset + x - h.paddr) else 0

/-- What the sectors of a segment bring to the address `x`. -/
def Phdr.sectorByte (file : Mem) (h : Phdr) (x : Nat) : Option UInt8 :=
  if h.start ≤ x ∧ x < h.start + h.span then some (file (h.offset + x - h.paddr)) else none

/-- What the last segment of several brings whose sectors reach the address `x`. -/
def lastByte (file : Mem) : List Phdr → Nat → Option UInt8
  | [], _ => none
  | h :: hs, x => (lastByte file hs x).or (h.sectorByte file x)

/-- The first `p_filesz` bytes are those of the file, and the rest is 0. -/
structure Loaded (file m : Mem) (h : Phdr) : Prop where
  file : ∀ i < h.filesz, m (h.paddr + i) = file (h.offset + i)
  zero : ∀ i, h.filesz ≤ i → i < h.memsz → m (h.paddr + i) = 0

/-- Two segments have no address in common. -/
def Phdr.Disjoint (h h' : Phdr) : Prop :=
  h.memsz = 0 ∨ h'.memsz = 0 ∨ h.paddr + h.memsz ≤ h'.paddr ∨ h'.paddr + h'.memsz ≤ h.paddr

/-- Where the sectors of later segments reach into a segment, they bring the bytes it
has there. -/
def SectorsAgree (file : Mem) : List Phdr → Prop
  | [] => True
  | h :: hs =>
      (∀ x, h.paddr ≤ x → x < h.paddr + h.memsz → ∀ b, lastByte file hs x = some b →
        b = h.wanted file x) ∧ SectorsAgree file hs

section Bytes

variable {file m : Mem} {h : Phdr} {x : Nat} {hs : List Phdr}

theorem loaded_iff (hsize : h.filesz ≤ h.memsz) : Loaded file m h ↔
    ∀ x, h.paddr ≤ x → x < h.paddr + h.memsz → m x = h.wanted file x := by
  constructor
  · intro hl x hlo hhi
    rw [Phdr.wanted]
    by_cases hx : x < h.paddr + h.filesz
    · have hbyte := hl.file (x - h.paddr) (by omega)
      rw [Nat.add_sub_cancel' hlo] at hbyte
      rw [if_pos hx, hbyte, Nat.add_sub_assoc hlo]
    · have hbyte := hl.zero (x - h.paddr) (by omega) (by omega)
      rw [Nat.add_sub_cancel' hlo] at hbyte
      rw [if_neg hx, hbyte]
  · intro hall
    refine ⟨fun i hi => ?_, fun i hi him => ?_⟩
    · rw [hall _ (by omega) (by omega), Phdr.wanted, if_pos (by omega)]
      congr 1
      omega
    · rw [hall _ (by omega) (by omega), Phdr.wanted, if_neg (by omega)]

/-- Outside of the segment, the sectors are all that is written. -/
theorem loadSegment_of_outside (hfront : h.offset % sectSize ≤ h.paddr)
    (hx : h.memsz = 0 ∨ x < h.paddr ∨ h.paddr + h.memsz ≤ x) :
    loadSegment file m h x = (h.sectorByte file x).getD (m x) := by
  have hle := Nat.mod_le h.offset sectSize
  rw [loadSegment, Mem.put_of_outside (by omega), Phdr.sectorByte]
  by_cases hin : h.start ≤ x ∧ x < h.start + h.span
  · rw [if_pos hin, Mem.put_of_mem hin.1 hin.2, Option.getD_some]
    congr 1
    rw [Phdr.start] at hin ⊢
    omega
  · rw [if_neg hin, Mem.put_of_outside (by omega), Option.getD_none]

/-- In the segment, its bytes are. -/
theorem loadSegment_of_mem (hfront : h.offset % sectSize ≤ h.paddr) (hlo : h.paddr ≤ x)
    (hhi : x < h.paddr + h.memsz) : loadSegment file m h x = h.wanted file x := by
  have hle := Nat.mod_le h.offset sectSize
  have hend := (sectorsFor_spec h.filesz h.offset).1
  rw [loadSegment, Phdr.wanted]
  by_cases hx : x < h.paddr + h.filesz
  · rw [Mem.put_of_outside (by omega), if_pos hx, Mem.put_of_mem]
    · congr 1
      rw [Phdr.start]
      omega
    · rw [Phdr.start]
      omega
    · rw [Phdr.start, Phdr.span]
      omega
  · rw [Mem.put_of_mem (by omega) (by omega), if_neg hx]

theorem foldl_loadSegment (hfront : ∀ h ∈ hs, h.offset % sectSize ≤ h.paddr)
    (hx : ∀ h ∈ hs, h.memsz = 0 ∨ x < h.paddr ∨ h.paddr + h.memsz ≤ x) :
    hs.foldl (loadSegment file) m x = (lastByte file hs x).getD (m x) := by
  induction hs generalizing m with
  | nil => rfl
  | cons h hs ih =>
      obtain ⟨hh, hhs⟩ := List.forall_mem_cons.mp hfront
      obtain ⟨hxh, hxs⟩ := List.forall_mem_cons.mp hx
      rw [List.foldl_cons, ih hhs hxs, loadSegment_of_outside hh hxh, lastByte]
      cases lastByte file hs x with
      | none => rw [Option.none_or, Option.getD_none]
      | some b => rw [Option.some_or, Option.getD_some, Option.getD_some]

theorem loaded_foldl_iff (hfront : ∀ h ∈ hs, h.offset % sectSize ≤ h.paddr)
    (hsize : ∀ h ∈ hs, h.filesz ≤ h.memsz) (hdisjoint : hs.Pairwise Phdr.Disjoint) :
    (∀ h ∈ hs, Loaded file (hs.foldl (loadSegment file) m) h) ↔ SectorsAgree file hs := by
  induction hs generalizing m with
  | nil => simp [SectorsAgree]
  | cons h hs ih =>
      obtain ⟨hh, hhs⟩ := List.forall_mem_cons.mp hfront
      obtain ⟨hsz, hszs⟩ := List.forall_mem_cons.mp hsize
      obtain ⟨hd, hds⟩ := List.pairwise_cons.mp hdisjoint
      rw [List.forall_mem_cons, List.foldl_cons, ih hhs hszs hds, SectorsAgree, loaded_iff hsz]
      refine and_congr_left fun _ => forall_congr' fun x => forall_congr' fun hlo =>
        forall_congr' fun hhi => ?_
      have hx : ∀ h' ∈ hs, h'.memsz = 0 ∨ x < h'.paddr ∨ h'.paddr + h'.memsz ≤ x := by
        intro h' hh'
        rcases hd h' hh' with h | h | h | h
        · omega
        · exact .inl h
        · omega
        · omega
      rw [foldl_loadSegment hhs hx, loadSegment_of_mem hh hlo hhi]
      cases lastByte file hs x with
      | none => simp
      | some b => simp

/-- The sectors of no later segment reach into a segment. -/
theorem sectorsAgree_of_gaps
    (hgaps : hs.Pairwise fun h h' => h'.span = 0 ∨ h.paddr + h.memsz ≤ h'.start) :
    SectorsAgree file hs := by
  induction hs with
  | nil => trivial
  | cons h hs ih =>
      obtain ⟨hh, hhs⟩ := List.pairwise_cons.mp hgaps
      refine ⟨fun x _ hhi b hb => ?_, ih hhs⟩
      have hnone : lastByte file hs x = none := by
        clear ih hgaps hhs hb
        induction hs with
        | nil => rfl
        | cons h' hs ih =>
            obtain ⟨hh', hhs⟩ := List.forall_mem_cons.mp hh
            rw [lastByte, ih hhs, Option.none_or, Phdr.sectorByte, if_neg (by omega)]
      rw [hnone] at hb
      cases hb

end Bytes

/-- The kernel is loaded exactly if the sectors of a segment bring the right bytes
wherever they reach into a segment before it. -/
theorem bootLoad_iff {disk : Nat → UInt8} {m : Mem} (hbase : sectSize * firstSector m < 2 ^ 32)
    (htable : ePhoff (kernelFile disk m) 0 + phdrSize * ePhnum (kernelFile disk m) 0 ≤ scratchSize)
    (hfits : ∀ h ∈ phdrs (kernelFile disk m), h.Fits (sectSize * firstSector m))
    (hsize : ∀ h ∈ phdrs (kernelFile disk m), h.filesz ≤ h.memsz)
    (hdisjoint : (phdrs (kernelFile disk m)).Pairwise Phdr.Disjoint) :
    ∃ m', (bootLoad disk).run m = .ok () m' ∧
      ((∀ h ∈ phdrs (kernelFile disk m), Loaded (kernelFile disk m) m' h) ↔
        SectorsAgree (kernelFile disk m) (phdrs (kernelFile disk m))) :=
  ⟨_, run_bootLoad rfl hbase htable hfits,
    loaded_foldl_iff (fun h hh => (hfits h hh).front) hsize hdisjoint⟩

/-! ## Two neighbours -/

/-- A disk with a kernel from the second sector on. Its first segment has the four bytes
from `0x1000` on and four more that are 0. The second one has the four bytes from
`0x1008` on, and starts where the first one ends. In the file there are four bytes
between them. -/
def tightDisk (x : Nat) : UInt8 :=
  ([(512 + 28, 52), (512 + 44, 2),
    (512 + 57, 0x10), (512 + 66, 0x10), (512 + 68, 4), (512 + 72, 8),
    (512 + 88, 0x08), (512 + 89, 0x10), (512 + 96, 0x08), (512 + 98, 0x10), (512 + 100, 4),
    (512 + 104, 4),
    (512 + 0x1000, 1), (512 + 0x1001, 2), (512 + 0x1002, 3), (512 + 0x1003, 4),
    (512 + 0x1004, 0xaa), (512 + 0x1005, 0xaa), (512 + 0x1006, 0xaa), (512 + 0x1007, 0xaa),
    (512 + 0x1008, 5), (512 + 0x1009, 6), (512 + 0x100a, 7), (512 + 0x100b, 8)].lookup x).getD 0

/-- The partition starts at sector 1. -/
def tightMem : Mem := fun x => if x = 0x7dd6 then 1 else 0

theorem tight_phdrs : phdrs (kernelFile tightDisk tightMem) =
    [⟨0x1000, 0x100000, 4, 8⟩, ⟨0x1008, 0x100008, 4, 4⟩] := by
  decide +kernel

theorem tight_fits : ∀ h ∈ phdrs (kernelFile tightDisk tightMem),
    h.Fits (sectSize * firstSector tightMem) := by
  rw [tight_phdrs]
  simp only [List.forall_mem_cons, List.not_mem_nil, false_implies, implies_true, and_true]
  refine ⟨⟨by decide, by decide, by decide, by decide, .inr (.inr ?_), .inr (.inr ?_)⟩,
    by decide, by decide, by decide, by decide, .inr (.inr ?_), .inr (.inr ?_)⟩
  all_goals decide

theorem bootLoad_iff_tight : ∃ m', (bootLoad tightDisk).run tightMem = .ok () m' ∧
    ((∀ h ∈ phdrs (kernelFile tightDisk tightMem), Loaded (kernelFile tightDisk tightMem) m' h) ↔
      SectorsAgree (kernelFile tightDisk tightMem) (phdrs (kernelFile tightDisk tightMem))) := by
  refine bootLoad_iff (by decide) (by decide +kernel) tight_fits ?_ ?_
  · rw [tight_phdrs]
    decide
  · rw [tight_phdrs]
    simp [Phdr.Disjoint]

/-- The bytes of the first segment that should be 0 are those the file has in front of
the second one. -/
theorem bootLoad_clobbers :
    phdrs (kernelFile tightDisk tightMem) =
      [⟨0x1000, 0x100000, 4, 8⟩, ⟨0x1008, 0x100008, 4, 4⟩] ∧
    ∃ m', (bootLoad tightDisk).run tightMem = .ok () m' ∧ m' 0x100004 = 0xaa ∧
      ¬ Loaded (kernelFile tightDisk tightMem) m' ⟨0x1000, 0x100000, 4, 8⟩ := by
  refine ⟨tight_phdrs, ?_⟩
  have hrun : returned (bootLoad tightDisk) tightMem (fun _ m => m 0x100004) = some 0xaa := by
    decide +kernel
  obtain ⟨_, m', hrun, hbyte⟩ := returned_eq_some hrun
  refine ⟨m', hrun, hbyte, fun hloaded => ?_⟩
  have hzero : m' 0x100004 = 0 := hloaded.zero 4 (by decide) (by decide)
  rw [hbyte] at hzero
  cases hzero

/-! ## Segments with gaps -/

theorem bootLoad_of_gaps {disk : Nat → UInt8} {m : Mem} (hbase : sectSize * firstSector m < 2 ^ 32)
    (htable : ePhoff (kernelFile disk m) 0 + phdrSize * ePhnum (kernelFile disk m) 0 ≤ scratchSize)
    (hfits : ∀ h ∈ phdrs (kernelFile disk m), h.Fits (sectSize * firstSector m))
    (hsize : ∀ h ∈ phdrs (kernelFile disk m), h.filesz ≤ h.memsz)
    (hgaps : (phdrs (kernelFile disk m)).Pairwise fun h h' => h.paddr + h.memsz ≤ h'.start) :
    ∃ m', (bootLoad disk).run m = .ok () m' ∧
      ∀ h ∈ phdrs (kernelFile disk m), Loaded (kernelFile disk m) m' h := by
  refine ⟨_, run_bootLoad rfl hbase htable hfits,
    (loaded_foldl_iff (fun h hh => (hfits h hh).front) hsize ?_).mpr
      (sectorsAgree_of_gaps (hgaps.imp .inr))⟩
  refine hgaps.imp fun hgap => .inr (.inr (.inl ?_))
  rw [Phdr.start] at hgap
  omega

/-- The same kernel, with the second segment eight bytes further on. -/
def looseDisk (x : Nat) : UInt8 := if x = 512 + 96 then 0x10 else tightDisk x

theorem bootLoad_of_gaps_loose : ∃ m', (bootLoad looseDisk).run tightMem = .ok () m' ∧
    ∀ h ∈ phdrs (kernelFile looseDisk tightMem), Loaded (kernelFile looseDisk tightMem) m' h := by
  have hphdrs : phdrs (kernelFile looseDisk tightMem) =
      [⟨0x1000, 0x100000, 4, 8⟩, ⟨0x1008, 0x100010, 4, 4⟩] := by decide +kernel
  refine bootLoad_of_gaps (by decide) (by decide +kernel) ?_ ?_ ?_ <;> rw [hphdrs]
  · rintro h (_ | ⟨_, _ | ⟨_, ⟨⟩⟩⟩) <;>
      exact ⟨by decide, by decide, by decide, by decide, .inr (.inr (by decide)),
        .inr (.inr (by decide))⟩
  · decide
  · simp [Phdr.start, sectSize]

end Aim.Kern
