import Aim.Kern.DevCore
import Mathlib.Data.List.Nodup

/-!
# Which device an entry stands for

An entry of the device tree is passed over when its device is there already or
when it is queued already, and a device is given the name of an entry that
stands for it. `SameDev` and `SameEntry` say when this is right: same bus, same
register spaces. `__entry_match` compares all of it, and `__dev_match` does not
compare the register spaces but only their number, and takes a parent that is
not there for the bus of every device without one.
-/

namespace Aim.Kern

open Aim.Lib DevCore

/-- The device `d` is the one that `e` describes. -/
structure SameDev (ix : DevIndex) (d : Dev) (e : Entry) : Prop where
  bus : ∃ p, ix.fromName e.parent = some p ∧ d.bus = p.addr
  nregs : d.nregs = e.nregs
  bases : d.bases.toList.take e.nregs = e.regs.toList.take e.nregs

/-- Both entries describe one device. -/
structure SameEntry (q e : Entry) : Prop where
  parent : q.parent = e.parent
  nregs : q.nregs = e.nregs
  regs : q.regs.toList.take e.nregs = e.regs.toList.take e.nregs

/-! ## `__entry_match` -/

theorem wordBytes_length (w : BitVec 64) : (wordBytes w).length = 8 := by
  simp [wordBytes]

theorem wordBytes_inj {v w : BitVec 64} (h : wordBytes v = wordBytes w) : v = w := by
  apply BitVec.eq_of_getLsbD_eq
  intro i hi
  -- Bit `i` is in byte `i / 8`.
  have hbyte : v.extractLsb' (8 * (i / 8)) 8 = w.extractLsb' (8 * (i / 8)) 8 := by
    have hk := congrArg (fun l => l[i / 8]?) h
    have hlt : i / 8 < 8 := by omega
    simpa [wordBytes, hlt] using hk
  have hbit := congrArg (fun b => b.getLsbD (i % 8)) hbyte
  have hmod : i % 8 < 8 := Nat.mod_lt _ (by decide)
  have hsum : 8 * (i / 8) + i % 8 = i := Nat.div_add_mod i 8
  simpa [hmod, hsum] using hbit

theorem flatMap_wordBytes_inj {l₁ l₂ : List (BitVec 64)}
    (h : l₁.flatMap wordBytes = l₂.flatMap wordBytes) (hlen : l₁.length = l₂.length) :
    l₁ = l₂ := by
  induction l₁ generalizing l₂ with
  | nil =>
      cases l₂ with
      | nil => rfl
      | cons w l₂ => cases hlen
  | cons v l₁ ih =>
      cases l₂ with
      | nil => cases hlen
      | cons w l₂ =>
          rw [List.flatMap_cons, List.flatMap_cons] at h
          obtain ⟨hhead, htail⟩ :=
            List.append_inj h ((wordBytes_length v).trans (wordBytes_length w).symm)
          rw [wordBytes_inj hhead, ih htail (Nat.succ.inj hlen)]

theorem regBytes_eq_iff {a b : Vector (BitVec 64) devRegMax} {n : Nat} :
    regBytes a n = regBytes b n ↔ a.toList.take n = b.toList.take n := by
  constructor
  · intro h
    exact flatMap_wordBytes_inj h (by simp)
  · intro h
    rw [regBytes, regBytes, h]

theorem length_regBytes (a b : Vector (BitVec 64) devRegMax) (n : Nat) :
    (regBytes a n).length = (regBytes b n).length := by
  have hlen : ∀ l : List (BitVec 64), (l.flatMap wordBytes).length = 8 * l.length := by
    intro l
    induction l with
    | nil => rfl
    | cons w l ih =>
        rw [List.flatMap_cons, List.length_append, wordBytes_length, ih, List.length_cons]
        omega
  rw [regBytes, regBytes, hlen, hlen]
  simp

theorem entryMatch_iff {q e : Entry} : entryMatch q e = true ↔ SameEntry q e := by
  rw [entryMatch, decide_eq_true_iff, strcmp_eq_zero,
    memcmp_eq_zero (length_regBytes _ _ _), regBytes_eq_iff]
  constructor
  · intro ⟨hn, hp, hr⟩
    exact ⟨hp, hn, hn ▸ hr⟩
  · intro ⟨hp, hn, hr⟩
    exact ⟨hn, hp, hn ▸ hr⟩

/-! ## The index -/

section Index

variable {ix : DevIndex} {d : Dev} {e : Entry}

theorem DevIndex.fromName_none {name : CString} :
    ix.fromName name = none ↔ ∀ d ∈ ix.devs, d.name ≠ name := by
  simp only [fromName, List.find?_eq_none, decide_eq_true_iff, strcmp_eq_zero, ne_eq]

theorem DevIndex.busOf_some {name : CString} {p : Dev} (h : ix.fromName name = some p) :
    ix.busOf name = p.addr := by
  rw [busOf, h]
  rfl

theorem DevIndex.devMatch_iff :
    ix.devMatch d e = true ↔ d.nregs = e.nregs ∧ d.bus = ix.busOf e.parent := by
  rw [devMatch, decide_eq_true_iff]

theorem DevIndex.checkDup_isSome : (ix.checkDupDevice e).isSome = true ↔
    ∃ d ∈ ix.devs, d.nregs = e.nregs ∧ d.bus = ix.busOf e.parent := by
  rw [checkDupDevice, List.find?_isSome]
  simp only [devMatch_iff]

/-- Where the parent is there, a match only leaves the bases open. -/
theorem sameDev_iff {p : Dev} (hp : ix.fromName e.parent = some p)
    (hm : d.nregs = e.nregs ∧ d.bus = ix.busOf e.parent) :
    SameDev ix d e ↔ d.bases.toList.take e.nregs = e.regs.toList.take e.nregs := by
  constructor
  · intro h
    exact h.bases
  · intro h
    refine ⟨⟨p, hp, ?_⟩, hm.1, h⟩
    rw [hm.2, DevIndex.busOf_some hp]

end Index

/-! ## `discover_device` -/

section Discover

variable {σ : Type} {K : CoreEnv σ} {s : DevCore σ} {e : Entry}

/-- The entry is passed over. -/
theorem run_discoverDevice_known (h : (s.index.checkDupDevice e).isSome = true ∨
    s.undriven.any (fun q => entryMatch q e) = true) :
    (discoverDevice K e).run s = .ok () s := by
  rw [discoverDevice, EStateM.run_bind, EStateM.run_get]
  by_cases hd : (s.index.checkDupDevice e).isSome = true
  · simp only [hd, if_true]
    rfl
  · have hq := h.resolve_left hd
    simp only [hd, hq, if_true]
    rfl

/-- The entry is queued, if there is memory for it. -/
theorem run_discoverDevice_new (hd : ¬ (s.index.checkDupDevice e).isSome = true)
    (hq : ¬ s.undriven.any (fun q => entryMatch q e) = true) :
    (discoverDevice K e).run s = if (K.kmalloc s.env).1 = 0
      then .error (.oob 0) { s with env := (K.kmalloc s.env).2 }
      else .ok () { s with env := (K.kmalloc s.env).2, undriven := s.undriven ++ [e] } := by
  rw [discoverDevice, EStateM.run_bind, EStateM.run_get]
  simp only [hd, hq]
  by_cases hk : (K.kmalloc s.env).1 = 0
  · simp [hk]
  · simp [hk]

/-- `discover_device` returns and queues nothing. -/
def Drops (K : CoreEnv σ) (s : DevCore σ) (e : Entry) : Prop :=
  ∃ s', (discoverDevice K e).run s = .ok () s' ∧ s'.undriven = s.undriven

theorem drops_iff : Drops K s e ↔
    (∃ d ∈ s.index.devs, d.nregs = e.nregs ∧ d.bus = s.index.busOf e.parent) ∨
      ∃ q ∈ s.undriven, SameEntry q e := by
  have hany : s.undriven.any (fun q => entryMatch q e) = true ↔
      ∃ q ∈ s.undriven, SameEntry q e := by
    simp only [List.any_eq_true, entryMatch_iff]
  rw [← DevIndex.checkDup_isSome, ← hany]
  constructor
  · intro ⟨s', hrun, hsame⟩
    by_contra hnew
    rw [not_or] at hnew
    rw [run_discoverDevice_new hnew.1 hnew.2] at hrun
    by_cases hk : (K.kmalloc s.env).1 = 0
    · rw [if_pos hk] at hrun
      cases hrun
    · rw [if_neg hk] at hrun
      cases hrun
      simp at hsame
  · intro h
    exact ⟨s, run_discoverDevice_known h, rfl⟩

/-- What `discover_device` may drop: an entry whose device is there or that is
queued. -/
def Known (s : DevCore σ) (e : Entry) : Prop :=
  (∃ d ∈ s.index.devs, SameDev s.index d e) ∨ ∃ q ∈ s.undriven, SameEntry q e

/-- A device on what the index answers for the parent, with as many register
spaces, only counts if the entry is known. -/
def NoFalseDup (s : DevCore σ) (e : Entry) : Prop :=
  (∃ d ∈ s.index.devs, d.nregs = e.nregs ∧ d.bus = s.index.busOf e.parent) → Known s e

theorem drops_known_iff : (Drops K s e → Known s e) ↔ NoFalseDup s e := by
  rw [drops_iff]
  constructor
  · intro h hdup
    exact h (.inl hdup)
  · intro h hdrop
    rcases hdrop with hdup | hq
    · exact h hdup
    · exact .inr hq

end Discover

/-! ## The loop over the tree -/

section Scan

variable {σ : Type} {K : CoreEnv σ} {s : DevCore σ} {e : Entry}

/-- What the loop does with an entry. -/
inductive Scanned (K : CoreEnv σ) (s : DevCore σ) (e : Entry) : Prop where
  | there (dev : Dev) (hname : s.index.fromName e.name = some dev)
      (hrun : (scanEntry K e).run s = .ok () s)
  | mismatch (dev : Dev) (hname : s.index.fromName e.name = some dev)
      (hrun : (scanEntry K e).run s = .error (.panic "device mismatch DTB: %s\n" [dev.addr]) s)
  | orphan (hname : s.index.fromName e.name = none) (hparent : s.index.fromName e.parent = none)
      (hrun : (scanEntry K e).run s = .ok () s)
  | rename (p dev : Dev) (hname : s.index.fromName e.name = none)
      (hparent : s.index.fromName e.parent = some p)
      (hdup : s.index.checkDupDevice e = some dev) (hmem : e.parent ≠ .ofString "memory")
      (hrun : (scanEntry K e).run s =
        .ok () { s with index := s.index.rename dev.addr e.name })
  | discover (p : Dev) (hname : s.index.fromName e.name = none)
      (hparent : s.index.fromName e.parent = some p)
      (hdup : s.index.checkDupDevice e = none ∨ e.parent = .ofString "memory")
      (hrun : (scanEntry K e).run s = (discoverDevice K e).run s)

theorem run_probeAssert {line : Int} {condition : String} {holds : Bool} (h : holds = true) :
    (probeAssert line condition holds).run s = .ok () s := run_require h

theorem scanned (K : CoreEnv σ) (s : DevCore σ) (e : Entry) : Scanned K s e := by
  cases hname : s.index.fromName e.name with
  | some dev =>
      by_cases hm : s.index.devMatch dev e = true
      · exact .there dev hname (by simp [scanEntry, hname, hm])
      · exact .mismatch dev hname (by simp [scanEntry, hname, hm])
  | none =>
      cases hparent : s.index.fromName e.parent with
      | none => exact .orphan hname hparent (by simp [scanEntry, hname, hparent])
      | some p =>
          cases hdup : s.index.checkDupDevice e with
          | none =>
              refine .discover p hname hparent (.inl hdup) ?_
              simp [scanEntry, hname, hparent, hdup]
          | some dev =>
              by_cases hmem : e.parent = .ofString "memory"
              · refine .discover p hname hparent (.inr hmem) ?_
                have hcmp : strcmp e.parent (.ofString "memory") = 0 := strcmp_eq_zero.mpr hmem
                simp [scanEntry, hname, hparent, hdup, hcmp]
              · -- The assertion holds, as no device has the name.
                have hcmp : strcmp e.parent (.ofString "memory") ≠ 0 :=
                  fun h => hmem (strcmp_eq_zero.mp h)
                have hne : (!decide (strcmp dev.name e.name = 0)) = true := by
                  rw [Bool.not_eq_true', decide_eq_false_iff_not, strcmp_eq_zero]
                  exact DevIndex.fromName_none.mp hname dev (List.mem_of_find?_eq_some hdup)
                refine .rename p dev hname hparent hdup hmem ?_
                simp [scanEntry, hname, hparent, hdup, hcmp, run_probeAssert hne]

/-- The loop gives the device `d` another name. -/
def Renames (K : CoreEnv σ) (s : DevCore σ) (e : Entry) (d : Dev) : Prop :=
  d ∈ s.index.devs ∧ ∃ s', (scanEntry K e).run s = .ok () s' ∧
    ∃ d' ∈ s'.index.devs, d'.addr = d.addr ∧ d'.name ≠ d.name

/-- The first device on the entry's bus with as many register spaces has the
entry's bases, if the entry is looked at for its name at all. -/
def FirstIsSame (s : DevCore σ) (e : Entry) : Prop :=
  s.index.fromName e.name = none → e.parent ≠ .ofString "memory" →
    ∀ p d, s.index.fromName e.parent = some p →
      s.index.devs.find? (fun d => d.nregs = e.nregs ∧ d.bus = p.addr) = some d →
      d.bases.toList.take e.nregs = e.regs.toList.take e.nregs

theorem DevIndex.eq_of_addr {ix : DevIndex} {d d' : Dev} (h : d ∈ ix.devs) (h' : d' ∈ ix.devs)
    (ha : d.addr = d'.addr) : d = d' := List.inj_on_of_nodup_map ix.nodup h h' ha

/-- Where the index stays as it is, no device gets another name. -/
theorem not_renames {d : Dev}
    (h : ∀ s', (scanEntry K e).run s = .ok () s' → s'.index = s.index) : ¬ Renames K s e d := by
  intro ⟨hd, s', hrun, d', hd', ha, hne⟩
  rw [h s' hrun] at hd'
  exact hne (by rw [DevIndex.eq_of_addr hd' hd ha])

theorem discoverDevice_index {s' : DevCore σ} (h : (discoverDevice K e).run s = .ok () s') :
    s'.index = s.index := by
  by_cases hknown : (s.index.checkDupDevice e).isSome = true ∨
      s.undriven.any (fun q => entryMatch q e) = true
  · rw [run_discoverDevice_known hknown] at h
    cases h
    rfl
  · rw [not_or] at hknown
    rw [run_discoverDevice_new hknown.1 hknown.2] at h
    by_cases hk : (K.kmalloc s.env).1 = 0
    · rw [if_pos hk] at h
      cases h
    · rw [if_neg hk] at h
      cases h
      rfl

theorem DevIndex.mem_rename {ix : DevIndex} {addr : Nat} {name : CString} {d' : Dev} :
    d' ∈ (ix.rename addr name).devs ↔ ∃ d ∈ ix.devs, d' =
      if d.addr = addr then { d with name := strlcpy name devNameMax } else d := by
  simp only [rename, List.mem_map, eq_comm]

/-- The device that is renamed is the first match. -/
theorem renames_iff {dev d : Dev} (hname : s.index.fromName e.name = none)
    (hdup : s.index.checkDupDevice e = some dev)
    (hrun : (scanEntry K e).run s = .ok () { s with index := s.index.rename dev.addr e.name }) :
    Renames K s e d ↔ d = dev := by
  have hdev : dev ∈ s.index.devs := List.mem_of_find?_eq_some hdup
  constructor
  · intro ⟨hd, s', hrun', d', hd', ha, hne⟩
    rw [hrun] at hrun'
    cases hrun'
    obtain ⟨d₀, hd₀, rfl⟩ := DevIndex.mem_rename.mp hd'
    by_cases hcase : d₀.addr = dev.addr
    · rw [if_pos hcase] at ha
      exact DevIndex.eq_of_addr hd hdev (ha.symm.trans hcase)
    · rw [if_neg hcase] at ha hne
      exact absurd (by rw [DevIndex.eq_of_addr hd₀ hd ha]) hne
  · intro h
    subst h
    refine ⟨hdev, _, hrun, { d with name := strlcpy e.name devNameMax }, ?_, rfl, ?_⟩
    · exact DevIndex.mem_rename.mpr ⟨d, hdev, by rw [if_pos rfl]⟩
    · rw [strlcpy_of_lt e.name_lt]
      exact (DevIndex.fromName_none.mp hname d hdev).symm

/-- The devices that match an entry whose parent is there. -/
theorem find_onBus {p : Dev} (hp : s.index.fromName e.parent = some p) :
    s.index.checkDupDevice e =
      s.index.devs.find? fun d => d.nregs = e.nregs ∧ d.bus = p.addr := by
  simp only [DevIndex.checkDupDevice, DevIndex.devMatch, DevIndex.busOf_some hp]

theorem firstIsSame_of_name {dev : Dev} (h : s.index.fromName e.name = some dev) :
    FirstIsSame s e := by
  intro hnone
  rw [h] at hnone
  cases hnone

theorem renames_same_of_kept
    (hkept : ∀ s', (scanEntry K e).run s = .ok () s' → s'.index = s.index)
    (hsame : FirstIsSame s e) :
    (∀ d, Renames K s e d → SameDev s.index d e) ↔ FirstIsSame s e :=
  iff_of_true (fun _ hd => absurd hd (not_renames hkept)) hsame

theorem renames_same_iff : (∀ d, Renames K s e d → SameDev s.index d e) ↔ FirstIsSame s e := by
  cases scanned K s e with
  | there dev hname hrun =>
      exact renames_same_of_kept (fun s' h => by rw [hrun] at h; cases h; rfl)
        (firstIsSame_of_name hname)
  | mismatch dev hname hrun =>
      exact renames_same_of_kept (fun s' h => by rw [hrun] at h; cases h)
        (firstIsSame_of_name hname)
  | orphan hname hparent hrun =>
      refine renames_same_of_kept (fun s' h => by rw [hrun] at h; cases h; rfl) ?_
      intro _ _ p d hp
      rw [hparent] at hp
      cases hp
  | rename p dev hname hparent hdup hmem hrun =>
      have hfirst := find_onBus hparent ▸ hdup
      have hmatch := List.find?_some (p := fun d => s.index.devMatch d e) hdup
      have hm := DevIndex.devMatch_iff.mp hmatch
      constructor
      · intro h _ _ p' d hp hd
        rw [hparent] at hp
        cases hp
        rw [hfirst] at hd
        cases hd
        exact (h dev ((renames_iff hname hdup hrun).mpr rfl)).bases
      · intro h d hd
        rw [(renames_iff hname hdup hrun).mp hd]
        exact (sameDev_iff hparent hm).mpr (h hname hmem p dev hparent hfirst)
  | discover p hname hparent hdup hrun =>
      refine renames_same_of_kept (fun s' h => discoverDevice_index (hrun ▸ h)) ?_
      intro _ hmem p' d hp hd
      rw [hparent] at hp
      cases hp
      rw [← find_onBus hparent, hdup.resolve_right hmem] at hd
      cases hd

end Scan

/-! ## Dropped entries and new names -/

/-- The loop of `__probe_devices` over the tree, entry by entry. -/
def scanRun {σ : Type} (K : CoreEnv σ) : Machine Stop (DevCore σ) Entry where
  init _ := True
  legal _ _ := True
  step := scanEntry K

/-- `discover_device` drops known entries only, from every state, exactly under
`NoFalseDup`; and a pass renames the devices of its entries only, exactly if
`FirstIsSame` is met at every entry it gets to. -/
theorem discovery_iff {σ : Type} (K : CoreEnv σ) (s : DevCore σ) :
    (∀ e, (Drops K s e → Known s e) ↔ NoFalseDup s e) ∧
    ((scanRun K).EachStep (fun s e => ∀ d, Renames K s e d → SameDev s.index d e) K.devtree s ↔
      (scanRun K).EachStep FirstIsSame K.devtree s) := by
  refine ⟨fun e => drops_known_iff, ?_⟩
  have hsame : (fun (s : DevCore σ) e => ∀ d, Renames K s e d → SameDev s.index d e) =
      FirstIsSame := by
    funext s e
    exact propext renames_same_iff
  rw [hsame]

/-- A port bus with a serial line at one base, and an entry for a second line at
another. -/
def portBus : Dev := ⟨0x1000, .ofString "portio", .bus, 0, 0, Vector.replicate _ 0, nofun⟩

def serialAt (base : BitVec 64) : Dev :=
  ⟨0x2000, .ofString "uart0", .chr, 0x1000, 1, (Vector.replicate _ 0).set 0 base, nofun⟩

def serialEntry (base : BitVec 64) : Entry :=
  ⟨.ofString "uart1", .ofString "uart-ns16550", .ofString "portio", 1,
    (Vector.replicate _ 0).set 0 base, 4, by decide, by decide⟩

def serialCore : DevCore Unit := ⟨(), ⟨[portBus, serialAt 0x3f8], by decide⟩, []⟩

def serialEnv : CoreEnv Unit :=
  ⟨[serialEntry 0x2f8], [], fun _ => none, fun _ => (1, ()), id⟩

/-- The entry is dropped as if the first line were its device, and a pass gives
the first line its name. -/
theorem discovery_confused :
    (Drops serialEnv serialCore (serialEntry 0x2f8) ∧
      ¬ Known serialCore (serialEntry 0x2f8)) ∧
    ¬ (scanRun serialEnv).EachStep (fun s e => ∀ d, Renames serialEnv s e d → SameDev s.index d e)
      serialEnv.devtree serialCore := by
  have hbases : (serialAt 0x3f8).bases.toList.take 1 ≠
      (serialEntry 0x2f8).regs.toList.take 1 := by decide
  refine ⟨⟨?_, ?_⟩, ?_⟩
  · refine drops_iff.mpr (.inl ⟨serialAt 0x3f8, by decide, rfl, ?_⟩)
    decide +kernel
  · intro h
    rcases h with ⟨d, hd, hsame⟩ | ⟨q, hq, _⟩
    · rcases List.mem_pair.mp hd with rfl | rfl
      · exact absurd hsame.nregs (by decide)
      · exact hbases hsame.bases
    · cases hq
  · intro h
    have hfirst := renames_same_iff.mp h.1
    exact hbases (hfirst (by decide +kernel) (by decide +kernel) portBus _ (by decide +kernel)
      (by decide +kernel))

end Aim.Kern
