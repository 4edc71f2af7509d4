import Aim.Lib.Ends
import Aim.Proofs.DevMatch
import Mathlib.Algebra.Order.BigOperators.Group.List
import Mathlib.Algebra.Order.Group.Nat
import Mathlib.Data.Finset.Card
import Mathlib.Data.Prod.Lex
import Mathlib.Order.WellFounded

/-!
# `probe_devices` comes to an end

The passes go on as long as a driver creates a device. A creation takes an entry
from the queue; but a pass also queues entries, and it renames devices, which can
take the name away from an entry that was driven.

What goes down is counted in names. Let `c` say how many devices have a name. A
tree entry is queued, and a device renamed after it, only where no device has
its name. So the following go down in this order: the names in the tree that no
device has; those that at most one device has; and the queued entries with
another name than these. A device that is renamed may leave its old name without
one, but then its new name had none.
-/

namespace Aim.Kern

open Aim.Lib DevCore

/-! ## Names and how many devices have them -/

section Names

variable {ν : Type}

/-- The names that no device has. -/
def absent (T : Finset ν) (c : ν → Nat) : Finset ν := T.filter fun n => c n = 0

/-- The names that at most one device has. -/
def rare (T : Finset ν) (c : ν → Nat) : Finset ν := T.filter fun n => c n ≤ 1

variable {T : Finset ν} {c c' : ν → Nat} {q : List ν} {x : ν}

theorem mem_absent {n : ν} : n ∈ absent T c ↔ n ∈ T ∧ c n = 0 := Finset.mem_filter

theorem mem_rare {n : ν} : n ∈ rare T c ↔ n ∈ T ∧ c n ≤ 1 := Finset.mem_filter

theorem absent_subset (h : ∀ n, c n ≤ c' n) : absent T c' ⊆ absent T c := by
  intro n hn
  obtain ⟨hT, h0⟩ := mem_absent.mp hn
  have hle := h n
  exact mem_absent.mpr ⟨hT, by omega⟩

theorem rare_subset (h : ∀ n, c n ≤ c' n) : rare T c' ⊆ rare T c := by
  intro n hn
  obtain ⟨hT, h1⟩ := mem_rare.mp hn
  have hle := h n
  exact mem_rare.mpr ⟨hT, by omega⟩

variable [DecidableEq ν]

/-- The measure, with the names `q` in the queue. -/
def namesLeft (T : Finset ν) (c : ν → Nat) (q : List ν) : ℕ ×ₗ ℕ ×ₗ ℕ :=
  toLex ((absent T c).card, toLex ((rare T c).card, q.countP fun n => n ∉ rare T c))

theorem namesLeft_le_iff {q' : List ν} : namesLeft T c' q' ≤ namesLeft T c q ↔
    (absent T c').card ≤ (absent T c).card ∧ ((absent T c').card = (absent T c).card →
      (rare T c').card ≤ (rare T c).card ∧ ((rare T c').card = (rare T c).card →
        q'.countP (fun n => n ∉ rare T c') ≤ q.countP fun n => n ∉ rare T c)) := by
  rw [namesLeft, namesLeft, Prod.Lex.toLex_le_toLex', Prod.Lex.toLex_le_toLex']

theorem namesLeft_lt_iff {q' : List ν} : namesLeft T c' q' < namesLeft T c q ↔
    (absent T c').card ≤ (absent T c).card ∧ ((absent T c').card = (absent T c).card →
      (rare T c').card ≤ (rare T c).card ∧ ((rare T c').card = (rare T c).card →
        q'.countP (fun n => n ∉ rare T c') < q.countP fun n => n ∉ rare T c)) := by
  rw [namesLeft, namesLeft, Prod.Lex.toLex_lt_toLex', Prod.Lex.toLex_lt_toLex']

/-- New devices. -/
theorem namesLeft_grow (h : ∀ n, c n ≤ c' n) : namesLeft T c' q ≤ namesLeft T c q := by
  rw [namesLeft_le_iff]
  refine ⟨Finset.card_le_card (absent_subset h), ?_⟩
  intro _
  refine ⟨Finset.card_le_card (rare_subset h), ?_⟩
  intro hcard
  rw [Finset.eq_of_subset_of_card_le (rare_subset h) hcard.ge]

/-- A new device for a queued entry, which leaves the queue. -/
theorem namesLeft_take {kept rest : List ν} (h : ∀ n, c n ≤ c' n) (hx : c x < c' x) :
    namesLeft T c' (kept ++ rest) < namesLeft T c (kept ++ x :: rest) := by
  rw [namesLeft_lt_iff]
  refine ⟨Finset.card_le_card (absent_subset h), ?_⟩
  intro hcard
  have habsent := Finset.eq_of_subset_of_card_le (absent_subset h) hcard.ge
  refine ⟨Finset.card_le_card (rare_subset h), ?_⟩
  intro hcard'
  have hrare := Finset.eq_of_subset_of_card_le (rare_subset h) hcard'.ge
  -- Had `x` been rare, it would have left one of the two sets.
  have hnot : x ∉ rare T c := by
    intro hmem
    have hmem' := hmem
    rw [← hrare] at hmem'
    obtain ⟨hT, _⟩ := mem_rare.mp hmem
    obtain ⟨_, h1⟩ := mem_rare.mp hmem'
    have h0 : x ∈ absent T c := mem_absent.mpr ⟨hT, by omega⟩
    rw [← habsent] at h0
    have h0' := (mem_absent.mp h0).2
    omega
  rw [hrare, List.countP_append, List.countP_append, List.countP_cons_of_pos (by simpa using hnot)]
  omega

/-- A tree entry whose name no device has joins the queue. -/
theorem namesLeft_queue (hT : x ∈ T) (hx : c x = 0) :
    namesLeft T c (q ++ [x]) = namesLeft T c q := by
  have hmem : x ∈ rare T c := mem_rare.mpr ⟨hT, by omega⟩
  rw [namesLeft, namesLeft, List.countP_append, List.countP_singleton]
  simp [hmem]

/-- A device gets the name of a tree entry that no device has. -/
theorem namesLeft_rename {a : ν} (hT : x ∈ T) (hx : c x = 0) (hx' : c' x = 1)
    (ha : c a = c' a + 1) (hother : ∀ n, n ≠ x → n ≠ a → c' n = c n) :
    namesLeft T c' q ≤ namesLeft T c q := by
  have hax : a ≠ x := by
    intro hax
    rw [hax] at ha
    omega
  have hxmem : x ∈ absent T c := mem_absent.mpr ⟨hT, hx⟩
  have hsub : absent T c' ⊆ insert a ((absent T c).erase x) := by
    intro n hn
    obtain ⟨hn, h0⟩ := mem_absent.mp hn
    by_cases hna : n = a
    · rw [hna]
      exact Finset.mem_insert_self _ _
    · have hnx : n ≠ x := by
        rintro rfl
        omega
      rw [hother n hnx hna] at h0
      exact Finset.mem_insert_of_mem (Finset.mem_erase.mpr ⟨hnx, mem_absent.mpr ⟨hn, h0⟩⟩)
  have herase := Finset.card_erase_of_mem hxmem
  have hpos := Finset.card_pos.mpr ⟨x, hxmem⟩
  rw [namesLeft_le_iff]
  refine ⟨?_, ?_⟩
  · have hcard := (Finset.card_le_card hsub).trans (Finset.card_insert_le _ _)
    omega
  · intro hcard
    -- The old name is without a device now, so it had one and was rare.
    have hmem : a ∈ absent T c' := by
      by_contra hmem
      have hsub' := (Finset.subset_insert_iff_of_notMem hmem).mp hsub
      have hcard' := Finset.card_le_card hsub'
      omega
    obtain ⟨haT, ha0⟩ := mem_absent.mp hmem
    have hrare : rare T c' = rare T c := by
      ext n
      rw [mem_rare, mem_rare]
      by_cases hnx : n = x
      · rw [hnx, hx, hx']
        simp
      · by_cases hna : n = a
        · rw [hna, ha, ha0]
          simp
        · rw [hother n hnx hna]
    rw [hrare]
    exact ⟨le_rfl, fun _ => le_rfl⟩

end Names

/-! ## The steps of a pass -/

/-- How many devices have a name. -/
def DevIndex.count (ix : DevIndex) (name : CString) : Nat :=
  ix.devs.countP fun d => d.name = name

section Pass

variable {σ : Type}

/-- What goes down from pass to pass. -/
def workLeft (K : CoreEnv σ) (s : DevCore σ) : ℕ ×ₗ ℕ ×ₗ ℕ :=
  namesLeft (K.devtree.map Entry.name).toFinset s.index.count (s.undriven.map Entry.name)

/-- The ways a pass may stop: the panic over an entry whose device is another
one, and the write through the null pointer of a failed allocation. -/
def PassStop (K : CoreEnv σ) (e : Stop) : Prop :=
  (∃ addr, e = .panic "device mismatch DTB: %s\n" [addr]) ∨
    e = .oob 0 ∧ ∃ env, (K.kmalloc env).1 = 0

variable {K : CoreEnv σ} {m : ℕ ×ₗ ℕ ×ₗ ℕ} {name : CString} {ix : DevIndex} {s : DevCore σ}
  {e : Entry}

theorem DevIndex.count_eq_zero : ix.count name = 0 ↔ ix.fromName name = none := by
  rw [count, List.countP_eq_zero, fromName_none]
  simp only [decide_eq_true_iff, ne_eq]

theorem discoverDevice_workLeft (he : e ∈ K.devtree) (hname : s.index.fromName e.name = none)
    (hm : workLeft K s ≤ m) :
    EndsOr (PassStop K) (discoverDevice K e) s fun _ s' => workLeft K s' ≤ m := by
  by_cases hknown : (s.index.checkDupDevice e).isSome = true ∨
      s.undriven.any (fun q => entryMatch q e) = true
  · exact endsOr_of_ok (run_discoverDevice_known hknown) hm
  · rw [not_or] at hknown
    have hrun := run_discoverDevice_new (K := K) hknown.1 hknown.2
    by_cases hk : (K.kmalloc s.env).1 = 0
    · rw [if_pos hk] at hrun
      exact endsOr_of_error hrun (.inr ⟨rfl, _, hk⟩)
    · rw [if_neg hk] at hrun
      refine endsOr_of_ok hrun (le_trans (le_of_eq ?_) hm)
      rw [workLeft, workLeft, List.map_append]
      refine namesLeft_queue ?_ (DevIndex.count_eq_zero.mpr hname)
      exact List.mem_toFinset.mpr (List.mem_map_of_mem he)

/-- A device is renamed in its place. -/
theorem DevIndex.rename_devs {dev : Dev} (hdev : dev ∈ ix.devs)
    (hlen : name.bytes.length < devNameMax) :
    ∃ l₁ l₂, ix.devs = l₁ ++ dev :: l₂ ∧
      (ix.rename dev.addr name).devs = l₁ ++ { dev with name := name } :: l₂ := by
  obtain ⟨l₁, l₂, hsplit⟩ := List.append_of_mem hdev
  have hnodup := ix.nodup
  rw [hsplit, List.map_append, List.map_cons, List.nodup_middle, List.nodup_cons,
    List.mem_append, not_or] at hnodup
  obtain ⟨⟨h₁, h₂⟩, _⟩ := hnodup
  have hkeep : ∀ l : List Dev, dev.addr ∉ l.map Dev.addr →
      l.map (fun d => if d.addr = dev.addr then { d with name := strlcpy name devNameMax } else d)
        = l := by
    intro l hl
    refine (List.map_congr_left ?_).trans (List.map_id l)
    intro d hd
    have hd' : d.addr ≠ dev.addr := fun heq => hl (heq ▸ List.mem_map_of_mem hd)
    exact if_neg hd'
  refine ⟨l₁, l₂, hsplit, ?_⟩
  show ix.devs.map _ = _
  rw [hsplit, List.map_append, List.map_cons, hkeep l₁ h₁, hkeep l₂ h₂, if_pos rfl,
    strlcpy_of_lt hlen]

/-- The names after a device was renamed. -/
theorem DevIndex.count_rename {dev : Dev} (hdev : dev ∈ ix.devs)
    (hlen : name.bytes.length < devNameMax) (hname : ix.count name = 0) :
    (ix.rename dev.addr name).count name = 1 ∧
    ix.count dev.name = (ix.rename dev.addr name).count dev.name + 1 ∧
    ∀ n, n ≠ name → n ≠ dev.name → (ix.rename dev.addr name).count n = ix.count n := by
  obtain ⟨l₁, l₂, hold, hnew⟩ := rename_devs hdev hlen
  have hne : name ≠ dev.name := by
    intro heq
    rw [count, List.countP_eq_zero] at hname
    exact hname dev hdev (by simp [heq])
  simp only [count, hold, hnew, List.countP_append, List.countP_cons] at hname ⊢
  refine ⟨?_, ?_, ?_⟩
  · simp only [hne.symm, decide_false] at hname
    simp
    omega
  · simp [hne]
    omega
  · intro n hn hn'
    simp [hn.symm, hn'.symm]

/-- The loop over the tree. -/
theorem scanEntry_workLeft (he : e ∈ K.devtree) (hm : workLeft K s ≤ m) :
    EndsOr (PassStop K) (scanEntry K e) s fun _ s' => workLeft K s' ≤ m := by
  cases scanned K s e with
  | there dev hname hrun => exact endsOr_of_ok hrun hm
  | mismatch dev hname hrun => exact endsOr_of_error hrun (.inl ⟨_, rfl⟩)
  | orphan hname hparent hrun => exact endsOr_of_ok hrun hm
  | rename p dev hname hparent hdup hmem hrun =>
      have h0 := DevIndex.count_eq_zero.mpr hname
      obtain ⟨hx, ha, hother⟩ :=
        DevIndex.count_rename (List.mem_of_find?_eq_some hdup) e.name_lt h0
      have hT : e.name ∈ (K.devtree.map Entry.name).toFinset :=
        List.mem_toFinset.mpr (List.mem_map_of_mem he)
      exact endsOr_of_ok hrun (le_trans (namesLeft_rename hT h0 hx ha hother) hm)
  | discover p hname hparent hdup hrun =>
      have hends := discoverDevice_workLeft he hname hm
      rw [EndsOr, hrun]
      exact hends

/-! ## The drivers -/

/-- What is asked of a driver: `new` takes no device from the index and renames
none, and where it returns 0, it has added one for the entry. -/
structure DriverOk (new : Entry → σ × DevIndex → Int × σ × DevIndex) : Prop where
  adds : ∀ (e : Entry) (h : σ × DevIndex), h.2.devs.Sublist (new e h).2.2.devs
  creates : ∀ (e : Entry) (h : σ × DevIndex), (new e h).1 = 0 → ∃ l₁ d l₂,
    h.2.devs = l₁ ++ l₂ ∧ (new e h).2.2.devs = l₁ ++ d :: l₂ ∧ d.name = e.name ∧ d.nregs = e.nregs ∧
    d.bus = h.2.busOf e.parent

theorem count_le_of_sublist {ix ix' : DevIndex} (h : ix.devs.Sublist ix'.devs) (n : CString) :
    ix.count n ≤ ix'.count n := h.countP_le

theorem DriverOk.count_lt {new : Entry → σ × DevIndex → Int × σ × DevIndex} (hok : DriverOk new)
    {h : σ × DevIndex} (hnew : (new e h).1 = 0) :
    h.2.count e.name < (new e h).2.2.count e.name := by
  obtain ⟨l₁, d, l₂, hold, hadd, hname, _⟩ := hok.creates e h hnew
  rw [DevIndex.count, DevIndex.count, hold, hadd, List.countP_append, List.countP_append,
    List.countP_cons_of_pos (by simpa using hname)]
  omega

/-- The loop over the drivers only adds devices, and one for the entry if it is
taken. -/
theorem offer_count {drivers : List (Driver σ)} (hok : ∀ new, some new ∈ drivers → DriverOk new)
    (h : σ × DevIndex) :
    (∀ n, h.2.count n ≤ (offer e drivers h).2.2.count n) ∧
    ((offer e drivers h).1 = true → h.2.count e.name < (offer e drivers h).2.2.count e.name) := by
  induction drivers generalizing h with
  | nil => exact ⟨fun _ => le_rfl, nofun⟩
  | cons driver drivers ih =>
      have hrest : ∀ new, some new ∈ drivers → DriverOk new :=
        fun new hmem => hok new (List.mem_cons_of_mem _ hmem)
      cases driver with
      | none => exact ih hrest h
      | some new =>
          have hnew := hok new List.mem_cons_self
          have hgrow := count_le_of_sublist (hnew.adds e h)
          rw [offer]
          by_cases hzero : (new e h).1 = 0
          · simp only [hzero, if_true]
            exact ⟨hgrow, fun _ => hnew.count_lt hzero⟩
          · simp only [hzero, if_false]
            obtain ⟨hle, hlt⟩ := ih hrest (new e h).2
            exact ⟨fun n => (hgrow n).trans (hle n), fun ht => (hgrow _).trans_lt (hlt ht)⟩

/-- The loop over the queue: it always comes to its end, and less is left if a
device was created. -/
theorem driveLoop_workLeft (hok : ∀ new, some new ∈ K.drivers → DriverOk new)
    {kept rest : List Entry} (hq : s.undriven = kept ++ rest) :
    ∃ found s', (driveLoop K kept rest).run s = .ok found s' ∧ workLeft K s' ≤ workLeft K s ∧
      (found = true → workLeft K s' < workLeft K s) := by
  induction rest generalizing kept s with
  | nil => exact ⟨false, s, rfl, le_rfl, nofun⟩
  | cons e rest ih =>
      obtain ⟨hle, hlt⟩ := offer_count hok (e := e) (s.env, s.index)
      cases hoffer : offer e K.drivers (s.env, s.index) with
      | mk taken h =>
          rw [hoffer] at hle hlt
          cases taken with
          | true =>
              have hdrop : workLeft K ⟨K.kfree h.1, h.2, kept ++ rest⟩ < workLeft K s := by
                rw [workLeft, workLeft, hq, List.map_append, List.map_append, List.map_cons]
                exact namesLeft_take hle (hlt rfl)
              have hq' : (⟨K.kfree h.1, h.2, kept ++ rest⟩ : DevCore σ).undriven = kept ++ rest :=
                rfl
              obtain ⟨found, s', hrun, hle', _⟩ := ih hq'
              refine ⟨true, s', ?_, hle'.trans hdrop.le, fun _ => hle'.trans_lt hdrop⟩
              simp only [driveLoop, EStateM.run_bind, EStateM.run_get, hoffer, if_true,
                EStateM.run_set, hrun, EStateM.run_pure]
          | false =>
              have hgrow : workLeft K ⟨h.1, h.2, s.undriven⟩ ≤ workLeft K s :=
                namesLeft_grow hle
              have hq' : (⟨h.1, h.2, s.undriven⟩ : DevCore σ).undriven = (kept ++ [e]) ++ rest := by
                simp [hq]
              obtain ⟨found, s', hrun, hle', hlt'⟩ := ih hq'
              refine ⟨found, s', ?_, hle'.trans hgrow, fun hf => (hlt' hf).trans_le hgrow⟩
              simp [driveLoop, hoffer, hrun]

/-! ## The passes -/

/-- A pass stops as it may, or leaves no more work; less, if it asks for
another. -/
theorem probePass_workLeft (hbus : ∀ d, d.cls = .bus → K.probe d = none)
    (hok : ∀ new, some new ∈ K.drivers → DriverOk new) (s : DevCore σ) :
    EndsOr (PassStop K) (probePass K) s fun found s' =>
      found = true → workLeft K s' < workLeft K s := by
  have hscan : EndsOr (PassStop K) (K.devtree.forM (scanEntry K)) s
      fun _ s' => workLeft K s' ≤ workLeft K s :=
    endsOr_forM le_rfl fun e he _ hm => scanEntry_workLeft he hm
  refine hscan.bind ?_
  intro _ s₁ hs₁
  have hprobe : EndsOr (PassStop K) (s₁.index.devs.forM (probeDev K)) s₁
      fun _ s' => workLeft K s' ≤ workLeft K s := by
    refine endsOr_forM hs₁ ?_
    intro d _ s₂ hs₂
    have hrun : (probeDev K d).run s₂ = .ok () s₂ := by
      rw [probeDev]
      cases hp : K.probe d with
      | none => rfl
      | some probe =>
          have hcls : d.cls ≠ .bus := by
            intro hcls
            rw [hbus d hcls] at hp
            cases hp
          simp [hcls]
    exact endsOr_of_ok hrun hs₂
  refine endsOr_get_bind (hprobe.bind ?_)
  intro _ s₂ hs₂
  refine endsOr_get_bind ?_
  obtain ⟨found, s', hrun, _, hlt⟩ := driveLoop_workLeft hok (List.nil_append s₂.undriven).symm
  exact endsOr_of_ok hrun fun hf => (hlt hf).trans_le hs₂

/-- The passes come to an end: no device is created in the last one, or an entry
has the name of another device, or there is no memory for an entry. -/
theorem probe_devices_ends (K : CoreEnv σ) (hbus : ∀ d, d.cls = .bus → K.probe d = none)
    (hok : ∀ new, some new ∈ K.drivers → DriverOk new) (s : DevCore σ) :
    ∃ fuel, (∃ s', (probeDevices K fuel).run s = .ok () s') ∨
      (∃ addr s', (probeDevices K fuel).run s =
        .error (.panic "device mismatch DTB: %s\n" [addr]) s') ∨
      ∃ s', (probeDevices K fuel).run s = .error (.oob 0) s' ∧ ∃ env, (K.kmalloc env).1 = 0 := by
  have hround : ∀ s s', True → (probePass K).run s = .ok true s' →
      True ∧ workLeft K s' < workLeft K s := fun s s' _ hrun =>
    ⟨trivial, (probePass_workLeft hbus hok s).of_ok hrun rfl⟩
  obtain ⟨fuel, hend⟩ := doWhile_ends hround s trivial
  refine ⟨fuel, ?_⟩
  rcases hend with hreturn | ⟨e, s₁, s', _, hpass, hstop⟩
  · exact .inl hreturn
  · rcases (probePass_workLeft hbus hok s₁).of_error hpass with ⟨addr, rfl⟩ | ⟨rfl, hnull⟩
    · exact .inr (.inl ⟨addr, s', hstop⟩)
    · exact .inr (.inr ⟨s', hstop, hnull⟩)

end Pass

/-! ## The driver of the port bus -/

/-- An address no device has. -/
def DevIndex.fresh (ix : DevIndex) : Nat := (ix.devs.map Dev.addr).sum + 1

theorem DevIndex.fresh_ne_zero (ix : DevIndex) : ix.fresh ≠ 0 := Nat.succ_ne_zero _

theorem DevIndex.fresh_notMem (ix : DevIndex) : ix.fresh ∉ ix.devs.map Dev.addr := by
  intro hmem
  have hle := List.le_sum_of_mem hmem
  rw [fresh] at hle
  omega

/-- `dev_add` of a new device, at the end of the index. -/
def DevIndex.push (ix : DevIndex) (d : Dev) (h : d.addr ∉ ix.devs.map Dev.addr) : DevIndex where
  devs := ix.devs ++ [d]
  nodup := by
    rw [List.map_append, List.map_singleton, ← List.concat_eq_append, List.nodup_concat]
    exact ⟨h, ix.nodup⟩

/-- `__new` of `io-port.c`, where there is memory for the device. -/
def portNew (e : Entry) (h : Unit × DevIndex) : Int × Unit × DevIndex :=
  if strcmp e.model (.ofString "io-port") ≠ 0 then (-91, h)
  else (0, (), h.2.push ⟨h.2.fresh, e.name, .bus, h.2.busOf e.parent, e.nregs,
    (Vector.replicate devRegMax 0).set 0 (e.regs.get ⟨0, devRegMax_pos⟩) devRegMax_pos,
    h.2.fresh_ne_zero⟩ h.2.fresh_notMem)

theorem portNew_ok : DriverOk portNew := by
  refine ⟨?_, ?_⟩
  · intro e h
    rw [portNew]
    split
    · exact List.Sublist.refl _
    · exact List.sublist_append_left _ _
  · intro e h hnew
    rw [portNew] at hnew ⊢
    split at hnew
    · cases hnew
    · rename_i hmodel
      rw [if_neg hmodel]
      exact ⟨h.2.devs, _, [], (List.append_nil _).symm, rfl, rfl, rfl, rfl⟩

/-- A tree with a port bus under a bus that is there from the start. -/
def portEnv : CoreEnv Unit :=
  ⟨[⟨.ofString "portio", .ofString "io-port", .ofString "root", 0, Vector.replicate _ 0, 0,
    by decide, by decide⟩], [some portNew], fun _ => none, fun _ => (1, ()), id⟩

def rootBus : Dev :=
  ⟨0x1000, .ofString "root", .bus, 0, 0, Vector.replicate _ 0, Nat.succ_ne_zero _⟩

def portCore : DevCore Unit := ⟨(), ⟨[rootBus], List.nodup_singleton _⟩, []⟩

theorem probe_devices_ends_port : (∀ d, d.cls = .bus → portEnv.probe d = none) ∧
    (∀ new, some new ∈ portEnv.drivers → DriverOk new) ∧
    ∃ fuel, (∃ s', (probeDevices portEnv fuel).run portCore = .ok () s') ∨
      (∃ addr s', (probeDevices portEnv fuel).run portCore =
        .error (.panic "device mismatch DTB: %s\n" [addr]) s') ∨
      ∃ s', (probeDevices portEnv fuel).run portCore = .error (.oob 0) s' ∧
        ∃ env, (portEnv.kmalloc env).1 = 0 := by
  have hok : ∀ new, some new ∈ portEnv.drivers → DriverOk new := by
    intro new hnew
    obtain rfl : new = portNew := Option.some.inj (List.mem_singleton.mp hnew)
    exact portNew_ok
  exact ⟨fun _ _ => rfl, hok, probe_devices_ends portEnv (fun _ _ => rfl) hok portCore⟩

/-- It takes two passes: one that creates the bus, and one that does not. -/
example : (returned (probeDevices portEnv 2) portCore fun _ s => s.index.devs.map Dev.addr) =
    some [0x1000, 0x1001] := by
  decide +kernel

end Aim.Kern
