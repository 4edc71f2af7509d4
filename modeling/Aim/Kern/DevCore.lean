import Aim.Kern.Libc

/-!
# `drivers/common/core.c`: devices from the device tree

The kernel finds its devices in passes. A pass goes through the device tree and
queues the entries whose parent is there already, lets the buses probe, and
offers what is queued to the drivers, which create the devices.

The index of devices is taken at its interface: it enumerates its devices in
some order, each of them once, and looks up the first of a name. A driver's
`new` works on the index and on whatever else it likes, the environment `σ`; the
same goes for a bus's `probe`, which hands entries to `discover_device`, and for
the allocator. The nodes of the list of undriven entries are left out, and so
are the messages.
-/

namespace Aim.Kern

open Aim.Lib

def devNameMax : Nat := 64

def devRegMax : Nat := 10

theorem devRegMax_pos : 0 < devRegMax := by decide

/-- `struct devtree_entry`. The names end within their arrays, and no more
register spaces are counted than there is room for. -/
structure Entry where
  name : CString
  model : CString
  parent : CString
  nregs : Nat
  regs : Vector (BitVec 64) devRegMax
  irq : Int
  name_lt : name.bytes.length < devNameMax
  nregs_le : nregs ≤ devRegMax
  deriving DecidableEq

inductive DevClass where
  | non
  | chr
  | blk
  | net
  | bus
  deriving DecidableEq, Repr

/-- A `struct device` and its address. `bus` is an address, too, or 0. -/
structure Dev where
  addr : Nat
  name : CString
  cls : DevClass
  bus : Nat
  nregs : Nat
  bases : Vector (BitVec 64) devRegMax
  addr_ne : addr ≠ 0
  deriving DecidableEq

/-- The devices in the index. -/
structure DevIndex where
  devs : List Dev
  nodup : (devs.map Dev.addr).Nodup
  deriving DecidableEq

namespace DevIndex

/-- `dev_from_name`. -/
def fromName (ix : DevIndex) (name : CString) : Option Dev :=
  ix.devs.find? fun d => strcmp d.name name = 0

/-- The same as a pointer. -/
def busOf (ix : DevIndex) (name : CString) : Nat := ((ix.fromName name).map Dev.addr).getD 0

/-- `strlcpy` to the name of the device at an address. -/
def rename (ix : DevIndex) (addr : Nat) (name : CString) : DevIndex where
  devs := ix.devs.map fun d =>
    if d.addr = addr then { d with name := strlcpy name devNameMax } else d
  nodup := by
    have haddr : (Dev.addr ∘ fun d =>
        if d.addr = addr then { d with name := strlcpy name devNameMax } else d) = Dev.addr := by
      funext d
      by_cases h : d.addr = addr
      · simp [h]
      · simp [h]
    rw [List.map_map, haddr]
    exact ix.nodup

/-- `__dev_match`. -/
def devMatch (ix : DevIndex) (dev : Dev) (entry : Entry) : Bool :=
  dev.nregs = entry.nregs ∧ dev.bus = ix.busOf entry.parent

/-- `__check_dup_device`. -/
def checkDupDevice (ix : DevIndex) (entry : Entry) : Option Dev :=
  ix.devs.find? fun d => ix.devMatch d entry

end DevIndex

/-- The bytes of a word, from the lowest. -/
def wordBytes (w : BitVec 64) : List UInt8 :=
  (List.range 8).map fun k => UInt8.ofBitVec (w.extractLsb' (8 * k) 8)

/-- The bytes of the first `n` register space bases. -/
def regBytes (regs : Vector (BitVec 64) devRegMax) (n : Nat) : List UInt8 :=
  (regs.toList.take n).flatMap wordBytes

/-- `__entry_match`. -/
def entryMatch (a b : Entry) : Bool :=
  a.nregs = b.nregs ∧ strcmp a.parent b.parent = 0 ∧
    memcmp (regBytes a.regs a.nregs) (regBytes b.regs a.nregs) = 0

/-- A driver as its method `new`, if it has one. -/
abbrev Driver (σ : Type) := Option (Entry → σ × DevIndex → Int × σ × DevIndex)

/-- What the passes work with: the tree, the drivers in the order in which they
were registered, the method `probe` of a device's driver, and the allocator. -/
structure CoreEnv (σ : Type) where
  devtree : List Entry
  drivers : List (Driver σ)
  probe : Dev → Option (σ → List Entry × σ)
  kmalloc : σ → Nat × σ
  kfree : σ → σ

structure DevCore (σ : Type) where
  env : σ
  index : DevIndex
  undriven : List Entry

variable {σ : Type}

namespace DevCore

def discoverDevice (K : CoreEnv σ) (entry : Entry) : EStateM Stop (DevCore σ) Unit := do
  let s ← get
  if (s.index.checkDupDevice entry).isSome then return ()
  if s.undriven.any fun queued => entryMatch queued entry then return ()
  let (node, env) := K.kmalloc s.env
  set { s with env := env }
  if node = 0 then throw (.oob 0)
  modify fun s => { s with undriven := s.undriven ++ [entry] }

/-- `assert`, in `__probe_devices`. -/
def probeAssert (line : Int) (condition : String) (holds : Bool) :
    EStateM Stop (DevCore σ) Unit :=
  require (.panic ("Assertion failed in __probe_devices (%s:%d): " ++ condition ++ "\n") [line])
    holds

/-- The loop over the tree, for one entry. -/
def scanEntry (K : CoreEnv σ) (entry : Entry) : EStateM Stop (DevCore σ) Unit := do
  let s ← get
  match s.index.fromName entry.name with
  | some dev =>
      if !s.index.devMatch dev entry then
        throw (.panic "device mismatch DTB: %s\n" [dev.addr])
  | none =>
      if (s.index.fromName entry.parent).isNone then return ()
      match s.index.checkDupDevice entry with
      | some dev =>
          if strcmp entry.parent (.ofString "memory") ≠ 0 then do
            probeAssert 181 "strcmp(dev->name, entry->name) != 0" (strcmp dev.name entry.name ≠ 0)
            set { s with index := s.index.rename dev.addr entry.name }
          else discoverDevice K entry
      | none => discoverDevice K entry

/-- The loop over the buses, for one device. -/
def probeDev (K : CoreEnv σ) (dev : Dev) : EStateM Stop (DevCore σ) Unit := do
  match K.probe dev with
  | some probe =>
      if dev.cls = .bus then do
        let s ← get
        let (entries, env) := probe s.env
        set { s with env := env }
        entries.forM (discoverDevice K)
  | none => return ()

/-- The loop over the drivers: whether one of them took the entry. -/
def offer (entry : Entry) : List (Driver σ) → σ × DevIndex → Bool × σ × DevIndex
  | [], h => (false, h)
  | none :: drivers, h => offer entry drivers h
  | some new :: drivers, h =>
      let (result, h') := new entry h
      if result = 0 then (true, h') else offer entry drivers h'

/-- The loop over the undriven entries, past `kept`. -/
def driveLoop (K : CoreEnv σ) (kept : List Entry) :
    List Entry → EStateM Stop (DevCore σ) Bool
  | [] => return false
  | entry :: rest => do
      let s ← get
      let (taken, env, index) := offer entry K.drivers (s.env, s.index)
      if taken then do
        set { s with env := K.kfree env, index := index, undriven := kept ++ rest }
        let _ ← driveLoop K kept rest
        return true
      else do
        set { s with env := env, index := index }
        driveLoop K (kept ++ [entry]) rest

/-- `__probe_devices`. -/
def probePass (K : CoreEnv σ) : EStateM Stop (DevCore σ) Bool := do
  K.devtree.forM (scanEntry K)
  let s ← get
  s.index.devs.forM (probeDev K)
  let s ← get
  driveLoop K [] s.undriven

/-- `probe_devices`, with at most `fuel` passes. -/
def probeDevices (K : CoreEnv σ) (fuel : Nat) : EStateM Stop (DevCore σ) Unit :=
  doWhile (probePass K) fuel

end DevCore

end Aim.Kern
