import Aim.Kern.Libc
import Aim.Lib.Ring

/-!
# `kern/dev/index/devlist.c`: the list of devices

A device in the index has an entry, and the list is the ring of the nodes
embedded in the entries, through the node `__head`. Addresses are numbers, so
that the step from a node to its entry, `container_of`, can be taken from any
node, also from `__head`, which has none.

The memory is kept by what is stored in it: the links of the node at an
address, the word `dev` of the entry at an address, and the `struct device` at
an address. `devno` is an unsigned long. The fields of a device no function of
the index reads are left out. `dev_add` to `dev_from_name` of `index.c` only
call these functions.
-/

namespace Aim.Kern

open Aim.Lib

/-- What the index reads of a `struct device`. -/
structure Device where
  name : CString
  devno : Nat
  bus : Nat
  deriving DecidableEq

/-- Where `__head` is, and the allocator. -/
structure DevEnv (σ : Type) where
  head : Nat
  head_ge : 4 ≤ head
  head_le : head + 12 ≤ 2 ^ 32
  kmalloc : Nat → EStateM Stop σ Nat
  kfree : Nat → EStateM Stop σ Unit

structure Devlist (σ : Type) where
  env : σ
  links : Links Nat
  dev : Nat → Nat
  device : Nat → Device

variable {σ : Type}

namespace Devlist

def onEnv {α : Type} (x : EStateM Stop σ α) : EStateM Stop (Devlist σ) α :=
  zoom env (fun e s => { s with env := e }) x

/-- `sizeof(struct device_entry)`. -/
def entryBytes : Nat := 16

/-- `offsetof(struct device_entry, node)`. -/
def nodeOffset : Nat := 4

/-- `&entry->node`. -/
def nodeOf (entry : Nat) : Nat := (entry + nodeOffset) % 2 ^ 32

/-- `list_entry`. -/
def entryOf (node : Nat) : Nat := (node + 2 ^ 32 - nodeOffset) % 2 ^ 32

/-- `*dev`. -/
def deviceAt (dev : Nat) : EStateM Stop (Devlist σ) Device := do
  if dev = 0 then throw (.oob 0)
  let s ← get
  return s.device dev

/-- `__cmp`. -/
def cmp (a b : Nat) : EStateM Stop (Devlist σ) Int := do
  let s ← get
  let devA ← deviceAt (s.dev a)
  let devB ← deviceAt (s.dev b)
  if devA.devno > devB.devno then return 1
  else if devA.devno < devB.devno then return -1
  else return 0

/-- `for_each_entry` with a body that only tests the entry and breaks: the
entry `tmp` after the loop. -/
def forEachEntry (E : DevEnv σ) (stop : Nat → EStateM Stop (Devlist σ) Bool) :
    Nat → Nat → EStateM Stop (Devlist σ) Nat
  | 0, _ => throw .fuel
  | fuel + 1, tmp => do
      if nodeOf tmp = E.head then return tmp
      else
        if ← stop tmp then return tmp
        else
          let s ← get
          forEachEntry E stop fuel (entryOf (s.links.next (nodeOf tmp)))

/-- Fuel for a loop over the list: its nodes have distinct addresses. -/
def loopFuel : Nat := 2 ^ 32

/-- `__add`. -/
def add (E : DevEnv σ) (dev : Nat) : EStateM Stop (Devlist σ) Int := do
  let this ← onEnv (E.kmalloc entryBytes)
  if this = 0 then return -1
  else
    modify fun s => { s with dev := Function.update s.dev this dev }
    let s ← get
    let tmp ← forEachEntry E (fun tmp => do return decide ((← cmp tmp this) > 0)) loopFuel
      (entryOf (s.links.next E.head))
    modify fun s => { s with links := s.links.addTail (nodeOf this) (nodeOf tmp) }
    return 0

/-- The loop of `__remove`, with the entry found so far; `none` is the jump to
`ret`. -/
def removeLoop (E : DevEnv σ) (dev : Nat) :
    Nat → Nat → Nat → EStateM Stop (Devlist σ) (Option Nat)
  | 0, _, _ => throw .fuel
  | fuel + 1, tmp, this => do
      if nodeOf tmp = E.head then return some this
      else
        let s ← get
        let d ← deviceAt (s.dev tmp)
        if d.bus = dev then return none
        else
          let this := if s.dev tmp = dev then tmp else this
          removeLoop E dev fuel (entryOf (s.links.next (nodeOf tmp))) this

/-- `__remove`. -/
def remove (E : DevEnv σ) (dev : Nat) : EStateM Stop (Devlist σ) Int := do
  let s ← get
  match ← removeLoop E dev loopFuel (entryOf (s.links.next E.head)) 0 with
  | none => return -1
  | some this =>
      if this ≠ 0 then
        modify fun s => { s with links := s.links.del (nodeOf this) }
        onEnv (E.kfree this)
        return 0
      else return -1

/-- `__next`, with the new value of `*savep`. -/
def next (E : DevEnv σ) (dev savep : Nat) : EStateM Stop (Devlist σ) (Nat × Nat) := do
  let s ← get
  let savep ←
    if dev = 0 then pure (entryOf (s.links.next E.head))
    else do
      require (.panic ("Assertion failed in __next (%s:%d): " ++
        "((struct device_entry *)(*savep))->dev == dev\n") [111]) (decide (s.dev savep = dev))
      pure (entryOf (s.links.next (nodeOf savep)))
  if savep = E.head then return (0, savep)
  else return (s.dev savep, savep)

/-- The rounds of `for_each_device`: the entries and devices met, until `NULL`
is answered. -/
def deviceLoop (E : DevEnv σ) : Nat → Nat → Nat → EStateM Stop (Devlist σ) (List (Nat × Nat))
  | 0, _, _ => throw .fuel
  | fuel + 1, dev, savep => do
      if dev = 0 then return []
      else
        let (dev', savep') ← next E dev savep
        let rest ← deviceLoop E fuel dev' savep'
        return (savep, dev) :: rest

/-- `for_each_device`, with a variable `savep` that need not be set. -/
def forEachDevice (E : DevEnv σ) (fuel savep : Nat) :
    EStateM Stop (Devlist σ) (List (Nat × Nat)) := do
  let (dev, savep) ← next E 0 savep
  deviceLoop E fuel dev savep

/-- The end of `__from_id` and of `__from_name`: the device of the entry the
loop stopped at. -/
def found (E : DevEnv σ) (tmp : Nat) : EStateM Stop (Devlist σ) Nat := do
  let s ← get
  if nodeOf tmp ≠ E.head then return s.dev tmp
  else return 0

/-- `__from_id`. -/
def fromId (E : DevEnv σ) (devno : Nat) : EStateM Stop (Devlist σ) Nat := do
  let s ← get
  let tmp ← forEachEntry E (fun tmp => do
      let s ← get
      let d ← deviceAt (s.dev tmp)
      return decide (d.devno = devno)) loopFuel (entryOf (s.links.next E.head))
  found E tmp

/-- `__from_name`. -/
def fromName (E : DevEnv σ) (name : CString) : EStateM Stop (Devlist σ) Nat := do
  let s ← get
  let tmp ← forEachEntry E (fun tmp => do
      let s ← get
      let d ← deviceAt (s.dev tmp)
      return decide (strcmp d.name name = 0)) loopFuel (entryOf (s.links.next E.head))
  found E tmp

end Devlist

end Aim.Kern
