import Aim.Lib.Run

/-!
# `kern/mm/pmm/page_alloc.c`: one buddy

A `struct buddy` manages `2 ^ level` pages by an array `tree` of node marks,
stored like a binary heap: node `i` has the children `2 * i + 1` and
`2 * i + 2`. The functions below are the source's, with its names; `self` is
the state of the computation.

Indices, offsets and lengths are C `int`s and are kept as `Int`, so that the
walk that leaves the root upwards really reaches `-1`. Every read and write of
`tree` goes through `treeGet` and `treeSet`, which stop the call when the
index is not one of the array's `size` entries. The array is declared
`tree[1 << 10]`; its number of entries is a field here because the results
about the algorithm are about an array that is large enough, and the result
about the declaration is about this one.

Every loop runs on fuel. Walks towards the root pass the index itself, which
they at least halve. The descents of `buddyFree` and `buddySize` pass the
number of entries, since each round reads an entry further down. The search
of `buddyAlloc` passes `2 ^ (level + 2)`, more than the number of nodes.
-/

namespace Aim.Kern

open Aim.Lib

/-- `NODE_UNUSED`, `NODE_USED`, `NODE_SPLIT` and `NODE_FULL`. -/
inductive Node where
  | unused
  | used
  | split
  | full
  deriving DecidableEq, Repr

/-- `struct buddy`, with the number of entries of its array. The field
`baseAddr` is never read or written by the source. -/
structure Buddy where
  level : Nat
  size : Nat
  tree : Int → Node

/-- The number of entries `struct buddy` declares, `tree[1 << 10]`. -/
def treeEntries : Nat := 1 <<< 10

/-- `EOF` of `stddef.h`. -/
def eof : Int := -1

/-! ## Powers of two -/

/-- `!(x & (x - 1))`. -/
def isPowOf2 (x : BitVec 32) : Bool := x &&& (x - 1) == 0

def nextPowOf2 (x : BitVec 32) : BitVec 32 :=
  if isPowOf2 x then x
  else
    let x := x ||| x >>> 1
    let x := x ||| x >>> 2
    let x := x ||| x >>> 4
    let x := x ||| x >>> 8
    let x := x ||| x >>> 16
    x + 1

/-! ## The node array -/

def treeGet (index : Int) : EStateM Stop Buddy Node := do
  let self ← get
  if 0 ≤ index ∧ index < self.size then return self.tree index
  else throw (.oob index)

def treeSet (index : Int) (mark : Node) : EStateM Stop Buddy Unit := do
  let self ← get
  if 0 ≤ index ∧ index < self.size then
    set { self with tree := Function.update self.tree index mark }
  else throw (.oob index)

/-- `memset(self->tree, NODE_UNUSED, n)`. -/
def treeClear (n : Int) : EStateM Stop Buddy Unit := do
  let self ← get
  if n ≤ self.size then
    set { self with
      tree := fun i => if 0 ≤ i ∧ i < n then .unused else self.tree i }
  else throw (.oob self.size)

/-- `buddy_init` on a buddy that exists; the branch for a null `self` is with
the pointers, in `Area.lean`. -/
def buddyInit (level : Nat) : EStateM Stop Buddy Unit := do
  let size : Int := 2 ^ level
  modify fun self => { self with level := level }
  treeClear (size * 2 - 1)

/-! ## Node arithmetic -/

/-- The page number of a tree node. -/
def indexOffset (index level maxLevel : Int) : Int :=
  (index + 1 - 2 ^ level.toNat) * 2 ^ (maxLevel - level).toNat

def getBuddyIndex (index : Int) : Int := index - 1 + index % 2 * 2

/-- The parent's index, `-1` above the root. -/
def parentIndex (index : Int) : Int := (index + 1) / 2 - 1

/-! ## `buddy_alloc` -/

def markParentLoop : Nat → Int → EStateM Stop Buddy Unit
  | 0, _ => throw .fuel
  | fuel + 1, index => do
      let buddy := getBuddyIndex index
      if buddy > 0 then
        let mark ← treeGet buddy
        if mark = .used ∨ mark = .full then
          treeSet (parentIndex index) .full
          markParentLoop fuel (parentIndex index)

def markParent (index : Int) : EStateM Stop Buddy Unit :=
  markParentLoop (index.toNat + 1) index

/-- What `buddy_alloc` does at the node it looks at: it takes it, goes down
to its left child (cutting it first when it is unused), or passes it by. -/
inductive Visit where
  | take
  | down
  | pass
  deriving DecidableEq, Repr

def buddyVisit (size index length : Int) : EStateM Stop Buddy Visit := do
  let mark ← treeGet index
  if size = length then
    if mark = .unused then
      treeSet index .used
      return .take
    else return .pass
  else
    match mark with
    | .used | .full => return .pass
    | .unused =>
        -- split first
        treeSet index .split
        treeSet (index * 2 + 1) .unused
        treeSet (index * 2 + 2) .unused
        return .down
    | .split => return .down

/-- The inner `for (;;)` of `buddy_alloc`: back to the first ancestor that is
a left child, and on to its sibling. `none` is the walk off the root. -/
def buddyClimb : Nat → Int → Int → Int →
    EStateM Stop Buddy (Option (Int × Int × Int))
  | 0, _, _, _ => throw .fuel
  | fuel + 1, index, level, length => do
      let level := level - 1
      let length := length * 2
      let index := parentIndex index
      if index < 0 then return none
      else if index % 2 = 1 then return some (index + 1, level, length)
      else buddyClimb fuel index level length

/-- The `while (index >= 0)` of `buddy_alloc`. -/
def buddySearch (size : Int) : Nat → Int → Int → Int → EStateM Stop Buddy Int
  | 0, _, _, _ => throw .fuel
  | fuel + 1, index, level, length => do
      if index < 0 then return -1
      match ← buddyVisit size index length with
      | .take =>
          markParent index
          let self ← get
          return indexOffset index level self.level
      | .down => buddySearch size fuel (index * 2 + 1) (level + 1) (length / 2)
      | .pass =>
          if index % 2 = 1 then
            -- search its buddy
            buddySearch size fuel (index + 1) level length
          else
            match ← buddyClimb (level.toNat + 1) index level length with
            | none => return -1
            | some (index, level, length) =>
                buddySearch size fuel index level length

/-- The size `buddy_alloc` looks for when asked for `s` pages. -/
def blockSize (s : Int) : Int :=
  if s = 0 then 1 else (nextPowOf2 (BitVec.ofInt 32 s)).toInt

def buddyAlloc (s : Int) : EStateM Stop Buddy Int := do
  let self ← get
  let size := blockSize s
  let length : Int := 2 ^ self.level
  if size > length then return -2
  else buddySearch size (2 ^ (self.level + 2)) 0 0 length

/-! ## `buddy_free` and `buddy_size` -/

/-- The `while` of `_combine`: no ancestor of a freed block is full. -/
def lowerFull : Nat → Int → EStateM Stop Buddy Unit
  | 0, _ => throw .fuel
  | fuel + 1, index => do
      if 0 ≤ parentIndex index then
        let mark ← treeGet (parentIndex index)
        if mark = .full then
          treeSet (parentIndex index) .split
          lowerFull fuel (parentIndex index)

def combineLoop : Nat → Int → EStateM Stop Buddy Unit
  | 0, _ => throw .fuel
  | fuel + 1, index => do
      let buddy := getBuddyIndex index
      let stay ← if buddy < 0 then pure true else do
        let mark ← treeGet buddy
        pure (mark != .unused)
      if stay then
        treeSet index .unused
        lowerFull (index.toNat + 1) index
      else combineLoop fuel (parentIndex index)

def combine (index : Int) : EStateM Stop Buddy Unit :=
  combineLoop (index.toNat + 1) index

def buddyFreeLoop (offset : Int) :
    Nat → Int → Int → Int → EStateM Stop Buddy Unit
  | 0, _, _, _ => throw .fuel
  | fuel + 1, left, length, index => do
      match ← treeGet index with
      | .used =>
          if offset ≠ left then
            throw (.panic "offset(0x%x) != left(0x%x)!\n" [offset, left])
          combine index
      | .unused => throw (.panic "Trying to free an unused block!\n" [])
      | .split | .full =>
          let length := length / 2
          if offset < left + length then
            buddyFreeLoop offset fuel left length (index * 2 + 1)
          else
            buddyFreeLoop offset fuel (left + length) length (index * 2 + 2)

def buddyFree (offset : Int) : EStateM Stop Buddy Unit := do
  let self ← get
  let length : Int := 2 ^ self.level
  if offset ≥ length then
    throw (.panic "offset 0x%x is larger than %d levels of buddy!"
      [offset, self.level])
  buddyFreeLoop offset (self.size + 1) 0 length 0

def buddySizeLoop (offset : Int) :
    Nat → Int → Int → Int → EStateM Stop Buddy Int
  | 0, _, _, _ => throw .fuel
  | fuel + 1, left, length, index => do
      match ← treeGet index with
      | .used => return length
      | .unused => return eof
      | .split | .full =>
          let length := length / 2
          if offset < left + length then
            buddySizeLoop offset fuel left length (index * 2 + 1)
          else
            buddySizeLoop offset fuel (left + length) length (index * 2 + 2)

def buddySize (offset : Int) : EStateM Stop Buddy Int := do
  let self ← get
  let length : Int := 2 ^ self.level
  if offset ≥ length then return eof
  else buddySizeLoop offset (self.size + 1) 0 length 0

end Aim.Kern
