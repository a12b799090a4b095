/-
  Where the metadata goes (`src/layout.rs`): the numbers of a geometry, the groups that
  carry superblock copies and descriptors, and the placement of bitmaps and inode tables.

  A loop of the source that walks a cursor up to `blocks_count` takes the distance left as
  its fuel, which is as often as it can turn.
-/
import MkfsExt4.Error
import MkfsExt4.Params

namespace MkfsExt4.Layout

/-- Metadata blocks a single block group holds. -/
structure GroupLayout where
  group : Nat
  firstBlock : Nat
  /-- Inclusive. -/
  lastBlock : Nat
  hasSuper : Bool
  blockBitmap : Nat
  inodeBitmap : Nat
  /-- First block of the inode table. -/
  inodeTable : Nat
deriving DecidableEq, Repr

/-- The complete geometry of a filesystem. -/
structure Geometry where
  blockSize : Nat
  logBlockSize : Nat
  blocksCount : Nat
  /-- 1 when blocks are 1 KiB, else 0. -/
  firstDataBlock : Nat
  blocksPerGroup : Nat
  rBlocksCount : Nat
  inodesCount : Nat
  inodesPerGroup : Nat
  inodeSize : Nat
  itableBlocksPerGroup : Nat
  groupCount : Nat
  descSize : Nat
  descBlocks : Nat
  reservedGdtBlocks : Nat
  /-- Zero when `flex_bg` is off. -/
  logGroupsPerFlex : Nat
  metaBg : Bool
  firstMetaBg : Nat
  features : FeatureMasks
deriving DecidableEq, Repr

/-! ## Superblock copies -/

/-- The division loop of `is_power_of`: `n` with its factors `base` taken out. -/
def stripFactor (base : Nat) : (fuel : Nat) → Nat → Nat
  | 0, n => n
  | fuel + 1, n => if n % base = 0 then stripFactor base fuel (n / base) else n

def isPowerOf (n base : Nat) : Bool :=
  if n = 0 then false else stripFactor base n n == 1

/-- Whether a group carries a superblock backup: with `sparse_super` groups 0 and 1 and
every power of 3, 5 and 7, without it every group. -/
def hasSuperFor (group : Nat) (features : FeatureMasks) : Bool :=
  if !features.roCompat.contains RoCompatFeatures.sparseSuper then true
  else if group ≤ 1 then true
  else if group % 2 = 0 then false
  else [3, 5, 7].any (fun base => isPowerOf group base)

namespace Geometry

variable (geom : Geometry)

def hasSuper (group : Nat) : Bool := hasSuperFor group geom.features

/-! ## Groups -/

def groupFirstBlock (group : Nat) : Nat := geom.firstDataBlock + group * geom.blocksPerGroup

/-- Last block of a group, inclusive, clamped to the end of the filesystem. -/
def groupLastBlock (group : Nat) : Nat :=
  min (geom.groupFirstBlock group + geom.blocksPerGroup - 1) (geom.blocksCount - 1)

def descPerBlock : Nat := geom.blockSize / geom.descSize

/-- Groups covered by one descriptor block: a meta block group. -/
def metaBgSize : Nat := geom.descPerBlock

def metaBgOf (group : Nat) : Nat := group / geom.metaBgSize

/-- Whether `group` keeps a copy of a descriptor block: under `meta_bg` the first, second
and last group of a meta block group do. -/
def groupHasDesc (group : Nat) : Bool :=
  if !geom.metaBg || geom.metaBgOf group < geom.firstMetaBg then
    geom.hasSuper group
  else
    let size := geom.metaBgSize
    let within := group % size
    within == 0 || within == 1 || within == size - 1

/-- Descriptor blocks a group stores: the whole table under the classic layout, a single
block under `meta_bg`. -/
def descBlocksInGroup (group : Nat) : Nat :=
  if !geom.groupHasDesc group then 0
  else if !geom.metaBg || geom.metaBgOf group < geom.firstMetaBg then
    geom.descBlocks + geom.reservedGdtBlocks
  else 1

/-- Where a group's descriptor block copy starts, if it has one. -/
def descBlockLocation (group : Nat) : Option Nat :=
  if !geom.groupHasDesc group then none
  else some (geom.groupFirstBlock group + (geom.hasSuper group).toNat)

/-- Blocks a group spends on a superblock copy and descriptors, at its front. -/
def superOverhead (group : Nat) : Nat :=
  (geom.hasSuper group).toNat + geom.descBlocksInGroup group

/-- Whether a block belongs to its group's superblock copy, descriptor table or reserved
descriptor blocks, or to no group at all. -/
def inSuperRegion (block : Nat) : Bool :=
  if block < geom.firstDataBlock ∨ geom.blocksCount ≤ block then true
  else
    let group := (block - geom.firstDataBlock) / geom.blocksPerGroup % 2 ^ 32
    if geom.groupCount ≤ group then true
    else block < geom.groupFirstBlock group + geom.superOverhead group

/-! ## Flex groups -/

def flexBgSize : Nat := 1 <<< geom.logGroupsPerFlex

/-- The first group of the flex group that `group` belongs to. -/
def flexFirstGroup (group : Nat) : Nat :=
  if geom.logGroupsPerFlex = 0 then group
  else group / geom.flexBgSize * geom.flexBgSize

/-- How many groups that flex group has; the last may be short. -/
def flexMembers (flexFirst : Nat) : Nat :=
  if geom.logGroupsPerFlex = 0 then 1
  else min geom.flexBgSize (geom.groupCount - flexFirst)

/-- `while cursor < blocks_count && in_super_region(cursor) { cursor += 1 }` -/
def skipSuper : (fuel : Nat) → Nat → Nat
  | 0, cursor => cursor
  | fuel + 1, cursor =>
    if cursor < geom.blocksCount ∧ geom.inSuperRegion cursor then skipSuper fuel (cursor + 1)
    else cursor

/-- The next single free block, at or after the cursor. -/
def takeOne (cursor : Nat) : Except Error Nat :=
  let cursor := geom.skipSuper (geom.blocksCount - cursor) cursor
  if geom.blocksCount ≤ cursor then
    .error (.deviceTooSmall geom.blocksCount (cursor + 1) geom.blockSize)
  else .ok cursor

/-- `(start..start + len).find(|&b| in_super_region(b))` -/
def findSuper : (len : Nat) → (start : Nat) → Option Nat
  | 0, _ => none
  | len + 1, start => if geom.inSuperRegion start then some start else findSuper len (start + 1)

/-- Where the next inode table starts: the loop that restarts past each obstruction. -/
def takeTable : (fuel : Nat) → (cursor : Nat) → Except Error Nat
  | 0, cursor =>
    .error (.deviceTooSmall geom.blocksCount (cursor + geom.itableBlocksPerGroup) geom.blockSize)
  | fuel + 1, cursor =>
    let cursor := geom.skipSuper (geom.blocksCount - cursor) cursor
    let needed := cursor + geom.itableBlocksPerGroup
    if geom.blocksCount < needed then
      .error (.deviceTooSmall geom.blocksCount needed geom.blockSize)
    else
      match geom.findSuper geom.itableBlocksPerGroup cursor with
      | none => .ok cursor
      | some blocked => takeTable fuel (blocked + 1)

/-- `count` runs of `len` blocks, each from `take` at the cursor that the one before it left. -/
def takeAll (take : Nat → Except Error Nat) (len : Nat) :
    (count : Nat) → (cursor : Nat) → Except Error (List Nat × Nat)
  | 0, cursor => .ok ([], cursor)
  | count + 1, cursor => do
    let start ← take cursor
    let (starts, cursor) ← takeAll take len count (start + len)
    return (start :: starts, cursor)

/-- Place the bitmaps and inode tables of one flex group: its block bitmaps, then its inode
bitmaps, then its inode tables, each on the next free blocks. -/
def placeFlex (flexFirst : Nat) : Except Error (List (Nat × Nat × Nat)) := do
  let members := geom.flexMembers flexFirst
  let cursor := geom.groupFirstBlock flexFirst
  let (blockBitmaps, cursor) ← takeAll geom.takeOne 1 members cursor
  let (inodeBitmaps, cursor) ← takeAll geom.takeOne 1 members cursor
  let (inodeTables, _) ← takeAll (fun cursor => geom.takeTable (geom.blocksCount + 1) cursor)
    geom.itableBlocksPerGroup members cursor
  return blockBitmaps.zip (inodeBitmaps.zip inodeTables)

/-- Where group `g` keeps its bitmaps and inode table. -/
def group (g : Nat) : Except Error GroupLayout :=
  if geom.groupCount ≤ g then
    let last := geom.groupCount - 1
    .error (.invalidParams s!"group {g} is past the last group ({last})")
  else do
    let flexFirst := geom.flexFirstGroup g
    let placement ← geom.placeFlex flexFirst
    let (blockBitmap, inodeBitmap, inodeTable) := placement.getD (g - flexFirst) (0, 0, 0)
    return {
      group := g
      firstBlock := geom.groupFirstBlock g
      lastBlock := geom.groupLastBlock g
      hasSuper := geom.hasSuper g
      blockBitmap
      inodeBitmap
      inodeTable }

/-- Every metadata block of the flex group that contains `group`, as runs of a start and a
length. -/
def flexMetadataRuns (group : Nat) : Except Error (List (Nat × Nat)) := do
  let placement ← geom.placeFlex (geom.flexFirstGroup group)
  return placement.flatMap fun (bb, ib, it) =>
    [(bb, 1), (ib, 1), (it, geom.itableBlocksPerGroup)]

end Geometry

end MkfsExt4.Layout
