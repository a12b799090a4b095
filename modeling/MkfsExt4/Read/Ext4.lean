/-
  The synchronous read path (`src/read.rs`): the superblock and the numbers derived from
  it, inodes, extent trees and file contents, straight from a byte-range reader.

  The reader stands over the device the rest of the crate uses, as in the source's tests;
  what that device says on failure is not passed on, so the status is zero. Products and
  sums past 64 bits, and an index past the end of a descriptor, panic.
-/
import MkfsExt4.Fs.BlockMap

namespace MkfsExt4

open Lib.Store

/-- A mounted filesystem: the superblock, and enough geometry to find inodes. -/
structure Ext4 where
  sb : Superblock
  blockSize : Nat
  inodeSize : Nat
  inodesPerGroup : Nat
  descSize : Nat
  /-- Where the group descriptor table starts, in bytes. -/
  gdtOffset : Nat

namespace Ext4

def readExact (dev : Device) (offset len : Nat) : Except Failure (List UInt8) :=
  match dev.readAt offset len with
  | .ok buf => .ok buf
  | .error _ => .error (.error (.deviceRead offset 0))

def corruptRead {α : Type} (detail : String) : Except Failure α :=
  .error (.error (.corrupt "ext4 read" detail))

/-- Read the superblock and derive the geometry needed to resolve inodes. -/
def openOn (dev : Device) : Except Failure Ext4 := do
  let buf ← readExact dev superblockOffset superblockLen
  let sb ← returned (Superblock.decode buf)
  panicIf (64 ≤ sb.logBlockSize)
  let blockSize := (1024 <<< sb.logBlockSize) % 2 ^ 64
  let descSize := if sb.sDescSize = 0 then 32 else sb.sDescSize
  -- With a 1 KiB block the superblock lives in block 1, so the table starts at block 2.
  let sbBlock := if blockSize = 1024 then 1 else 0
  let gdtOffset := (sbBlock + 1) * blockSize
  if blockSize = 0 ∨ sb.inodeSize = 0 ∨ sb.inodesPerGroup = 0 then
    corruptRead "superblock geometry is zero"
  else
    return {
      sb
      blockSize
      inodeSize := sb.inodeSize
      inodesPerGroup := sb.inodesPerGroup
      descSize
      gdtOffset }

variable (e : Ext4) (dev : Device)

/-- Byte offset of a block. -/
def blockOffset (block : Nat) : Except Failure Nat := do
  panicIf (2 ^ 64 ≤ block * e.blockSize)
  return block * e.blockSize

def readGroupDesc (group : Nat) : Except Failure GroupDesc := do
  let buf ← readExact dev (e.gdtOffset + group * e.descSize) e.descSize
  panicIf (e.descSize < minDescSize)
  return GroupDesc.decode buf e.descSize

/-- Read one inode by number. -/
def readInode (ino : Nat) : Except Failure Inode := do
  if ino = 0 then corruptRead "inode 0 does not exist"
  else
    let group := (ino - 1) / e.inodesPerGroup
    let index := (ino - 1) % e.inodesPerGroup
    let gd ← e.readGroupDesc dev group
    let table ← e.blockOffset gd.inodeTable
    panicIf (2 ^ 64 ≤ table + index * e.inodeSize)
    let buf ← readExact dev (table + index * e.inodeSize) e.inodeSize
    Inode.decode buf e.inodeSize

/-! ## Files -/

/-- An entry of a node, `what` naming it in the error. -/
def entryOf (what : String) (node : List UInt8) (i : Nat) : Except Failure (List UInt8) :=
  if node.length < Extent.headerLen + i * Extent.entryLen + Extent.entryLen then
    corruptRead (what ++ " runs past its node")
  else .ok (Extent.entry node i)

/-- The extents of the tree under `node`, in the order of its entries. `levels` counts down
    from the deepest tree allowed. -/
def walkExtents : (levels : Nat) → List UInt8 → Except Failure (List Extent)
  | 0, _ => corruptRead "extent tree deeper than 5 levels"
  | levels + 1, node => do
    let hdr ← returned (ExtentHeader.decode node)
    if hdr.depth = 0 then
      (List.range hdr.entries).mapM fun i => do
        return Extent.decode (← entryOf "extent" node i)
    else
      let parts ← (List.range hdr.entries).mapM fun i => do
        let idx := ExtentIdx.decode (← entryOf "extent index" node i)
        let child ← readExact dev (← e.blockOffset idx.leaf) e.blockSize
        walkExtents levels child
      return parts.flatten

/-- An inode's extents in logical order. Only the extent form is supported. -/
def extentsOf (inode : Inode) : Except Failure (List Extent) := do
  if !inode.usesExtents then
    throw (.error (.unsupportedFeature "inode uses the legacy indirect block map, not extents"))
  else
    let out ← e.walkExtents dev 6 inode.block
    return out.mergeSort fun a b => a.block ≤ b.block

/-- One extent's bytes in the file: nothing past the end, nothing of an extent that was
    never written. -/
def readExtent (size : Nat) (out : List UInt8) (ext : Extent) : Except Failure (List UInt8) := do
  let start ← e.blockOffset ext.block
  if size ≤ start ∨ ext.isUninit then return out
  else
    let len := min (← e.blockOffset ext.effectiveLen) (size - start)
    let data ← readExact dev (← e.blockOffset ext.start) len
    return splice out start data

/-- Read a whole file by inode. -/
def readInodeData (inode : Inode) : Except Failure (List UInt8) := do
  let extents ← e.extentsOf dev inode
  extents.foldlM (e.readExtent dev inode.size) (List.replicate inode.size 0)

/-- The loop of `read_dir` over what is left of the directory's bytes. Every record takes at
least its header, so their number is fuel enough. -/
def namesFrom : (fuel : Nat) → List UInt8 → List (List UInt8 × Nat)
  | 0, _ => []
  | fuel + 1, data =>
    if data.length < Dirent.entryHeaderLen then []
    else
      let ino := getU32 data 0
      let recLen := getU16 data 4
      let nameLen := getU8 data 6
      if recLen < Dirent.entryHeaderLen ∨ data.length < recLen then []
      else
        (if ino ≠ 0 ∧ 0 < nameLen ∧ Dirent.entryHeaderLen + nameLen ≤ data.length then
          [(slice data Dirent.entryHeaderLen nameLen, ino)] else []) ++
          namesFrom fuel (data.drop recLen)

/-- The names in a directory's bytes. -/
def names (data : List UInt8) : List (List UInt8 × Nat) := namesFrom data.length data

/-- List one directory's entries as name and inode. -/
def readDir (dir : Inode) : Except Failure (List (List UInt8 × Nat)) := do
  return names (← e.readInodeData dev dir)

end Ext4

end MkfsExt4
