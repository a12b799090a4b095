/-
  An opened filesystem (`src/fs.rs`): the superblock and the group descriptors in memory,
  blocks, inodes and bitmaps on the device.

  What only reads is a function of the filesystem; what writes is a command over it. Numbers
  are naturals: a byte offset past 64 bits is the source's overflow and panics, block and
  group numbers computed from 32-bit fields fit 64 bits. An index past the end of a buffer
  and a division by zero panic.
-/
import MkfsExt4.Device
import MkfsExt4.Lib.Bitmap
import MkfsExt4.Lib.Hoare
import MkfsExt4.Structs.GroupDesc
import MkfsExt4.Structs.Inode

namespace MkfsExt4

open Lib.Store Lib.Hoare

/-- An opened ext2/ext3/ext4 filesystem. -/
structure Filesystem where
  device : Device
  superblock : Superblock
  groupDescs : List GroupDesc
  csumScheme : Csum.GroupDescCsum
  csumSeed : UInt32

abbrev FsM := Cmd Failure Filesystem

/-- Run a reader inside a command. -/
def reading {α : Type} (f : Filesystem → Except Failure α) : FsM α := do
  match f (← get) with
  | .ok a => return a
  | .error e => throw e

namespace Filesystem

/-! ## Groups -/

/-- `n` with every factor `base` divided out. -/
def stripped (base : Nat) : (fuel : Nat) → Nat → Nat
  | 0, n => n
  | fuel + 1, n => if n % base = 0 then stripped base fuel (n / base) else n

/-- Whether a group carries a superblock backup, given a superblock. -/
def groupHasSuperFor (sb : Superblock) (group : Nat) : Bool :=
  if !sb.featureRoCompat.contains RoCompatFeatures.sparseSuper then true
  else if group ≤ 1 then true
  else if group % 2 = 0 then false
  else [3, 5, 7].any fun base => stripped base group group = 1

/-- First block of a group, given a superblock. -/
def groupFirstBlockFor (sb : Superblock) (group : Nat) : Nat :=
  sb.firstDataBlock + group * sb.blocksPerGroup

variable (fs : Filesystem)

def blockSize : Nat := fs.superblock.blockSize

def groupCount : Nat := fs.superblock.groupCount

/-- Whether this filesystem carries crc32c metadata checksums. -/
def hasMetadataCsum : Bool := fs.csumScheme = .crc32c

def groupFirstBlock (group : Nat) : Nat := groupFirstBlockFor fs.superblock group

/-- Which group a block belongs to. -/
def groupOfBlock (block : Nat) : Nat :=
  (block - fs.superblock.firstDataBlock) / fs.superblock.blocksPerGroup

/-- Total blocks in a group, which for the last group may be short. -/
def groupBlockCount (group : Nat) : Nat :=
  let first := fs.groupFirstBlock group
  min (first + fs.superblock.blocksPerGroup - 1) (fs.superblock.blocksCount - 1) - first + 1

def groupHasSuper (group : Nat) : Bool := groupHasSuperFor fs.superblock group

/-- Whether descriptors are distributed per meta block group. -/
def metaBg : Bool := fs.superblock.featureIncompat.contains IncompatFeatures.metaBg

def descPerBlock : Nat := fs.superblock.descPerBlock

/-- Whether `group` stores a copy of a descriptor block. -/
def groupHasDesc (group : Nat) : Bool :=
  if !fs.metaBg || group / fs.descPerBlock < fs.superblock.firstMetaBg then fs.groupHasSuper group
  else
    let within := group % fs.descPerBlock
    within = 0 || within = 1 || within = fs.descPerBlock - 1

/-- Descriptor blocks stored in `group`. -/
def descBlocksInGroup (group : Nat) : Nat :=
  if !fs.groupHasDesc group then 0
  else if !fs.metaBg || group / fs.descPerBlock < fs.superblock.firstMetaBg then
    fs.superblock.gdtBlocks + fs.superblock.reservedGdtBlocks
  else 1

/-- Blocks at the front of `group` holding its superblock copy and descriptors. -/
def superOverhead (group : Nat) : Nat :=
  (fs.groupHasSuper group).toNat + fs.descBlocksInGroup group

/-! ## Blocks -/

/-- Byte offset of a block. -/
def blockOffset (block : Nat) : Except Failure Nat :=
  if block * fs.blockSize < 2 ^ 64 then .ok (block * fs.blockSize) else .error .panicked

/-- Bytes of the device from a block on. -/
def readAtBlock (block len : Nat) : Except Failure (List UInt8) := do
  let offset ← fs.blockOffset block
  returned (fs.device.readAt offset len)

def readBlock (block : Nat) : Except Failure (List UInt8) :=
  let count := fs.superblock.blocksCount
  if count ≤ block then
    .error (.error (.corrupt "block pointer"
      s!"block {block} is past the end of the {count}-block filesystem"))
  else fs.readAtBlock block fs.blockSize

def writeBlock (block : Nat) (buf : List UInt8) : FsM Unit := do
  let offset ← reading fun fs => fs.blockOffset block
  let device ← reading fun fs => returned (fs.device.writeAt offset buf)
  modify fun fs => { fs with device }

/-! ## Opening -/

def csumSchemeFor (sb : Superblock) : Csum.GroupDescCsum :=
  if sb.featureRoCompat.contains RoCompatFeatures.metadataCsum then .crc32c
  else if sb.featureRoCompat.contains RoCompatFeatures.gdtCsum then .crc16
  else .none

/-- The descriptor table's bytes. Under meta_bg each meta block group keeps its own
    descriptor block, after its first group's superblock copy if that has one. -/
def readGdt : Except Failure (List UInt8) := do
  let sb := fs.superblock
  if !fs.metaBg then
    panicIf (sb.blockSize = 0)
    let blocks := (sb.groupCount * sb.descSize + sb.blockSize - 1) / sb.blockSize
    fs.readAtBlock (if sb.blockSize = 1024 then 2 else 1) (blocks * sb.blockSize)
  else
    panicIf (sb.descPerBlock = 0)
    (List.range sb.gdtBlocks).foldlM (fun raw part => do
      let leader := part * sb.descPerBlock
      let block ← fs.readAtBlock
        (groupFirstBlockFor sb leader + (groupHasSuperFor sb leader).toNat) sb.blockSize
      return raw ++ block) []

/-- Read the group descriptor table. -/
def readGroupDescs : Except Failure (List GroupDesc) := do
  let sb := fs.superblock
  let raw ← fs.readGdt
  return (List.range sb.groupCount).map fun g =>
    GroupDesc.decode (raw.drop (g * sb.descSize)) sb.descSize

/-- A filesystem over `device` as `sb` describes it. A shift by 32 or more in `block_size`
    and a `first_data_block` past the end overflow. -/
def withSuperblock (device : Device) (sb : Superblock) : Except Failure Filesystem := do
  panicIf (32 ≤ sb.logBlockSize ∨ sb.blocksPerGroup ≠ 0 ∧ sb.blocksCount < sb.firstDataBlock)
  let fs : Filesystem :=
    { device, superblock := sb, groupDescs := [], csumScheme := csumSchemeFor sb,
      csumSeed := sb.csumSeed }
  return { fs with groupDescs := ← fs.readGroupDescs }

/-- Open a filesystem. The first read is every sector that holds bytes 1024 to 2048. -/
def openOn (device : Device) : Except Failure Filesystem := do
  let sector := max device.logicalSectorSize 1
  let span := (superblockOffset + superblockLen + sector - 1) / sector * sector
  let head ← returned (device.readAt 0 span)
  let sb ← returned (Superblock.decode (slice head superblockOffset superblockLen))
  withSuperblock device sb

/-! ## Inodes -/

/-- Where an inode lives: its group, block and byte offset within it. -/
def inodeLocation (inum : Nat) : Except Failure (Nat × Nat × Nat) := do
  let sb := fs.superblock
  let count := sb.inodesCount
  if inum = 0 ∨ count < inum then
    throw (.error (.corrupt "inode number" s!"inode {inum} is outside 1..={count}"))
  panicIf (sb.inodesPerGroup = 0 ∨ sb.blockSize = 0)
  let group := (inum - 1) / sb.inodesPerGroup
  match fs.groupDescs[group]? with
  | none => throw (.error (.corrupt "group descriptor" s!"no group {group}"))
  | some desc =>
    let byte := (inum - 1) % sb.inodesPerGroup * sb.inodeSize
    panicIf (2 ^ 64 ≤ desc.inodeTable + byte / sb.blockSize)
    return (group, desc.inodeTable + byte / sb.blockSize, byte % sb.blockSize)

/-- Read an inode's raw bytes, as they are on disk. -/
def readInodeRaw (inum : Nat) : Except Failure (List UInt8) := do
  let (_, block, offset) ← fs.inodeLocation inum
  let tableBlock ← fs.readBlock block
  panicIf (tableBlock.length < offset + fs.superblock.inodeSize)
  return slice tableBlock offset fs.superblock.inodeSize

def readInode (inum : Nat) : Except Failure Inode := do
  let raw ← fs.readInodeRaw inum
  Inode.decode raw fs.superblock.inodeSize

/-- Write an inode, stamping its checksum. The inodes that share its block are carried
    through unchanged. -/
def writeInode (inum : Nat) (inode : Inode) : FsM Unit := do
  let (_, block, offset) ← reading fun fs => fs.inodeLocation inum
  reading fun fs => panicIf (¬ Inode.Encodable fs.superblock.inodeSize)
  let encoded ← reading fun fs => .ok <|
    inode.encodeWithCsum fs.superblock.inodeSize fs.hasMetadataCsum fs.csumSeed inum
  let tableBlock ← reading fun fs => fs.readBlock block
  reading fun fs => panicIf (tableBlock.length < offset + fs.superblock.inodeSize)
  writeBlock block (splice tableBlock offset encoded)

/-! ## The superblock and the descriptors on disk -/

/-- Where the primary superblock sits: its block, and its offset within it. -/
def superblockLocation : Nat × Nat :=
  (superblockOffset / fs.blockSize, superblockOffset % fs.blockSize)

/-- The block holding the primary superblock, straight from the device. -/
def readSuperblockHolder : Except Failure (List UInt8) := do
  panicIf (fs.blockSize = 0)
  fs.readAtBlock fs.superblockLocation.1 fs.blockSize

/-- The primary superblock's bytes as they are on the device. -/
def readSuperblockRaw : Except Failure (List UInt8) := do
  let holder ← fs.readSuperblockHolder
  panicIf (holder.length < fs.superblockLocation.2 + superblockLen)
  return slice holder fs.superblockLocation.2 superblockLen

/-- Write the primary superblock back, in the block that holds it. -/
def flushSuperblock : FsM Unit := do
  let raw ← reading readSuperblockRaw
  let holder ← reading readSuperblockHolder
  let fs ← get
  let (block, offset) := fs.superblockLocation
  writeBlock block (splice holder offset (fs.superblock.encodeInto raw))

/-- Read the primary superblock and the group descriptors again, from the device. -/
def reload : FsM Unit := do
  let raw ← reading readSuperblockRaw
  let sb ← reading fun _ => returned (Superblock.decode raw)
  let fs ← reading fun fs => withSuperblock fs.device sb
  set fs

/-- The bytes of the descriptor table. -/
def encodeGdt : List UInt8 :=
  let sb := fs.superblock
  let descs := (fs.groupDescs.mapIdx fun g desc =>
    desc.encodeWithCsum sb.descSize fs.csumScheme fs.csumSeed sb.uuid g).flatten
  descs ++ List.replicate (sb.gdtBlocks * sb.blockSize - descs.length) 0

/-- Write the descriptor table after the superblock copy of each group that has one. -/
def writeGroupDescs (primaryOnly : Bool) : FsM Unit := do
  reading fun fs => panicIf (fs.superblock.descPerBlock = 0 ∨
    fs.superblock.gdtBlocks * fs.blockSize < fs.groupDescs.length * fs.superblock.descSize)
  let fs ← get
  let raw := fs.encodeGdt
  forM ((List.range fs.groupCount).filter fun g =>
      fs.groupHasSuper g && (!primaryOnly || g = 0)) fun g =>
    writeBlock (fs.groupFirstBlock g + 1) raw

def flushGroupDescs : FsM Unit := writeGroupDescs false

def flushPrimaryGroupDescs : FsM Unit := writeGroupDescs true

/-! ## Bitmaps -/

/-- The bitmap a group's flags say to compute rather than read: nothing in use, the padding
    past the last real bit set. -/
def uninitBitmap (bitsInUse : Nat) : List UInt8 :=
  Lib.Bitmap.ofBits fs.blockSize fun i => bitsInUse ≤ i

def groupDesc (group : Nat) : Except Failure GroupDesc :=
  match fs.groupDescs[group]? with
  | some desc => .ok desc
  | none => .error (.error (.corrupt "group descriptor" s!"no group {group}"))

/-- Read a group's block bitmap; a `BLOCK_UNINIT` group's is computed. -/
def readBlockBitmap (group : Nat) : Except Failure (List UInt8) := do
  let desc ← fs.groupDesc group
  if desc.blockUninit ∧ fs.csumScheme ≠ .none then
    return fs.uninitBitmap fs.superblock.blocksPerGroup
  fs.readBlock desc.blockBitmap

/-- Read a group's inode bitmap; an `INODE_UNINIT` group's is computed. -/
def readInodeBitmap (group : Nat) : Except Failure (List UInt8) := do
  let desc ← fs.groupDesc group
  if desc.inodeUninit ∧ fs.csumScheme ≠ .none then
    return fs.uninitBitmap fs.superblock.inodesPerGroup
  fs.readBlock desc.inodeBitmap

/-! ## What a command that ended well did -/

theorem reading_ok {α : Type} {f : Filesystem → Except Failure α} {fs fs' : Filesystem} {a : α}
    (h : exec (reading f) fs = (.ok a, fs')) : f fs = .ok a ∧ fs' = fs := by
  obtain ⟨fs1, fs2, h1, h⟩ := exec_bind_ok h
  cases h1
  cases hf : f fs with
  | ok b =>
    simp only [hf] at h
    cases h
    exact ⟨rfl, rfl⟩
  | error e =>
    simp only [hf] at h
    cases h

variable {fs} {fs' : Filesystem}

/-- `fs` with `buf` written on its device from the byte `offset` on. -/
def withBytes (fs : Filesystem) (offset : Nat) (buf : List UInt8) : Filesystem :=
  { fs with device := { fs.device with bytes := overlay fs.device.bytes offset buf } }

theorem blockOffset_ok {block offset : Nat} (h : fs.blockOffset block = .ok offset) :
    offset = block * fs.blockSize ∧ block * fs.blockSize < 2 ^ 64 := by
  unfold blockOffset at h
  split at h
  · next hlt => exact ⟨(Except.ok.inj h).symm, hlt⟩
  · cases h

theorem readAtBlock_ok {block len : Nat} {buf : List UInt8}
    (h : fs.readAtBlock block len = .ok buf) :
    buf = window fs.device.bytes (block * fs.blockSize) len ∧
      block * fs.blockSize + len ≤ fs.device.size := by
  unfold readAtBlock at h
  obtain ⟨offset, ho, h⟩ := bind_ok h
  obtain ⟨rfl, -⟩ := blockOffset_ok ho
  exact (Device.readAt_ok_iff.mp (returned_ok h)).symm

theorem writeBlock_ok {block : Nat} {buf : List UInt8}
    (h : exec (writeBlock block buf) fs = (.ok (), fs')) :
    fs' = fs.withBytes (block * fs.blockSize) buf ∧
      block * fs.blockSize + buf.length ≤ fs.device.size := by
  obtain ⟨offset, fs1, h1, h⟩ := exec_bind_ok h
  obtain ⟨ho, rfl⟩ := reading_ok h1
  obtain ⟨rfl, -⟩ := blockOffset_ok ho
  obtain ⟨device, fs2, h2, h⟩ := exec_bind_ok h
  obtain ⟨hw, rfl⟩ := reading_ok h2
  have hw := returned_ok hw
  unfold Device.writeAt at hw
  obtain ⟨_, hb, hw⟩ := bind_ok hw
  cases hw
  cases h
  unfold checkBounds at hb
  split at hb
  · exact ⟨rfl, by assumption⟩
  · cases hb

/-- What an opened filesystem holds of its device. -/
structure Opened (dev : Device) (fs : Filesystem) : Prop where
  device : fs.device = dev
  superblock :
    Superblock.decode (window dev.bytes superblockOffset superblockLen) = .ok fs.superblock
  sound : ¬ (32 ≤ fs.superblock.logBlockSize ∨
    fs.superblock.blocksPerGroup ≠ 0 ∧ fs.superblock.blocksCount < fs.superblock.firstDataBlock)
  groupDescs : fs.readGroupDescs = .ok fs.groupDescs
  csumScheme : fs.csumScheme = csumSchemeFor fs.superblock
  csumSeed : fs.csumSeed = fs.superblock.csumSeed

/-- The first read of `openOn` covers the superblock. -/
theorem superblock_in_span (device : Device) :
    superblockOffset + superblockLen ≤ (superblockOffset + superblockLen +
      max device.logicalSectorSize 1 - 1) / max device.logicalSectorSize 1 *
        max device.logicalSectorSize 1 := by
  generalize superblockOffset + superblockLen = a
  have hpos : 0 < max device.logicalSectorSize 1 := by omega
  generalize max device.logicalSectorSize 1 = sector at hpos ⊢
  have hmod := Nat.mod_lt (a + sector - 1) hpos
  have hdiv := Nat.div_add_mod' (a + sector - 1) sector
  omega

theorem openOn_opened {device : Device} (h : openOn device = .ok fs) : Opened device fs := by
  unfold openOn at h
  obtain ⟨head, hhead, hrest⟩ := bind_ok h
  obtain ⟨-, rfl⟩ := Device.readAt_ok_iff.mp (returned_ok hhead)
  obtain ⟨sb, hsb, hrest⟩ := bind_ok hrest
  have hsb := returned_ok hsb
  rw [slice_window _ (superblock_in_span device), Nat.zero_add] at hsb
  unfold withSuperblock at hrest
  obtain ⟨_, hsound, hrest⟩ := bind_ok hrest
  obtain ⟨descs, hdescs, hrest⟩ := bind_ok hrest
  cases hrest
  exact {
    device := rfl
    superblock := hsb
    sound := panicIf_ok hsound
    groupDescs := hdescs
    csumScheme := rfl
    csumSeed := rfl }

/-- The superblock is 1024 bytes into the device, whatever the block size. -/
theorem superblockLocation_eq :
    fs.superblockLocation.1 * fs.blockSize + fs.superblockLocation.2 = superblockOffset := by
  unfold superblockLocation
  generalize superblockOffset = offset
  exact Nat.div_add_mod' offset fs.blockSize

theorem readSuperblockRaw_ok {raw : List UInt8} (h : fs.readSuperblockRaw = .ok raw) :
    ∃ holder, fs.readSuperblockHolder = .ok holder ∧
      holder = window fs.device.bytes (fs.superblockLocation.1 * fs.blockSize) fs.blockSize ∧
      fs.superblockLocation.2 + superblockLen ≤ fs.blockSize ∧
      raw = window fs.device.bytes superblockOffset superblockLen := by
  unfold readSuperblockRaw at h
  obtain ⟨holder, hh, h⟩ := bind_ok h
  obtain ⟨_, hp, h⟩ := bind_ok h
  cases h
  have hlen := panicIf_ok hp
  have hholder := hh
  unfold readSuperblockHolder at hholder
  obtain ⟨_, -, hholder⟩ := bind_ok hholder
  obtain ⟨rfl, -⟩ := readAtBlock_ok hholder
  rw [length_window, Nat.not_lt] at hlen
  exact ⟨_, hh, rfl, hlen, by rw [slice_window _ hlen, superblockLocation_eq]⟩

/-- Flushing the superblock writes its 1024 bytes, on those that were there. -/
theorem flushSuperblock_ok (h : exec flushSuperblock fs = (.ok (), fs')) :
    fs' = fs.withBytes superblockOffset
      (fs.superblock.encodeInto (window fs.device.bytes superblockOffset superblockLen)) := by
  obtain ⟨raw, fs1, hraw, hrest⟩ := exec_bind_ok h
  obtain ⟨hraw, hfs1⟩ := reading_ok hraw
  obtain ⟨holder, fs2, hholder, hrest⟩ := exec_bind_ok hrest
  obtain ⟨hholder, hfs2⟩ := reading_ok hholder
  rw [hfs1] at hholder hfs2
  rw [hfs2] at hrest
  obtain ⟨fs3, fs4, hget, hwrite⟩ := exec_bind_ok hrest
  cases hget
  obtain ⟨rfl, -⟩ := writeBlock_ok hwrite
  obtain ⟨holder', hholder', hwin, hin, hbytes⟩ := readSuperblockRaw_ok hraw
  rw [hholder'] at hholder
  have hsame : holder' = holder := Except.ok.inj hholder
  have hover := @overlay_splice_window _ fs.device.bytes
    (fs.superblockLocation.1 * fs.blockSize) fs.blockSize fs.superblockLocation.2
    (fs.superblock.encodeInto (window fs.device.bytes superblockOffset superblockLen))
    (by rwa [Superblock.length_encodeInto, length_window])
  rw [superblockLocation_eq] at hover
  rw [hbytes, ← hsame, hwin]
  exact congrArg (fun bytes => ({ fs with device := { fs.device with bytes } } : Filesystem)) hover

end Filesystem

end MkfsExt4
