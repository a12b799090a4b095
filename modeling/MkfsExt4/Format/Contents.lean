/-
  What the formatter writes, block by block (`src/format.rs`): a group's bitmaps and
  descriptor, the superblock, the directories, the journal, the orphan file, the resize
  inode's map and the reserved inodes. Nothing here knows where a write goes in time.
-/
import MkfsExt4.Format.Plan
import MkfsExt4.Lib.Bitmap
import MkfsExt4.Lib.SortedMap
import MkfsExt4.Structs.Dirent
import MkfsExt4.Structs.GroupDesc

namespace MkfsExt4.Format

open Lib.Store Lib.Endian Lib.Hoare Layout

variable (plan : Plan)

/-! ## A group -/

/-- One group's descriptor and bitmaps. -/
structure GroupState where
  desc : GroupDesc
  blockBitmap : List UInt8
  inodeBitmap : List UInt8

/-- The ranges of blocks `build_group` marks in use, each up to an exclusive end: the group's
own superblock region, the metadata of its flex group, every planned run, and what is past
the end of a short last group. -/
def marks (layout : GroupLayout) (metadata : List (Nat × Nat)) : List (Nat × Nat) :=
  let g := plan.geom
  let start := g.groupFirstBlock layout.group
  (start, start + g.superOverhead layout.group) ::
    (metadata.map (fun r => (r.1, r.1 + r.2)) ++
      plan.runs.map (fun r => (r.start, r.start + r.len)) ++
      [(layout.lastBlock + 1, layout.firstBlock + g.blocksPerGroup)])

/-- A range as bits of the group's bitmap, clamped to the group's own window. -/
def window (layout : GroupLayout) (blocksPerGroup : Nat) (r : Nat × Nat) : Nat × Nat :=
  (r.1 - layout.firstBlock, min (r.2 - layout.firstBlock) blocksPerGroup)

/-- Whether bit `i` of the block bitmap is marked. -/
def marked (bits : List (Nat × Nat)) (i : Nat) : Bool := bits.any fun r => r.1 ≤ i && i < r.2

/-- Whether bit `i` of a group's inode bitmap stands for an inode in use: in group 0 the
reserved inodes, `lost+found` and the orphan file. -/
def inodeUsed (group i : Nat) : Bool :=
  group = 0 && (i < goodOldFirstIno || plan.orphanInode = some (i + 1))

/-- Inodes in use in a group. -/
def usedInodes (group : Nat) : Nat :=
  if group = 0 then goodOldFirstIno + plan.orphanInode.isSome.toNat else 0

/-- `bg_flags` of a group. -/
def groupFlags (group usedBlocks : Nat) : Nat :=
  let csum := plan.csumScheme ≠ .none
  (if !plan.lazyItable then BgFlags.inodeZeroed else 0) |||
    (if csum ∧ usedInodes plan group = 0 then BgFlags.inodeUninit else 0) |||
    (if csum ∧ usedBlocks = 0 ∧ group ≠ plan.geom.groupCount - 1 then BgFlags.blockUninit else 0)

/-- Build one group's bitmaps and descriptor. A bit past the end of the bitmap's block, or a
checksum over more than that block, panics. -/
def buildGroup (group : Nat) : Except Failure GroupState := do
  let g := plan.geom
  let layout ← returned (g.group group)
  let metadata ← returned (g.flexMetadataRuns layout.group)
  let bits := (marks plan layout metadata).map (window layout g.blocksPerGroup)
  panicIf (∃ r ∈ bits, r.1 < r.2 ∧ 8 * g.blockSize < r.2)
  let counted := 8 * min (divCeil g.blocksPerGroup 8) g.blockSize
  let usedBlocks := ((List.range counted).filter (marked bits)).length
  let blockBitmap := Lib.Bitmap.ofBits g.blockSize fun i => marked bits i || g.blocksPerGroup ≤ i
  let inodeBitmap := Lib.Bitmap.ofBits g.blockSize fun i =>
    inodeUsed plan group i || g.inodesPerGroup ≤ i
  let used := usedInodes plan group
  let blockBytes := divCeil g.blocksPerGroup 8
  let inodeBytes := divCeil g.inodesPerGroup 8
  let crc := plan.csumScheme = .crc32c
  panicIf (crc ∧ (g.blockSize < blockBytes ∨ g.blockSize < inodeBytes))
  return {
    desc := {
      blockBitmap := layout.blockBitmap
      inodeBitmap := layout.inodeBitmap
      inodeTable := layout.inodeTable
      freeBlocksCount := g.blocksPerGroup - usedBlocks
      freeInodesCount := g.inodesPerGroup - used
      usedDirsCount := if group = 0 then 2 else 0
      flags := groupFlags plan group usedBlocks
      itableUnused := if plan.csumScheme = .none then 0 else g.inodesPerGroup - used
      blockBitmapCsum :=
        if crc then Csum.bitmapCsum plan.csumSeed (blockBitmap.take blockBytes) else 0
      inodeBitmapCsum :=
        if crc then Csum.bitmapCsum plan.csumSeed (inodeBitmap.take inodeBytes) else 0 }
    blockBitmap
    inodeBitmap }

/-! ## The superblock -/

/-- The superblock every copy is made from. -/
def buildSuperblock (freeBlocks freeInodes : Nat) : Superblock :=
  let g := plan.geom
  let extraIsize := if goodOldInodeSize < g.inodeSize then 32 else 0
  let journal := 0 < plan.journalBlocks
  { inodesCount := g.inodesCount
    blocksCount := g.blocksCount
    rBlocksCount := g.rBlocksCount
    freeBlocksCount := freeBlocks
    freeInodesCount := freeInodes
    firstDataBlock := g.firstDataBlock
    logBlockSize := g.logBlockSize
    logClusterSize := g.logBlockSize
    blocksPerGroup := g.blocksPerGroup
    clustersPerGroup := g.blocksPerGroup
    inodesPerGroup := g.inodesPerGroup
    mtime := 0
    wtime := plan.mkfsTime
    mntCount := 0
    maxMntCount := -1
    state := State.validFs
    errors := 1
    minorRevLevel := 0
    lastcheck := plan.mkfsTime
    checkinterval := 0
    creatorOs := 0
    revLevel := 1
    defResuid := plan.resuid
    defResgid := plan.resgid
    firstIno := goodOldFirstIno
    inodeSize := g.inodeSize
    blockGroupNr := 0
    featureCompat := g.features.compat
    featureIncompat := g.features.incompat
    featureRoCompat := g.features.roCompat
    uuid := plan.uuid
    volumeName := plan.label.take 16 ++ List.replicate (16 - plan.label.length) 0
    lastMounted := List.replicate 64 0
    algorithmUsageBitmap := 0
    preallocBlocks := 0
    preallocDirBlocks := 0
    reservedGdtBlocks := g.reservedGdtBlocks
    journalUuid := List.replicate 16 0
    journalInum := if journal then Ino.journal else 0
    journalDev := 0
    lastOrphan := 0
    hashSeed := plan.hashSeed
    defHashVersion := 1
    jnlBackupType := if journal then 1 else 0
    sDescSize := if g.features.incompat.contains IncompatFeatures.sixtyFourBit then g.descSize else 0
    defaultMountOpts := defaultMntopts
    firstMetaBg := g.firstMetaBg
    mkfsTime := plan.mkfsTime
    jnlBlocks := plan.jnlBlocksBackup
    minExtraIsize := extraIsize
    wantExtraIsize := extraIsize
    flags := 1
    raidStride := 0
    mmpUpdateInterval := plan.mmpUpdateInterval
    mmpBlock := plan.mmpBlock.getD 0
    raidStripeWidth := 0
    logGroupsPerFlex := g.logGroupsPerFlex
    checksumType := if plan.csumScheme = .crc32c then 1 else 0
    encryptionLevel := 0
    kbytesWritten := 0
    snapshotInum := 0
    snapshotId := 0
    snapshotRBlocksCount := 0
    snapshotList := 0
    errorCount := 0
    firstErrorTime := 0
    firstErrorIno := 0
    firstErrorBlock := 0
    firstErrorFunc := List.replicate 32 0
    firstErrorLine := 0
    lastErrorTime := 0
    lastErrorIno := 0
    lastErrorLine := 0
    lastErrorBlock := 0
    lastErrorFunc := List.replicate 32 0
    firstErrorErrcode := 0
    lastErrorErrcode := 0
    mountOpts := List.replicate 64 0
    usrQuotaInum := 0
    grpQuotaInum := 0
    overheadClusters := 0
    backupBgs := [0, 0]
    encryptAlgos := List.replicate 4 0
    encryptPwSalt := List.replicate 16 0
    lpfIno := 0
    prjQuotaInum := 0
    checksumSeed :=
      if g.features.incompat.contains IncompatFeatures.csumSeed then plan.csumSeed.toNat else 0
    encoding := 0
    encodingFlags := 0
    orphanFileInum := plan.orphanInode.getD 0
    checksum := 0 }

/-- The whole block the primary superblock lives in, and its number. -/
def primarySuperblockBlock (sb : List UInt8) (blockSize : Nat) : Nat × List UInt8 :=
  if blockSize = superblockOffset then (1, sb)
  else (0, splice (List.replicate blockSize 0) superblockOffset sb)

/-- A backup superblock as the whole block it occupies. -/
def superblockAtBlockStart (sb : List UInt8) (blockSize : Nat) : List UInt8 :=
  splice (List.replicate blockSize 0) 0 sb

/-! ## Directories -/

def withTail : Bool := plan.csumScheme = .crc32c

/-- A file type, or none at all without the `filetype` feature. -/
def fileTypeOf (t : Nat) : Nat :=
  if plan.geom.features.incompat.contains IncompatFeatures.filetype then t else FileType.unknown

/-- Stamp a directory block's checksum, when it has a tail. -/
def stampDir (inum : Nat) (block : List UInt8) : List UInt8 :=
  if withTail plan then
    Dirent.setBlockCsum block
      (Csum.direntCsum plan.csumSeed inum 0 (block.take (plan.geom.blockSize - Dirent.tailLen)))
  else block

/-- A directory block with the given inodes and names. -/
def dirBlock (inum : Nat) (names : List (Nat × String)) : Except Error (List UInt8) := do
  let entries ← names.mapM fun (inode, name) =>
    DirEntry.new inode name.toUTF8.toList (fileTypeOf plan FileType.dir)
  let block ← Dirent.buildBlock entries plan.geom.blockSize (withTail plan)
  return stampDir plan inum block

/-- Root: ".", "..", "lost+found". -/
def rootDirBlock : Except Error (List UInt8) :=
  dirBlock plan Ino.root [(Ino.root, "."), (Ino.root, ".."), (goodOldFirstIno, "lost+found")]

/-- `lost+found`'s first block: "." and "..". -/
def lostFoundBlock : Except Error (List UInt8) :=
  dirBlock plan goodOldFirstIno [(goodOldFirstIno, "."), (Ino.root, "..")]

/-- Every further block of `lost+found`: one empty entry that spans it. -/
def emptyDirBlock : List UInt8 :=
  let blockSize := plan.geom.blockSize
  let limit := blockSize - if withTail plan then Dirent.tailLen else 0
  let block := putU16 (List.replicate blockSize 0) 4 limit
  let block := if withTail plan then Dirent.writeTailHeader block limit else block
  stampDir plan goodOldFirstIno block

/-! ## Journal, orphan file and resize map -/

/-- The superblock of a freshly made, empty journal. -/
def journalSuperblock : List UInt8 :=
  let buf := List.replicate plan.geom.blockSize 0
  let buf := putU32Be buf 0x00 0xc03b3998
  let buf := putU32Be buf 0x04 4
  let buf := putU32Be buf 0x08 0
  let buf := putU32Be buf 0x0c plan.geom.blockSize
  let buf := putU32Be buf 0x10 plan.journalBlocks
  let buf := putU32Be buf 0x14 1
  let buf := putU32Be buf 0x18 1
  let buf := putU32Be buf 0x1c 0
  let buf := putU32Be buf 0x20 0
  let buf := putU32Be buf 0x24 0
  let buf := putU32Be buf 0x28 0
  let buf := putU32Be buf 0x2c 0
  let buf := putBytes buf 0x30 16 plan.uuid
  let buf := putU32Be buf 0x40 1
  let buf := putU32Be buf 0x44 0
  let buf := putU32Be buf 0x48 0
  let buf := putU32Be buf 0x4c 0
  let buf := putU8 buf 0x50 0
  let buf := putU32Be buf 0x54 0
  putU32Be buf 0x58 0

/-- An extent leaf block; writing an entry past the block panics. -/
def extentLeafBlock (extents : List Extent) (blockSize : Nat) (tail : Bool) :
    Except Failure (List UInt8) := do
  panicIf (blockSize < Extent.headerLen + extents.length * Extent.entryLen)
  return Extent.buildNode blockSize {
    entries := extents.length
    max := ExtentHeader.maxEntries blockSize tail
    depth := 0
    generation := 0 } extents

/-- The journal's extent leaf, with its checksum tail. -/
def journalLeafBlock : Except Failure (List UInt8) := do
  let tail := plan.csumScheme ≠ .none
  let buf ← extentLeafBlock plan.journalExtents plan.geom.blockSize tail
  if tail then
    let off := Extent.tailOffset (ExtentHeader.maxEntries plan.geom.blockSize true)
    return putU32 buf off (Csum.extentBlockCsum plan.csumSeed Ino.journal 0 (buf.take off))
  return buf

/-- A block of pointers. -/
def pointerBlock (blockSize : Nat) (entries : List Nat) : List UInt8 :=
  putU32s (List.replicate blockSize 0) 0 entries

/-- One orphan file block: empty slots, then the magic and the checksum. -/
def orphanBlock (inum physical : Nat) : List UInt8 :=
  let blockSize := plan.geom.blockSize
  let tail := blockSize - 8
  let buf := putU32 (List.replicate blockSize 0) tail 0x0b10ca04
  if plan.csumScheme = .crc32c then
    let crc := Csum.crc32c plan.csumSeed (toLe 4 inum)
    let crc := Csum.crc32c crc (toLe 4 0)
    let crc := Csum.crc32c crc (toLe 8 physical)
    let crc := Csum.crc32c crc (buf.take ((blockSize - 8) / 4 * 4))
    putU32 buf (tail + 4) crc.toNat
  else buf

/-- Groups that carry a superblock backup, group 0 apart. -/
def backupGroups (geom : Geometry) : List Nat :=
  (List.range geom.groupCount).filter fun g => g ≠ 0 && geom.hasSuper g

/-- Blocks the resize inode owns. -/
def resizeInodeBlocks (geom : Geometry) : Nat :=
  1 + geom.reservedGdtBlocks * (1 + (backupGroups geom).length)

/-- The reserved descriptor block `off` of group 0. -/
def reservedGdtBlock (geom : Geometry) (off : Nat) : Nat :=
  (if geom.blockSize = 1024 then 1 else geom.firstDataBlock) + 1 + geom.descBlocks + off

/-- The contents of a reserved descriptor block: where its copies are in the backup groups. -/
def reservedGdtContents (geom : Geometry) (off : Nat) : List UInt8 :=
  pointerBlock geom.blockSize (((backupGroups geom).take (geom.blockSize / 4)).map fun g =>
    reservedGdtBlock geom off + g * geom.blocksPerGroup)

/-- The resize inode's double indirect block. -/
def resizeDindContents (geom : Geometry) : List UInt8 :=
  (List.range geom.reservedGdtBlocks).foldl (fun buf off =>
    putU32 buf ((geom.descBlocks + off) % (geom.blockSize / 4) * 4) (reservedGdtBlock geom off))
    (List.replicate geom.blockSize 0)

/-! ## Reserved inodes -/

/-- Point an inode at a contiguous run of blocks. -/
def setRun (inode : Inode) (start len : Nat) (extents : Bool) : Except Error Inode := do
  if extents then
    let block ← Extent.buildInline (runExtents len 0 start len)
    return { inode with flags := inode.flags ||| IFlags.extents, block }
  else if ndirBlocks < len then
    throw (.invalidParams
      s!"a {len}-block run needs indirect blocks, which this path does not build")
  else
    return inode.setBlockPointers (List.range' start len ++ List.replicate (nBlocks - len) 0)

/-- Point an inode at a single block: a run of one, which always fits inline. -/
def setSingleBlock (inode : Inode) (block : Nat) (extents : Bool) : Inode :=
  match setRun inode block 1 extents with
  | .ok inode => inode
  | .error _ => inode

/-- A new inode: what is past the original 128 bytes declares its extra fields. -/
def newInode : Inode :=
  { extraIsize := if goodOldInodeSize < plan.geom.inodeSize then 32 else 0 }

/-- All four times of an inode the formatter makes. -/
def stampTimes (inode : Inode) : Inode :=
  let now := plan.mkfsTime % 2 ^ 32
  { inode with atime := now, ctime := now, mtime := now, crtime := now }

def extentsOn : Bool := plan.geom.features.incompat.contains IncompatFeatures.extents

def sectorsPerBlock : Nat := plan.geom.blockSize / 512

/-- Inode 2: ".", "..", and `lost+found`'s "..". -/
def rootInode : Inode :=
  setSingleBlock (stampTimes plan { newInode plan with
    mode := Mode.ifdir ||| 0o755
    linksCount := 3
    size := plan.geom.blockSize
    blocks := sectorsPerBlock plan }) plan.rootBlock (extentsOn plan)

/-- Inode 7: its double indirect block reaches the reserved descriptor blocks. The size is
what a file reaching through one double indirect block could address. -/
def resizeInode : Inode :=
  let inode := { newInode plan with mode := Mode.ifreg ||| 0o600, linksCount := 1 }
  match plan.resizeDind with
  | none => inode
  | some dind =>
    let apb := plan.geom.blockSize / 4
    let inode := { inode with
      blocks := resizeInodeBlocks plan.geom * sectorsPerBlock plan
      size := (apb * apb + apb + ndirBlocks) * plan.geom.blockSize
      ctime := plan.mkfsTime % 2 ^ 32 }
    inode.setBlockPointers (List.replicate (ndirBlocks + 1) 0 ++ [dind % 2 ^ 32, 0])

/-- Inode 8, the journal: extent leaf and indirect blocks count against its blocks. -/
def journalInode : Inode :=
  let inode := newInode plan
  match plan.journalStart with
  | none => inode
  | some _ =>
    let overhead := if extentsOn plan then plan.journalExtentLeaf.isSome.toNat
      else plan.journalIndirect.overhead
    let now := plan.mkfsTime % 2 ^ 32
    { inode with
      mode := Mode.ifreg ||| 0o600
      linksCount := 1
      size := plan.journalBlocks * plan.geom.blockSize
      blocks := (plan.journalBlocks + overhead) * sectorsPerBlock plan
      atime := now
      ctime := now
      mtime := now
      flags := if extentsOn plan then inode.flags ||| IFlags.extents else inode.flags
      block := plan.journalIBlock }

/-- Inode 11: "." and the root's entry. -/
def lostFoundInode : Except Error Inode :=
  setRun (stampTimes plan { newInode plan with
    mode := Mode.ifdir ||| 0o700
    linksCount := 2
    size := plan.lostFoundBlocks * plan.geom.blockSize
    blocks := plan.lostFoundBlocks * sectorsPerBlock plan })
    plan.lostFoundStart plan.lostFoundBlocks (extentsOn plan)

/-- Inode 12, the orphan file: referenced by no directory. -/
def orphanInode : Inode :=
  let blocks := total plan.orphanRuns
  let overhead := if extentsOn plan then plan.orphanExtentLeaf.isSome.toNat
    else plan.orphanIndirect.overhead
  let inode := stampTimes plan { newInode plan with
    mode := Mode.ifreg ||| 0o600
    linksCount := 1
    size := blocks * plan.geom.blockSize
    blocks := (blocks + overhead) * sectorsPerBlock plan
    block := plan.orphanIBlock }
  if extentsOn plan then { inode with flags := inode.flags ||| IFlags.extents } else inode

/-- The inodes group 0's table starts with, in the order they are gathered. -/
def reservedInodes : Except Error (List (Nat × Inode)) := do
  let empty := [Ino.usrQuota, Ino.grpQuota, Ino.bootLoader, Ino.undelDir, Ino.exclude, Ino.replica]
  let lostFound ← lostFoundInode plan
  return [(Ino.bad, newInode plan), (Ino.root, rootInode plan)] ++
    empty.map (·, newInode plan) ++
    [(Ino.resize, resizeInode plan), (Ino.journal, journalInode plan),
      (goodOldFirstIno, lostFound)] ++
    plan.orphanInode.toList.map (·, orphanInode plan)

/-- Put an inode in the table block it belongs to, over zeroes. -/
def gatherInode (table : Nat) (blocks : List (Nat × List UInt8)) (entry : Nat × Inode) :
    List (Nat × List UInt8) :=
  let (inum, inode) := entry
  let g := plan.geom
  let encoded := inode.encodeWithCsum g.inodeSize (plan.csumScheme = .crc32c) plan.csumSeed inum
  let byte := (inum - 1) * g.inodeSize
  let block := table + byte / g.blockSize
  let buf := (blocks.lookup block).getD (List.replicate g.blockSize 0)
  Lib.SortedMap.insert block (splice buf (byte % g.blockSize) encoded) blocks

/-! ## Every block is whole -/

@[simp] theorem length_stampDir (inum : Nat) (block : List UInt8) :
    (stampDir plan inum block).length = block.length := by
  unfold stampDir
  split
  · exact Dirent.length_setBlockCsum _ _
  · rfl

theorem length_dirBlock {inum : Nat} {names : List (Nat × String)} {block : List UInt8}
    (h : dirBlock plan inum names = .ok block) : block.length = plan.geom.blockSize := by
  obtain ⟨entries, -, h⟩ := bind_ok h
  obtain ⟨built, hbuilt, h⟩ := bind_ok h
  cases h
  rw [length_stampDir, Dirent.length_buildBlock hbuilt]

@[simp] theorem length_emptyDirBlock : (emptyDirBlock plan).length = plan.geom.blockSize := by
  unfold emptyDirBlock
  rw [length_stampDir]
  split <;> simp

@[simp] theorem length_journalSuperblock :
    (journalSuperblock plan).length = plan.geom.blockSize := by
  simp [journalSuperblock, putU32Be]

theorem length_extentLeafBlock {extents : List Extent} {blockSize : Nat} {tail : Bool}
    {block : List UInt8} (h : extentLeafBlock extents blockSize tail = .ok block) :
    block.length = blockSize := by
  obtain ⟨_, -, h⟩ := bind_ok h
  cases h
  exact Extent.length_buildNode _ _ _

theorem length_journalLeafBlock {block : List UInt8} (h : journalLeafBlock plan = .ok block) :
    block.length = plan.geom.blockSize := by
  obtain ⟨built, hbuilt, h⟩ := bind_ok h
  have hlen := length_extentLeafBlock hbuilt
  split at h
  · cases h
    rw [length_putU32, hlen]
  · cases h
    exact hlen

@[simp] theorem length_pointerBlock (blockSize : Nat) (entries : List Nat) :
    (pointerBlock blockSize entries).length = blockSize := by
  rw [pointerBlock, Superblock.length_putU32s, List.length_replicate]

@[simp] theorem length_orphanBlock (inum physical : Nat) :
    (orphanBlock plan inum physical).length = plan.geom.blockSize := by
  unfold orphanBlock
  dsimp only
  split <;> simp

@[simp] theorem length_resizeDindContents (geom : Geometry) :
    (resizeDindContents geom).length = geom.blockSize := by
  rw [resizeDindContents]
  generalize List.range geom.reservedGdtBlocks = offs
  suffices hfold : ∀ buf : List UInt8, (offs.foldl (fun buf off =>
      putU32 buf ((geom.descBlocks + off) % (geom.blockSize / 4) * 4)
        (reservedGdtBlock geom off)) buf).length = buf.length by
    rw [hfold, List.length_replicate]
  induction offs with
  | nil => exact fun _ => rfl
  | cons off offs ih =>
    intro buf
    rw [List.foldl_cons, ih, length_putU32]

/-- The reserved inodes go to the first blocks of the table, each block whole. -/
theorem gatherInode_inv {table len : Nat} (hb : 0 < plan.geom.blockSize)
    (inodes : List (Nat × Inode)) (blocks : List (Nat × List UInt8))
    (hin : ∀ e ∈ inodes, (e.1 - 1) * plan.geom.inodeSize < len * plan.geom.blockSize)
    (h : ∀ b ∈ blocks, (table ≤ b.1 ∧ b.1 < table + len) ∧ b.2.length = plan.geom.blockSize) :
    ∀ b ∈ inodes.foldl (gatherInode plan table) blocks,
      (table ≤ b.1 ∧ b.1 < table + len) ∧ b.2.length = plan.geom.blockSize := by
  induction inodes generalizing blocks with
  | nil => exact h
  | cons e inodes ih =>
    rw [List.foldl_cons]
    refine ih _ (fun e' he' => hin e' (List.mem_cons_of_mem e he')) fun b hb' => ?_
    have hplace : (e.1 - 1) * plan.geom.inodeSize / plan.geom.blockSize < len :=
      (Nat.div_lt_iff_lt_mul hb).mpr (hin e List.mem_cons_self)
    rcases Lib.SortedMap.mem_of_mem_insert hb' with rfl | hb'
    · refine ⟨⟨Nat.le_add_right _ _, Nat.add_lt_add_left hplace _⟩, ?_⟩
      rw [length_splice]
      cases hfound : blocks.lookup (table + (e.1 - 1) * plan.geom.inodeSize / plan.geom.blockSize)
        with
      | none => rw [Option.getD_none, List.length_replicate]
      | some buf => exact (h _ (Lib.SortedMap.mem_of_lookup hfound)).2
    · exact h b hb'

end MkfsExt4.Format
