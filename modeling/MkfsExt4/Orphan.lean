/-
  Releasing orphan inodes (`src/orphan.rs`): the inodes the kernel was part way through
  freeing or truncating are freed or truncated, and the bitmaps, descriptors and counts
  brought into line.
-/
import MkfsExt4.Fs.BlockMap
import MkfsExt4.Lib.SortedMap

namespace MkfsExt4

open Lib.Store Lib.Endian

/-- Catch the errors of a command. What it wrote stays; a panic is not caught. -/
def attempt {α : Type} (m : FsM α) : FsM (Except Error α) :=
  tryCatch (do return .ok (← m)) fun
    | .error e => return .error e
    | other => throw other

namespace Orphan

open Filesystem

def orphanBlockMagic : Nat := 0x0b10ca04

def orphanTailLen : Nat := 8

/-- One orphan released. -/
structure Released where
  inum : Nat
  /-- Truncated to its size rather than cleared. -/
  truncated : Bool
  uid : Nat
  gid : Nat
  mode : Nat
  size : Nat
  blocksFreed : Nat
deriving DecidableEq, Repr

namespace Released

def octal (n : Nat) : String := String.ofList (Nat.toDigits 8 n)

/-- `e2fsck`'s `PR_0_ORPHAN_CLEAR_INODE` line. -/
def message (r : Released) : String :=
  (if r.truncated then "Truncating" else "Clearing") ++ " orphaned inode " ++ toString r.inum ++
    " (uid=" ++ toString r.uid ++ ", gid=" ++ toString r.gid ++ ", mode=0" ++ octal r.mode ++
    ", size=" ++ toString r.size ++ ")"

end Released

/-- What orphan release did. -/
structure OrphanRelease where
  released : List Released := []
  errors : List String := []
  skippedForErrors : Bool := false

namespace OrphanRelease

def error (out : OrphanRelease) (msg : String) : OrphanRelease :=
  { out with errors := out.errors ++ [msg] }

end OrphanRelease

/-- Whether the superblock says there are orphans to release. -/
def hasOrphans (sb : Superblock) : Bool :=
  sb.lastOrphan ≠ 0 || sb.featureRoCompat.contains RoCompatFeatures.orphanPresent

def modifySuperblock (f : Superblock → Superblock) : FsM Unit :=
  modify fun fs => { fs with superblock := f fs.superblock }

def modifyDesc (group : Nat) (f : GroupDesc → GroupDesc) : FsM Unit :=
  modify fun fs => { fs with groupDescs := fs.groupDescs.modify group f }

def removeOrphanPresent : FsM Unit :=
  modifySuperblock fun sb =>
    { sb with featureRoCompat := sb.featureRoCompat.remove RoCompatFeatures.orphanPresent }

/-! ## Bitmap and counter updates -/

/-- Bitmaps changed, by group, to be written once. -/
structure AllocStats where
  blockBitmaps : List (Nat × List UInt8) := []
  inodeBitmaps : List (Nat × List UInt8) := []

namespace AllocStats

/-- The bitmap gathered for a group, or the one `read` reads. -/
def bitmap (bitmaps : List (Nat × List UInt8)) (group : Nat)
    (read : Filesystem → Except Failure (List UInt8)) : FsM (List UInt8) :=
  match bitmaps.lookup group with
  | some bm => return bm
  | none => reading read

/-- `ext2fs_block_alloc_stats2(fs, block, -1)`. A block already free is left alone. -/
def freeBlock (stats : AllocStats) (block : Nat) : FsM AllocStats := do
  let fs ← get
  let sb := fs.superblock
  if block < sb.firstDataBlock ∨ sb.blocksCount ≤ block then return stats
  reading fun _ => panicIf (sb.blocksPerGroup = 0)
  let group := fs.groupOfBlock block
  let bit := block - fs.groupFirstBlock group
  let bm ← bitmap stats.blockBitmaps group fun fs => fs.readBlockBitmap group
  reading fun _ => panicIf (8 * bm.length ≤ bit)
  if !Lib.Bitmap.testBit bm bit then
    return { stats with blockBitmaps := Lib.SortedMap.insert group bm stats.blockBitmaps }
  modifyDesc group fun desc => { desc with freeBlocksCount := desc.freeBlocksCount + 1 }
  modifySuperblock fun sb => { sb with freeBlocksCount := sb.freeBlocksCount + 1 }
  return { stats with
    blockBitmaps := Lib.SortedMap.insert group (Lib.Bitmap.clearBit bm bit) stats.blockBitmaps }

/-- `ext2fs_inode_alloc_stats2(fs, inum, -1, is_dir)`. -/
def freeInode (stats : AllocStats) (inum : Nat) (isDir : Bool) : FsM AllocStats := do
  let fs ← get
  let ipg := fs.superblock.inodesPerGroup
  let group := (inum - 1) / ipg
  let bit := (inum - 1) % ipg
  let bm ← bitmap stats.inodeBitmaps group fun fs => fs.readInodeBitmap group
  reading fun _ => panicIf (8 * bm.length ≤ bit)
  if !Lib.Bitmap.testBit bm bit then
    return { stats with inodeBitmaps := Lib.SortedMap.insert group bm stats.inodeBitmaps }
  modifyDesc group fun desc =>
    { desc with
      freeInodesCount := desc.freeInodesCount + 1
      usedDirsCount := if isDir then desc.usedDirsCount - 1 else desc.usedDirsCount }
  modifySuperblock fun sb => { sb with freeInodesCount := sb.freeInodesCount + 1 }
  return { stats with
    inodeBitmaps := Lib.SortedMap.insert group (Lib.Bitmap.clearBit bm bit) stats.inodeBitmaps }

/-- The checksum of the first `bits` bits of a bitmap, taken as whole bytes, on a filesystem
    that carries one. -/
def stampedCsum (fs : Filesystem) (bm : List UInt8) (bits old : Nat) : Except Failure Nat := do
  if !fs.hasMetadataCsum then return old
  let len := (bits + 7) / 8
  panicIf (bm.length < len)
  return Csum.bitmapCsum fs.csumSeed (bm.take len)

def flushBlockBitmap (group : Nat) (bm : List UInt8) : FsM Unit := do
  let old ← reading fun fs => fs.groupDesc group
  let csum ← reading fun fs => stampedCsum fs bm fs.superblock.blocksPerGroup old.blockBitmapCsum
  modifyDesc group fun desc =>
    { desc with
      flags := desc.flags - (desc.flags &&& BgFlags.blockUninit)
      blockBitmapCsum := csum }
  writeBlock old.blockBitmap bm

def flushInodeBitmap (group : Nat) (bm : List UInt8) : FsM Unit := do
  let old ← reading fun fs => fs.groupDesc group
  let csum ← reading fun fs => stampedCsum fs bm fs.superblock.inodesPerGroup old.inodeBitmapCsum
  modifyDesc group fun desc =>
    { desc with
      flags := desc.flags - (desc.flags &&& BgFlags.inodeUninit)
      inodeBitmapCsum := csum }
  writeBlock old.inodeBitmap bm

/-- Write the bitmaps changed, with their checksums, and the primary descriptors. -/
def flush (stats : AllocStats) : FsM Unit := do
  if stats.blockBitmaps.isEmpty ∧ stats.inodeBitmaps.isEmpty then return ()
  forM stats.blockBitmaps fun p => flushBlockBitmap p.1 p.2
  forM stats.inodeBitmaps fun p => flushInodeBitmap p.1 p.2
  flushPrimaryGroupDescs

end AllocStats

/-! ## Truncating an extent tree -/

/-- The loop of `collect_extent_subtree`: every block under the nodes of the stack. -/
def collectNodes (fs : Filesystem) : (guard : Nat) → (stack freed : List Nat) →
    Except Failure (List Nat)
  | _, [], freed => .ok freed
  | 0, _ :: _, _ => corruptExtent "extent tree" "the tree is probably cyclic"
  | guard + 1, b :: stack, freed => do
    let node ← fs.readBlock b
    let header ← returned (ExtentHeader.decode node)
    let count := min header.entries (ExtentHeader.maxEntries node.length false)
    let freed := freed ++ [b]
    if header.depth = 0 then
      let data := (List.range count).flatMap fun i =>
        let ext := Extent.decode (Extent.entry node i)
        List.range' ext.start ext.effectiveLen
      collectNodes fs guard stack (freed ++ data)
    else
      let leaves := (List.range count).map fun i =>
        (ExtentIdx.decode (Extent.entry node i)).leaf
      collectNodes fs guard (leaves.reverse ++ stack) freed

/-- Every block under an extent index, nodes and data, and the node itself. -/
def collectExtentSubtree (fs : Filesystem) (block : Nat) : Except Failure (List Nat) :=
  collectNodes fs walkGuard [block] []

/-- The extents of a leaf that reach below `cut`, and the blocks freed. -/
def cutLeaf (cut : Nat) (node : List UInt8) : List Nat → List (List UInt8) × List Nat
  | [] => ([], [])
  | i :: is =>
    let ext := Extent.decode (Extent.entry node i)
    let len := ext.effectiveLen
    let (kept, freed) := cutLeaf cut node is
    if cut ≤ ext.block then (kept, List.range' ext.start len ++ freed)
    else if cut < ext.block + len then
      let keep := cut - ext.block
      let uninit := if ext.isUninit then Extent.initMaxLen else 0
      ({ ext with len := (keep + uninit) % 2 ^ 16 }.encode :: kept,
        List.range' (ext.start + keep) (len - keep) ++ freed)
    else (ext.encode :: kept, freed)

/-- A node with the entries `kept` in place of its own. -/
def rewriteNode (header : ExtentHeader) (node : List UInt8) (kept : List (List UInt8)) :
    List UInt8 :=
  let cleared := splice node Extent.headerLen
    (List.replicate (header.entries * Extent.entryLen) 0)
  { header with entries := kept.length }.encodeInto (splice cleared Extent.headerLen kept.flatten)

/-- Stamp the tail of a node in a block of its own, where it has room for one. -/
def stampNode (fs : Filesystem) (inum generation : Nat) (node : List UInt8) :
    Except Failure (List UInt8) := do
  if !fs.hasMetadataCsum then return node
  let header ← returned (ExtentHeader.decode node)
  let tail := Extent.tailOffset header.max
  if node.length < tail + Extent.tailLen then return node
  return putU32 node tail
    (Csum.extentBlockCsum fs.csumSeed inum generation (node.take tail))

/-- One index entry, `next` being the key of the one after it: past the cut it loses its subtree,
    under the cut its child is truncated by `descend`. The answer is whether it is kept. -/
def truncateEntry (inum generation cut : Nat) (descend : List UInt8 → FsM (List UInt8 × Nat × List Nat))
    (idx : ExtentIdx) (next : Nat) : FsM (Bool × List Nat) := do
  if cut ≤ idx.block then
    let freed ← reading fun fs => collectExtentSubtree fs idx.leaf
    return (false, freed)
  else if next ≤ cut then return (true, [])
  else
    let child ← reading fun fs => fs.readBlock idx.leaf
    let (child, left, freed) ← descend child
    if left = 0 then return (false, freed ++ [idx.leaf])
    else
      let child ← reading fun fs => stampNode fs inum generation child
      writeBlock idx.leaf child
      return (true, freed)

/-- The index entries `is` of an interior node: those kept, and the blocks freed. -/
def truncateEntries (inum generation cut : Nat)
    (descend : List UInt8 → FsM (List UInt8 × Nat × List Nat)) (node : List UInt8)
    (entries : Nat) : List Nat → FsM (List (List UInt8) × List Nat)
  | [] => return ([], [])
  | i :: is => do
    let next := if i + 1 < entries then (ExtentIdx.decode (Extent.entry node (i + 1))).block
      else 2 ^ 64 - 1
    let (keep, freed) ← truncateEntry inum generation cut descend
      (ExtentIdx.decode (Extent.entry node i)) next
    let (kept, more) ← truncateEntries inum generation cut descend node entries is
    return (if keep then Extent.entry node i :: kept else kept, freed ++ more)

/-- Truncate one extent node, returning it, the entries it keeps and the blocks freed. Nothing
    is written on the way down, so a descent past as many blocks as the filesystem has comes
    to one of them twice and never ends. -/
def truncateNode (inum generation cut : Nat) : (fuel : Nat) → (isRoot : Bool) → List UInt8 →
    FsM (List UInt8 × Nat × List Nat)
  | 0, _, _ => throw .looping
  | fuel + 1, isRoot, node => do
    let header ← reading fun _ => returned (ExtentHeader.decode node)
    let entries := header.entries
    let space := if isRoot then Extent.inlineLen else node.length
    if ExtentHeader.maxEntries space false < entries then
      throw (.error (.corrupt "extent header"
        s!"{entries} entries claimed in a node of {space} bytes"))
    let (kept, freed) ←
      if header.depth = 0 then pure (cutLeaf cut node (List.range entries))
      else
        truncateEntries inum generation cut (truncateNode inum generation cut fuel false) node
          entries (List.range entries)
    return (rewriteNode header node kept, kept.length, freed)

/-- A tree truncated to nothing is an empty leaf again. -/
def emptyRoot (root : List UInt8) : Except Failure (List UInt8) := do
  let header ← returned (ExtentHeader.decode root)
  if header.depth = 0 then return root
  let max := ExtentHeader.maxEntries Extent.inlineLen false
  return { header with depth := 0, max }.encodeInto root

/-! ## Truncating an indirect map -/

/-- An indirect block and everything below it, in the order of the source's stack. -/
def collectIndirectSubtree (fs : Filesystem) : (depth block : Nat) → Except Failure (List Nat)
  | 0, block => .ok [block]
  | depth + 1, block => do
    let buf ← fs.readBlock block
    let entries := (pointersOf (buf.length / 4) buf).map (·.2)
    if depth = 0 then return block :: entries
    let below ← entries.reverse.mapM fun entry => collectIndirectSubtree fs depth entry
    return block :: below.flatten

/-- What truncating an indirect block left: the block's bytes, whether an entry was dropped,
    and the blocks freed. -/
structure Truncated where
  buf : List UInt8
  changed : Bool := false
  freed : List Nat := []

/-- The block under an entry, `depth` levels above the data, that does not end before the cut.
    The answer is whether the entry is dropped, and the blocks freed. -/
def truncateChild (cut depth : Nat) (descend : (block base : Nat) → FsM (Bool × List Nat))
    (entry childBase : Nat) : FsM (Bool × List Nat) := do
  if depth = 0 then return (true, [entry])
  else if cut ≤ childBase then
    let freed ← reading fun fs => collectIndirectSubtree fs depth entry
    return (true, freed)
  else
    let (empty, freed) ← descend entry childBase
    return (empty, if empty then freed ++ [entry] else freed)

/-- The `i`-th entry of an indirect block that covers the logical blocks from `base`. -/
def truncateSlot (cut perBlock depth base : Nat)
    (descend : (block base : Nat) → FsM (Bool × List Nat)) (t : Truncated) (i : Nat) :
    FsM Truncated := do
  let entry := getU32 t.buf (i * 4)
  let childBase := base + i * perBlock ^ depth
  if entry = 0 ∨ childBase + perBlock ^ depth ≤ cut then return t
  else
    let (drop, freed) ← truncateChild cut depth descend entry childBase
    if drop then
      return { buf := putU32 t.buf (i * 4) 0, changed := true, freed := t.freed ++ freed }
    else return { t with freed := t.freed ++ freed }

/-- Truncate one indirect block, `depth` levels above the data, that covers the logical
    blocks from `base`. The answer is whether it is now empty, and the blocks freed; a block
    that is not empty has been written back. -/
def truncateIndirectBlock (cut perBlock : Nat) : (depth block base : Nat) →
    FsM (Bool × List Nat)
  | 0, _, _ => return (true, [])
  | depth + 1, block, base => do
    let buf ← reading fun fs => fs.readBlock block
    let done ← (List.range perBlock).foldlM
      (truncateSlot cut perBlock depth base (truncateIndirectBlock cut perBlock depth))
      { buf : Truncated }
    if done.buf.all (· == 0) then return (true, done.freed)
    else if done.changed then
      writeBlock block done.buf
      return (false, done.freed)
    else return (false, done.freed)

/-- The tree under a pointer of `i_block`: its slot, its depth and the logical block it starts
    with. Where the next one starts is taken in 64 bits, also past a pointer that is zero. -/
def truncateRoot (cut perBlock : Nat) (acc : List Nat × List Nat) (slot : Nat × Nat × Nat) :
    FsM (List Nat × List Nat) := do
  reading fun _ => panicIf (2 ^ 64 ≤ slot.2.2 + perBlock ^ slot.2.1)
  let root := acc.1.getD slot.1 0
  if root = 0 ∨ slot.2.2 + perBlock ^ slot.2.1 ≤ cut then return acc
  else
    let (empty, freed) ← truncateIndirectBlock cut perBlock slot.2.1 root slot.2.2
    if empty then return (acc.1.set slot.1 0, acc.2 ++ (freed ++ [root]))
    else return (acc.1, acc.2 ++ freed)

/-- The slots of `i_block` that hold indirect blocks, with their depths and first blocks. -/
def indirectSlots (perBlock : Nat) : List (Nat × Nat × Nat) :=
  [(ndirBlocks, 1, ndirBlocks), (ndirBlocks + 1, 2, ndirBlocks + perBlock),
    (ndirBlocks + 2, 3, ndirBlocks + perBlock + perBlock ^ 2)]

/-- Truncate an indirect block map. -/
def truncateIndirect (inode : Inode) (cut : Nat) : FsM (Inode × List Nat) := do
  let perBlock ← reading fun fs => .ok fs.perBlock
  let pointers := inode.blockPointers
  let direct := (List.range ndirBlocks).filter fun i => cut ≤ i ∧ pointers.getD i 0 ≠ 0
  let freed := direct.map fun i => pointers.getD i 0
  let pointers := direct.foldl (fun ps i => ps.set i 0) pointers
  let (pointers, freed) ←
    (indirectSlots perBlock).foldlM (truncateRoot cut perBlock) (pointers, freed)
  return (inode.setBlockPointers pointers, freed)

/-- Free every block past logical block `cut`, returning the inode and the blocks freed. -/
def truncate (inode : Inode) (inum cut : Nat) : FsM (Inode × List Nat) := do
  if inode.usesExtents then
    let fuel ← reading fun fs => .ok (fs.superblock.blocksCount + 2)
    let (root, entries, freed) ← truncateNode inum inode.generation cut fuel true inode.block
    let root ← if entries = 0 then reading fun _ => emptyRoot root else pure root
    return ({ inode with block := root }, freed)
  else truncateIndirect inode cut

/-! ## Releasing -/

/-- `ext2fs_inode_has_valid_blocks2`: whether `i_block` is a block map. -/
def hasValidBlocks (inode : Inode) : Bool := !inode.inlineData && inode.hasBlockMap

/-- Stamp an attribute block's checksum, over the block with the field zero. -/
def stampXattrCsum (block : List UInt8) (seed : UInt32) (number : Nat) : List UInt8 :=
  let zeroed := putU32 block 0x10 0
  putU32 zeroed 0x10 (Csum.crc32c (Csum.crc32c seed (toLe 8 number)) zeroed).toNat

/-- Drop one reference to an extended-attribute block, freeing it with the last. -/
def releaseXattrBlock (stats : AllocStats) (block : Nat) : FsM AllocStats := do
  let fs ← get
  if fs.superblock.blocksCount ≤ block then return stats
  let buf ← reading fun fs => fs.readBlock block
  let refs := getU32 buf 0x04 - 1
  let buf := putU32 buf 0x04 refs
  writeBlock block (if fs.hasMetadataCsum then stampXattrCsum buf fs.csumSeed block else buf)
  if refs = 0 then stats.freeBlock block else return stats

/-- What an inode's `i_blocks` counts, for one block. -/
def blockUnit (fs : Filesystem) (inode : Inode) : Nat :=
  if inode.flags &&& IFlags.hugeFile ≠ 0 ∧
      fs.superblock.featureRoCompat.contains RoCompatFeatures.hugeFile then 1
  else fs.blockSize / 512

/-- The blocks an orphan loses, with the inode and the bitmaps as that leaves them; an error
    says why they could not be told. -/
def freeOrphanBlocks (stats : AllocStats) (inode : Inode) (inum : Nat) :
    FsM (Except String (AllocStats × Inode × List Nat)) := do
  let fs ← get
  if !hasValidBlocks inode then return .ok (stats, inode, [])
  if 0 < inode.linksCount then
    let cut := (inode.size + fs.blockSize - 1) / fs.blockSize
    match ← attempt (truncate inode inum cut) with
    | .error e => return .error (s!"truncating orphaned inode {inum}: " ++ e.display)
    | .ok (inode, freed) =>
      let blocks := inode.blocks - freed.length * blockUnit fs inode
      return .ok (stats, { inode with blocks }, freed)
  else
    match fs.walkBlocks inode with
    | (_, .error (.error e)) => return .error (s!"clearing orphaned inode {inum}: " ++ e.display)
    | (_, .error other) => throw other
    | (refs, .ok ()) =>
      let freed := refs.map (·.physical)
      if inode.fileAcl = 0 then return .ok (stats, inode, freed)
      let stats ← releaseXattrBlock stats inode.fileAcl
      return .ok (stats, { inode with fileAcl := 0 }, freed)

/-- Release one orphan, returning the next in the chain (its `i_dtime`), or `none` when it
    could not be released. -/
def releaseOne (now : Nat) (stats : AllocStats) (out : OrphanRelease) (inum : Nat) :
    FsM (AllocStats × OrphanRelease × Option Nat) := do
  let inode ← reading fun fs => fs.readInode inum
  let next := inode.dtime
  let truncated : Bool := 0 < inode.linksCount
  match ← freeOrphanBlocks stats inode inum with
  | .error msg => return (stats, out.error msg, none)
  | .ok (stats, inode, freed) =>
    let stats ← freed.foldlM AllocStats.freeBlock stats
    let stats ← if truncated then pure stats else stats.freeInode inum inode.isDir
    writeInode inum { inode with dtime := if truncated then 0 else now }
    let released : Released :=
      { inum, truncated, uid := inode.uid, gid := inode.gid, mode := inode.mode,
        size := inode.size, blocksFreed := freed.length }
    return (stats, { out with released := out.released ++ [released] }, some next)

/-- The chain from `inum` on. A chain visits an inode at most once, so the inode count is
    fuel enough. -/
def releaseChain (now : Nat) (sb : Superblock) : (fuel : Nat) → (seen : List Nat) →
    AllocStats → OrphanRelease → (inum : Nat) → FsM (AllocStats × OrphanRelease)
  | 0, _, stats, out, _ => return (stats, out)
  | fuel + 1, seen, stats, out, inum => do
    if inum = 0 then return (stats, out)
    if inum ∈ seen then return (stats, out.error s!"orphan list loops back to inode {inum}")
    let (stats, out, next) ← releaseOne now stats out inum
    match next with
    | none => return (stats, out)
    | some next =>
      if next ≠ 0 ∧ (next < sb.firstIno ∨ sb.inodesCount < next) then
        return (stats, out.error s!"illegal inode {next} in the orphan list, after inode {inum}")
      releaseChain now sb fuel (inum :: seen) stats out next

/-! ## The orphan file -/

/-- The orphan file's blocks, in logical order. -/
def orphanFileBlocks (fs : Filesystem) (inode : Inode) : Except Failure (List Nat) :=
  match fs.walkBlocks inode with
  | (_, .error e) => .error e
  | (refs, .ok ()) =>
    .ok ((refs.foldl (fun m (r : BlockRef) =>
      match r.logical with
      | some logical => Lib.SortedMap.insert logical r.physical m
      | none => m) []).map (·.2))

/-- `ext4_orphan_file_block_csum` -/
def orphanBlockCsum (seed : UInt32) (inum generation physical : Nat) (slots : List UInt8) : Nat :=
  let crc := Csum.crc32c seed (toLe 4 inum)
  let crc := Csum.crc32c crc (toLe 4 generation)
  let crc := Csum.crc32c crc (toLe 8 physical)
  (Csum.crc32c crc slots).toNat

def writeOrphanBlock (fileInum generation physical : Nat) (buf : List UInt8) : FsM Unit := do
  let fs ← get
  let tail := buf.length - orphanTailLen
  let buf := putU32 buf tail orphanBlockMagic
  let csum := orphanBlockCsum fs.csumSeed fileInum generation physical (buf.take (tail / 4 * 4))
  writeBlock physical (if fs.hasMetadataCsum then putU32 buf (tail + 4) csum else buf)

/-- The slots from `slot` on of one block: the inodes in them are released and the slots
    emptied. `none` for the bytes says the release stopped here. -/
def releaseSlots (now : Nat) (sb : Superblock) (physical : Nat) : List Nat → AllocStats →
    OrphanRelease → (buf : List UInt8) → (emptied : Bool) →
    FsM (AllocStats × OrphanRelease × Option (List UInt8 × Bool))
  | [], stats, out, buf, emptied => return (stats, out, some (buf, emptied))
  | slot :: slots, stats, out, buf, emptied => do
    let inum := getU32 buf (slot * 4)
    if inum = 0 then releaseSlots now sb physical slots stats out buf emptied
    else if inum < sb.firstIno ∨ sb.inodesCount < inum then
      return (stats, out.error s!"illegal inode {inum} in orphan file block {physical}", none)
    else
      let (stats, out, next) ← releaseOne now stats out inum
      if next.isNone then return (stats, out, none)
      releaseSlots now sb physical slots stats out (putU32 buf (slot * 4) 0) true

/-- The blocks of the orphan file, one after another. -/
def processBlocks (now : Nat) (sb : Superblock) (file : Inode) : List Nat → AllocStats →
    OrphanRelease → FsM (AllocStats × OrphanRelease)
  | [], stats, out => return (stats, out)
  | physical :: rest, stats, out => do
    let fs ← get
    let inum := sb.orphanFileInum
    let tail := fs.blockSize - orphanTailLen
    let buf ← reading fun fs => fs.readBlock physical
    let csum := orphanBlockCsum fs.csumSeed inum file.generation physical (buf.take (tail / 4 * 4))
    if getU32 buf tail ≠ orphanBlockMagic then
      return (stats, out.error s!"orphan file block {physical} has no orphan block magic")
    if fs.hasMetadataCsum ∧ getU32 buf (tail + 4) ≠ csum then
      return (stats, out.error s!"orphan file block {physical} checksum does not match")
    let (stats, out, left) ←
      releaseSlots now sb physical (List.range (tail / 4)) stats out buf false
    match left with
    | none => return (stats, out)
    | some (buf, emptied) =>
      if emptied then writeOrphanBlock inum file.generation physical buf
      processBlocks now sb file rest stats out

/-- Release the inodes in the orphan file's slots, and empty them. -/
def processOrphanFile (now : Nat) (stats : AllocStats) (out : OrphanRelease) :
    FsM (AllocStats × OrphanRelease) := do
  let fs ← get
  let sb := fs.superblock
  let inum := sb.orphanFileInum
  if inum = 0 ∨ sb.inodesCount < inum then
    return (stats, out.error s!"orphan file inode {inum} is not an inode")
  let file ← reading fun fs => fs.readInode inum
  match orphanFileBlocks fs file with
  | .error (.error e) => return (stats, out.error ("orphan file: " ++ e.display))
  | .error other => throw other
  | .ok blocks => processBlocks now sb file blocks stats out

/-- Empty every slot of the orphan file without releasing anything. -/
def clearOrphanFile (out : OrphanRelease) : FsM OrphanRelease := do
  let fs ← get
  let sb := fs.superblock
  let inum := sb.orphanFileInum
  if inum = 0 ∨ sb.inodesCount < inum then return out
  let file ← reading fun fs => fs.readInode inum
  let tail := fs.blockSize - orphanTailLen
  match orphanFileBlocks fs file with
  | .error (.error e) => return out.error ("orphan file: " ++ e.display)
  | .error other => throw other
  | .ok blocks =>
    forM blocks fun physical => do
      let buf ← reading fun fs => fs.readBlock physical
      if (buf.take tail).any (· != 0) then
        writeOrphanBlock inum file.generation physical
          (splice buf 0 (List.replicate tail 0))
    return out

/-- The chain of `s_last_orphan`, then the orphan file. -/
def releaseAll (now : Nat) (sb : Superblock) (orphanFile : Bool) : FsM OrphanRelease := do
  let head := sb.lastOrphan
  let (stats, out) ←
    if head ≠ 0 ∧ (head < sb.firstIno ∨ sb.inodesCount < head) then
      pure (({} : AllocStats), ({} : OrphanRelease).error
        s!"illegal inode {head} in the superblock's orphan list")
    else releaseChain now sb (sb.inodesCount + 1) [] {} {} head
  let (stats, out) ←
    if out.errors.isEmpty ∧ orphanFile then processOrphanFile now stats out
    else pure (stats, out)
  if out.errors.isEmpty then removeOrphanPresent
  stats.flush
  flushSuperblock
  return out

/-- Release every orphan the superblock records, and write the result. Win or lose, the
    head of the chain is not used again. -/
def releaseOrphans (now : Nat) : FsM OrphanRelease := do
  let fs ← get
  let sb := fs.superblock
  if !hasOrphans sb then return {}
  let orphanFile : Bool := sb.featureCompat.contains CompatFeatures.orphanFile &&
    sb.featureRoCompat.contains RoCompatFeatures.orphanPresent
  modifySuperblock fun sb => { sb with lastOrphan := 0 }
  if sb.state &&& State.errorFs ≠ 0 then
    let out ← if orphanFile then clearOrphanFile { skippedForErrors := true }
      else pure { skippedForErrors := true }
    removeOrphanPresent
    flushSuperblock
    return out
  else if sb.featureRoCompat.contains RoCompatFeatures.bigalloc then
    flushSuperblock
    return ({} : OrphanRelease).error "orphans on a bigalloc filesystem are left for the kernel"
  else releaseAll now sb orphanFile

end Orphan

end MkfsExt4
