/-
  Writing a planned filesystem (`write_filesystem_chunked` in `src/format.rs`).

  The formatter reads nothing back, so what it asks of the device is a list of operations,
  and a `FormatM` command is that list with the result it ends in. The groups in flight get
  on one operation at a time, in an order the formatter does not choose: it is a list of
  turns, one list for each chunk of the descriptor table.
-/
import MkfsExt4.Device
import MkfsExt4.Format.Contents
import MkfsExt4.Lib.Trace

namespace MkfsExt4.Format

open Lib.Store Lib.Trace Layout

/-! ## Operations -/

/-- One request to the device. -/
inductive Op where
  | write (offset : Nat) (buf : List UInt8)
  | zero (offset len : Nat)
  | flush
deriving DecidableEq

def Op.run : Op → Device → Except Error Device
  | write offset buf, dev => dev.writeAt offset buf
  | zero offset len, dev => dev.writeZeroes offset len
  | flush, dev => .ok dev

/-- Requests in turn, up to the first that the device refuses. -/
def runOps : List Op → Device → Except Error Unit × Device
  | [], dev => (.ok (), dev)
  | op :: ops, dev =>
    match op.run dev with
    | .error e => (.error e, dev)
    | .ok dev => runOps ops dev

/-- A command of the formatter: the operations it issues, and its result. -/
abbrev FormatM (α : Type) := Traced Op Failure α

def issue (op : Op) : FormatM Unit := emit op

def lift {α : Type} (x : Except Failure α) : FormatM α := ofExcept x

/-- What a format produced. -/
structure Report where
  blocksCount : Nat
  blockSize : Nat
  inodesCount : Nat
  freeBlocksCount : Nat
  freeInodesCount : Nat
  groupCount : Nat
  uuid : List UInt8
  label : List UInt8
  journalBlocks : Nat
deriving DecidableEq

/-! ## Groups -/

/-- A group in flight: what it has left to issue, and its descriptor. -/
structure InFlight where
  group : Nat
  rest : Except Failure (List Op × GroupDesc)

/-- What is left to do for a group, in turn, and its descriptor. -/
def complete (t : InFlight) : FormatM (Nat × GroupDesc) := do
  let (ops, desc) ← lift t.rest
  ops.forM issue
  return (t.group, desc)

/-- Groups from a queue, the first `inFlight` of it under way at once: each turn lets one of
those issue its next operation, or end when it has none left. Past the last turn the queue is
done in order. The answer is the descriptors in the order the groups ended. -/
def drain (inFlight : Nat) : (turns : List Nat) → (queue : List InFlight) →
    FormatM (List (Nat × GroupDesc))
  | [], queue => queue.mapM complete
  | turn :: turns, queue => do
    let i := turn % min inFlight queue.length
    match queue[i]? with
    | none => return []
    | some t =>
      match ← lift t.rest with
      | ([], desc) => return (t.group, desc) :: (← drain inFlight turns (queue.eraseIdx i))
      | (op :: ops, desc) =>
        issue op
        drain inFlight turns (queue.set i { t with rest := .ok (ops, desc) })

variable (plan : Plan)

def writeBlock (block : Nat) (buf : List UInt8) : FormatM Unit :=
  issue (.write (block * plan.geom.blockSize) buf)

def zeroBlocks (block len : Nat) : FormatM Unit :=
  issue (.zero (block * plan.geom.blockSize) (len * plan.geom.blockSize))

/-- Build a group, and say what it issues: its bitmaps unless its flags say to compute them,
its inode table unless it is left alone or zero already. -/
def writeGroup (group : Nat) : Except Failure (List Op × GroupDesc) := do
  let g := plan.geom
  let state ← buildGroup plan group
  let layout ← returned (g.group group)
  let skip := plan.zeroedMedium || (plan.lazyItable && group ≠ 0)
  return (
    (if state.desc.blockUninit then []
      else [.write (layout.blockBitmap * g.blockSize) state.blockBitmap]) ++
    (if state.desc.inodeUninit then []
      else [.write (layout.inodeBitmap * g.blockSize) state.inodeBitmap]) ++
    (if skip then []
      else [.zero (layout.inodeTable * g.blockSize) (g.itableBlocksPerGroup * g.blockSize)]),
    state.desc)

/-- A chunk of the descriptor table, from the groups that ended. -/
def chunkTable (firstGroup blocks : Nat) (done : List (Nat × GroupDesc)) : List UInt8 :=
  let g := plan.geom
  done.foldl (fun table (group, desc) =>
    splice table ((group - firstGroup) * g.descSize)
      (desc.encodeWithCsum g.descSize plan.csumScheme plan.csumSeed plan.uuid group))
    (List.replicate (blocks * g.blockSize) 0)

/-- Where copies of the classic table start: under `meta_bg` only the groups before
`first_meta_bg` keep one. -/
def classicCopies (geom : Geometry) : List Nat :=
  ((List.range geom.groupCount).filter fun group =>
    !geom.metaBg || geom.metaBgOf group < geom.firstMetaBg).filterMap geom.descBlockLocation

/-- The blocks that hold the descriptors of meta block group `mbg`. -/
def metaHolders (geom : Geometry) (mbg : Nat) : List Nat :=
  let base := mbg * geom.metaBgSize
  ([base, base + 1, base + geom.metaBgSize - 1].filter (· < geom.groupCount)).filterMap
    geom.descBlockLocation

/-- Every copy of the descriptor blocks from `first` on. -/
def writeCopies (first blocks : Nat) (table : List UInt8) : FormatM Unit := do
  let g := plan.geom
  (classicCopies g).forM fun copy => issue (.write ((copy + first) * g.blockSize) table)
  onlyIf g.metaBg <| (List.range blocks).forM fun i =>
    onlyIf (¬ first + i < g.firstMetaBg) <| (metaHolders g (first + i)).forM fun block =>
      writeBlock plan block (slice table (i * g.blockSize) g.blockSize)

/-- One chunk of the descriptor table, from its first block: its groups, then its copies. The
answer is what the groups have free. -/
def writeChunk (chunkBlocks : Nat) (turns : List Nat) (first : Nat) : FormatM (Nat × Nat) := do
  let g := plan.geom
  let blocks := min chunkBlocks (g.descBlocks - first)
  let firstGroup := first * g.descPerBlock
  let endGroup := min ((first + blocks) * g.descPerBlock) g.groupCount
  let queue := (List.range' firstGroup (endGroup - firstGroup)).map fun group =>
    ({ group, rest := writeGroup plan group } : InFlight)
  let done ← drain plan.inFlight turns queue
  writeCopies plan first blocks (chunkTable plan firstGroup blocks done)
  return ((done.map fun d => d.2.freeBlocksCount).sum, (done.map fun d => d.2.freeInodesCount).sum)

/-- The whole table, `chunkBlocks` blocks at a time. -/
def writeTable (chunkBlocks : Nat) (schedule : Nat → List Nat) : FormatM (Nat × Nat) := do
  let chunk := max chunkBlocks 1
  (List.range (divCeil plan.geom.descBlocks chunk)).foldlM (fun free k => do
    let (blocks, inodes) ← writeChunk plan chunk (schedule k) (k * chunk)
    return (free.1 + blocks, free.2 + inodes)) (0, 0)

/-! ## Files -/

def writeRootAndLostFound : FormatM Unit := do
  let root ← lift (returned (rootDirBlock plan))
  writeBlock plan plan.rootBlock root
  let first ← lift (returned (lostFoundBlock plan))
  writeBlock plan plan.lostFoundStart first
  (List.range' 1 (plan.lostFoundBlocks - 1)).forM fun i =>
    writeBlock plan (plan.lostFoundStart + i) (emptyDirBlock plan)

/-- The indirect blocks of a file mapped without extents. -/
def writeIndirect (map : IndirectMap) : FormatM Unit :=
  map.blocks.forM fun (block, entries) =>
    writeBlock plan block (pointerBlock plan.geom.blockSize entries)

/-- Zero a journal's runs; its first block is its superblock. -/
def zeroJournal : (first : Bool) → List Run → FormatM Unit
  | _, [] => pure ()
  | first, r :: runs => do
    let start := if first then r.start + 1 else r.start
    let len := if first then r.len - 1 else r.len
    onlyIf (0 < len) (zeroBlocks plan start len)
    zeroJournal false runs

def writeJournal (start : Nat) : FormatM Unit := do
  writeBlock plan start (journalSuperblock plan)
  onlyIf (!plan.zeroedMedium) (zeroJournal plan true plan.journalRuns)
  forSome plan.journalExtentLeaf fun leaf => do
    writeBlock plan leaf (← lift (journalLeafBlock plan))
  writeIndirect plan plan.journalIndirect

/-- The reserved descriptor blocks of group 0, then the double indirect block over them. -/
def writeResizeInodeBlocks (dind : Nat) : FormatM Unit := do
  let g := plan.geom
  (List.range g.reservedGdtBlocks).forM fun off =>
    writeBlock plan (reservedGdtBlock g off) (reservedGdtContents g off)
  writeBlock plan dind (resizeDindContents g)

def writeOrphanFile (inum : Nat) : FormatM Unit := do
  (blocksOf plan.orphanRuns).forM fun block => writeBlock plan block (orphanBlock plan inum block)
  forSome plan.orphanExtentLeaf fun leaf => do
    writeBlock plan leaf
      (← lift (extentLeafBlock (orphanExtentsOf 0 plan.orphanRuns) plan.geom.blockSize false))
  writeIndirect plan plan.orphanIndirect

/-- Clean: nobody holds a filesystem that has just been created. -/
def mmpContents : List UInt8 :=
  let mmp : Mmp := {
    seq := Mmp.seqClean
    time := plan.mkfsTime
    nodename := []
    bdevname := []
    checkInterval := plan.mmpUpdateInterval }
  mmp.encode plan.geom.blockSize (plan.csumScheme = .crc32c) plan.csumSeed

def writeReservedInodes : FormatM Unit := do
  let layout ← lift (returned (plan.geom.group 0))
  let inodes ← lift (returned (reservedInodes plan))
  (inodes.foldl (gatherInode plan layout.inodeTable) []).forM fun (block, buf) =>
    writeBlock plan block buf

/-- What the filesystem needs before it is coherent: the directories, the journal, the resize
inode's blocks, the orphan file, the MMP block and the inodes that point at them. -/
def writeFiles : FormatM Unit := do
  writeRootAndLostFound plan
  forSome plan.journalStart (writeJournal plan)
  forSome plan.resizeDind (writeResizeInodeBlocks plan)
  forSome plan.orphanInode (writeOrphanFile plan)
  forSome plan.mmpBlock fun block => writeBlock plan block (mmpContents plan)
  writeReservedInodes plan

/-! ## The whole format -/

/-- Zeroes ahead of the groups: the boot block where it is a block of its own, and the reserved
descriptor blocks of group 0. -/
def writeFront : FormatM Unit := do
  let g := plan.geom
  onlyIf (g.blockSize = superblockOffset) (zeroBlocks plan 0 1)
  onlyIf (0 < g.reservedGdtBlocks ∧ !plan.zeroedMedium) <|
    forSome (classicCopies g).head? fun primary =>
      zeroBlocks plan (primary + g.descBlocks) g.reservedGdtBlocks

/-- Everything but the superblocks, the groups and their descriptors between the front and the
files. -/
def writeContents (chunkBlocks : Nat) (schedule : Nat → List Nat) : FormatM (Nat × Nat) := do
  writeFront plan
  let free ← writeTable plan chunkBlocks schedule
  writeFiles plan
  return free

/-- The primary superblock, then the backups, each with its own group's number. -/
def writeSuperblocks (free : Nat × Nat) : FormatM Unit := do
  let g := plan.geom
  let sb := buildSuperblock plan free.1 free.2
  let (block, buf) := primarySuperblockBlock sb.encode g.blockSize
  writeBlock plan block buf
  (backupGroups g).forM fun group =>
    writeBlock plan (g.groupFirstBlock group)
      (superblockAtBlockStart { sb with blockGroupNr := group % 2 ^ 16 }.encode g.blockSize)
  issue .flush

def writeFilesystemChunked (chunkBlocks : Nat) (schedule : Nat → List Nat) : FormatM Report := do
  let free ← writeContents plan chunkBlocks schedule
  writeSuperblocks plan free
  let g := plan.geom
  return {
    blocksCount := g.blocksCount
    blockSize := g.blockSize
    inodesCount := g.inodesCount
    freeBlocksCount := free.1
    freeInodesCount := free.2
    groupCount := g.groupCount
    uuid := plan.uuid
    label := plan.label
    journalBlocks := plan.journalBlocks }

/-- Descriptor blocks held in memory at once while the table is written. -/
def gdtChunkBlocks : Nat := 256

/-- Write a planned filesystem to a device. A request the device refuses ends it. -/
def writePlan (chunkBlocks : Nat) (schedule : Nat → List Nat) (dev : Device) :
    Except Failure Report × Device :=
  let format := writeFilesystemChunked plan chunkBlocks schedule
  match runOps format.trace dev with
  | (.error e, dev) => (.error (.error e), dev)
  | (.ok (), dev) => (format.result, dev)

/-- The parameters as the device's sector size bounds them from below. -/
def onDevice (params : Params) (dev : Device) : Params :=
  { params with sectorSize := some (max (params.sectorSize.getD 0) dev.logicalSectorSize) }

/-- Format a device. -/
def format (params : Params) (ambient : Ambient) (schedule : Nat → List Nat) (dev : Device) :
    Except Failure Report × Device :=
  match Format.plan dev.size (onDevice params dev) ambient with
  | .error e => (.error e, dev)
  | .ok p => writePlan p gdtChunkBlocks schedule dev

end MkfsExt4.Format
