/-
  The passes of a check (`src/fsck.rs`): what each accumulates in the `ScanState`, what it
  reports, and what the last writes.

  Passes 0 to 4 only read, so they are functions of the filesystem over what was found so
  far. Sums of 32-bit numbers that overflow panic, as does a 16-bit link counter.
-/
import MkfsExt4.Fs.BlockMap
import MkfsExt4.Fsck.BlockRuns
import MkfsExt4.Fsck.Report
import MkfsExt4.Structs.Dirent

namespace MkfsExt4.Fsck

open Lib.Store

/-- What the passes accumulate. -/
structure ScanState where
  /-- Blocks claimed by metadata or by some inode. -/
  blocks : BlockRuns
  /-- Blocks claimed more than once. -/
  duplicates : List Nat := []
  inodesInUse : List Nat := []
  directories : List Nat := []
  /-- Link counts observed from directory entries. -/
  observedLinks : List (Nat × Nat) := []
  /-- Parent directory of each directory, from its "..". -/
  parents : List (Nat × Nat) := []
  /-- Which directories contain which subdirectories. -/
  children : List (Nat × List Nat) := []
  firstIno : Nat

namespace ScanState

def new (fs : Filesystem) : ScanState :=
  { blocks := { len := fs.superblock.blocksCount }, firstIno := fs.superblock.firstIno }

/-- Claim `start..stop`, noting every block someone already had. -/
def claimRange (state : ScanState) (start stop : Nat) : ScanState :=
  let (blocks, overlaps) := state.blocks.insert start stop
  { state with
    blocks
    duplicates := overlaps.foldl (fun dups p =>
      (List.range' p.1 (p.2 - p.1)).foldl (fun dups b => Lib.SortedMap.insertKey b dups) dups)
      state.duplicates }

/-- Claim a block. -/
def claim (state : ScanState) (block : Nat) : ScanState := state.claimRange block (block + 1)

end ScanState

/-- The report and the state, as the passes hand them on. -/
structure Findings where
  report : FsckReport
  state : ScanState

namespace Findings

variable (f : Findings)

def push (pass : Nat) (code : Code) (severity : Severity) (message : String) : Findings :=
  { f with report := f.report.push pass code severity message }

def pushIf (bad : Prop) [Decidable bad] (pass : Nat) (code : Code) (severity : Severity)
    (message : String) : Findings :=
  { f with report := f.report.pushIf bad pass code severity message }

def claimRange (start stop : Nat) : Findings := { f with state := f.state.claimRange start stop }

def claim (block : Nat) : Findings := { f with state := f.state.claim block }

end Findings

/-! ## Pass 0: the superblock and the group descriptors -/

/-- A descriptor pointer outside the filesystem. -/
def checkPointer (sb : Superblock) (group : Nat) (f : Findings) (p : String × Nat) : Findings :=
  let (what, block) := p
  f.pushIf (block = 0 ∨ sb.blocksCount ≤ block) 0 .badDescPointer .serious
    s!"group {group} {what} points at block {block}, outside the filesystem"

/-- The descriptor checksum, recomputed over the descriptor as it encodes. -/
def checkDescCsum (fs : Filesystem) (group : Nat) (desc : GroupDesc) (f : Findings) : Findings :=
  let sb := fs.superblock
  let expect := Csum.groupDescCsum fs.csumScheme fs.csumSeed sb.uuid group (desc.encode sb.descSize)
  f.pushIf (fs.csumScheme ≠ .none ∧ desc.checksum ≠ expect) 0 .groupDescCsum .fixable
    (s!"group {group} descriptor checksum is " ++ hex 4 desc.checksum ++ ", computed " ++
      hex 4 expect)

/-- Claim the blocks of one group's own structure and check its descriptor. -/
def pass0Group (fs : Filesystem) (f : Findings) (group : Nat) : Except Failure Findings := do
  let sb := fs.superblock
  let first := fs.groupFirstBlock group
  panicIf (sb.descPerBlock = 0)
  let f := f.claimRange first (first + fs.superOverhead group)
  match fs.groupDescs[group]? with
  | none => return f
  | some desc =>
    let f := [("block bitmap", desc.blockBitmap), ("inode bitmap", desc.inodeBitmap),
      ("inode table", desc.inodeTable)].foldl (checkPointer sb group) f
    panicIf (sb.inodeSize = 0 ∨ sb.inodesPerBlock = 0)
    let f := ((f.claim desc.blockBitmap).claim desc.inodeBitmap).claimRange desc.inodeTable
      (desc.inodeTable + sb.itableBlocksPerGroup)
    return checkDescCsum fs group desc f

/-- What the superblock says of itself. -/
def checkSuperblock (fs : Filesystem) (f : Findings) : Except Failure Findings := do
  let sb := fs.superblock
  let inodeSize := sb.inodeSize
  let blockSize := sb.blockSize
  let f := f.pushIf (inodeSize = 0 ∨ blockSize < inodeSize) 0 .badInodeSize .serious
    s!"inode size {inodeSize} is impossible for {blockSize}-byte blocks"
  let f := f.pushIf (sb.featureCompat.contains CompatFeatures.hasJournal ∧ sb.journalInum = 0)
    0 .journalAdvertisedButAbsent .serious
    ("superblock sets has_journal but names no journal inode; a kernel will " ++
      "refuse to mount this filesystem")
  if !sb.hasMetadataCsum then return f
  let raw ← fs.readSuperblockRaw
  return f.pushIf (!sb.verifyChecksum raw) 0 .superblockCsum .serious
    "superblock checksum does not match its contents"

/-- Block 0 of a 1 KiB filesystem, and the multiple-mount-protection block. -/
def claimLoose (sb : Superblock) (f : Findings) : Findings :=
  let f := f.claimRange 0 sb.firstDataBlock
  if sb.featureIncompat.contains IncompatFeatures.mmp ∧ sb.firstDataBlock ≤ sb.mmpBlock ∧
      sb.mmpBlock < sb.blocksCount then f.claim sb.mmpBlock
  else f

def pass0Superblock (fs : Filesystem) (f : Findings) : Except Failure Findings := do
  let sb := fs.superblock
  let f := f.pushIf (sb.state &&& State.errorFs ≠ 0) 0 .fsHasErrors .info
    "superblock records that errors were detected on this filesystem"
  if sb.blocksPerGroup = 0 ∨ sb.inodesPerGroup = 0 then
    return f.push 0 .zeroGeometry .serious
      "superblock geometry is zero; the filesystem cannot be walked"
  let f ← checkSuperblock fs f
  let f ← (List.range sb.groupCount).foldlM (pass0Group fs) f
  return claimLoose sb f

/-! ## Pass 1: inodes, and the blocks they claim -/

/-- The visitor of pass 1. The resize inode shares the reserved descriptor blocks by design:
    it claims without noting collisions. -/
def visitBlock (sb : Superblock) (isResize : Bool) (state : ScanState) (b : BlockRef) :
    ScanState :=
  if b.physical = 0 ∨ sb.blocksCount ≤ b.physical then state
  else if isResize then
    { state with blocks := (state.blocks.insert b.physical (b.physical + 1)).1 }
  else state.claim b.physical

/-- Inodes of the reserved range whose blocks pass 1 does not walk. -/
def skipsWalk (sb : Superblock) (inum : Nat) : Bool :=
  inum < sb.firstIno && inum ≠ Ino.journal && inum ≠ Ino.root && inum ≠ Ino.resize

/-- The checksums of an inode's extent nodes. A tree that cannot be read was reported by
    the walk. -/
def checkExtentCsums (fs : Filesystem) (inode : Inode) (inum : Nat) (f : Findings) :
    Except Failure Findings :=
  match fs.badExtentChecksums inode inum with
  | .ok blocks => .ok <| (blocks.take 4).foldl (fun f block =>
      f.push 1 .extentCsum .serious
        s!"inode {inum} extent block {block} checksum does not match its contents") f
  | .error (.error _) => .ok f
  | .error other => .error other

/-- Walk an inode's blocks, claiming each. -/
def claimInode (fs : Filesystem) (inode : Inode) (inum : Nat) (f : Findings) :
    Except Failure Findings := do
  let sb := fs.superblock
  let (refs, ended) := fs.walkBlocks inode
  let f := { f with state := refs.foldl (visitBlock sb (inum = Ino.resize)) f.state }
  match ended with
  | .error (.error e) =>
    return f.push 1 .unwalkableBlockMap .serious
      (s!"inode {inum} block map could not be walked: " ++ e.display)
  | .error other => throw other
  | .ok () =>
    let bad := (refs.map (·.physical)).filter fun b => b = 0 ∨ sb.blocksCount ≤ b
    let f := (bad.take 4).foldl (fun f block => f.push 1 .blockOutOfRange .serious
      s!"inode {inum} claims block {block}, outside the filesystem") f
    let f ← checkExtentCsums fs inode inum f
    let counted := refs.length
    let expect := counted * (sb.blockSize / 512)
    let blocks := inode.blocks
    return f.pushIf (inum ≠ Ino.resize ∧ blocks ≠ expect) 1 .iBlocksWrong .fixable
      s!"inode {inum} i_blocks is {blocks}, but it owns {counted} blocks ({expect} sectors)"

/-- What an inode in use says of itself. -/
def checkInode (fs : Filesystem) (raw : List UInt8) (inode : Inode) (inum : Nat) (f : Findings) :
    Except Failure Findings := do
  let f := { f with state := { f.state with
    inodesInUse := Lib.SortedMap.insertKey inum f.state.inodesInUse } }
  let sound ← Inode.verifyChecksum raw fs.superblock.inodeSize fs.hasMetadataCsum fs.csumSeed inum
  let f := f.pushIf (!sound) 1 .inodeCsum .serious
    s!"inode {inum} checksum does not match its contents"
  let f := if inode.isDir then
      { f with state := { f.state with
        directories := Lib.SortedMap.insertKey inum f.state.directories } }
    else f
  let links := inode.linksCount
  let dtime := inode.dtime
  return f.pushIf (0 < links ∧ dtime ≠ 0) 1 .deletedButLinked .fixable
    s!"inode {inum} has {links} links but a deletion time of {dtime}"

def pass1Inode (fs : Filesystem) (inum : Nat) (f : Findings) : Except Failure Findings := do
  let sb := fs.superblock
  let raw ← fs.readInodeRaw inum
  let inode ← Inode.decode raw sb.inodeSize
  if ¬ (inum < sb.firstIno ∨ 0 < inode.linksCount) then return f
  let f ← checkInode fs raw inode inum f
  if skipsWalk sb inum then return f
  claimInode fs inode inum f

/-- Inodes of a group that are read: all but those at its end the descriptor says were never
    used, which only a checksummed descriptor is trusted to say. -/
def liveInodes (fs : Filesystem) (group : Nat) : Nat :=
  let ipg := fs.superblock.inodesPerGroup
  let unused := match fs.groupDescs[group]? with
    | some desc => if fs.csumScheme = .none then 0 else min desc.itableUnused ipg
    | none => 0
  ipg - unused

/-- The loop over the inodes of a group, which ends past the last inode. -/
def pass1Group (fs : Filesystem) (group : Nat) : List Nat → Findings → Except Failure Findings
  | [], f => .ok f
  | within :: rest, f => do
    let inum := group * fs.superblock.inodesPerGroup + within + 1
    panicIf (2 ^ 32 ≤ inum)
    if fs.superblock.inodesCount < inum then return f
    let f ← pass1Inode fs inum f
    pass1Group fs group rest f

def pass1Inodes (fs : Filesystem) (f : Findings) : Except Failure Findings := do
  let f ← (List.range fs.groupCount).foldlM
    (fun f group => pass1Group fs group (List.range (liveInodes fs group)) f) f
  return (f.state.duplicates.take 8).foldl (fun f block =>
    f.push 1 .duplicateBlock .serious s!"block {block} is claimed more than once") f

/-! ## Pass 2: directory contents -/

/-- The stored and computed checksums of a directory block: a leaf's tail, else an htree
    node's. -/
def dirBlockSums (fs : Filesystem) (dirIno : Nat) (dir : Inode) (buf : List UInt8) :
    Option (Nat × Nat) :=
  match Dirent.blockCsum buf with
  | some stored =>
    some (stored, Csum.direntCsum fs.csumSeed dirIno dir.generation
      (buf.take (buf.length - Dirent.tailLen)))
  | none =>
    (Htree.countOffset buf fs.blockSize).bind fun off =>
      Htree.csum buf fs.blockSize fs.csumSeed dirIno dir.generation off

/-- The entries of a directory gathered so far, and whether one of its blocks failed. -/
structure DirScan where
  report : FsckReport
  entries : List DirEntry := []
  failed : Bool := false

/-- One mapped block of a directory. -/
def scanDirBlock (fs : Filesystem) (dirIno : Nat) (dir : Inode) (logical : Nat)
    (buf : List UInt8) (s : DirScan) : DirScan :=
  let report :=
    if fs.hasMetadataCsum then
      match dirBlockSums fs dirIno dir buf with
      | some (stored, expect) =>
        s.report.pushIf (stored ≠ expect) 2 .dirBlockCsum .fixable
          (s!"directory {dirIno} block {logical} checksum is " ++ hex 8 stored ++
            ", computed " ++ hex 8 expect)
      | none => s.report
    else s.report
  match Dirent.parseBlock buf with
  | .ok parsed =>
    { s with
      report
      entries := s.entries ++
        parsed.filter fun e => e.inode ≠ 0 && !e.isTail && !e.name.isEmpty }
  | .error e =>
    { s with
      report := report.push 2 .dirBlockMalformed .serious
        (s!"directory {dirIno} block {logical}: " ++ e.display)
      failed := true }

/-- The blocks of a directory, up to one that cannot be read. -/
def scanDir (fs : Filesystem) (dirIno : Nat) (dir : Inode) : List Nat → DirScan →
    Except Failure DirScan
  | [], s => .ok s
  | logical :: rest, s => do
    match ← fs.resolveBlock dir logical with
    | none => scanDir fs dirIno dir rest s
    | some physical =>
      match fs.readBlock physical with
      | .ok buf => scanDir fs dirIno dir rest (scanDirBlock fs dirIno dir logical buf s)
      | .error (.error e) =>
        return { s with
          report := s.report.push 2 .dirBlockUnreadable .serious
            (s!"directory {dirIno} block {logical}: " ++ e.display)
          failed := true }
      | .error other => throw other

/-- "." must be the first entry and point back. -/
def checkDot (dirIno : Nat) (entries : List DirEntry) (f : Findings) : Findings :=
  match entries[0]? with
  | some e =>
    if e.name = [0x2e] then
      let target := e.inode
      f.pushIf (target ≠ dirIno) 2 .dotWrong .fixable
        s!"directory {dirIno} has '.' pointing at inode {target}"
    else f.push 2 .dotMissing .serious s!"directory {dirIno} has no '.' entry"
  | none => f.push 2 .dotMissing .serious s!"directory {dirIno} has no '.' entry"

/-- ".." must be the second; it says which directory this one is in. -/
def checkDotdot (dirIno : Nat) (entries : List DirEntry) (f : Findings) : Findings :=
  let missing := f.push 2 .dotdotMissing .serious s!"directory {dirIno} has no '..' entry"
  match entries[1]? with
  | some e =>
    if e.name = [0x2e, 0x2e] then
      let siblings := (f.state.children.lookup e.inode).getD []
      { f with state := { f.state with
        parents := Lib.SortedMap.insert dirIno e.inode f.state.parents
        children := Lib.SortedMap.insert e.inode (siblings ++ [dirIno]) f.state.children } }
    else missing
  | none => missing

/-- The file type an entry should record for an inode. -/
def expectedType (inode : Inode) : Nat :=
  let t := inode.fileType
  if t = Mode.ifreg then FileType.regFile
  else if t = Mode.ifdir then FileType.dir
  else if t = Mode.ifchr then FileType.chrdev
  else if t = Mode.ifblk then FileType.blkdev
  else if t = Mode.ififo then FileType.fifo
  else if t = Mode.ifsock then FileType.sock
  else if t = Mode.iflnk then FileType.symlink
  else FileType.unknown

/-- The file type byte must agree with the inode it names. -/
def checkFiletype (fs : Filesystem) (dirIno : Nat) (entry : DirEntry) (f : Findings) :
    Except Failure Findings := do
  if !fs.superblock.featureIncompat.contains IncompatFeatures.filetype ∨
      entry.fileType = FileType.unknown then return f
  let target ← fs.readInode entry.inode
  let expect := expectedType target
  let found := entry.fileType
  let inum := entry.inode
  return f.pushIf (expect ≠ FileType.unknown ∧ found ≠ expect) 2 .filetypeMismatch .fixable
    (s!"directory {dirIno} entry '" ++ entry.nameString ++
      s!"' has file type {found} but inode {inum} is type {expect}")

/-- One more name for an inode. -/
def countLink (inum : Nat) (f : Findings) : Except Failure Findings := do
  let seen := (f.state.observedLinks.lookup inum).getD 0
  panicIf (2 ^ 16 ≤ seen + 1)
  return { f with state := { f.state with
    observedLinks := Lib.SortedMap.insert inum (seen + 1) f.state.observedLinks } }

/-- The entries of a directory, with the names seen before them. -/
def checkEntries (fs : Filesystem) (dirIno : Nat) : (seen : List (List UInt8)) →
    List DirEntry → Findings → Except Failure Findings
  | _, [], f => .ok f
  | seen, entry :: rest, f => do
    let inum := entry.inode
    let count := fs.superblock.inodesCount
    let name := entry.nameString
    if inum = 0 ∨ count < inum then
      checkEntries fs dirIno seen rest (f.push 2 .entryInodeOutOfRange .serious
        (s!"directory {dirIno} entry '" ++ name ++
          s!"' points at inode {inum}, outside 1..={count}"))
    else
      let f := f.pushIf (entry.name ∈ seen) 2 .duplicateName .serious
        (s!"directory {dirIno} has more than one entry named '" ++ name ++ "'")
      if inum ∉ f.state.inodesInUse then
        checkEntries fs dirIno (entry.name :: seen) rest
          (f.push 2 .entryPointsAtFreeInode .serious
            (s!"directory {dirIno} entry '" ++ name ++
              s!"' points at inode {inum}, which is not in use"))
      else
        let f ← checkFiletype fs dirIno entry f
        let f ← countLink inum f
        checkEntries fs dirIno (entry.name :: seen) rest f

def pass2Directory (fs : Filesystem) (f : Findings) (dirIno : Nat) : Except Failure Findings := do
  let dir ← fs.readInode dirIno
  panicIf (fs.blockSize = 0)
  let blocks := (dir.size + fs.blockSize - 1) / fs.blockSize
  let s ← scanDir fs dirIno dir (List.range blocks) { report := f.report }
  let f := { f with report := s.report }
  if s.failed then return f
  checkEntries fs dirIno [] s.entries (checkDotdot dirIno s.entries (checkDot dirIno s.entries f))

def pass2Directories (fs : Filesystem) (f : Findings) : Except Failure Findings :=
  f.state.directories.foldlM (pass2Directory fs) f

/-! ## Pass 3: is every directory reachable from the root? -/

/-- The breadth-first search from the queue. A directory is queued at most once for each
    time it is some directory's child. -/
def reachFrom (children : List (Nat × List Nat)) : (fuel : Nat) → (queue reached : List Nat) →
    List Nat
  | 0, _, reached => reached
  | _ + 1, [], reached => reached
  | fuel + 1, dir :: queue, reached =>
    let (queue, reached) := ((children.lookup dir).getD []).foldl
      (fun (acc : List Nat × List Nat) child =>
        if child ≠ dir ∧ child ∉ acc.2 then
          (acc.1 ++ [child], Lib.SortedMap.insertKey child acc.2)
        else acc) (queue, reached)
    reachFrom children fuel queue reached

def reachable (children : List (Nat × List Nat)) : List Nat :=
  reachFrom children (1 + (children.map fun p => p.2.length).sum) [Ino.root] [Ino.root]

def pass3Connectivity (f : Findings) : Findings :=
  let state := f.state
  if Ino.root ∉ state.directories then
    f.push 3 .noRootDirectory .serious "inode 2 is not a directory; the filesystem has no root"
  else
    let reached := reachable state.children
    let f := state.directories.foldl (fun f dir =>
      f.pushIf (dir ∉ reached) 3 .disconnectedDirectory .serious
        s!"directory {dir} is not reachable from the root; it belongs in lost+found") f
    state.parents.foldl (fun f (p : Nat × Nat) =>
      let (dir, claimed) := p
      match state.children.find? fun q => dir ∈ q.2 with
      | some (actual, _) =>
        f.pushIf (dir ≠ Ino.root ∧ actual ≠ claimed) 3 .parentMismatch .serious
          s!"directory {dir} claims parent {claimed} but is listed in {actual}"
      | none => f) f

/-! ## Pass 4: link counts -/

/-- A link count to correct: the problem's index, the inode, the links observed. -/
structure LinkFix where
  index : Nat
  inum : Nat
  observed : Nat
deriving DecidableEq, Repr

/-- Inodes no name refers to by design: the reserved ones but the root, and the orphan file. -/
def isNameless (fs : Filesystem) (inum : Nat) : Bool :=
  (inum < fs.superblock.firstIno && inum ≠ Ino.root) ||
    (fs.superblock.orphanFileInum ≠ 0 && inum = fs.superblock.orphanFileInum)

def pass4Inode (fs : Filesystem) (acc : Findings × List LinkFix) (inum : Nat) :
    Except Failure (Findings × List LinkFix) := do
  let (f, fixes) := acc
  if isNameless fs inum then return acc
  let inode ← fs.readInode inum
  let links := inode.linksCount
  let observed := (f.state.observedLinks.lookup inum).getD 0
  if observed = 0 then
    return (f.push 4 .unreferencedInode .serious
      s!"inode {inum} has {links} links but no directory entry refers to it", fixes)
  else if links ≠ observed then
    return (f.push 4 .linkCountWrong .fixable
      s!"inode {inum} link count is {links}, but {observed} names refer to it",
      fixes ++ [{ index := f.report.problems.length, inum, observed }])
  else return acc

/-- Writes nothing: it returns the corrections, for the caller to make once it may. -/
def pass4LinkCounts (fs : Filesystem) (f : Findings) : Except Failure (Findings × List LinkFix) :=
  f.state.inodesInUse.foldlM (pass4Inode fs) (f, [])

/-! ## Pass 5: bitmaps and free counters -/

/-- What the block bitmap of a group should say. Bits past the group's last block are set. -/
def expectedBlocks (fs : Filesystem) (state : ScanState) (group : Nat) : List UInt8 :=
  let first := fs.groupFirstBlock group
  let inGroup := fs.groupBlockCount group
  let used := (state.blocks.within first (first + inGroup)).foldl
    (fun bm p => setBits bm (p.1 - first) (p.2 - first)) (List.replicate fs.blockSize 0)
  setBits used inGroup (fs.blockSize * 8)

/-- Blocks of a group that nothing claims. -/
def freeBlocksIn (fs : Filesystem) (state : ScanState) (group : Nat) : Nat :=
  let first := fs.groupFirstBlock group
  let inGroup := fs.groupBlockCount group
  inGroup - ((state.blocks.within first (first + inGroup)).map fun p => p.2 - p.1).sum

/-- Whether the `i`-th inode of a group is in use. -/
def usesInode (fs : Filesystem) (state : ScanState) (group i : Nat) : Bool :=
  let inum := group * fs.superblock.inodesPerGroup + i + 1
  inum ≤ fs.superblock.inodesCount && inum ∈ state.inodesInUse

/-- What the inode bitmap of a group should say, its padding set. -/
def expectedInodes (fs : Filesystem) (state : ScanState) (group : Nat) : List UInt8 :=
  Lib.Bitmap.ofBits fs.blockSize fun i =>
    fs.superblock.inodesPerGroup ≤ i || usesInode fs state group i

/-- The inodes of a group in use, by their place in it. -/
def usedInodes (fs : Filesystem) (state : ScanState) (group : Nat) : List Nat :=
  (List.range fs.superblock.inodesPerGroup).filter (usesInode fs state group)

/-- Inodes of a group in use that are directories. -/
def usedDirs (fs : Filesystem) (state : ScanState) (group : Nat) : Nat :=
  ((usedInodes fs state group).filter fun i =>
    group * fs.superblock.inodesPerGroup + i + 1 ∈ state.directories).length

/-- The panics of pass 5 in a group: an inode number past 32 bits, a bit past the bitmap. -/
def pass5Panics (fs : Filesystem) (state : ScanState) (group : Nat) : Except Failure Unit :=
  let ipg := fs.superblock.inodesPerGroup
  panicIf (2 ^ 32 ≤ group * ipg + ipg ∨ ∃ i ∈ usedInodes fs state group, 8 * fs.blockSize ≤ i)

/-- The checksum of the first `bits` bits of a bitmap, on a filesystem that carries one. -/
def bitmapCsumFor (fs : Filesystem) (bm : List UInt8) (bits old : Nat) : Except Failure Nat := do
  if !fs.hasMetadataCsum then return old
  let len := (bits + 7) / 8
  panicIf (bm.length < len)
  return Csum.bitmapCsum fs.csumSeed (bm.take len)

/-- Free blocks and inodes over the groups so far. -/
structure Totals where
  report : FsckReport
  freeBlocks : Nat := 0
  freeInodes : Nat := 0

/-- Report a bitmap that differs from what it should be, and write it when repairing. -/
def fixBitmap (writes : Bool) (code : Code) (message : String) (block : Nat)
    (actual expected : List UInt8) (report : FsckReport) : FsM FsckReport := do
  if actual = expected then return report
  if writes then Filesystem.writeBlock block expected
  return report.pushFixed 5 code .fixable message writes

/-- Report a counter that differs from what was counted. -/
def checkCount (writes : Bool) (code : Code) (message : String) (found counted : Nat)
    (report : FsckReport) : FsckReport :=
  if found = counted then report else report.pushFixed 5 code .fixable message writes

def checkDescCounts (writes : Bool) (group : Nat) (desc : GroupDesc)
    (freeBlocks freeInodes dirs : Nat) (report : FsckReport) : FsckReport :=
  let foundBlocks := desc.freeBlocksCount
  let foundInodes := desc.freeInodesCount
  let foundDirs := desc.usedDirsCount
  let report := checkCount writes .groupFreeBlocksWrong
    s!"group {group} free block count is {foundBlocks}, counted {freeBlocks}"
    foundBlocks freeBlocks report
  let report := checkCount writes .groupFreeInodesWrong
    s!"group {group} free inode count is {foundInodes}, counted {freeInodes}"
    foundInodes freeInodes report
  checkCount writes .groupDirCountWrong
    s!"group {group} directory count is {foundDirs}, counted {dirs}" foundDirs dirs report

def pass5Group (writes : Bool) (state : ScanState) (t : Totals) (group : Nat) : FsM Totals := do
  let fs ← get
  let sb := fs.superblock
  let expected := expectedBlocks fs state group
  let freeBlocks := freeBlocksIn fs state group
  let actual ← reading fun fs => fs.readBlockBitmap group
  let desc ← reading fun fs => fs.groupDesc group
  let report ← fixBitmap writes .blockBitmapDiffers
    s!"group {group} block bitmap does not match the blocks in use"
    desc.blockBitmap actual expected t.report
  reading fun _ => pass5Panics fs state group
  let expectedInodes := expectedInodes fs state group
  let freeInodes := sb.inodesPerGroup - (usedInodes fs state group).length
  let dirs := usedDirs fs state group
  let actualInodes ← reading fun fs => fs.readInodeBitmap group
  let report ← fixBitmap writes .inodeBitmapDiffers
    s!"group {group} inode bitmap does not match the inodes in use"
    desc.inodeBitmap actualInodes expectedInodes report
  let report := checkDescCounts writes group desc freeBlocks freeInodes dirs report
  if writes then
    let blockCsum ← reading fun fs =>
      bitmapCsumFor fs expected sb.blocksPerGroup desc.blockBitmapCsum
    let inodeCsum ← reading fun fs =>
      bitmapCsumFor fs expectedInodes sb.inodesPerGroup desc.inodeBitmapCsum
    modify fun fs => { fs with groupDescs := fs.groupDescs.modify group fun desc =>
      { desc with
        freeBlocksCount := freeBlocks
        freeInodesCount := freeInodes
        usedDirsCount := dirs
        blockBitmapCsum := blockCsum
        inodeBitmapCsum := inodeCsum } }
  return { report, freeBlocks := t.freeBlocks + freeBlocks, freeInodes := t.freeInodes + freeInodes }

def pass5Bitmaps (writes : Bool) (f : Findings) : FsM Findings := do
  let fs ← get
  let foundBlocks := fs.superblock.freeBlocksCount
  let foundInodes := fs.superblock.freeInodesCount
  let t ← (List.range fs.groupCount).foldlM (pass5Group writes f.state) { report := f.report }
  let freeBlocks := t.freeBlocks
  let freeInodes := t.freeInodes
  let report := checkCount writes .superblockFreeBlocksWrong
    s!"superblock free block count is {foundBlocks}, counted {freeBlocks}"
    foundBlocks freeBlocks t.report
  let report := checkCount writes .superblockFreeInodesWrong
    s!"superblock free inode count is {foundInodes}, counted {freeInodes}"
    foundInodes freeInodes report
  if writes then
    modify fun fs => { fs with superblock := { fs.superblock with
      freeBlocksCount := freeBlocks, freeInodesCount := freeInodes } }
  return { f with report }

end MkfsExt4.Fsck
