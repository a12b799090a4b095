/-
  A check (`check_opened` of `src/fsck.rs`): the journal, pass 0, the orphans, whether a
  check is due, the passes, and what is written at the end.

  `now` is the time of the run. The replay of the journal takes fuel (`MkfsExt4.Jbd2`), and a
  replay that runs out of it is a run that never ends.
-/
import MkfsExt4.Fsck.Passes
import MkfsExt4.Jbd2.Recovery
import MkfsExt4.Orphan

namespace MkfsExt4.Fsck

open Lib.Store Lib.Hoare Filesystem

def modifySb (f : Superblock → Superblock) : FsM Unit :=
  modify fun fs => { fs with superblock := f fs.superblock }

def setState (f : Nat → Nat) : FsM Unit := modifySb fun sb => { sb with state := f sb.state }

/-- Set or clear bits of `s_state`. -/
def withBits (bits n : Nat) : Nat := n ||| bits

def withoutBits (bits n : Nat) : Nat := n - (n &&& bits)

/-! ## The journal -/

/-- Run a command of recovery on the filesystem's device. -/
def onJournal {α : Type} (m : Jbd2.FsM α) : FsM α := do
  let fs ← get
  let (result, view) := exec m
    { dev := fs.device, blockSize := fs.blockSize, blocksCount := fs.superblock.blocksCount }
  set { fs with device := view.dev }
  match result with
  | .ok a => return a
  | .error e => throw (.error e)

/-- Open the filesystem's internal journal, or say why it cannot be replayed here. -/
def openJournal : FsM (Except String Jbd2.Journal) := do
  let fs ← get
  let sb := fs.superblock
  let inum := sb.journalInum
  if !sb.featureCompat.contains CompatFeatures.hasJournal then
    return .error "the filesystem has no journal"
  if sb.featureIncompat.contains IncompatFeatures.journalDev then
    return .error "this is an external journal device"
  if inum = 0 then
    return .error ("the journal is external (s_journal_inum 0); " ++
      "only an internal journal can be replayed")
  if inum ≠ Ino.journal then
    return .error s!"the journal is inode {inum}, not the reserved journal inode 8"
  let inode ← reading fun fs => fs.readInode inum
  if !inode.hasBlockMap ∨ inode.linksCount = 0 then
    return .error "the journal inode is not in use"
  reading fun fs => panicIf (fs.blockSize = 0)
  -- A journal too small to be one is refused before its blocks are walked.
  match if inode.size / fs.blockSize < 2 then .done () else fs.walkBlocks inode with
  | (_, .error (.error e)) => return .error ("the journal inode's blocks: " ++ e.display)
  | (_, .error other) => throw other
  | (refs, .ok ()) =>
    let data := refs.filterMap fun r =>
      if r.kind = .data then r.logical.map (·, r.physical) else none
    onJournal (Jbd2.openAt inode.size data)

/-- Clear `s_errno`, once it is in the filesystem's own state. -/
def clearErrno (journal : Jbd2.Journal) : FsM Unit :=
  onJournal <| Jbd2.writeBlock (journal.map.getD 0 0)
    (journal.stamp (splice journal.raw Jbd2.offErrno [0, 0, 0, 0]))

/-- `e2fsck`'s `preenhalt`: record that the filesystem has errors, and stop. -/
def preenHalt (report : FsckReport) : FsM FsckReport := do
  setState (withBits State.errorFs)
  flushSuperblock
  return { report with preenHalted := true }

/-- Replay the journal, reload the filesystem and clear `needs_recovery`. -/
def replayJournal (fuel : Nat) (journal : Jbd2.Journal) (report : FsckReport) :
    FsM FsckReport := do
  match ← onJournal (Jbd2.recover fuel journal) with
  | none => throw .looping
  | some (recovery, _) =>
    reload
    modifySb fun sb =>
      { sb with featureIncompat := sb.featureIncompat.remove IncompatFeatures.recover }
    if recovery.errors ≠ [] then setState (withoutBits State.validFs)
    if recovery.errno ≠ 0 then setState (withBits State.errorFs)
    flushSuperblock
    let count := (recovery.transactions.2 + 2 ^ 32 - recovery.transactions.1) % 2 ^ 32
    let replayed := recovery.blocksReplayed
    let hits := recovery.revokeHits
    let report := report.pushFixed 0 .journalRecovered .info
      s!"recovering journal: {count} transactions, {replayed} blocks replayed, {hits} revoked" true
    return recovery.errors.foldl (fun r e => r.push 0 .journalRecoveryError .info e) report

/-- A journal that opened: whether the check must stop here. -/
def openedJournal (fuel : Nat) (options : FsckOptions) (recover : Bool)
    (journal : Jbd2.Journal) (report : FsckReport) : FsM (Bool × FsckReport) := do
  let writes := options.writes
  let hasData : Bool := journal.header.start ≠ 0
  let unflagged : Bool := !recover && hasData
  let found := if unflagged ∧ !writes then
      "journal has data, but the needs_recovery flag is clear"
    else "journal has data, but the needs_recovery flag is clear; journal replayed"
  let report := if unflagged then
      report.pushFixed 0 .journalHasData .fixable found (options.repair && !options.preen)
    else report
  if unflagged ∧ options.preen then return (true, ← preenHalt report)
  else if unflagged ∧ !writes then return (false, report)
  else if !recover ∧ !hasData then
    if journal.header.errno ≠ 0 then
      setState (withBits State.errorFs)
      if writes then
        clearErrno journal
        flushSuperblock
    return (false, report)
  else if !writes then
    if journal.header.errno ≠ 0 then setState (withBits State.errorFs)
    return (false, report.push 0 .journalRecoverySkipped .info
      "skipping journal recovery because doing a read-only filesystem check")
  else return (false, ← replayJournal fuel journal report)

/-- The journal, before anything else. The answer is whether the check must stop here. -/
def journalStage (fuel : Nat) (options : FsckOptions) (report : FsckReport) :
    FsM (Bool × FsckReport) := do
  let fs ← get
  let sb := fs.superblock
  let recover := sb.featureIncompat.contains IncompatFeatures.recover
  let writes := options.writes
  if !sb.featureCompat.contains CompatFeatures.hasJournal then
    if !recover then return (false, report)
    if writes then
      modifySb fun sb =>
        { sb with featureIncompat := sb.featureIncompat.remove IncompatFeatures.recover }
      flushSuperblock
    return (false, report.pushFixed 0 .recoverFlagWithoutJournal .fixable
      "superblock needs_recovery flag is set, but no journal is present" writes)
  else
    match ← openJournal with
    | .ok journal => openedJournal fuel options recover journal report
    | .error why =>
      if !recover then return (false, report)
      let report := report.push 0 .journalUnreplayable .serious
        ("the journal needs recovery, and " ++ why ++ "; mount and unmount the " ++
          "filesystem to let the kernel replay it, or run e2fsck")
      if !writes then return (false, report)
      if options.preen then return (true, ← preenHalt report)
      return (true, report)

/-! ## The orphans -/

/-- Release the orphans, and note each. -/
def orphanStage (now : Nat) (report : FsckReport) : FsM FsckReport := do
  let released ← Orphan.releaseOrphans (now % 2 ^ 32)
  let report := released.released.foldl (fun r o =>
    r.pushFixed 0 .orphanReleased .info o.message true) report
  let report := report.pushIf released.skippedForErrors 0 .orphanReleaseError .info
    "orphan list not processed: the filesystem records errors"
  if released.errors = [] then return report
  setState (withoutBits State.validFs)
  flushSuperblock
  return released.errors.foldl (fun r e => r.push 0 .orphanReleaseError .info e) report

/-! ## Whether a check is due -/

/-- How far in the future a last-check time may be before it counts as wrong. -/
def timeFudge : Nat := 86400

/-- The first backup that decodes, compared for features, size and UUID. -/
def backupDiffers (fs : Filesystem) : List Nat → Except Failure Bool
  | [] => .ok false
  | group :: rest =>
    if !fs.groupHasSuper group then backupDiffers fs rest
    else do
      let block ← fs.readBlock (fs.groupFirstBlock group)
      panicIf (block.length < superblockLen)
      match Superblock.decode (block.take superblockLen) with
      | .error _ => backupDiffers fs rest
      | .ok backup =>
        let sb := fs.superblock
        let incompat := IncompatFeatures.extents ||| IncompatFeatures.recover
        let ro := RoCompatFeatures.largeFile ||| RoCompatFeatures.dirNlink
        return backup.featureCompat ≠ sb.featureCompat ||
          backup.featureIncompat.remove incompat ≠ sb.featureIncompat.remove incompat ||
          backup.featureRoCompat.remove ro ≠ sb.featureRoCompat.remove ro ||
          backup.blocksCount ≠ sb.blocksCount || backup.inodesCount ≠ sb.inodesCount ||
          backup.uuid ≠ sb.uuid

def backupSuperblockDiffers (fs : Filesystem) : Except Failure Bool :=
  backupDiffers fs ((List.range fs.groupCount).drop 1)

/-- A reason that lies in the mount count or the time of the last check. -/
def dueByAge (sb : Superblock) (now : Nat) : Option String :=
  let mounts := sb.mntCount
  let lastcheck := if now < sb.lastcheck then sb.lastcheck - timeFudge else sb.lastcheck
  let days := (now - sb.lastcheck) / 86400
  if 0 < sb.maxMntCount ∧ sb.maxMntCount ≤ mounts then
    some s!"has been mounted {mounts} times without being checked"
  else if sb.checkinterval = 0 then none
  else if now < lastcheck then some "has filesystem last checked time in the future"
  else if sb.checkinterval ≤ now - lastcheck then
    some s!"has gone {days} days without being checked"
  else none

/-- Why a full check is due, or `none` if the filesystem may be skipped. -/
def checkDue (options : FsckOptions) (now : Nat) (report : FsckReport) (fs : Filesystem) :
    Except Failure (Option String) := do
  let sb := fs.superblock
  if sb.state &&& State.errorFs ≠ 0 ∨ report.problems.any (·.isWrong) then
    return some "contains a file system with errors"
  else if sb.state &&& State.validFs = 0 then return some "was not cleanly unmounted"
  else if sb.featureIncompat.contains IncompatFeatures.recover then
    return some "needs journal recovery"
  else if Orphan.hasOrphans sb then return some "has orphan inodes to release"
  else
    let differs ← if options.writes then backupSuperblockDiffers fs else pure false
    if differs then return some "primary superblock features different from backup"
    return dueByAge sb now

/-- Mounts until a check falls due, when that is five or fewer. -/
def nextCheck (sb : Superblock) (now : Nat) : Option Nat :=
  let byMounts : Int := if 0 < sb.maxMntCount then max (sb.maxMntCount - sb.mntCount) 1 else 100000
  let next : Int :=
    if sb.checkinterval ≠ 0 ∧ sb.checkinterval ≤ now - sb.lastcheck then 1 else byMounts
  if next ≤ 5 then some next.toNat else none

/-- Skip a clean filesystem, bringing the superblock's free counts into line when writing. -/
def skip (options : FsckOptions) (now : Nat) (report : FsckReport) : FsM FsckReport := do
  if options.writes then
    let fs ← get
    let freeBlocks := (fs.groupDescs.map (·.freeBlocksCount)).sum
    let freeInodes := (fs.groupDescs.map (·.freeInodesCount)).sum
    if fs.superblock.freeBlocksCount ≠ freeBlocks ∨ fs.superblock.freeInodesCount ≠ freeInodes then
      modifySb fun sb => { sb with freeBlocksCount := freeBlocks, freeInodesCount := freeInodes }
      flushSuperblock
  let fs ← get
  let sb := fs.superblock
  return { report with
    problems := report.problems.filter (·.isNote)
    inodesUsed := sb.inodesCount - sb.freeInodesCount
    blocksUsed := sb.blocksCount - sb.freeBlocksCount
    scope := .skipped (nextCheck sb now) }

/-! ## The whole check -/

/-- Everything before pass 1. `.error` is a report with which the check ends here. -/
def prepare (fuel : Nat) (options : FsckOptions) (now : Nat) :
    FsM (Except FsckReport Findings) := do
  let (stop, report) ← journalStage fuel options {}
  let fs ← get
  let report := { report with
    inodesCount := fs.superblock.inodesCount, blocksCount := fs.superblock.blocksCount }
  if stop then return .error report
  let f ← reading fun fs => pass0Superblock fs { report, state := .new fs }
  let serious := f.report.problems.any fun p => p.severity = .serious
  let report ←
    if options.writes ∧ !serious ∧ Orphan.hasOrphans fs.superblock then orphanStage now f.report
    else pure f.report
  if options.force then return .ok { f with report }
  match ← reading (checkDue options now report) with
  | some reason => return .ok { f with report := { report with scope := .due reason } }
  | none => return .error (← skip options now report)

/-- What `prepare` ends with, once the orphans are dealt with: the passes are due, or skipped. -/
def goOn (options : FsckOptions) (now : Nat) (f : Findings) (report : FsckReport) :
    FsM (Except FsckReport Findings) := do
  if options.force then return .ok { f with report }
  match ← reading (checkDue options now report) with
  | some reason => return .ok { f with report := { report with scope := .due reason } }
  | none => return .error (← skip options now report)

/-- Correct the link counts pass 4 found wrong. -/
def fixLinks (report : FsckReport) (fix : LinkFix) : FsM FsckReport := do
  let inode ← reading fun fs => fs.readInode fix.inum
  writeInode fix.inum { inode with linksCount := fix.observed }
  return report.markFixed fix.index

/-- What is written at the end of a check that may write: valid if nothing is left wrong, not
    valid otherwise, and the check recorded. -/
def finish (now : Nat) (report : FsckReport) : FsM FsckReport := do
  let fs ← get
  let leftWrong : Bool := report.problems.any fun p => !p.fixed && p.isWrong
  let wasValid : Bool := fs.superblock.state &&& State.validFs ≠ 0
  let report :=
    if leftWrong then report
    else
      let report := if wasValid then report else
        report.pushFixed 0 .markedClean .fixable
          "filesystem was not cleanly unmounted; marked clean" true
      { report with problems := report.problems.map fun p =>
          if p.code = .fsHasErrors then { p with fixed := true } else p }
  modifySb fun sb =>
    { sb with
      state := if leftWrong then withoutBits State.validFs sb.state else State.validFs
      lastcheck := now
      mntCount := 0 }
  flushSuperblock
  if report.repairedAnything then flushGroupDescs
  return report

/-- Passes 1 to 4: what they find, and the link counts to correct. -/
def scan (fs : Filesystem) (f : Findings) : Except Failure (Findings × List LinkFix) := do
  let f ← pass1Inodes fs f
  let f ← pass2Directories fs f
  pass4LinkCounts fs (pass3Connectivity f)

/-- The repairs: link counts, bitmaps and counts, and the superblock. -/
def repairs (options : FsckOptions) (now : Nat) (f : Findings) (fixes : List LinkFix) :
    FsM FsckReport := do
  if options.writes then
    let report ← fixes.foldlM fixLinks f.report
    let f ← pass5Bitmaps true { f with report }
    finish now f.report
  else
    let f ← pass5Bitmaps false f
    return f.report

/-- The passes, from pass 1 on. -/
def passes (options : FsckOptions) (now : Nat) (f : Findings) : FsM FsckReport := do
  let (f, fixes) ← reading fun fs => scan fs f
  let report := { f.report with
    blocksUsed := f.state.blocks.count
    inodesUsed := f.state.inodesInUse.length
    directories := f.state.directories.length }
  if options.preen ∧ report.problems.any needsAPerson then preenHalt report
  else repairs options now { f with report } fixes

/-- Check an already-opened filesystem. -/
def checkOpened (fuel : Nat) (options : FsckOptions) (now : Nat) : FsM FsckReport := do
  match ← prepare fuel options now with
  | .error report => return report
  | .ok f => passes options now f

/-- Check a filesystem, and repair it if asked: the report and the device it leaves. -/
def check (fuel : Nat) (options : FsckOptions) (now : Nat) (device : Device) :
    Except Failure FsckReport × Device :=
  match Filesystem.openOn device with
  | .error e => (.error e, device)
  | .ok fs =>
    let (result, fs) := exec (checkOpened fuel options now) fs
    (result, fs.device)

end MkfsExt4.Fsck
