/-
  What a check is asked and what it reports (`src/fsck.rs`).
-/
import MkfsExt4.Error

namespace MkfsExt4.Fsck

/-- How to run the check. -/
structure FsckOptions where
  /-- Write the fixes rather than only reporting them. -/
  repair : Bool := false
  /-- Check even when the superblock says the filesystem is clean. -/
  force : Bool := false
  /-- Repair only what needs no person, and stop on anything else. -/
  preen : Bool := false
deriving DecidableEq, Repr

namespace FsckOptions

/-- Report only; never write. -/
def checkOnly : FsckOptions := {}

/-- Report and repair, checking whatever the superblock says: `e2fsck -fy`. -/
def repairAll : FsckOptions := { repair := true, force := true }

/-- Whether this run may write. -/
def writes (o : FsckOptions) : Bool := o.repair || o.preen

end FsckOptions

/-- Whether the passes ran, and why. -/
inductive CheckScope where
  | forced
  | due (reason : String)
  | skipped (nextCheck : Option Nat)
deriving DecidableEq, Repr

/-- How bad a finding is. -/
inductive Severity where
  /-- Worth saying, but not wrong. -/
  | info
  /-- Wrong, and safe to correct. -/
  | fixable
  /-- Wrong in a way this implementation will not correct on its own. -/
  | serious
deriving DecidableEq, Repr

/-- The stable identifiers of the findings. -/
inductive Code where
  | journalRecovered | journalRecoveryError | journalRecoverySkipped
  | orphanReleased | orphanReleaseError
  | recoverFlagWithoutJournal | journalUnreplayable | journalHasData
  | fsHasErrors | zeroGeometry | badInodeSize | journalAdvertisedButAbsent | superblockCsum
  | badDescPointer | groupDescCsum
  | inodeCsum | deletedButLinked | unwalkableBlockMap | blockOutOfRange | extentCsum
  | iBlocksWrong | duplicateBlock
  | dirBlockUnreadable | dirBlockCsum | dirBlockMalformed | dotWrong | dotMissing
  | dotdotMissing | entryInodeOutOfRange | duplicateName | entryPointsAtFreeInode
  | filetypeMismatch
  | noRootDirectory | disconnectedDirectory | parentMismatch
  | unreferencedInode | linkCountWrong
  | blockBitmapDiffers | inodeBitmapDiffers | groupFreeBlocksWrong | groupFreeInodesWrong
  | groupDirCountWrong | superblockFreeBlocksWrong | superblockFreeInodesWrong
  | markedClean
deriving DecidableEq, Repr

/-- One thing found wrong. -/
structure Problem where
  pass : Nat
  code : Code
  severity : Severity
  message : String
  /-- Whether this run corrected it. -/
  fixed : Bool
deriving DecidableEq, Repr

/-- Findings that report something done, or not done, rather than something wrong. -/
def notes : List Code :=
  [.journalRecovered, .journalRecoveryError, .journalRecoverySkipped, .orphanReleased,
    .orphanReleaseError]

namespace Problem

def isNote (p : Problem) : Bool := p.code ∈ notes

/-- `severity > Severity::Info` -/
def isWrong (p : Problem) : Bool := p.severity ≠ .info

/-- Whether this run left it wrong. -/
def isUnfixed (p : Problem) : Bool := !p.fixed && !p.isNote

end Problem

/-- The result of a check. -/
structure FsckReport where
  problems : List Problem := []
  inodesUsed : Nat := 0
  blocksUsed : Nat := 0
  inodesCount : Nat := 0
  blocksCount : Nat := 0
  directories : Nat := 0
  scope : CheckScope := .forced
  /-- A preening check found something it may not repair, and stopped. -/
  preenHalted : Bool := false

namespace FsckReport

variable (r : FsckReport)

/-- Whether anything was corrected. -/
def repairedAnything : Bool := r.problems.any fun p => p.fixed && !p.isNote

/-- An `e2fsck`-compatible exit code: 0 clean, 1 errors corrected, 4 errors left. -/
def exitCode : Nat :=
  if r.problems.any (·.isUnfixed) then 4 else if r.repairedAnything then 1 else 0

/-- Record a problem and mark it fixed if repairing. -/
def pushFixed (pass : Nat) (code : Code) (severity : Severity) (message : String)
    (repairing : Bool) : FsckReport :=
  { r with problems := r.problems ++ [{ pass, code, severity, message, fixed := repairing }] }

def push (pass : Nat) (code : Code) (severity : Severity) (message : String) : FsckReport :=
  r.pushFixed pass code severity message false

/-- Record a problem when `bad` holds. -/
def pushIf (bad : Prop) [Decidable bad] (pass : Nat) (code : Code) (severity : Severity)
    (message : String) : FsckReport :=
  if bad then r.push pass code severity message else r

/-- Mark the `index`-th problem fixed. -/
def markFixed (index : Nat) : FsckReport :=
  { r with problems := r.problems.modify index fun p => { p with fixed := true } }

end FsckReport

/-- What a preening check repairs without asking. -/
def preenOk : List Code :=
  [.recoverFlagWithoutJournal, .linkCountWrong, .blockBitmapDiffers, .inodeBitmapDiffers,
    .groupFreeBlocksWrong, .groupFreeInodesWrong, .groupDirCountWrong,
    .superblockFreeBlocksWrong, .superblockFreeInodesWrong]

/-- Whether a finding stops a preening check. -/
def needsAPerson (p : Problem) : Bool := p.isWrong && p.code ∉ preenOk

end MkfsExt4.Fsck
