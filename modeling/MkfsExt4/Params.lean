/-
  Formatting parameters (`src/params.rs`), and the defaults `mke2fs` applies.

  The share of blocks reserved for root is a floating-point percentage in the source; here it
  is the function that takes a block count to the number of blocks it comes to.
-/
import MkfsExt4.Features

namespace MkfsExt4

/-- Which filesystem to write. -/
inductive Profile where
  | ext2
  | ext3
  | ext4
deriving DecidableEq, Repr

/-- `base_features` from `mke2fs.conf`: the features every profile starts with. -/
def baseFeatures : FeatureMasks where
  compat := CompatFeatures.resizeInode ||| CompatFeatures.dirIndex ||| CompatFeatures.extAttr
  incompat := IncompatFeatures.filetype
  roCompat := RoCompatFeatures.sparseSuper ||| RoCompatFeatures.largeFile

/-- Features a profile adds over `baseFeatures`. -/
def Profile.features (p : Profile) : FeatureMasks :=
  let m := baseFeatures
  match p with
  | .ext2 => m
  | .ext3 => { m with compat := m.compat ||| CompatFeatures.hasJournal }
  | .ext4 =>
    { compat := m.compat ||| (CompatFeatures.hasJournal ||| CompatFeatures.orphanFile)
      incompat := m.incompat ||| (IncompatFeatures.extents ||| IncompatFeatures.flexBg |||
        IncompatFeatures.sixtyFourBit ||| IncompatFeatures.csumSeed)
      roCompat := m.roCompat ||| (RoCompatFeatures.hugeFile ||| RoCompatFeatures.metadataCsum |||
        RoCompatFeatures.dirNlink ||| RoCompatFeatures.extraIsize) }

/-- The size class `mke2fs` puts a filesystem in. -/
inductive SizeType where
  | floppy
  | small
  | default
  | big
  | huge
deriving DecidableEq, Repr

namespace SizeType

def mib : Nat := 1024 * 1024

/-- Classify by total size in bytes. -/
def of (sizeBytes : Nat) : SizeType :=
  if sizeBytes < 3 * mib then .floppy
  else if sizeBytes < 512 * mib then .small
  else if sizeBytes < 4 * 1024 * 1024 * mib then .default
  else if sizeBytes < 16 * 1024 * 1024 * mib then .big
  else .huge

/-- Default block size of the class. -/
def blockSize : SizeType → Nat
  | floppy | small => 1024
  | _ => 4096

/-- Default bytes per inode of the class. -/
def inodeRatio : SizeType → Nat
  | floppy => 8192
  | small => 4096
  | default => 16384
  | big => 32768
  | huge => 65536

end SizeType

/-- How large a journal to create. -/
inductive JournalSize where
  | default
  | blocks (n : Nat)
  | none
deriving DecidableEq, Repr

/-- `DEFAULT_MNTOPTS`: `acl,user_xattr`. -/
def defaultMntopts : Nat := 0x0008 ||| 0x0004

/-- Everything needed to lay down a filesystem. -/
structure Params where
  profile : Profile := .ext4
  blockSize : Option Nat := none
  sectorSize : Option Nat := none
  inodeSize : Option Nat := none
  inodesCount : Option Nat := none
  inodeRatio : Option Nat := none
  /-- `(blocks_count as f64 * reserved_percent / 100.0) as u64` -/
  reservedBlocks : Nat → Nat := fun blocks => blocks * 5 / 100
  /-- The label's bytes. -/
  label : Option (List UInt8) := none
  uuid : Option (List UInt8) := none
  hashSeed : Option (List UInt8) := none
  blocksPerGroup : Option Nat := none
  flexBgSize : Option Nat := none
  firstMetaBg : Option Nat := none
  mmpUpdateInterval : Option Nat := none
  journal : JournalSize := .default
  featureSpec : Option String := none
  mkfsTime : Option Nat := none
  /-- Leave inode tables unwritten. -/
  lazyItableInit : Bool := false
  /-- The device already reads back as zeros everywhere. -/
  zeroedMedium : Bool := false
  resuid : Nat := 0
  resgid : Nat := 0
  concurrency : Option Nat := none

/-- The numbers of `Params` are within their types in the source. -/
structure Params.Typed (params : Params) : Prop where
  blockSize : ∀ n ∈ params.blockSize, n < 2 ^ 32
  sectorSize : ∀ n ∈ params.sectorSize, n < 2 ^ 32
  inodeSize : ∀ n ∈ params.inodeSize, n < 2 ^ 16
  inodesCount : ∀ n ∈ params.inodesCount, n < 2 ^ 32
  inodeRatio : ∀ n ∈ params.inodeRatio, n < 2 ^ 32
  reservedBlocks : ∀ n < 2 ^ 64, params.reservedBlocks n < 2 ^ 64
  uuid : ∀ u ∈ params.uuid, u.length = 16
  hashSeed : ∀ s ∈ params.hashSeed, s.length = 16
  blocksPerGroup : ∀ n ∈ params.blocksPerGroup, n < 2 ^ 32
  flexBgSize : ∀ n ∈ params.flexBgSize, n < 2 ^ 32
  firstMetaBg : ∀ n ∈ params.firstMetaBg, n < 2 ^ 32
  mmpUpdateInterval : ∀ n ∈ params.mmpUpdateInterval, n < 2 ^ 16
  journal : ∀ n, params.journal = .blocks n → n < 2 ^ 32
  mkfsTime : ∀ n ∈ params.mkfsTime, n < 2 ^ 64
  resuid : params.resuid < 2 ^ 16
  resgid : params.resgid < 2 ^ 16

theorem Params.typed_default : ({} : Params).Typed where
  blockSize := nofun
  sectorSize := nofun
  inodeSize := nofun
  inodesCount := nofun
  inodeRatio := nofun
  reservedBlocks n hn := by
    show n * 5 / 100 < 2 ^ 64
    omega
  uuid := nofun
  hashSeed := nofun
  blocksPerGroup := nofun
  flexBgSize := nofun
  firstMetaBg := nofun
  mmpUpdateInterval := nofun
  journal := nofun
  mkfsTime := nofun
  resuid := by decide
  resgid := by decide

/-- Apply the rules the format imposes on a feature set, and reject the combinations it
forbids. -/
def normalise (m : FeatureMasks) : Except String FeatureMasks :=
  if m.roCompat.contains RoCompatFeatures.metadataCsum ∧
      m.roCompat.contains RoCompatFeatures.gdtCsum then
    .error "metadata_csum and uninit_bg cannot both be set"
  else
    let m := if m.compat.contains CompatFeatures.hasJournal then m
      else { m with compat := m.compat.remove CompatFeatures.orphanFile }
    let m := if m.incompat.contains IncompatFeatures.csumSeed ∧
        ¬ m.roCompat.contains RoCompatFeatures.metadataCsum then
      { m with incompat := m.incompat.remove IncompatFeatures.csumSeed } else m
    if m.incompat.contains IncompatFeatures.sixtyFourBit ∧
        ¬ m.incompat.contains IncompatFeatures.extents then
      .error "the 64bit feature requires extents"
    else if m.incompat.contains IncompatFeatures.metaBg then
      .ok { m with compat := m.compat.remove CompatFeatures.resizeInode }
    else .ok m

/-- The profile's features, then the `-O` overrides, then what the format requires. -/
def Params.resolveFeatures (params : Params) : Except String FeatureMasks := do
  let m := params.profile.features
  let m ← match params.featureSpec with
    | some spec => m.apply spec
    | none => pure m
  let m := match params.journal with
    | .none => { m with compat := m.compat.remove CompatFeatures.hasJournal }
    | _ => m
  normalise m

end MkfsExt4
