/-
  The superblock (`src/structs/superblock.rs`): the 1024 bytes that describe a filesystem.
  Offsets are those of the source's `off` module.
-/
import MkfsExt4.Bytes
import MkfsExt4.Csum
import MkfsExt4.Error
import MkfsExt4.Features

namespace MkfsExt4

open Lib.Store Lib.Endian

/-- Byte offset of the primary superblock. -/
def superblockOffset : Nat := 1024

def superblockLen : Nat := 1024

def ext2SuperMagic : Nat := 0xef53

def goodOldInodeSize : Nat := 128

def goodOldFirstIno : Nat := 11

def minDescSize : Nat := 32

def minDescSize64bit : Nat := 64

/-! Reserved inode numbers. -/

namespace Ino

def bad : Nat := 1
def root : Nat := 2
def usrQuota : Nat := 3
def grpQuota : Nat := 4
def bootLoader : Nat := 5
def undelDir : Nat := 6
def resize : Nat := 7
def journal : Nat := 8
def exclude : Nat := 9
def replica : Nat := 10

end Ino

/-! Bits of `s_state`. -/

namespace State

def validFs : Nat := 0x0001
def errorFs : Nat := 0x0002

end State

/-- A decoded superblock. -/
structure Superblock where
  (inodesCount blocksCount rBlocksCount freeBlocksCount freeInodesCount firstDataBlock : Nat)
  (logBlockSize logClusterSize blocksPerGroup clustersPerGroup inodesPerGroup mtime : Nat)
  (wtime mntCount : Nat)
  maxMntCount : Int
  (state errors minorRevLevel lastcheck checkinterval creatorOs : Nat)
  (revLevel defResuid defResgid firstIno inodeSize blockGroupNr : Nat)
  (featureCompat featureIncompat featureRoCompat : Mask)
  (uuid volumeName lastMounted : List UInt8)
  (algorithmUsageBitmap preallocBlocks preallocDirBlocks reservedGdtBlocks : Nat)
  journalUuid : List UInt8
  (journalInum journalDev lastOrphan : Nat)
  hashSeed : List Nat
  (defHashVersion jnlBackupType sDescSize defaultMountOpts firstMetaBg mkfsTime : Nat)
  jnlBlocks : List Nat
  (minExtraIsize wantExtraIsize flags raidStride mmpUpdateInterval mmpBlock : Nat)
  (raidStripeWidth logGroupsPerFlex checksumType encryptionLevel kbytesWritten snapshotInum : Nat)
  (snapshotId snapshotRBlocksCount snapshotList errorCount firstErrorTime firstErrorIno : Nat)
  firstErrorBlock : Nat
  firstErrorFunc : List UInt8
  (firstErrorLine lastErrorTime lastErrorIno lastErrorLine lastErrorBlock : Nat)
  lastErrorFunc : List UInt8
  (firstErrorErrcode lastErrorErrcode : Nat)
  mountOpts : List UInt8
  (usrQuotaInum grpQuotaInum overheadClusters : Nat)
  backupBgs : List Nat
  (encryptAlgos encryptPwSalt : List UInt8)
  (lpfIno prjQuotaInum checksumSeed encoding encodingFlags orphanFileInum : Nat)
  checksum : Nat

/-- `Superblock::default()` -/
def Superblock.default : Superblock :=
  { inodesCount := 0
    blocksCount := 0
    rBlocksCount := 0
    freeBlocksCount := 0
    freeInodesCount := 0
    firstDataBlock := 0
    logBlockSize := 2
    logClusterSize := 2
    blocksPerGroup := 0
    clustersPerGroup := 0
    inodesPerGroup := 0
    mtime := 0
    wtime := 0
    mntCount := 0
    maxMntCount := -1
    state := State.validFs
    errors := 1
    minorRevLevel := 0
    lastcheck := 0
    checkinterval := 0
    creatorOs := 0
    revLevel := 1
    defResuid := 0
    defResgid := 0
    firstIno := goodOldFirstIno
    inodeSize := 256
    blockGroupNr := 0
    featureCompat := 0
    featureIncompat := 0
    featureRoCompat := 0
    uuid := List.replicate 16 0
    volumeName := List.replicate 16 0
    lastMounted := List.replicate 64 0
    algorithmUsageBitmap := 0
    preallocBlocks := 0
    preallocDirBlocks := 0
    reservedGdtBlocks := 0
    journalUuid := List.replicate 16 0
    journalInum := 0
    journalDev := 0
    lastOrphan := 0
    hashSeed := List.replicate 4 0
    defHashVersion := 1
    jnlBackupType := 0
    sDescSize := 0
    defaultMountOpts := 0
    firstMetaBg := 0
    mkfsTime := 0
    jnlBlocks := List.replicate 17 0
    minExtraIsize := 0
    wantExtraIsize := 0
    flags := 0
    raidStride := 0
    mmpUpdateInterval := 0
    mmpBlock := 0
    raidStripeWidth := 0
    logGroupsPerFlex := 0
    checksumType := 0
    encryptionLevel := 0
    kbytesWritten := 0
    snapshotInum := 0
    snapshotId := 0
    snapshotRBlocksCount := 0
    snapshotList := 0
    errorCount := 0
    firstErrorTime := 0
    firstErrorIno := 0
    firstErrorBlock := 0
    firstErrorFunc := List.replicate 32 0
    firstErrorLine := 0
    lastErrorTime := 0
    lastErrorIno := 0
    lastErrorLine := 0
    lastErrorBlock := 0
    lastErrorFunc := List.replicate 32 0
    firstErrorErrcode := 0
    lastErrorErrcode := 0
    mountOpts := List.replicate 64 0
    usrQuotaInum := 0
    grpQuotaInum := 0
    overheadClusters := 0
    backupBgs := List.replicate 2 0
    encryptAlgos := List.replicate 4 0
    encryptPwSalt := List.replicate 16 0
    lpfIno := 0
    prjQuotaInum := 0
    checksumSeed := 0
    encoding := 0
    encodingFlags := 0
    orphanFileInum := 0
    checksum := 0 }

/-- `lo | hi << w`, for a low part of `w` bits. -/
def join (w lo hi : Nat) : Nat := lo + hi * 2 ^ w

/-- A number in two halves, each cut to its width, is the number cut to the whole width. -/
theorem join_halves (w w' v : Nat) :
    join w (v % 2 ^ w) (v / 2 ^ w % 2 ^ w') = v % 2 ^ (w + w') := by
  rw [join, Nat.pow_add, Nat.mod_mul, Nat.mul_comm]

/-- The halves of a joined number. -/
theorem join_mod {w lo : Nat} (hi : Nat) (h : lo < 2 ^ w) : join w lo hi % 2 ^ w = lo := by
  rw [join, Nat.add_mul_mod_self_right, Nat.mod_eq_of_lt h]

theorem join_div {w lo : Nat} (hi : Nat) (h : lo < 2 ^ w) : join w lo hi / 2 ^ w = hi := by
  rw [join, Nat.add_mul_div_right _ _ (Nat.two_pow_pos w), Nat.div_eq_of_lt h, Nat.zero_add]

/-- Writing back the low word of a number in two halves. -/
theorem putU32_join {buf : List UInt8} {off hi : Nat} (h : off + 4 ≤ buf.length) :
    putU32 buf off (join 32 (getU32 buf off) hi) = buf := by
  rw [putU32, ← toLe_mod, show (256 : Nat) ^ 4 = 2 ^ 32 from rfl, join_mod hi (getU32_lt _ _)]
  exact putU32_getU32 h

/-- Writing back the high part. -/
theorem putU32_join_div {buf : List UInt8} {lo off : Nat} (h : off + 4 ≤ buf.length) :
    putU32 buf off (join 32 (getU32 buf lo) (getU32 buf off) / 2 ^ 32) = buf := by
  rw [join_div _ (getU32_lt _ _), putU32_getU32 h]

/-- The same for halves of 16 bits. -/
theorem putU16_join {buf : List UInt8} {off hi : Nat} (h : off + 2 ≤ buf.length) :
    putU16 buf off (join 16 (getU16 buf off) hi) = buf := by
  rw [putU16, ← toLe_mod, show (256 : Nat) ^ 2 = 2 ^ 16 from rfl,
    join_mod hi (getU16_lt _ _)]
  exact putU16_getU16 h

theorem putU16_join_div {buf : List UInt8} {lo off : Nat} (h : off + 2 ≤ buf.length) :
    putU16 buf off (join 16 (getU16 buf lo) (getU16 buf off) / 2 ^ 16) = buf := by
  rw [join_div _ (getU16_lt _ _), putU16_getU16 h]

/-- A 16-bit word read as a signed one, and back. -/
def toI16 (n : Nat) : Int := if n < 2 ^ 15 then n else (n : Int) - 2 ^ 16

def ofI16 (n : Int) : Nat := (n % 2 ^ 16).toNat

/-- `n` consecutive little-endian words from `off` on. -/
def getU32s (buf : List UInt8) (off n : Nat) : List Nat :=
  (List.range n).map fun i => getU32 buf (off + i * 4)

def putU32s (buf : List UInt8) (off : Nat) : List Nat → List UInt8
  | [] => buf
  | v :: vs => putU32s (putU32 buf off v) (off + 4) vs

namespace Superblock

/-! ## Decoding and encoding -/

/-- Decode a superblock from a 1024-byte buffer. -/
def decode (buf : List UInt8) : Except Error Superblock :=
  let len := buf.length
  let magic := getU16 buf 0x38
  if len < superblockLen then
    .error (.corrupt "superblock" s!"need {superblockLen} bytes, got {len}")
  else if magic ≠ ext2SuperMagic then .error (.notExtFilesystem magic)
  else
    let revLevel := getU32 buf 0x4c
    -- The high bytes extend 32-bit times past 2038.
    let time64 (lo hi : Nat) : Nat := join 32 (getU32 buf lo) (getU8 buf hi)
    .ok {
      inodesCount := getU32 buf 0x0
      blocksCount := join 32 (getU32 buf 0x4) (getU32 buf 0x150)
      rBlocksCount := join 32 (getU32 buf 0x8) (getU32 buf 0x154)
      freeBlocksCount := join 32 (getU32 buf 0xc) (getU32 buf 0x158)
      freeInodesCount := getU32 buf 0x10
      firstDataBlock := getU32 buf 0x14
      logBlockSize := getU32 buf 0x18
      logClusterSize := getU32 buf 0x1c
      blocksPerGroup := getU32 buf 0x20
      clustersPerGroup := getU32 buf 0x24
      inodesPerGroup := getU32 buf 0x28
      mtime := time64 0x2c 0x275
      wtime := time64 0x30 0x274
      mntCount := getU16 buf 0x34
      maxMntCount := toI16 (getU16 buf 0x36)
      state := getU16 buf 0x3a
      errors := getU16 buf 0x3c
      minorRevLevel := getU16 buf 0x3e
      lastcheck := time64 0x40 0x277
      checkinterval := getU32 buf 0x44
      creatorOs := getU32 buf 0x48
      revLevel
      defResuid := getU16 buf 0x50
      defResgid := getU16 buf 0x52
      firstIno := if revLevel = 0 then goodOldFirstIno else getU32 buf 0x54
      inodeSize := if revLevel = 0 then goodOldInodeSize else getU16 buf 0x58
      blockGroupNr := getU16 buf 0x5a
      featureCompat := BitVec.ofNat 32 (getU32 buf 0x5c)
      featureIncompat := BitVec.ofNat 32 (getU32 buf 0x60)
      featureRoCompat := BitVec.ofNat 32 (getU32 buf 0x64)
      uuid := slice buf 0x68 16
      volumeName := slice buf 0x78 16
      lastMounted := slice buf 0x88 64
      algorithmUsageBitmap := getU32 buf 0xc8
      preallocBlocks := getU8 buf 0xcc
      preallocDirBlocks := getU8 buf 0xcd
      reservedGdtBlocks := getU16 buf 0xce
      journalUuid := slice buf 0xd0 16
      journalInum := getU32 buf 0xe0
      journalDev := getU32 buf 0xe4
      lastOrphan := getU32 buf 0xe8
      hashSeed := getU32s buf 0xec 4
      defHashVersion := getU8 buf 0xfc
      jnlBackupType := getU8 buf 0xfd
      sDescSize := getU16 buf 0xfe
      defaultMountOpts := getU32 buf 0x100
      firstMetaBg := getU32 buf 0x104
      mkfsTime := time64 0x108 0x276
      jnlBlocks := getU32s buf 0x10c 17
      minExtraIsize := getU16 buf 0x15c
      wantExtraIsize := getU16 buf 0x15e
      flags := getU32 buf 0x160
      raidStride := getU16 buf 0x164
      mmpUpdateInterval := getU16 buf 0x166
      mmpBlock := getU64 buf 0x168
      raidStripeWidth := getU32 buf 0x170
      logGroupsPerFlex := getU8 buf 0x174
      checksumType := getU8 buf 0x175
      encryptionLevel := getU8 buf 0x176
      kbytesWritten := getU64 buf 0x178
      snapshotInum := getU32 buf 0x180
      snapshotId := getU32 buf 0x184
      snapshotRBlocksCount := getU64 buf 0x188
      snapshotList := getU32 buf 0x190
      errorCount := getU32 buf 0x194
      firstErrorTime := time64 0x198 0x278
      firstErrorIno := getU32 buf 0x19c
      firstErrorBlock := getU64 buf 0x1a0
      firstErrorFunc := slice buf 0x1a8 32
      firstErrorLine := getU32 buf 0x1c8
      lastErrorTime := time64 0x1cc 0x279
      lastErrorIno := getU32 buf 0x1d0
      lastErrorLine := getU32 buf 0x1d4
      lastErrorBlock := getU64 buf 0x1d8
      lastErrorFunc := slice buf 0x1e0 32
      firstErrorErrcode := getU8 buf 0x27a
      lastErrorErrcode := getU8 buf 0x27b
      mountOpts := slice buf 0x200 64
      usrQuotaInum := getU32 buf 0x240
      grpQuotaInum := getU32 buf 0x244
      overheadClusters := getU32 buf 0x248
      backupBgs := getU32s buf 0x24c 2
      encryptAlgos := slice buf 0x254 4
      encryptPwSalt := slice buf 0x258 16
      lpfIno := getU32 buf 0x268
      prjQuotaInum := getU32 buf 0x26c
      checksumSeed := getU32 buf 0x270
      encoding := getU16 buf 0x27c
      encodingFlags := getU16 buf 0x27e
      orphanFileInum := getU32 buf 0x280
      checksum := getU32 buf 0x3fc }

/-- What decodes has the magic. -/
theorem decode_magic {buf : List UInt8} {sb : Superblock} (h : decode buf = .ok sb) :
    getU16 buf 0x38 = ext2SuperMagic := by
  unfold decode at h
  dsimp only at h
  split at h
  · cases h
  · split at h
    · cases h
    · next hmagic => exact not_not.mp hmagic

/-- Whether metadata checksums are in use. -/
def hasMetadataCsum (sb : Superblock) : Bool :=
  sb.featureRoCompat.contains RoCompatFeatures.metadataCsum

/-- The fields, without the checksum. -/
def encodeFields (sb : Superblock) (buf : List UInt8) : List UInt8 :=
  let buf := putU32 buf 0x0 sb.inodesCount
  let buf := putU32 buf 0x4 sb.blocksCount
  let buf := putU32 buf 0x8 sb.rBlocksCount
  let buf := putU32 buf 0xc sb.freeBlocksCount
  let buf := putU32 buf 0x10 sb.freeInodesCount
  let buf := putU32 buf 0x14 sb.firstDataBlock
  let buf := putU32 buf 0x18 sb.logBlockSize
  let buf := putU32 buf 0x1c sb.logClusterSize
  let buf := putU32 buf 0x20 sb.blocksPerGroup
  let buf := putU32 buf 0x24 sb.clustersPerGroup
  let buf := putU32 buf 0x28 sb.inodesPerGroup
  let buf := putU32 buf 0x2c sb.mtime
  let buf := putU32 buf 0x30 sb.wtime
  let buf := putU16 buf 0x34 sb.mntCount
  let buf := putU16 buf 0x36 (ofI16 sb.maxMntCount)
  let buf := putU16 buf 0x38 ext2SuperMagic
  let buf := putU16 buf 0x3a sb.state
  let buf := putU16 buf 0x3c sb.errors
  let buf := putU16 buf 0x3e sb.minorRevLevel
  let buf := putU32 buf 0x40 sb.lastcheck
  let buf := putU32 buf 0x44 sb.checkinterval
  let buf := putU32 buf 0x48 sb.creatorOs
  let buf := putU32 buf 0x4c sb.revLevel
  let buf := putU16 buf 0x50 sb.defResuid
  let buf := putU16 buf 0x52 sb.defResgid
  let buf := putU32 buf 0x54 sb.firstIno
  let buf := putU16 buf 0x58 sb.inodeSize
  let buf := putU16 buf 0x5a sb.blockGroupNr
  let buf := putU32 buf 0x5c sb.featureCompat.toNat
  let buf := putU32 buf 0x60 sb.featureIncompat.toNat
  let buf := putU32 buf 0x64 sb.featureRoCompat.toNat
  let buf := putBytes buf 0x68 16 sb.uuid
  let buf := putBytes buf 0x78 16 sb.volumeName
  let buf := putBytes buf 0x88 64 sb.lastMounted
  let buf := putU32 buf 0xc8 sb.algorithmUsageBitmap
  let buf := putU8 buf 0xcc sb.preallocBlocks
  let buf := putU8 buf 0xcd sb.preallocDirBlocks
  let buf := putU16 buf 0xce sb.reservedGdtBlocks
  let buf := putBytes buf 0xd0 16 sb.journalUuid
  let buf := putU32 buf 0xe0 sb.journalInum
  let buf := putU32 buf 0xe4 sb.journalDev
  let buf := putU32 buf 0xe8 sb.lastOrphan
  let buf := putU32s buf 0xec sb.hashSeed
  let buf := putU8 buf 0xfc sb.defHashVersion
  let buf := putU8 buf 0xfd sb.jnlBackupType
  let buf := putU16 buf 0xfe sb.sDescSize
  let buf := putU32 buf 0x100 sb.defaultMountOpts
  let buf := putU32 buf 0x104 sb.firstMetaBg
  let buf := putU32 buf 0x108 sb.mkfsTime
  let buf := putU32s buf 0x10c sb.jnlBlocks
  let buf := putU32 buf 0x150 (sb.blocksCount / 2 ^ 32)
  let buf := putU32 buf 0x154 (sb.rBlocksCount / 2 ^ 32)
  let buf := putU32 buf 0x158 (sb.freeBlocksCount / 2 ^ 32)
  let buf := putU16 buf 0x15c sb.minExtraIsize
  let buf := putU16 buf 0x15e sb.wantExtraIsize
  let buf := putU32 buf 0x160 sb.flags
  let buf := putU16 buf 0x164 sb.raidStride
  let buf := putU16 buf 0x166 sb.mmpUpdateInterval
  let buf := putU64 buf 0x168 sb.mmpBlock
  let buf := putU32 buf 0x170 sb.raidStripeWidth
  let buf := putU8 buf 0x174 sb.logGroupsPerFlex
  let buf := putU8 buf 0x175 sb.checksumType
  let buf := putU8 buf 0x176 sb.encryptionLevel
  let buf := putU8 buf 0x177 0
  let buf := putU64 buf 0x178 sb.kbytesWritten
  let buf := putU32 buf 0x180 sb.snapshotInum
  let buf := putU32 buf 0x184 sb.snapshotId
  let buf := putU64 buf 0x188 sb.snapshotRBlocksCount
  let buf := putU32 buf 0x190 sb.snapshotList
  let buf := putU32 buf 0x194 sb.errorCount
  let buf := putU32 buf 0x198 sb.firstErrorTime
  let buf := putU32 buf 0x19c sb.firstErrorIno
  let buf := putU64 buf 0x1a0 sb.firstErrorBlock
  let buf := putBytes buf 0x1a8 32 sb.firstErrorFunc
  let buf := putU32 buf 0x1c8 sb.firstErrorLine
  let buf := putU32 buf 0x1cc sb.lastErrorTime
  let buf := putU32 buf 0x1d0 sb.lastErrorIno
  let buf := putU32 buf 0x1d4 sb.lastErrorLine
  let buf := putU64 buf 0x1d8 sb.lastErrorBlock
  let buf := putBytes buf 0x1e0 32 sb.lastErrorFunc
  let buf := putBytes buf 0x200 64 sb.mountOpts
  let buf := putU32 buf 0x240 sb.usrQuotaInum
  let buf := putU32 buf 0x244 sb.grpQuotaInum
  let buf := putU32 buf 0x248 sb.overheadClusters
  let buf := putU32s buf 0x24c sb.backupBgs
  let buf := putBytes buf 0x254 4 sb.encryptAlgos
  let buf := putBytes buf 0x258 16 sb.encryptPwSalt
  let buf := putU32 buf 0x268 sb.lpfIno
  let buf := putU32 buf 0x26c sb.prjQuotaInum
  let buf := putU32 buf 0x270 sb.checksumSeed
  let buf := putU8 buf 0x274 (sb.wtime / 2 ^ 32)
  let buf := putU8 buf 0x275 (sb.mtime / 2 ^ 32)
  let buf := putU8 buf 0x276 (sb.mkfsTime / 2 ^ 32)
  let buf := putU8 buf 0x277 (sb.lastcheck / 2 ^ 32)
  let buf := putU8 buf 0x278 (sb.firstErrorTime / 2 ^ 32)
  let buf := putU8 buf 0x279 (sb.lastErrorTime / 2 ^ 32)
  let buf := putU8 buf 0x27a sb.firstErrorErrcode
  let buf := putU8 buf 0x27b sb.lastErrorErrcode
  let buf := putU16 buf 0x27c sb.encoding
  let buf := putU16 buf 0x27e sb.encodingFlags
  let buf := putU32 buf 0x280 sb.orphanFileInum
  buf

/-- Encode into `buf`; the checksum covers everything before the field itself. -/
def encodeInto (sb : Superblock) (buf : List UInt8) : List UInt8 :=
  let buf := sb.encodeFields buf
  putU32 buf 0x3fc
    (if sb.hasMetadataCsum then (Csum.crc32c 0xffffffff (buf.take 0x3fc)).toNat else 0)

/-- Encode into a fresh 1024-byte buffer. -/
def encode (sb : Superblock) : List UInt8 := sb.encodeInto (List.replicate superblockLen 0)

/-- Verify `s_checksum` against the buffer it was decoded from. -/
def verifyChecksum (sb : Superblock) (buf : List UInt8) : Bool :=
  if !sb.hasMetadataCsum then true
  else (Csum.crc32c 0xffffffff (buf.take 0x3fc)).toNat == getU32 buf 0x3fc

@[simp] theorem length_putU32s (buf : List UInt8) (off : Nat) (vs : List Nat) :
    (putU32s buf off vs).length = buf.length := by
  induction vs generalizing buf off with
  | nil => rfl
  | cons v vs ih => rw [putU32s, ih, length_putU32]

theorem length_encodeFields (sb : Superblock) (buf : List UInt8) :
    (sb.encodeFields buf).length = buf.length := by
  simp only [encodeFields, length_putU8, length_putU16, length_putU32, length_putU64,
    length_putBytes, length_putU32s]

@[simp] theorem length_encodeInto (sb : Superblock) (buf : List UInt8) :
    (sb.encodeInto buf).length = buf.length := by
  simp only [encodeInto, length_putU32, length_encodeFields]

/-! ### Where the state shows in the encoding -/

/-- Two buffers of one length that agree outside the bytes `a..z`. -/
structure AgreeOff (a z : Nat) (xs ys : List UInt8) : Prop where
  length : ys.length = xs.length
  agree : ∀ i, i < xs.length → ¬ (a ≤ i ∧ i < z) → ys.getD i 0 = xs.getD i 0

namespace AgreeOff

variable {a z : Nat} {xs ys : List UInt8}

theorem refl (xs : List UInt8) : AgreeOff a z xs xs := ⟨rfl, fun _ _ _ => rfl⟩

/-- Writing the same bytes at the same place. -/
theorem splice (h : AgreeOff a z xs ys) (off : Nat) (bs : List UInt8) :
    AgreeOff a z (Lib.Store.splice xs off bs) (Lib.Store.splice ys off bs) := by
  refine ⟨by rw [length_splice, length_splice, h.length], fun i hi hout => ?_⟩
  rw [length_splice] at hi
  rw [getD_splice off bs hi, getD_splice off bs (h.length ▸ hi), h.agree i hi hout]

/-- Writing any bytes within `a..z`. -/
theorem splice_within (h : AgreeOff a z xs ys) {off : Nat} {bs cs : List UInt8} (ha : a ≤ off)
    (hb : off + bs.length ≤ z) (hc : off + cs.length ≤ z) :
    AgreeOff a z (Lib.Store.splice xs off bs) (Lib.Store.splice ys off cs) := by
  refine ⟨by rw [length_splice, length_splice, h.length], fun i hi hout => ?_⟩
  rw [length_splice] at hi
  rw [getD_splice off bs hi, getD_splice off cs (h.length ▸ hi), if_neg (by omega),
    if_neg (by omega), h.agree i hi hout]

theorem putU8 (h : AgreeOff a z xs ys) (off v : Nat) :
    AgreeOff a z (MkfsExt4.putU8 xs off v) (MkfsExt4.putU8 ys off v) := h.splice off _

theorem putU16 (h : AgreeOff a z xs ys) (off v : Nat) :
    AgreeOff a z (MkfsExt4.putU16 xs off v) (MkfsExt4.putU16 ys off v) := h.splice off _

theorem putU32 (h : AgreeOff a z xs ys) (off v : Nat) :
    AgreeOff a z (MkfsExt4.putU32 xs off v) (MkfsExt4.putU32 ys off v) := h.splice off _

theorem putU64 (h : AgreeOff a z xs ys) (off v : Nat) :
    AgreeOff a z (MkfsExt4.putU64 xs off v) (MkfsExt4.putU64 ys off v) := h.splice off _

theorem putBytes (h : AgreeOff a z xs ys) (off len : Nat) (src : List UInt8) :
    AgreeOff a z (MkfsExt4.putBytes xs off len src) (MkfsExt4.putBytes ys off len src) :=
  h.splice off _

theorem putU32s (h : AgreeOff a z xs ys) (off : Nat) (vs : List Nat) :
    AgreeOff a z (MkfsExt4.putU32s xs off vs) (MkfsExt4.putU32s ys off vs) := by
  induction vs generalizing xs ys off with
  | nil => exact h
  | cons v vs ih => exact ih (h.splice off _) (off + 4)

end AgreeOff

/-- Superblocks that differ in their state encode alike but for the two bytes of `s_state`. -/
theorem encodeFields_state (sb : Superblock) (state : Nat) (buf : List UInt8) :
    AgreeOff 0x3a 0x3c (sb.encodeFields buf)
      (({ sb with state } : Superblock).encodeFields buf) := by
  have hstart : ∀ (xs : List UInt8) (v w : Nat),
      AgreeOff 0x3a 0x3c (putU16 xs 0x3a v) (putU16 xs 0x3a w) := fun xs v w =>
    (AgreeOff.refl xs).splice_within (Nat.le_refl _)
      (Nat.le_of_eq (congrArg (0x3a + ·) (Lib.Endian.length_toLe 2 v)))
      (Nat.le_of_eq (congrArg (0x3a + ·) (Lib.Endian.length_toLe 2 w)))
  unfold encodeFields
  dsimp only
  repeat
    with_reducible first
      | exact hstart _ _ _
      | apply AgreeOff.putU8
      | apply AgreeOff.putU16
      | apply AgreeOff.putU32
      | apply AgreeOff.putU64
      | apply AgreeOff.putBytes
      | apply AgreeOff.putU32s

/-- The same with the checksum, whose four bytes may differ as well. -/
theorem encodeInto_state (sb : Superblock) (state : Nat) (buf : List UInt8) {i : Nat}
    (hi : i < buf.length) (hstate : ¬ (0x3a ≤ i ∧ i < 0x3c)) (hcsum : ¬ (0x3fc ≤ i ∧ i < 0x400)) :
    (({ sb with state } : Superblock).encodeInto buf).getD i 0 = (sb.encodeInto buf).getD i 0 := by
  have hfields := sb.encodeFields_state state buf
  unfold encodeInto
  dsimp only
  rw [putU32, putU32, getD_splice _ _ (by rw [length_encodeFields]; exact hi),
    getD_splice _ _ (by rw [length_encodeFields]; exact hi), Lib.Endian.length_toLe,
    Lib.Endian.length_toLe, if_neg hcsum, if_neg hcsum]
  exact hfields.agree i (by rw [length_encodeFields]; exact hi) hstate

/-! ## What it says about the filesystem -/

variable (sb : Superblock)

/-- `1024u32 << s_log_block_size` -/
def blockSize : Nat := (1024 <<< (sb.logBlockSize % 32)) % 2 ^ 32

/-- Number of block groups. -/
def groupCount : Nat :=
  if sb.blocksPerGroup = 0 then 0
  else
    (sb.blocksCount - sb.firstDataBlock + sb.blocksPerGroup - 1) / sb.blocksPerGroup % 2 ^ 32

/-- Size of one group descriptor, honouring `64bit`. -/
def descSize : Nat :=
  if sb.featureIncompat.contains IncompatFeatures.sixtyFourBit then
    max sb.sDescSize minDescSize64bit
  else minDescSize

/-- Group descriptors that fit in one block. -/
def descPerBlock : Nat := sb.blockSize / sb.descSize

/-- Blocks occupied by the group descriptor table. -/
def gdtBlocks : Nat := (sb.groupCount + sb.descPerBlock - 1) / sb.descPerBlock

/-- Inodes that fit in one block. -/
def inodesPerBlock : Nat := sb.blockSize / sb.inodeSize

/-- Blocks occupied by one group's inode table. -/
def itableBlocksPerGroup : Nat :=
  (sb.inodesPerGroup + sb.inodesPerBlock - 1) / sb.inodesPerBlock

/-- The seed for metadata checksums: explicit with `csum_seed`, else from the UUID. -/
def csumSeed : UInt32 :=
  if sb.featureIncompat.contains IncompatFeatures.csumSeed then UInt32.ofNat sb.checksumSeed
  else Csum.crc32c 0xffffffff sb.uuid

end Superblock

end MkfsExt4
