/-
  The superblock codec loses nothing: encoding what was decoded from a buffer back into it
  leaves it as it was, and decoding an encoded superblock gives it back.

  The second half is by the layout: `encodeInto` writes the fields of `allFields`, no two of
  them overlap, and so each reads back (`Lib.Record`). The numbers at the head of the record,
  up to the feature words, read back whatever the other fields hold (`read_head`).
-/
import MkfsExt4.Lib.Record
import MkfsExt4.Structs.Superblock

namespace MkfsExt4

open Lib.Store Lib.Endian Lib.Record

/-! ## Words one after another -/

theorem putU32s_eq (buf : List UInt8) (off : Nat) (vs : List Nat) :
    putU32s buf off vs = splice buf off (vs.flatMap (toLe 4)) := by
  induction vs generalizing buf off with
  | nil => simp [putU32s, splice]
  | cons v vs ih =>
    have hjoin := splice_splice_append buf off (toLe 4 v) (vs.flatMap (toLe 4)) 0
    rw [length_toLe] at hjoin
    rw [putU32s, ih, putU32, hjoin, List.flatMap_cons]

theorem writes_putU32s {g : List UInt8 → List UInt8} (h : Writes g) (off : Nat) (vs : List Nat) :
    Writes fun buf => putU32s (g buf) off vs := by
  simp only [putU32s_eq]
  exact h.splice off _

theorem length_flatMap_toLe (w : Nat) (vs : List Nat) :
    (vs.flatMap (toLe w)).length = w * vs.length := by
  induction vs with
  | nil => rfl
  | cons v vs ih =>
    rw [List.flatMap_cons, List.length_append, length_toLe, ih, List.length_cons, Nat.mul_succ,
      Nat.add_comm]

theorem getU32s_succ (buf : List UInt8) (off n : Nat) :
    getU32s buf off (n + 1) = getU32 buf off :: getU32s buf (off + 4) n := by
  rw [getU32s, List.range_succ_eq_map, List.map_cons, List.map_map, Nat.zero_mul, Nat.add_zero,
    getU32s]
  refine congrArg _ (List.map_congr_left fun i _ => ?_)
  show getU32 buf (off + (i + 1) * 4) = getU32 buf (off + 4 + i * 4)
  congr 1
  omega

/-- Words read back from the bytes that spell them. -/
theorem getU32s_of_slice {buf : List UInt8} {off n : Nat} {vs : List Nat} (hn : vs.length = n)
    (hlt : ∀ v ∈ vs, v < 2 ^ 32) (h : slice buf off (4 * n) = vs.flatMap (toLe 4)) :
    getU32s buf off n = vs := by
  subst hn
  induction vs generalizing off with
  | nil => rfl
  | cons v vs ih =>
    have hfirst : slice buf off 4 = toLe 4 v := by
      have : slice (slice buf off (4 * (v :: vs).length)) 0 4 = slice buf (off + 0) 4 :=
        slice_slice buf (by rw [List.length_cons]; omega)
      rw [← Nat.add_zero off, ← this, h, List.flatMap_cons, slice, List.drop_zero,
        List.take_left' (length_toLe 4 v)]
    have hrest : slice buf (off + 4) (4 * vs.length) = vs.flatMap (toLe 4) := by
      have : slice (slice buf off (4 * (v :: vs).length)) 4 (4 * vs.length) =
          slice buf (off + 4) (4 * vs.length) :=
        slice_slice buf (by rw [List.length_cons]; omega)
      rw [← this, h, List.flatMap_cons, slice, List.drop_left' (length_toLe 4 v),
        List.take_of_length_le (Nat.le_of_eq (length_flatMap_toLe 4 vs))]
    rw [List.length_cons, getU32s_succ, ih (fun w hw => hlt w (List.mem_cons_of_mem _ hw)) hrest,
      getU32, hfirst, ofLe_toLe_of_lt (hlt v List.mem_cons_self)]

/-- Writing back the words that were read. -/
theorem putU32s_getU32s {buf : List UInt8} {off n : Nat} (h : off + 4 * n ≤ buf.length) :
    putU32s buf off (getU32s buf off n) = buf := by
  induction n generalizing off with
  | zero => rfl
  | succ n ih =>
    rw [getU32s_succ, putU32s, putU32_getU32 (by omega), ih (by omega)]

namespace Superblock

/-! ## Encoding what was decoded -/

theorem putU8_join_div {buf : List UInt8} {lo off : Nat} (h : off + 1 ≤ buf.length) :
    putU8 buf off (join 32 (getU32 buf lo) (getU8 buf off) / 2 ^ 32) = buf := by
  rw [join_div _ (getU32_lt _ _), putU8_getU8 h]

theorem ofI16_toI16 {n : Nat} (h : n < 2 ^ 16) : ofI16 (toI16 n) = n := by
  unfold ofI16 toI16
  split <;> omega

theorem putU16_ofI16 {buf : List UInt8} {off : Nat} (h : off + 2 ≤ buf.length) :
    putU16 buf off (ofI16 (toI16 (getU16 buf off))) = buf := by
  rw [ofI16_toI16 (getU16_lt _ _), putU16_getU16 h]

theorem putU32_mask {buf : List UInt8} {off : Nat} (h : off + 4 ≤ buf.length) :
    putU32 buf off (BitVec.ofNat 32 (getU32 buf off)).toNat = buf := by
  rw [BitVec.toNat_ofNat, Nat.mod_eq_of_lt (getU32_lt _ _), putU32_getU32 h]

/-- The checksum field a superblock in `buf` ought to have. -/
def csumOf (buf : List UInt8) : Nat :=
  if Mask.contains (BitVec.ofNat 32 (getU32 buf 0x64)) RoCompatFeatures.metadataCsum then
    (Csum.crc32c 0xffffffff (buf.take 0x3fc)).toNat
  else 0

/-- Encoding what was decoded leaves the buffer as it was. -/
theorem encodeFields_decode {buf : List UInt8} (hlen : buf.length = superblockLen)
    (hmagic : getU16 buf 0x38 = ext2SuperMagic) (hrev : 1 ≤ getU32 buf 0x4c)
    (hpad : getU8 buf 0x177 = 0) :
    ∃ sb, decode buf = .ok sb ∧ sb.featureRoCompat = BitVec.ofNat 32 (getU32 buf 0x64) ∧
      sb.encodeFields buf = buf := by
  rw [superblockLen] at hlen
  have hmagic' : putU16 buf 0x38 ext2SuperMagic = buf := by
    rw [← hmagic]
    exact putU16_getU16 (by omega)
  have hpad' : putU8 buf 0x177 0 = buf := by
    rw [← hpad]
    exact putU8_getU8 (by omega)
  unfold decode
  dsimp only
  rw [if_neg (by rw [superblockLen]; omega), if_neg (by rw [hmagic]; decide),
    if_neg (by omega), if_neg (by omega)]
  refine ⟨_, rfl, rfl, ?_⟩
  unfold encodeFields
  simp (disch := omega) only [putU8_getU8, putU16_getU16, putU32_getU32, putU64_getU64,
    putBytes_slice, putU32s_getU32s, putU32_join, putU32_join_div, putU8_join_div, putU16_ofI16,
    putU32_mask, hmagic', hpad']

/-- So does encoding it with its checksum, when that is the one in the buffer. -/
theorem encodeInto_decode {buf : List UInt8} (hlen : buf.length = superblockLen)
    (hmagic : getU16 buf 0x38 = ext2SuperMagic) (hrev : 1 ≤ getU32 buf 0x4c)
    (hpad : getU8 buf 0x177 = 0) (hcsum : getU32 buf 0x3fc = csumOf buf) :
    ∃ sb, decode buf = .ok sb ∧ sb.encodeInto buf = buf := by
  obtain ⟨sb, hdec, hro, hfields⟩ := encodeFields_decode hlen hmagic hrev hpad
  refine ⟨sb, hdec, ?_⟩
  unfold encodeInto hasMetadataCsum
  dsimp only
  rw [hfields, hro]
  rw [csumOf] at hcsum
  rw [← hcsum, putU32_getU32 (Nat.le_of_eq hlen.symm)]

/-! ## Decoding what was encoded -/

/-- The values of a `Superblock`: every field within its type. -/
structure Typed (sb : Superblock) : Prop where
  u8 : ∀ v ∈ [sb.preallocBlocks, sb.preallocDirBlocks, sb.defHashVersion, sb.jnlBackupType,
    sb.logGroupsPerFlex, sb.checksumType, sb.encryptionLevel, sb.firstErrorErrcode,
    sb.lastErrorErrcode],
    v < 2 ^ 8
  u16 : ∀ v ∈ [sb.mntCount, sb.state, sb.errors, sb.minorRevLevel, sb.defResuid, sb.defResgid,
    sb.inodeSize, sb.blockGroupNr, sb.reservedGdtBlocks, sb.sDescSize, sb.minExtraIsize,
    sb.wantExtraIsize, sb.raidStride, sb.mmpUpdateInterval, sb.encoding, sb.encodingFlags],
    v < 2 ^ 16
  u32 : ∀ v ∈ [sb.inodesCount, sb.freeInodesCount, sb.firstDataBlock, sb.logBlockSize,
    sb.logClusterSize, sb.blocksPerGroup, sb.clustersPerGroup, sb.inodesPerGroup,
    sb.checkinterval, sb.creatorOs, sb.revLevel, sb.firstIno, sb.algorithmUsageBitmap,
    sb.journalInum, sb.journalDev, sb.lastOrphan, sb.defaultMountOpts, sb.firstMetaBg, sb.flags,
    sb.raidStripeWidth, sb.snapshotInum, sb.snapshotId, sb.snapshotList, sb.errorCount,
    sb.firstErrorIno, sb.firstErrorLine, sb.lastErrorIno, sb.lastErrorLine, sb.usrQuotaInum,
    sb.grpQuotaInum, sb.overheadClusters, sb.lpfIno, sb.prjQuotaInum, sb.checksumSeed,
    sb.orphanFileInum, sb.checksum],
    v < 2 ^ 32
  u64 : ∀ v ∈ [sb.blocksCount, sb.rBlocksCount, sb.freeBlocksCount, sb.mtime, sb.wtime,
    sb.lastcheck, sb.mkfsTime, sb.mmpBlock, sb.kbytesWritten, sb.snapshotRBlocksCount,
    sb.firstErrorTime, sb.firstErrorBlock, sb.lastErrorTime, sb.lastErrorBlock],
    v < 2 ^ 64
  i16 : -2 ^ 15 ≤ sb.maxMntCount ∧ sb.maxMntCount < 2 ^ 15
  arrays : ∀ a ∈ [(sb.uuid, 16), (sb.volumeName, 16), (sb.journalUuid, 16),
    (sb.encryptPwSalt, 16), (sb.lastMounted, 64), (sb.mountOpts, 64), (sb.firstErrorFunc, 32),
    (sb.lastErrorFunc, 32), (sb.encryptAlgos, 4)],
    a.1.length = a.2
  hashSeed : sb.hashSeed.length = 4
  jnlBlocks : sb.jnlBlocks.length = 17
  backupBgs : sb.backupBgs.length = 2
  words : ∀ v ∈ sb.hashSeed ++ sb.jnlBlocks ++ sb.backupBgs, v < 2 ^ 32

theorem join_lt {w w' lo hi : Nat} (hlo : lo < 2 ^ w) (hhi : hi < 2 ^ w') :
    join w lo hi < 2 ^ (w + w') := by
  have h : (hi + 1) * 2 ^ w ≤ 2 ^ w' * 2 ^ w := Nat.mul_le_mul_right _ hhi
  rw [Nat.add_mul, Nat.one_mul] at h
  rw [join, Nat.pow_add, Nat.mul_comm (2 ^ w)]
  omega

theorem toI16_bounds {n : Nat} (h : n < 2 ^ 16) : -2 ^ 15 ≤ toI16 n ∧ toI16 n < 2 ^ 15 := by
  unfold toI16
  split <;> omega

theorem mem_getU32s_lt {buf : List UInt8} {off n v : Nat} (h : v ∈ getU32s buf off n) :
    v < 2 ^ 32 := by
  obtain ⟨i, -, rfl⟩ := List.mem_map.mp h
  exact getU32_lt _ _

/-- The fields of a superblock that was read fit their types. -/
theorem typed_of_decode {buf : List UInt8} {sb : Superblock} (h : decode buf = .ok sb) :
    sb.Typed := by
  unfold decode at h
  dsimp only at h
  split at h
  · cases h
  next hlen =>
  rw [Nat.not_lt, superblockLen] at hlen
  split at h
  · cases h
  obtain rfl := Except.ok.inj h
  have hwide : ∀ lo hi, join 32 (getU32 buf lo) (getU32 buf hi) < 2 ^ 64 := fun lo hi =>
    join_lt (getU32_lt buf lo) (getU32_lt buf hi)
  have htime : ∀ lo hi, join 32 (getU32 buf lo) (getU8 buf hi) < 2 ^ 64 := fun lo hi =>
    Nat.lt_trans (join_lt (getU32_lt buf lo) (getU8_lt buf hi)) (by decide)
  have hrev : ∀ {d v w : Nat}, d < 2 ^ w → v < 2 ^ w →
      (if getU32 buf 0x4c = 0 then d else v) < 2 ^ w := by
    intro d v w hd hv
    split
    · exact hd
    · exact hv
  constructor
  · simp only [List.forall_mem_cons, getU8_lt, true_and]
    exact fun v hv => absurd hv List.not_mem_nil
  · simpa only [List.forall_mem_cons, getU16_lt, true_and] using
      ⟨hrev (by decide) (getU16_lt buf 0x58), fun v hv => absurd hv List.not_mem_nil⟩
  · simpa only [List.forall_mem_cons, getU32_lt, true_and] using
      ⟨hrev (by decide) (getU32_lt buf 0x54), fun v hv => absurd hv List.not_mem_nil⟩
  · simp only [List.forall_mem_cons, getU64_lt, hwide, htime, true_and]
    exact fun v hv => absurd hv List.not_mem_nil
  · exact toI16_bounds (getU16_lt _ _)
  · simp only [List.forall_mem_cons]
    refine ⟨?_, ?_, ?_, ?_, ?_, ?_, ?_, ?_, ?_, fun v hv => absurd hv List.not_mem_nil⟩
    all_goals
      apply length_slice
      omega
  · simp [getU32s]
  · simp [getU32s]
  · simp [getU32s]
  · intro v hv
    rcases List.mem_append.mp hv with hv | hv
    · rcases List.mem_append.mp hv with hv | hv
      · exact mem_getU32s_lt hv
      · exact mem_getU32s_lt hv
    · exact mem_getU32s_lt hv

/-- Every time fits the 40 bits it has on disk. -/
def Timely (sb : Superblock) : Prop :=
  ∀ t ∈ [sb.mtime, sb.wtime, sb.lastcheck, sb.mkfsTime, sb.firstErrorTime, sb.lastErrorTime], t < 2 ^ 40

/-- A field of bytes. -/
def bytesField (off width : Nat) (bytes : List UInt8) : Field :=
  ⟨off, width, _, length_putBytes_field width bytes⟩

/-- A field of words. -/
def wordsField (off n : Nat) (vs : List Nat) (h : vs.length = n) : Field :=
  ⟨off, 4 * n, vs.flatMap (toLe 4), by rw [length_flatMap_toLe, h]⟩

/-- What `encodeFields` writes. -/
def fields (sb : Superblock) (h : sb.Typed) : List Field :=
  [.num 0x0 4 sb.inodesCount, .num 0x4 4 sb.blocksCount, .num 0x8 4 sb.rBlocksCount,
    .num 0xc 4 sb.freeBlocksCount, .num 0x10 4 sb.freeInodesCount, .num 0x14 4 sb.firstDataBlock,
    .num 0x18 4 sb.logBlockSize, .num 0x1c 4 sb.logClusterSize, .num 0x20 4 sb.blocksPerGroup,
    .num 0x24 4 sb.clustersPerGroup, .num 0x28 4 sb.inodesPerGroup, .num 0x2c 4 sb.mtime,
    .num 0x30 4 sb.wtime, .num 0x34 2 sb.mntCount, .num 0x36 2 (ofI16 sb.maxMntCount),
    .num 0x38 2 ext2SuperMagic, .num 0x3a 2 sb.state, .num 0x3c 2 sb.errors,
    .num 0x3e 2 sb.minorRevLevel, .num 0x40 4 sb.lastcheck, .num 0x44 4 sb.checkinterval,
    .num 0x48 4 sb.creatorOs, .num 0x4c 4 sb.revLevel, .num 0x50 2 sb.defResuid,
    .num 0x52 2 sb.defResgid, .num 0x54 4 sb.firstIno, .num 0x58 2 sb.inodeSize,
    .num 0x5a 2 sb.blockGroupNr, .num 0x5c 4 sb.featureCompat.toNat,
    .num 0x60 4 sb.featureIncompat.toNat, .num 0x64 4 sb.featureRoCompat.toNat,
    bytesField 0x68 16 sb.uuid, bytesField 0x78 16 sb.volumeName,
    bytesField 0x88 64 sb.lastMounted, .num 0xc8 4 sb.algorithmUsageBitmap,
    .num 0xcc 1 sb.preallocBlocks, .num 0xcd 1 sb.preallocDirBlocks,
    .num 0xce 2 sb.reservedGdtBlocks, bytesField 0xd0 16 sb.journalUuid,
    .num 0xe0 4 sb.journalInum, .num 0xe4 4 sb.journalDev, .num 0xe8 4 sb.lastOrphan,
    wordsField 0xec 4 sb.hashSeed h.hashSeed, .num 0xfc 1 sb.defHashVersion,
    .num 0xfd 1 sb.jnlBackupType, .num 0xfe 2 sb.sDescSize, .num 0x100 4 sb.defaultMountOpts,
    .num 0x104 4 sb.firstMetaBg, .num 0x108 4 sb.mkfsTime,
    wordsField 0x10c 17 sb.jnlBlocks h.jnlBlocks, .num 0x150 4 (sb.blocksCount / 2 ^ 32),
    .num 0x154 4 (sb.rBlocksCount / 2 ^ 32), .num 0x158 4 (sb.freeBlocksCount / 2 ^ 32),
    .num 0x15c 2 sb.minExtraIsize, .num 0x15e 2 sb.wantExtraIsize, .num 0x160 4 sb.flags,
    .num 0x164 2 sb.raidStride, .num 0x166 2 sb.mmpUpdateInterval, .num 0x168 8 sb.mmpBlock,
    .num 0x170 4 sb.raidStripeWidth, .num 0x174 1 sb.logGroupsPerFlex,
    .num 0x175 1 sb.checksumType, .num 0x176 1 sb.encryptionLevel, .num 0x177 1 0,
    .num 0x178 8 sb.kbytesWritten, .num 0x180 4 sb.snapshotInum, .num 0x184 4 sb.snapshotId,
    .num 0x188 8 sb.snapshotRBlocksCount, .num 0x190 4 sb.snapshotList,
    .num 0x194 4 sb.errorCount, .num 0x198 4 sb.firstErrorTime, .num 0x19c 4 sb.firstErrorIno,
    .num 0x1a0 8 sb.firstErrorBlock, bytesField 0x1a8 32 sb.firstErrorFunc,
    .num 0x1c8 4 sb.firstErrorLine, .num 0x1cc 4 sb.lastErrorTime, .num 0x1d0 4 sb.lastErrorIno,
    .num 0x1d4 4 sb.lastErrorLine, .num 0x1d8 8 sb.lastErrorBlock,
    bytesField 0x1e0 32 sb.lastErrorFunc, bytesField 0x200 64 sb.mountOpts,
    .num 0x240 4 sb.usrQuotaInum, .num 0x244 4 sb.grpQuotaInum, .num 0x248 4 sb.overheadClusters,
    wordsField 0x24c 2 sb.backupBgs h.backupBgs, bytesField 0x254 4 sb.encryptAlgos,
    bytesField 0x258 16 sb.encryptPwSalt, .num 0x268 4 sb.lpfIno, .num 0x26c 4 sb.prjQuotaInum,
    .num 0x270 4 sb.checksumSeed, .num 0x274 1 (sb.wtime / 2 ^ 32),
    .num 0x275 1 (sb.mtime / 2 ^ 32), .num 0x276 1 (sb.mkfsTime / 2 ^ 32),
    .num 0x277 1 (sb.lastcheck / 2 ^ 32), .num 0x278 1 (sb.firstErrorTime / 2 ^ 32),
    .num 0x279 1 (sb.lastErrorTime / 2 ^ 32), .num 0x27a 1 sb.firstErrorErrcode,
    .num 0x27b 1 sb.lastErrorErrcode, .num 0x27c 2 sb.encoding, .num 0x27e 2 sb.encodingFlags,
    .num 0x280 4 sb.orphanFileInum]

/-- All an encoded superblock consists of, with its checksum. -/
def allFields (sb : Superblock) (h : sb.Typed) (checksum : Nat) : List Field :=
  sb.fields h ++ [.num 0x3fc 4 checksum]

/-- Where it lies. -/
def layout : List (Nat × Nat) :=
  [(0x0, 4), (0x4, 4), (0x8, 4), (0xc, 4), (0x10, 4), (0x14, 4), (0x18, 4), (0x1c, 4), (0x20, 4),
    (0x24, 4), (0x28, 4), (0x2c, 4), (0x30, 4), (0x34, 2), (0x36, 2), (0x38, 2), (0x3a, 2),
    (0x3c, 2), (0x3e, 2), (0x40, 4), (0x44, 4), (0x48, 4), (0x4c, 4), (0x50, 2), (0x52, 2),
    (0x54, 4), (0x58, 2), (0x5a, 2), (0x5c, 4), (0x60, 4), (0x64, 4), (0x68, 16), (0x78, 16),
    (0x88, 64), (0xc8, 4), (0xcc, 1), (0xcd, 1), (0xce, 2), (0xd0, 16), (0xe0, 4), (0xe4, 4),
    (0xe8, 4), (0xec, 16), (0xfc, 1), (0xfd, 1), (0xfe, 2), (0x100, 4), (0x104, 4), (0x108, 4),
    (0x10c, 68), (0x150, 4), (0x154, 4), (0x158, 4), (0x15c, 2), (0x15e, 2), (0x160, 4),
    (0x164, 2), (0x166, 2), (0x168, 8), (0x170, 4), (0x174, 1), (0x175, 1), (0x176, 1),
    (0x177, 1), (0x178, 8), (0x180, 4), (0x184, 4), (0x188, 8), (0x190, 4), (0x194, 4),
    (0x198, 4), (0x19c, 4), (0x1a0, 8), (0x1a8, 32), (0x1c8, 4), (0x1cc, 4), (0x1d0, 4),
    (0x1d4, 4), (0x1d8, 8), (0x1e0, 32), (0x200, 64), (0x240, 4), (0x244, 4), (0x248, 4),
    (0x24c, 8), (0x254, 4), (0x258, 16), (0x268, 4), (0x26c, 4), (0x270, 4), (0x274, 1),
    (0x275, 1), (0x276, 1), (0x277, 1), (0x278, 1), (0x279, 1), (0x27a, 1), (0x27b, 1),
    (0x27c, 2), (0x27e, 2), (0x280, 4), (0x3fc, 4)]

theorem layout_apart : layout.Pairwise Apart := by decide +kernel

theorem layout_within : ∀ p ∈ layout, p.1 + p.2 ≤ superblockLen := by decide

theorem allFields_layout (sb : Superblock) (h : sb.Typed) (checksum : Nat) :
    (sb.allFields h checksum).map Field.place = layout := rfl

theorem encodeFields_eq (sb : Superblock) (h : sb.Typed) (buf : List UInt8) :
    sb.encodeFields buf = writeAll buf (sb.fields h) := by
  unfold encodeFields
  simp only [putU32s_eq]
  rfl

/-- An encoded superblock, field by field. -/
theorem encodeInto_eq (sb : Superblock) (h : sb.Typed) (buf : List UInt8) :
    ∃ checksum, checksum < 2 ^ 32 ∧
      sb.encodeInto buf = writeAll buf (sb.allFields h checksum) := by
  refine ⟨if sb.hasMetadataCsum then
    (Csum.crc32c 0xffffffff ((sb.encodeFields buf).take 0x3fc)).toNat else 0, ?_, ?_⟩
  · split
    · exact UInt32.toNat_lt _
    · exact Nat.two_pow_pos 32
  · unfold encodeInto allFields
    rw [encodeFields_eq sb h, writeAll, writeAll, List.foldl_append]
    rfl

/-- The field at an offset reads back as its bytes. -/
theorem slice_allFields {sb : Superblock} {h : sb.Typed} {checksum : Nat} {buf : List UInt8}
    (hlen : buf.length = superblockLen) {off : Nat} {f : Field}
    (hf : (sb.allFields h checksum).find? (fun f => f.off == off) = some f) :
    slice (writeAll buf (sb.allFields h checksum)) f.off f.width = f.bytes := by
  have hmem := List.mem_of_find?_eq_some hf
  obtain ⟨i, hi⟩ := List.mem_iff_getElem?.mp hmem
  have hplace : f.place ∈ layout := by
    rw [← allFields_layout sb h checksum]
    exact List.mem_map_of_mem hmem
  exact slice_writeAll (allFields_layout sb h checksum) layout_apart hi
    (by rw [hlen]; exact layout_within _ hplace)

theorem toI16_ofI16 {n : Int} (h : -2 ^ 15 ≤ n ∧ n < 2 ^ 15) : toI16 (ofI16 n) = n := by
  unfold toI16 ofI16
  split <;> omega

theorem ofI16_lt (n : Int) : ofI16 n < 2 ^ 16 := by
  unfold ofI16
  omega

section Reading

-- `B` is an encoded superblock; a field is looked up by its offset.
variable {sb : Superblock} {h : sb.Typed} {checksum : Nat} {B : List UInt8}
  (hB : ∀ {off : Nat} {f : Field},
    (sb.allFields h checksum).find? (fun f => f.off == off) = some f →
      slice B f.off f.width = f.bytes)

include hB

/-- A number of the record reads back cut to its width. -/
theorem read_field {off width v : Nat}
    (hf : (sb.allFields h checksum).find? (fun f => f.off == off) = some (.num off width v)) :
    ofLe (slice B off width) = v % 256 ^ width := by
  rw [show slice B off width = toLe width v from hB hf, ofLe_toLe]

theorem u32_field {off v : Nat}
    (hf : (sb.allFields h checksum).find? (fun f => f.off == off) = some (.num off 4 v))
    (hv : v < 2 ^ 32) : getU32 B off = v :=
  (read_field hB hf).trans (Nat.mod_eq_of_lt hv)

theorem u16_field {off v : Nat}
    (hf : (sb.allFields h checksum).find? (fun f => f.off == off) = some (.num off 2 v))
    (hv : v < 2 ^ 16) : getU16 B off = v :=
  (read_field hB hf).trans (Nat.mod_eq_of_lt hv)

theorem u64_field {off v : Nat}
    (hf : (sb.allFields h checksum).find? (fun f => f.off == off) = some (.num off 8 v))
    (hv : v < 2 ^ 64) : getU64 B off = v :=
  (read_field hB hf).trans (Nat.mod_eq_of_lt hv)

theorem byte_field {off v : Nat}
    (hf : (sb.allFields h checksum).find? (fun f => f.off == off) = some (.num off 1 v)) :
    getU8 B off = v % 2 ^ 8 := getU8_of_slice (hB hf)

theorem u8_field {off v : Nat}
    (hf : (sb.allFields h checksum).find? (fun f => f.off == off) = some (.num off 1 v))
    (hv : v < 2 ^ 8) : getU8 B off = v :=
  (byte_field hB hf).trans (Nat.mod_eq_of_lt hv)

theorem mask_field {off : Nat} {m : Mask}
    (hf : (sb.allFields h checksum).find? (fun f => f.off == off) = some (.num off 4 m.toNat)) :
    BitVec.ofNat 32 (getU32 B off) = m := by
  rw [u32_field hB hf m.isLt, BitVec.ofNat_toNat, BitVec.setWidth_eq]

/-- A count in two words. -/
theorem halves_field {lo hi v : Nat}
    (hlo : (sb.allFields h checksum).find? (fun f => f.off == lo) = some (.num lo 4 v))
    (hhi : (sb.allFields h checksum).find? (fun f => f.off == hi) =
      some (.num hi 4 (v / 2 ^ 32)))
    (hv : v < 2 ^ 64) : join 32 (getU32 B lo) (getU32 B hi) = v := by
  rw [getU32, getU32, read_field hB hlo, read_field hB hhi]
  exact (join_halves 32 32 v).trans (Nat.mod_eq_of_lt hv)

/-- A time in a word and a byte. -/
theorem time_field {lo hi v : Nat}
    (hlo : (sb.allFields h checksum).find? (fun f => f.off == lo) = some (.num lo 4 v))
    (hhi : (sb.allFields h checksum).find? (fun f => f.off == hi) =
      some (.num hi 1 (v / 2 ^ 32)))
    (hv : v < 2 ^ 40) : join 32 (getU32 B lo) (getU8 B hi) = v := by
  rw [getU32, read_field hB hlo, byte_field hB hhi]
  exact (join_halves 32 8 v).trans (Nat.mod_eq_of_lt hv)

theorem bytes_field {off width : Nat} {bytes : List UInt8}
    (hf : (sb.allFields h checksum).find? (fun f => f.off == off) =
      some (bytesField off width bytes))
    (hwidth : bytes.length = width) : slice B off width = bytes := by
  rw [show slice B off width = bytes.take width ++ List.replicate (width - bytes.length) 0 from
    hB hf, hwidth, Nat.sub_self, List.replicate_zero, List.append_nil, ← hwidth, List.take_length]

theorem words_field {off n : Nat} {vs : List Nat} {hn : vs.length = n}
    (hf : (sb.allFields h checksum).find? (fun f => f.off == off) =
      some (wordsField off n vs hn))
    (hlt : ∀ v ∈ vs, v < 2 ^ 32) : getU32s B off n = vs :=
  getU32s_of_slice hn hlt (hB hf)

end Reading

/-- Decoding an encoded superblock gives it back, with its checksum. -/
theorem decode_encodeInto {sb : Superblock} (h : sb.Typed) (hrev : 1 ≤ sb.revLevel)
    (htime : sb.Timely) {buf : List UInt8} (hlen : buf.length = superblockLen) :
    ∃ checksum, decode (sb.encodeInto buf) = .ok { sb with checksum } := by
  obtain ⟨checksum, hcsum, heq⟩ := sb.encodeInto_eq h buf
  have hB : ∀ {off : Nat} {f : Field},
      (sb.allFields h checksum).find? (fun f => f.off == off) = some f →
        slice (sb.encodeInto buf) f.off f.width = f.bytes := fun hf => by
    rw [heq]
    exact slice_allFields hlen hf
  have hlenB : (sb.encodeInto buf).length = superblockLen := by rw [length_encodeInto, hlen]
  generalize sb.encodeInto buf = B at hB hlenB
  have hmagic : getU16 B 0x38 = ext2SuperMagic := u16_field hB rfl (by decide)
  have hrevB : getU32 B 0x4c = sb.revLevel := u32_field hB rfl (h.u32 _ (by simp))
  have hmnt : toI16 (getU16 B 0x36) = sb.maxMntCount := by
    rw [u16_field hB rfl (ofI16_lt _), toI16_ofI16 h.i16]
  refine ⟨checksum, ?_⟩
  unfold decode
  dsimp only
  rw [if_neg (by rw [hlenB]; exact Nat.lt_irrefl _), if_neg (by rw [hmagic]; exact not_not.mpr rfl),
    if_neg (by omega), if_neg (by omega), Except.ok.injEq, Superblock.mk.injEq]
  exact ⟨u32_field hB rfl (h.u32 _ (by simp)), halves_field hB rfl rfl (h.u64 _ (by simp)),
    halves_field hB rfl rfl (h.u64 _ (by simp)), halves_field hB rfl rfl (h.u64 _ (by simp)),
    u32_field hB rfl (h.u32 _ (by simp)), u32_field hB rfl (h.u32 _ (by simp)),
    u32_field hB rfl (h.u32 _ (by simp)), u32_field hB rfl (h.u32 _ (by simp)),
    u32_field hB rfl (h.u32 _ (by simp)), u32_field hB rfl (h.u32 _ (by simp)),
    u32_field hB rfl (h.u32 _ (by simp)), time_field hB rfl rfl (htime _ (by simp)),
    time_field hB rfl rfl (htime _ (by simp)), u16_field hB rfl (h.u16 _ (by simp)), hmnt,
    u16_field hB rfl (h.u16 _ (by simp)), u16_field hB rfl (h.u16 _ (by simp)),
    u16_field hB rfl (h.u16 _ (by simp)), time_field hB rfl rfl (htime _ (by simp)),
    u32_field hB rfl (h.u32 _ (by simp)), u32_field hB rfl (h.u32 _ (by simp)), hrevB,
    u16_field hB rfl (h.u16 _ (by simp)), u16_field hB rfl (h.u16 _ (by simp)),
    u32_field hB rfl (h.u32 _ (by simp)), u16_field hB rfl (h.u16 _ (by simp)),
    u16_field hB rfl (h.u16 _ (by simp)), mask_field hB rfl, mask_field hB rfl, mask_field hB rfl,
    bytes_field hB rfl (h.arrays (sb.uuid, _) (by simp)),
    bytes_field hB rfl (h.arrays (sb.volumeName, _) (by simp)),
    bytes_field hB rfl (h.arrays (sb.lastMounted, _) (by simp)),
    u32_field hB rfl (h.u32 _ (by simp)), u8_field hB rfl (h.u8 _ (by simp)),
    u8_field hB rfl (h.u8 _ (by simp)), u16_field hB rfl (h.u16 _ (by simp)),
    bytes_field hB rfl (h.arrays (sb.journalUuid, _) (by simp)),
    u32_field hB rfl (h.u32 _ (by simp)), u32_field hB rfl (h.u32 _ (by simp)),
    u32_field hB rfl (h.u32 _ (by simp)),
    words_field hB rfl (fun v hv => h.words v (by simp [hv])), u8_field hB rfl (h.u8 _ (by simp)),
    u8_field hB rfl (h.u8 _ (by simp)), u16_field hB rfl (h.u16 _ (by simp)),
    u32_field hB rfl (h.u32 _ (by simp)), u32_field hB rfl (h.u32 _ (by simp)),
    time_field hB rfl rfl (htime _ (by simp)),
    words_field hB rfl (fun v hv => h.words v (by simp [hv])),
    u16_field hB rfl (h.u16 _ (by simp)), u16_field hB rfl (h.u16 _ (by simp)),
    u32_field hB rfl (h.u32 _ (by simp)), u16_field hB rfl (h.u16 _ (by simp)),
    u16_field hB rfl (h.u16 _ (by simp)), u64_field hB rfl (h.u64 _ (by simp)),
    u32_field hB rfl (h.u32 _ (by simp)), u8_field hB rfl (h.u8 _ (by simp)),
    u8_field hB rfl (h.u8 _ (by simp)), u8_field hB rfl (h.u8 _ (by simp)),
    u64_field hB rfl (h.u64 _ (by simp)), u32_field hB rfl (h.u32 _ (by simp)),
    u32_field hB rfl (h.u32 _ (by simp)), u64_field hB rfl (h.u64 _ (by simp)),
    u32_field hB rfl (h.u32 _ (by simp)), u32_field hB rfl (h.u32 _ (by simp)),
    time_field hB rfl rfl (htime _ (by simp)), u32_field hB rfl (h.u32 _ (by simp)),
    u64_field hB rfl (h.u64 _ (by simp)),
    bytes_field hB rfl (h.arrays (sb.firstErrorFunc, _) (by simp)),
    u32_field hB rfl (h.u32 _ (by simp)), time_field hB rfl rfl (htime _ (by simp)),
    u32_field hB rfl (h.u32 _ (by simp)), u32_field hB rfl (h.u32 _ (by simp)),
    u64_field hB rfl (h.u64 _ (by simp)),
    bytes_field hB rfl (h.arrays (sb.lastErrorFunc, _) (by simp)),
    u8_field hB rfl (h.u8 _ (by simp)), u8_field hB rfl (h.u8 _ (by simp)),
    bytes_field hB rfl (h.arrays (sb.mountOpts, _) (by simp)),
    u32_field hB rfl (h.u32 _ (by simp)), u32_field hB rfl (h.u32 _ (by simp)),
    u32_field hB rfl (h.u32 _ (by simp)),
    words_field hB rfl (fun v hv => h.words v (by simp [hv])),
    bytes_field hB rfl (h.arrays (sb.encryptAlgos, _) (by simp)),
    bytes_field hB rfl (h.arrays (sb.encryptPwSalt, _) (by simp)),
    u32_field hB rfl (h.u32 _ (by simp)), u32_field hB rfl (h.u32 _ (by simp)),
    u32_field hB rfl (h.u32 _ (by simp)), u16_field hB rfl (h.u16 _ (by simp)),
    u16_field hB rfl (h.u16 _ (by simp)), u32_field hB rfl (h.u32 _ (by simp)),
    u32_field hB rfl hcsum⟩

/-! ### Over an encoding -/

/-- What is encoded depends on the superblock alone, byte by byte, or is left as it was. -/
theorem writes_encodeFields (sb : Superblock) : Writes sb.encodeFields := by
  show Writes fun buf => sb.encodeFields buf
  unfold encodeFields
  dsimp only [putU8, putU16, putU32, putU64, putBytes]
  repeat
    with_reducible first
      | exact Writes.nothing
      | apply Writes.splice
      | apply writes_putU32s

/-- Encoding over an encoding changes nothing. -/
theorem encodeInto_encodeInto (sb : Superblock) (buf : List UInt8) :
    sb.encodeInto (sb.encodeInto buf) = sb.encodeInto buf := by
  have hwrites := sb.writes_encodeFields
  have hlen : (sb.encodeInto buf).length = buf.length := sb.length_encodeInto buf
  have hsame : ∀ i < buf.length, ¬ (0x3fc ≤ i ∧ i < 0x400) →
      (sb.encodeFields (sb.encodeInto buf)).getD i 0 = (sb.encodeFields buf).getD i 0 := by
    intro i hi hout
    rcases hwrites.getD_cases hlen hi with h | ⟨-, h⟩
    · exact h.symm
    · rw [h, encodeInto, putU32, getD_splice _ _ (by rw [length_encodeFields]; exact hi), length_toLe,
        if_neg hout]
  have htake : (sb.encodeFields (sb.encodeInto buf)).take 0x3fc =
      (sb.encodeFields buf).take 0x3fc := by
    refine ext_getD 0 (by simp only [List.length_take, length_encodeFields, hlen]) fun i hi => ?_
    rw [List.length_take, length_encodeFields, hlen] at hi
    have hi' : i < 0x3fc := by omega
    simp only [List.getD_eq_getElem?_getD, List.getElem?_take, hi', if_true] at hsame ⊢
    exact hsame i (by omega) (by omega)
  refine ext_getD 0 (by rw [length_encodeInto]) fun i hi => ?_
  rw [length_encodeInto, hlen] at hi
  rw [encodeInto, htake]
  conv_rhs => rw [encodeInto]
  rw [putU32, putU32, getD_splice _ _ (by rw [length_encodeFields, hlen]; exact hi),
    getD_splice _ _ (by rw [length_encodeFields]; exact hi), length_toLe]
  split
  · rfl
  · next hout => exact hsame i hi hout

/-! ### The head of the record, whatever the other fields hold -/

/-- Words written past a slice. -/
theorem slice_putU32s_after {buf : List UInt8} {o off n : Nat} (vs : List Nat) (h : off + n ≤ o) :
    slice (putU32s buf o vs) off n = slice buf off n := by
  induction vs generalizing buf o with
  | nil => rfl
  | cons v vs ih => rw [putU32s, ih (Nat.le_add_right_of_le h), slice_putU32_disjoint (Or.inl h)]

/-- What `encodeFields` writes first, up to the feature words. -/
def headFields (sb : Superblock) : List Field :=
  [.num 0x0 4 sb.inodesCount, .num 0x4 4 sb.blocksCount, .num 0x8 4 sb.rBlocksCount,
    .num 0xc 4 sb.freeBlocksCount, .num 0x10 4 sb.freeInodesCount, .num 0x14 4 sb.firstDataBlock,
    .num 0x18 4 sb.logBlockSize, .num 0x1c 4 sb.logClusterSize, .num 0x20 4 sb.blocksPerGroup,
    .num 0x24 4 sb.clustersPerGroup, .num 0x28 4 sb.inodesPerGroup, .num 0x2c 4 sb.mtime,
    .num 0x30 4 sb.wtime, .num 0x34 2 sb.mntCount, .num 0x36 2 (ofI16 sb.maxMntCount),
    .num 0x38 2 ext2SuperMagic, .num 0x3a 2 sb.state, .num 0x3c 2 sb.errors,
    .num 0x3e 2 sb.minorRevLevel, .num 0x40 4 sb.lastcheck, .num 0x44 4 sb.checkinterval,
    .num 0x48 4 sb.creatorOs, .num 0x4c 4 sb.revLevel, .num 0x50 2 sb.defResuid,
    .num 0x52 2 sb.defResgid, .num 0x54 4 sb.firstIno, .num 0x58 2 sb.inodeSize,
    .num 0x5a 2 sb.blockGroupNr, .num 0x5c 4 sb.featureCompat.toNat,
    .num 0x60 4 sb.featureIncompat.toNat, .num 0x64 4 sb.featureRoCompat.toNat]

theorem headFields_layout (sb : Superblock) :
    sb.headFields.map Field.place = layout.take 31 := rfl

/-- No field of the head is written over once it is. -/
theorem slice_encodeInto_head (sb : Superblock) (buf : List UInt8) {off n : Nat}
    (h : off + n ≤ 0x68) :
    slice (sb.encodeInto buf) off n = slice (writeAll buf sb.headFields) off n := by
  have hafter : ∀ (xs ys : List UInt8) (o : Nat), 0x68 ≤ o →
      slice (splice xs o ys) off n = slice xs off n := fun xs ys o ho =>
    slice_splice_disjoint (Or.inl (Nat.le_trans h ho))
  have hwords : ∀ (xs : List UInt8) (o : Nat) (vs : List Nat), 0x68 ≤ o →
      slice (putU32s xs o vs) off n = slice xs off n := fun xs o vs ho =>
    slice_putU32s_after vs (Nat.le_trans h ho)
  unfold encodeInto encodeFields
  dsimp only [putU8, putU16, putU32, putU64, putBytes]
  simp (disch := decide) only [hafter, hwords]
  rfl

/-- What decoding an encoding finds in a field of the head. -/
theorem read_head (sb : Superblock) {buf : List UInt8} (hlen : superblockLen ≤ buf.length)
    {i off width v : Nat} (hf : sb.headFields[i]? = some (.num off width v))
    (hend : off + width ≤ 0x68) :
    ofLe (slice (sb.encodeInto buf) off width) = v % 256 ^ width := by
  rw [superblockLen] at hlen
  rw [slice_encodeInto_head sb buf hend]
  exact ofLe_slice_writeAll sb.headFields_layout
    (layout_apart.sublist (List.take_sublist 31 layout)) hf (by omega)

/-- The fields of the head, as they are read. -/
theorem decode_head {buf : List UInt8} {sb : Superblock} (h : decode buf = .ok sb) :
    sb.firstDataBlock = getU32 buf 0x14 ∧ sb.logBlockSize = getU32 buf 0x18 ∧
      sb.blockGroupNr = getU16 buf 0x5a ∧ sb.featureIncompat = BitVec.ofNat 32 (getU32 buf 0x60) := by
  unfold decode at h
  dsimp only at h
  split at h
  · cases h
  split at h
  · cases h
  obtain rfl := Except.ok.inj h
  exact ⟨rfl, rfl, rfl, rfl⟩

/-! ### Times of more than 40 bits -/

/-- A time is cut to 40 bits where it is stored. -/
theorem putU32_cut (buf : List UInt8) (off t : Nat) :
    putU32 buf off (t % 2 ^ 40) = putU32 buf off t := by
  have hmod : t % 2 ^ 40 % 256 ^ 4 = t % 256 ^ 4 := Nat.mod_mod_of_dvd t (by decide)
  rw [putU32, ← toLe_mod, hmod, toLe_mod, putU32]

theorem putU8_cut (buf : List UInt8) (off t : Nat) :
    putU8 buf off (t % 2 ^ 40 / 2 ^ 32) = putU8 buf off (t / 2 ^ 32) := by
  have hhigh : t % 2 ^ 40 / 2 ^ 32 = t / 2 ^ 32 % 2 ^ 8 := by omega
  rw [putU8, putU8, hhigh, UInt8.ofNat_mod_size]

/-- A superblock with its times as they are stored. -/
def inTime (sb : Superblock) : Superblock :=
  { sb with
    mtime := sb.mtime % 2 ^ 40
    wtime := sb.wtime % 2 ^ 40
    lastcheck := sb.lastcheck % 2 ^ 40
    mkfsTime := sb.mkfsTime % 2 ^ 40
    firstErrorTime := sb.firstErrorTime % 2 ^ 40
    lastErrorTime := sb.lastErrorTime % 2 ^ 40 }

theorem timely_inTime (sb : Superblock) : sb.inTime.Timely := by
  unfold Timely
  simp only [inTime, List.forall_mem_cons, Nat.mod_lt _ (Nat.two_pow_pos 40), true_and]
  exact fun v hv => absurd hv List.not_mem_nil

theorem inTime_of_timely {sb : Superblock} (h : sb.Timely) : sb.inTime = sb := by
  have hcut : ∀ t ∈ [sb.mtime, sb.wtime, sb.lastcheck, sb.mkfsTime, sb.firstErrorTime,
      sb.lastErrorTime], t % 2 ^ 40 = t := fun t ht => Nat.mod_eq_of_lt (h t ht)
  simp only [List.forall_mem_cons] at hcut
  obtain ⟨h1, h2, h3, h4, h5, h6, -⟩ := hcut
  rw [inTime, h1, h2, h3, h4, h5, h6]

theorem encodeInto_inTime (sb : Superblock) (buf : List UInt8) :
    sb.inTime.encodeInto buf = sb.encodeInto buf := by
  have hfields : sb.inTime.encodeFields buf = sb.encodeFields buf := by
    unfold encodeFields inTime
    simp only [putU32_cut, putU8_cut]
  rw [encodeInto, encodeInto, hfields]
  rfl

/-! ### The codec -/

/-- Encoding a decoded superblock back into its buffer, and decoding an encoded superblock,
    both give back what went in. -/
theorem superblock_codec_lossless :
    (∀ buf : List UInt8, buf.length = superblockLen → getU16 buf 0x38 = ext2SuperMagic →
        1 ≤ getU32 buf 0x4c → getU8 buf 0x177 = 0 → getU32 buf 0x3fc = csumOf buf →
        ∃ sb, decode buf = .ok sb ∧ sb.encodeInto buf = buf) ∧
      ∀ sb : Superblock, sb.Typed → 1 ≤ sb.revLevel → sb.Timely →
        ∃ checksum, decode sb.encode = .ok { sb with checksum } := by
  refine ⟨fun buf hlen hmagic hrev hpad hcsum => ?_, fun sb h hrev htime => ?_⟩
  · exact encodeInto_decode hlen hmagic hrev hpad hcsum
  · exact decode_encodeInto h hrev htime (List.length_replicate ..)

/-- A superblock in use: more than `2 ^ 32` blocks, times past 2106, a label, both directions of
    the checks, and a checksum over all of it. -/
def usedSuperblock : Superblock :=
  { Superblock.default with
    inodesCount := 0x20000000
    blocksCount := 0x200000001
    rBlocksCount := 0x100000000
    freeBlocksCount := 0x180000000
    blocksPerGroup := 32768
    inodesPerGroup := 8192
    mtime := 0x1ffffffff
    mkfsTime := 0x100000000
    mntCount := 3
    maxMntCount := -1
    state := State.validFs ||| State.errorFs
    featureCompat := CompatFeatures.hasJournal
    featureIncompat := IncompatFeatures.sixtyFourBit
    featureRoCompat := RoCompatFeatures.metadataCsum
    uuid := (List.range 16).map UInt8.ofNat
    volumeName := [0x72, 0x6f, 0x6f, 0x74] ++ List.replicate 12 0
    journalInum := 8
    lastOrphan := 12
    hashSeed := [1, 2, 3, 4]
    sDescSize := 64
    jnlBlocks := List.replicate 17 0x1f30a
    errorCount := 1
    lastErrorErrcode := 5
    backupBgs := [1, 3]
    checksumSeed := 0x12345678 }

theorem usedSuperblock_encoded : usedSuperblock.encode.length = superblockLen ∧
    getU16 usedSuperblock.encode 0x38 = ext2SuperMagic ∧ 1 ≤ getU32 usedSuperblock.encode 0x4c ∧
    getU8 usedSuperblock.encode 0x177 = 0 ∧
    getU32 usedSuperblock.encode 0x3fc = csumOf usedSuperblock.encode := by
  decide +kernel

theorem usedSuperblock_typed : usedSuperblock.Typed := by
  constructor <;> decide

/-- The superblock in use, and the buffer it is encoded to. -/
theorem superblock_codec_used :
    (∃ sb, decode usedSuperblock.encode = .ok sb ∧
        sb.encodeInto usedSuperblock.encode = usedSuperblock.encode) ∧
      ∃ checksum, decode usedSuperblock.encode = .ok { usedSuperblock with checksum } := by
  obtain ⟨hlen, hmagic, hrev, hpad, hcsum⟩ := usedSuperblock_encoded
  exact ⟨superblock_codec_lossless.1 usedSuperblock.encode hlen hmagic hrev hpad hcsum,
    superblock_codec_lossless.2 usedSuperblock usedSuperblock_typed (by decide)
      (by unfold Timely; decide)⟩

end Superblock

end MkfsExt4
