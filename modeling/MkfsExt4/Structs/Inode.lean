/-
  Inodes (`src/structs/inode.rs`): the original 128 bytes, then the extra area that
  `i_extra_isize` declares, then whatever follows it.
-/
import MkfsExt4.Lib.Record
import MkfsExt4.Structs.Superblock

namespace MkfsExt4

open Lib.Store Lib.Endian Lib.Record

/-- Bytes of `i_block`: 15 block pointers or an inline extent tree. -/
def iBlockLen : Nat := 60

def nBlocks : Nat := 15

/-- Direct block pointers. -/
def ndirBlocks : Nat := 12

/-! File type bits of `i_mode`. -/

namespace Mode

def ififo : Nat := 0x1000
def ifchr : Nat := 0x2000
def ifdir : Nat := 0x4000
def ifblk : Nat := 0x6000
def ifreg : Nat := 0x8000
def iflnk : Nat := 0xa000
def ifsock : Nat := 0xc000
def ifmt : Nat := 0xf000

end Mode

/-! Bits of `i_flags`. -/

namespace IFlags

def index : Nat := 0x00001000
def hugeFile : Nat := 0x00040000
def extents : Nat := 0x00080000
def inlineData : Nat := 0x10000000

end IFlags

/-- The `i_extra_isize` from which an inode carries the high half of its checksum. -/
def inodeCsumHiExtraEnd : Nat := 4

/-- A decoded inode. -/
structure Inode where
  mode : Nat := 0
  uid : Nat := 0
  size : Nat := 0
  atime : Nat := 0
  ctime : Nat := 0
  mtime : Nat := 0
  dtime : Nat := 0
  gid : Nat := 0
  linksCount : Nat := 0
  blocks : Nat := 0
  flags : Nat := 0
  version : Nat := 0
  block : List UInt8 := List.replicate iBlockLen 0
  generation : Nat := 0
  fileAcl : Nat := 0
  faddr : Nat := 0
  extraIsize : Nat := 0
  ctimeExtra : Nat := 0
  mtimeExtra : Nat := 0
  atimeExtra : Nat := 0
  crtime : Nat := 0
  crtimeExtra : Nat := 0
  versionHi : Nat := 0
  projid : Nat := 0
  /-- The bytes past the fields above, without their trailing zeroes. -/
  tail : List UInt8 := []
deriving DecidableEq, Repr

namespace Inode

variable (inode : Inode)

def fileType : Nat := inode.mode &&& Mode.ifmt

def isDir : Bool := inode.fileType == Mode.ifdir

/-- Whether `i_block` holds an extent tree rather than block pointers. -/
def usesExtents : Bool := inode.flags &&& IFlags.extents != 0

def inlineData : Bool := inode.flags &&& IFlags.inlineData != 0

/-- Whether `i_block` is a block map at all. -/
def hasBlockMap : Bool :=
  let t := inode.fileType
  if t = Mode.ifchr ∨ t = Mode.ifblk ∨ t = Mode.ififo ∨ t = Mode.ifsock then false
  else if t = Mode.iflnk then iBlockLen ≤ inode.size
  else true

/-- `i_block` as 15 block pointers. -/
def blockPointers : List Nat := getU32s inode.block 0 nBlocks

def setBlockPointers (pointers : List Nat) : Inode :=
  { inode with block := putU32s inode.block 0 pointers }

/-- Whether the inode carries the high half of its checksum. -/
def hasChecksumHi (inodeSize : Nat) : Bool :=
  goodOldInodeSize < inodeSize && inodeCsumHiExtraEnd ≤ inode.extraIsize

/-! ## Decoding and encoding -/

/-- `raw` up to its last byte that is not zero. -/
def dropTrailingZeroes (raw : List UInt8) : List UInt8 :=
  (raw.reverse.dropWhile (· == 0)).reverse

/-- The end of the extra area, within the inode. -/
def extraEnd (extraIsize inodeSize : Nat) : Nat := min (goodOldInodeSize + extraIsize) inodeSize

/-- Decode from `inodeSize` bytes. -/
def decode (buf : List UInt8) (inodeSize : Nat) : Except Failure Inode :=
  let len := buf.length
  let large := goodOldInodeSize < inodeSize
  if len < inodeSize ∨ inodeSize < goodOldInodeSize then
    .error (.error (.corrupt "inode" s!"need {inodeSize} bytes, got {len}"))
  -- The word of `i_extra_isize` is read whether the buffer holds it or not.
  else if large ∧ len < 0x82 then .error .panicked
  else
    let extraIsize := if large then getU16 buf 0x80 else 0
    let stop := extraEnd extraIsize inodeSize
    -- A field of the extra area is there only if `i_extra_isize` declares it.
    let extraU32 (off : Nat) : Nat := if large ∧ off + 4 ≤ stop then getU32 buf off else 0
    .ok {
      mode := getU16 buf 0x00
      uid := join 16 (getU16 buf 0x02) (getU16 buf 0x78)
      size := join 32 (getU32 buf 0x04) (getU32 buf 0x6c)
      atime := getU32 buf 0x08
      ctime := getU32 buf 0x0c
      mtime := getU32 buf 0x10
      dtime := getU32 buf 0x14
      gid := join 16 (getU16 buf 0x18) (getU16 buf 0x7a)
      linksCount := getU16 buf 0x1a
      blocks := join 32 (getU32 buf 0x1c) (getU16 buf 0x74)
      flags := getU32 buf 0x20
      version := getU32 buf 0x24
      block := slice buf 0x28 iBlockLen
      generation := getU32 buf 0x64
      fileAcl := join 32 (getU32 buf 0x68) (getU16 buf 0x76)
      faddr := getU32 buf 0x70
      extraIsize
      ctimeExtra := extraU32 0x84
      mtimeExtra := extraU32 0x88
      atimeExtra := extraU32 0x8c
      crtime := extraU32 0x90
      crtimeExtra := extraU32 0x94
      versionHi := extraU32 0x98
      projid := extraU32 0x9c
      tail := dropTrailingZeroes (slice buf stop (inodeSize - stop)) }

/-- The original 128 bytes, both checksum fields zero. -/
def encodeBase (buf : List UInt8) : List UInt8 :=
  let buf := putU16 buf 0x00 inode.mode
  let buf := putU16 buf 0x02 inode.uid
  let buf := putU32 buf 0x04 inode.size
  let buf := putU32 buf 0x08 inode.atime
  let buf := putU32 buf 0x0c inode.ctime
  let buf := putU32 buf 0x10 inode.mtime
  let buf := putU32 buf 0x14 inode.dtime
  let buf := putU16 buf 0x18 inode.gid
  let buf := putU16 buf 0x1a inode.linksCount
  let buf := putU32 buf 0x1c inode.blocks
  let buf := putU32 buf 0x20 inode.flags
  let buf := putU32 buf 0x24 inode.version
  let buf := putBytes buf 0x28 iBlockLen inode.block
  let buf := putU32 buf 0x64 inode.generation
  let buf := putU32 buf 0x68 inode.fileAcl
  let buf := putU32 buf 0x6c (inode.size / 2 ^ 32)
  let buf := putU32 buf 0x70 inode.faddr
  let buf := putU16 buf 0x74 (inode.blocks / 2 ^ 32)
  let buf := putU16 buf 0x76 (inode.fileAcl / 2 ^ 32)
  let buf := putU16 buf 0x78 (inode.uid / 2 ^ 16)
  let buf := putU16 buf 0x7a (inode.gid / 2 ^ 16)
  let buf := putU16 buf 0x7c 0
  putU16 buf 0x7e 0

/-- The extra area and what follows it. -/
def encodeExtra (inodeSize : Nat) (buf : List UInt8) : List UInt8 :=
  let buf := putU16 buf 0x80 inode.extraIsize
  let buf := putU16 buf 0x82 0
  let stop := extraEnd inode.extraIsize inodeSize
  let putExtra (buf : List UInt8) (off v : Nat) : List UInt8 :=
    if off + 4 ≤ stop then putU32 buf off v else buf
  let buf := putExtra buf 0x84 inode.ctimeExtra
  let buf := putExtra buf 0x88 inode.mtimeExtra
  let buf := putExtra buf 0x8c inode.atimeExtra
  let buf := putExtra buf 0x90 inode.crtime
  let buf := putExtra buf 0x94 inode.crtimeExtra
  let buf := putExtra buf 0x98 inode.versionHi
  let buf := putExtra buf 0x9c inode.projid
  splice buf stop (inode.tail.take (inodeSize - stop))

/-- The sizes `encode` can fill: a size that ends within the first two words of the extra
area makes it index past its buffer. -/
def Encodable (inodeSize : Nat) : Prop :=
  inodeSize = goodOldInodeSize ∨ goodOldInodeSize + 4 ≤ inodeSize

instance (inodeSize : Nat) : Decidable (Encodable inodeSize) :=
  inferInstanceAs (Decidable (_ ∨ _))

theorem encodable_ge {inodeSize : Nat} (h : Encodable inodeSize) :
    goodOldInodeSize ≤ inodeSize := by
  unfold Encodable at h
  omega

/-- An inode as wide as a power of two from 128 on. -/
theorem encodable_two_pow {k : Nat} (h : 7 ≤ k) : Encodable (2 ^ k) := by
  rcases Nat.eq_or_lt_of_le h with rfl | hlt
  · exact Or.inl rfl
  · exact Or.inr (Nat.le_trans (by decide) (Nat.pow_le_pow_right Nat.two_pos hlt))

/-- Encode into `inodeSize` bytes, leaving both checksum fields zero. -/
def encode (inodeSize : Nat) : List UInt8 :=
  let buf := inode.encodeBase (List.replicate inodeSize 0)
  if inodeSize ≤ goodOldInodeSize then buf else inode.encodeExtra inodeSize buf

/-- Encode and stamp the checksum, when the filesystem carries one. -/
def encodeWithCsum (inodeSize : Nat) (metadataCsum : Bool) (seed : UInt32) (inum : Nat) :
    List UInt8 :=
  let buf := inode.encode inodeSize
  if metadataCsum then
    let crc := Csum.inodeCsum seed inum inode.generation buf
    let buf := putU16 buf 0x7c crc
    if inode.hasChecksumHi inodeSize then putU16 buf 0x82 (crc / 2 ^ 16) else buf
  else buf

/-- Verify an inode's checksum against the bytes it was read from. An inode whose first 128
bytes are zero was never written and passes. -/
def verifyChecksum (buf : List UInt8) (inodeSize : Nat) (metadataCsum : Bool) (seed : UInt32)
    (inum : Nat) : Except Failure Bool :=
  if !metadataCsum then .ok true
  else do
    let inode ← decode buf inodeSize
    let hasHi := inode.hasChecksumHi inodeSize
    -- The high half is read and zeroed whether the inode holds it or not.
    panicIf (hasHi ∧ inodeSize < 0x84)
    let provided := join 16 (getU16 buf 0x7c) (if hasHi then getU16 buf 0x82 else 0)
    let zeroed := putU16 (buf.take inodeSize) 0x7c 0
    let zeroed := if hasHi then putU16 zeroed 0x82 0 else zeroed
    let crc := Csum.inodeCsum seed inum inode.generation zeroed
    let expect := if hasHi then crc else crc % 2 ^ 16
    return provided == expect || (buf.take goodOldInodeSize).all (· == 0)

/-! ## Reading an inode back -/

theorem slice_putExtra {c : Prop} [Decidable c] (buf : List UInt8) {o off n : Nat} (v : Nat)
    (h : off + n ≤ o) : slice (if c then putU32 buf o v else buf) off n = slice buf off n := by
  split
  · exact slice_putU32_disjoint (Or.inl h)
  · rfl

theorem length_putExtra {c : Prop} [Decidable c] (buf : List UInt8) (o v : Nat) :
    (if c then putU32 buf o v else buf).length = buf.length := by
  split
  · exact length_putU32 _ _ _
  · rfl

/-- The extra area leaves the original 128 bytes alone. -/
theorem slice_encodeExtra {inodeSize : Nat} (buf : List UInt8) {off n : Nat}
    (hsize : goodOldInodeSize ≤ inodeSize) (h : off + n ≤ goodOldInodeSize) :
    slice (inode.encodeExtra inodeSize buf) off n = slice buf off n := by
  simp only [goodOldInodeSize] at hsize h
  have hstop : 128 ≤ extraEnd inode.extraIsize inodeSize := by
    simp only [extraEnd, goodOldInodeSize]
    omega
  simp only [encodeExtra]
  rw [slice_splice_disjoint (Or.inl (by omega))]
  repeat rw [slice_putExtra _ _ (by omega)]
  rw [slice_putU16_disjoint (by omega), slice_putU16_disjoint (by omega)]

theorem length_encodeExtra (inodeSize : Nat) (buf : List UInt8) :
    (inode.encodeExtra inodeSize buf).length = buf.length := by
  simp only [encodeExtra, length_splice, length_putExtra, length_putU16]

theorem length_encodeBase (buf : List UInt8) : (inode.encodeBase buf).length = buf.length := by
  simp only [encodeBase, length_putU16, length_putU32, length_putBytes]

@[simp] theorem length_encodeWithCsum (inodeSize : Nat) (metadataCsum : Bool) (seed : UInt32)
    (inum : Nat) : (inode.encodeWithCsum inodeSize metadataCsum seed inum).length = inodeSize := by
  have hlen : (inode.encode inodeSize).length = inodeSize := by
    unfold encode
    dsimp only
    split
    · rw [length_encodeBase, List.length_replicate]
    · rw [length_encodeExtra, length_encodeBase, List.length_replicate]
  unfold encodeWithCsum
  dsimp only
  split
  · split <;> simp only [length_putU16, hlen]
  · exact hlen

/-- What lies in the original 128 bytes is what `encodeBase` wrote. -/
theorem slice_encode {inodeSize : Nat} {off n : Nat} (hsize : goodOldInodeSize ≤ inodeSize)
    (h : off + n ≤ goodOldInodeSize) :
    slice (inode.encode inodeSize) off n =
      slice (inode.encodeBase (List.replicate inodeSize 0)) off n := by
  unfold encode
  dsimp only
  split
  · rfl
  · exact inode.slice_encodeExtra _ hsize h

/-- With a checksum as well, the checksum apart. -/
theorem slice_encodeWithCsum {inodeSize : Nat} (metadataCsum : Bool) (seed : UInt32) (inum : Nat)
    {off n : Nat} (hsize : goodOldInodeSize ≤ inodeSize) (h : off + n ≤ 0x7c) :
    slice (inode.encodeWithCsum inodeSize metadataCsum seed inum) off n =
      slice (inode.encodeBase (List.replicate inodeSize 0)) off n := by
  have henc := inode.slice_encode hsize (Nat.le_trans h (by decide : 0x7c ≤ goodOldInodeSize))
  unfold encodeWithCsum
  dsimp only
  split
  · split
    · rw [slice_putU16_disjoint (by omega), slice_putU16_disjoint (by omega), henc]
    · rw [slice_putU16_disjoint (by omega), henc]
  · exact henc

/-- The fields of the original 128 bytes. -/
def baseFields : List Field :=
  [.num 0x00 2 inode.mode, .num 0x02 2 inode.uid, .num 0x04 4 inode.size,
    .num 0x08 4 inode.atime, .num 0x0c 4 inode.ctime, .num 0x10 4 inode.mtime,
    .num 0x14 4 inode.dtime, .num 0x18 2 inode.gid, .num 0x1a 2 inode.linksCount,
    .num 0x1c 4 inode.blocks, .num 0x20 4 inode.flags, .num 0x24 4 inode.version,
    ⟨0x28, iBlockLen, _, length_putBytes_field iBlockLen inode.block⟩,
    .num 0x64 4 inode.generation, .num 0x68 4 inode.fileAcl, .num 0x6c 4 (inode.size / 2 ^ 32),
    .num 0x70 4 inode.faddr, .num 0x74 2 (inode.blocks / 2 ^ 32),
    .num 0x76 2 (inode.fileAcl / 2 ^ 32), .num 0x78 2 (inode.uid / 2 ^ 16),
    .num 0x7a 2 (inode.gid / 2 ^ 16), .num 0x7c 2 0, .num 0x7e 2 0]

/-- Where they lie. -/
def baseLayout : List (Nat × Nat) :=
  [(0x00, 2), (0x02, 2), (0x04, 4), (0x08, 4), (0x0c, 4), (0x10, 4), (0x14, 4), (0x18, 2),
    (0x1a, 2), (0x1c, 4), (0x20, 4), (0x24, 4), (0x28, 60), (0x64, 4), (0x68, 4), (0x6c, 4),
    (0x70, 4), (0x74, 2), (0x76, 2), (0x78, 2), (0x7a, 2), (0x7c, 2), (0x7e, 2)]

theorem baseLayout_apart : baseLayout.Pairwise Apart := by decide

theorem encodeBase_eq (buf : List UInt8) : inode.encodeBase buf = writeAll buf inode.baseFields :=
  rfl

/-- A number of the original 128 bytes reads back cut to its width. -/
theorem read_encodeWithCsum {inodeSize : Nat} (metadataCsum : Bool) (seed : UInt32) (inum : Nat)
    (hsize : goodOldInodeSize ≤ inodeSize) {i off width v : Nat}
    (hf : inode.baseFields[i]? = some (.num off width v)) (h : off + width ≤ 0x7c) :
    ofLe (slice (inode.encodeWithCsum inodeSize metadataCsum seed inum) off width) =
      v % 256 ^ width := by
  simp only [goodOldInodeSize] at hsize
  rw [inode.slice_encodeWithCsum metadataCsum seed inum hsize h, encodeBase_eq]
  exact @ofLe_slice_writeAll _ _ baseLayout rfl baseLayout_apart _ _ _ _ hf
    (by rw [List.length_replicate]; omega)

/-- The sizes an inode is decoded from: as many bytes as that, the word of `i_extra_isize` among
them where the inode has one. -/
def Decodable (len inodeSize : Nat) : Prop :=
  goodOldInodeSize ≤ inodeSize ∧ inodeSize ≤ len ∧ (goodOldInodeSize < inodeSize → 0x82 ≤ len)

instance (len inodeSize : Nat) : Decidable (Decodable len inodeSize) :=
  inferInstanceAs (Decidable (_ ∧ _))

theorem decodable_of_encodable {inodeSize len : Nat} (h : Encodable inodeSize)
    (hlen : inodeSize ≤ len) : Decodable len inodeSize := by
  unfold Encodable at h
  unfold Decodable
  rw [goodOldInodeSize] at h ⊢
  omega

/-- From any other size decoding fails. -/
theorem decodable_of_decode {buf : List UInt8} {inodeSize : Nat} {j : Inode}
    (h : decode buf inodeSize = .ok j) : Decodable buf.length inodeSize := by
  unfold decode at h
  dsimp only at h
  split at h
  · cases h
  · next hlen =>
    split at h
    · cases h
    · next hword => exact ⟨by omega, by omega, fun hlarge => by omega⟩

/-- What decoding reads of the block map, the use and the attribute block of an inode. -/
theorem decode_ok {buf : List UInt8} {inodeSize : Nat} (h : Decodable buf.length inodeSize) :
    ∃ j, decode buf inodeSize = .ok j ∧ j.mode = getU16 buf 0x00 ∧
      j.size = join 32 (getU32 buf 0x04) (getU32 buf 0x6c) ∧ j.linksCount = getU16 buf 0x1a ∧
      j.flags = getU32 buf 0x20 ∧ j.block = slice buf 0x28 iBlockLen ∧
      j.fileAcl = join 32 (getU32 buf 0x68) (getU16 buf 0x76) := by
  obtain ⟨hsize, hlen, hword⟩ := h
  unfold decode
  dsimp only
  rw [if_neg (by omega), if_neg (by omega)]
  exact ⟨_, rfl, rfl, rfl, rfl, rfl, rfl, rfl⟩

/-- What a reader sees of an inode that was encoded: the fields its block map, its use and its
    attribute block depend on. -/
theorem decode_encodeWithCsum {inodeSize : Nat} (metadataCsum : Bool) (seed : UInt32) (inum : Nat)
    (henc : Encodable inodeSize) (hblock : inode.block.length = iBlockLen) :
    ∃ j, decode (inode.encodeWithCsum inodeSize metadataCsum seed inum) inodeSize = .ok j ∧
      j.mode = inode.mode % 2 ^ 16 ∧ j.size = inode.size % 2 ^ 64 ∧
      j.linksCount = inode.linksCount % 2 ^ 16 ∧ j.flags = inode.flags % 2 ^ 32 ∧
      j.block = inode.block ∧ j.fileAcl = inode.fileAcl % 2 ^ 48 := by
  have hlen := inode.length_encodeWithCsum inodeSize metadataCsum seed inum
  have hdec := decodable_of_encodable henc (Nat.le_of_eq hlen.symm)
  have hsize := hdec.1
  have hread := fun {i off width v : Nat} =>
    @read_encodeWithCsum inode inodeSize metadataCsum seed inum hsize i off width v
  have hmap : slice (inode.encodeWithCsum inodeSize metadataCsum seed inum) 0x28 iBlockLen =
      inode.block := by
    have hin : 0x28 + iBlockLen ≤ (List.replicate inodeSize (0 : UInt8)).length := by
      simp only [goodOldInodeSize] at hsize
      rw [List.length_replicate, iBlockLen]
      omega
    rw [inode.slice_encodeWithCsum metadataCsum seed inum hsize (by decide), encodeBase_eq]
    have hfield := @slice_writeAll inode.baseFields (List.replicate inodeSize 0) baseLayout rfl
      baseLayout_apart 12 _ rfl hin
    simp only [hblock, Nat.sub_self, List.replicate_zero, List.append_nil] at hfield
    rw [hfield, ← hblock, List.take_length]
  have hmode := @hread 0 0x00 2 _ rfl (by decide)
  have hsizeLo := @hread 2 0x04 4 _ rfl (by decide)
  have hsizeHi := @hread 15 0x6c 4 _ rfl (by decide)
  have hlinks := @hread 8 0x1a 2 _ rfl (by decide)
  have hflags := @hread 10 0x20 4 _ rfl (by decide)
  have haclLo := @hread 14 0x68 4 _ rfl (by decide)
  have haclHi := @hread 18 0x76 2 _ rfl (by decide)
  clear hread
  obtain ⟨j, hj, jmode, jsize, jlinks, jflags, jblock, jacl⟩ :=
    @decode_ok (inode.encodeWithCsum inodeSize metadataCsum seed inum) inodeSize hdec
  refine ⟨j, hj, ?_, ?_, ?_, ?_, ?_, ?_⟩
  · exact jmode.trans hmode
  · rw [jsize, getU32, getU32, hsizeLo, hsizeHi]
    exact join_halves 32 32 inode.size
  · exact jlinks.trans hlinks
  · exact jflags.trans hflags
  · rw [jblock, hmap]
  · rw [jacl, getU32, getU16, haclLo, haclHi]
    exact join_halves 32 16 inode.fileAcl

end Inode

end MkfsExt4
