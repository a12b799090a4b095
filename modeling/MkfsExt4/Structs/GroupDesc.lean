/-
  Block group descriptors (`src/structs/group_desc.rs`): 32 bytes, or 64 and more with the
  high halves of the pointers, counters and bitmap checksums.
-/
import MkfsExt4.Lib.Record
import MkfsExt4.Structs.Superblock

namespace MkfsExt4

open Lib.Store Lib.Endian Lib.Record

def descSize64bit : Nat := 64

/-! Bits of `bg_flags`. -/

namespace BgFlags

/-- The inode table and bitmap were never written. -/
def inodeUninit : Nat := 0x0001

/-- The block bitmap was never written. -/
def blockUninit : Nat := 0x0002

/-- The inode table on disk is known to be zeroed. -/
def inodeZeroed : Nat := 0x0004

end BgFlags

/-- The end of `bg_block_bitmap_csum_hi` in a descriptor. -/
def bgBlockBitmapCsumHiLocation : Nat := 0x3a

/-- A block group descriptor, with the 32-bit and 64-bit halves merged. -/
structure GroupDesc where
  blockBitmap : Nat := 0
  inodeBitmap : Nat := 0
  inodeTable : Nat := 0
  freeBlocksCount : Nat := 0
  freeInodesCount : Nat := 0
  usedDirsCount : Nat := 0
  flags : Nat := 0
  excludeBitmap : Nat := 0
  blockBitmapCsum : Nat := 0
  inodeBitmapCsum : Nat := 0
  /-- Inodes at the end of the table never yet used. -/
  itableUnused : Nat := 0
  /-- As read; recomputed on encode. -/
  checksum : Nat := 0
deriving DecidableEq, Repr

namespace GroupDesc

def blockUninit (d : GroupDesc) : Bool := d.flags &&& BgFlags.blockUninit != 0

def inodeUninit (d : GroupDesc) : Bool := d.flags &&& BgFlags.inodeUninit != 0

/-- Decode from `descSize` bytes. -/
def decode (buf : List UInt8) (descSize : Nat) : GroupDesc :=
  let wide := descSize64bit ≤ descSize
  let hi32 (off : Nat) : Nat := if wide then getU32 buf off else 0
  let hi16 (off : Nat) : Nat := if wide then getU16 buf off else 0
  { blockBitmap := join 32 (getU32 buf 0x00) (hi32 0x20)
    inodeBitmap := join 32 (getU32 buf 0x04) (hi32 0x24)
    inodeTable := join 32 (getU32 buf 0x08) (hi32 0x28)
    freeBlocksCount := join 16 (getU16 buf 0x0c) (hi16 0x2c)
    freeInodesCount := join 16 (getU16 buf 0x0e) (hi16 0x2e)
    usedDirsCount := join 16 (getU16 buf 0x10) (hi16 0x30)
    flags := getU16 buf 0x12
    excludeBitmap := join 32 (getU32 buf 0x14) (hi32 0x34)
    blockBitmapCsum := join 16 (getU16 buf 0x18)
      (if bgBlockBitmapCsumHiLocation ≤ descSize then getU16 buf 0x38 else 0)
    inodeBitmapCsum := join 16 (getU16 buf 0x1a)
      (if bgBlockBitmapCsumHiLocation + 2 ≤ descSize then getU16 buf 0x3a else 0)
    itableUnused := join 16 (getU16 buf 0x1c) (hi16 0x32)
    checksum := getU16 buf 0x1e }

/-- Decoding looks at no byte past the descriptor. -/
theorem decode_take {descSize : Nat} (buf : List UInt8) (h : minDescSize ≤ descSize) :
    decode (buf.take descSize) descSize = decode buf descSize := by
  simp only [minDescSize] at h
  have hslice : ∀ off n, off + n ≤ descSize →
      slice (buf.take descSize) off n = slice buf off n := fun off n hin => by
    have hcut := @slice_slice _ buf off n 0 descSize hin
    rwa [Nat.zero_add] at hcut
  have h32 : ∀ off, off + 4 ≤ descSize → getU32 (buf.take descSize) off = getU32 buf off :=
    fun off hin => by rw [getU32, hslice off 4 hin, getU32]
  have h16 : ∀ off, off + 2 ≤ descSize → getU16 (buf.take descSize) off = getU16 buf off :=
    fun off hin => by rw [getU16, hslice off 2 hin, getU16]
  have hif : ∀ (n : Nat) (get : List UInt8 → Nat),
      (n ≤ descSize → get (buf.take descSize) = get buf) →
      (if n ≤ descSize then get (buf.take descSize) else 0) =
        if n ≤ descSize then get buf else 0 := fun n get heq => by
    split
    · next hn => exact heq hn
    · rfl
  have hwide : descSize64bit ≤ descSize → 64 ≤ descSize := id
  unfold decode
  dsimp only
  rw [h32 0x00 (by omega), h32 0x04 (by omega), h32 0x08 (by omega), h32 0x14 (by omega),
    h16 0x0c (by omega), h16 0x0e (by omega), h16 0x10 (by omega), h16 0x12 (by omega),
    h16 0x18 (by omega), h16 0x1a (by omega), h16 0x1c (by omega), h16 0x1e (by omega),
    hif _ (getU32 · 0x20) fun hn => h32 _ (by have := hwide hn; omega),
    hif _ (getU32 · 0x24) fun hn => h32 _ (by have := hwide hn; omega),
    hif _ (getU32 · 0x28) fun hn => h32 _ (by have := hwide hn; omega),
    hif _ (getU32 · 0x34) fun hn => h32 _ (by have := hwide hn; omega),
    hif _ (getU16 · 0x2c) fun hn => h16 _ (by have := hwide hn; omega),
    hif _ (getU16 · 0x2e) fun hn => h16 _ (by have := hwide hn; omega),
    hif _ (getU16 · 0x30) fun hn => h16 _ (by have := hwide hn; omega),
    hif _ (getU16 · 0x32) fun hn => h16 _ (by have := hwide hn; omega),
    hif bgBlockBitmapCsumHiLocation (getU16 · 0x38) fun hn => h16 _ hn,
    hif (bgBlockBitmapCsumHiLocation + 2) (getU16 · 0x3a) fun hn => h16 _ hn]

/-- The low half, on `buf`. -/
def encodeLow (d : GroupDesc) (buf : List UInt8) : List UInt8 :=
  let buf := putU32 buf 0x00 d.blockBitmap
  let buf := putU32 buf 0x04 d.inodeBitmap
  let buf := putU32 buf 0x08 d.inodeTable
  let buf := putU16 buf 0x0c d.freeBlocksCount
  let buf := putU16 buf 0x0e d.freeInodesCount
  let buf := putU16 buf 0x10 d.usedDirsCount
  let buf := putU16 buf 0x12 d.flags
  let buf := putU32 buf 0x14 d.excludeBitmap
  let buf := putU16 buf 0x18 d.blockBitmapCsum
  let buf := putU16 buf 0x1a d.inodeBitmapCsum
  let buf := putU16 buf 0x1c d.itableUnused
  putU16 buf 0x1e d.checksum

/-- The high half, on `buf`. -/
def encodeHigh (d : GroupDesc) (descSize : Nat) (buf : List UInt8) : List UInt8 :=
  let buf := putU32 buf 0x20 (d.blockBitmap / 2 ^ 32)
  let buf := putU32 buf 0x24 (d.inodeBitmap / 2 ^ 32)
  let buf := putU32 buf 0x28 (d.inodeTable / 2 ^ 32)
  let buf := putU16 buf 0x2c (d.freeBlocksCount / 2 ^ 16)
  let buf := putU16 buf 0x2e (d.freeInodesCount / 2 ^ 16)
  let buf := putU16 buf 0x30 (d.usedDirsCount / 2 ^ 16)
  let buf := putU16 buf 0x32 (d.itableUnused / 2 ^ 16)
  let buf := putU32 buf 0x34 (d.excludeBitmap / 2 ^ 32)
  let buf := if bgBlockBitmapCsumHiLocation ≤ descSize then
    putU16 buf 0x38 (d.blockBitmapCsum / 2 ^ 16) else buf
  if bgBlockBitmapCsumHiLocation + 2 ≤ descSize then
    putU16 buf 0x3a (d.inodeBitmapCsum / 2 ^ 16) else buf

/-- The `descSize` bytes of a descriptor, its checksum field as it stands. -/
def encode (d : GroupDesc) (descSize : Nat) : List UInt8 :=
  let buf := d.encodeLow (List.replicate descSize 0)
  if descSize64bit ≤ descSize then d.encodeHigh descSize buf else buf

/-- Encode and stamp `bg_checksum` for `group`. -/
def encodeWithCsum (d : GroupDesc) (descSize : Nat) (scheme : Csum.GroupDescCsum) (seed : UInt32)
    (uuid : List UInt8) (group : Nat) : List UInt8 :=
  let buf := d.encode descSize
  putU16 buf 0x1e (Csum.groupDescCsum scheme seed uuid group buf)

/-! ## Reading a descriptor back -/

/-- The fields of the low half. -/
def lowFields (d : GroupDesc) : List Field :=
  [.num 0x00 4 d.blockBitmap, .num 0x04 4 d.inodeBitmap, .num 0x08 4 d.inodeTable,
    .num 0x0c 2 d.freeBlocksCount, .num 0x0e 2 d.freeInodesCount, .num 0x10 2 d.usedDirsCount,
    .num 0x12 2 d.flags, .num 0x14 4 d.excludeBitmap, .num 0x18 2 d.blockBitmapCsum,
    .num 0x1a 2 d.inodeBitmapCsum, .num 0x1c 2 d.itableUnused, .num 0x1e 2 d.checksum]

/-- The fields of both halves, as a wide descriptor has them. -/
def wideFields (d : GroupDesc) : List Field := d.lowFields ++
  [.num 0x20 4 (d.blockBitmap / 2 ^ 32), .num 0x24 4 (d.inodeBitmap / 2 ^ 32),
    .num 0x28 4 (d.inodeTable / 2 ^ 32), .num 0x2c 2 (d.freeBlocksCount / 2 ^ 16),
    .num 0x2e 2 (d.freeInodesCount / 2 ^ 16), .num 0x30 2 (d.usedDirsCount / 2 ^ 16),
    .num 0x32 2 (d.itableUnused / 2 ^ 16), .num 0x34 4 (d.excludeBitmap / 2 ^ 32),
    .num 0x38 2 (d.blockBitmapCsum / 2 ^ 16), .num 0x3a 2 (d.inodeBitmapCsum / 2 ^ 16)]

/-- Where they lie. -/
def lowLayout : List (Nat × Nat) :=
  [(0x00, 4), (0x04, 4), (0x08, 4), (0x0c, 2), (0x0e, 2), (0x10, 2), (0x12, 2), (0x14, 4),
    (0x18, 2), (0x1a, 2), (0x1c, 2), (0x1e, 2)]

def wideLayout : List (Nat × Nat) := lowLayout ++
  [(0x20, 4), (0x24, 4), (0x28, 4), (0x2c, 2), (0x2e, 2), (0x30, 2), (0x32, 2), (0x34, 4),
    (0x38, 2), (0x3a, 2)]

theorem lowLayout_apart : lowLayout.Pairwise Apart := by decide

theorem wideLayout_apart : wideLayout.Pairwise Apart := by decide

theorem encode_narrow {d : GroupDesc} {descSize : Nat} (h : descSize < descSize64bit) :
    d.encode descSize = writeAll (List.replicate descSize 0) d.lowFields := by
  unfold encode
  dsimp only
  rw [if_neg (Nat.not_le.mpr h)]
  rfl

theorem encode_wide {d : GroupDesc} {descSize : Nat} (h : descSize64bit ≤ descSize) :
    d.encode descSize = writeAll (List.replicate descSize 0) d.wideFields := by
  have hlo : bgBlockBitmapCsumHiLocation ≤ descSize := Nat.le_trans (by decide) h
  have hhi : bgBlockBitmapCsumHiLocation + 2 ≤ descSize := Nat.le_trans (by decide) h
  unfold encode encodeHigh
  dsimp only
  rw [if_pos h, if_pos hlo, if_pos hhi]
  rfl

/-- Every field of a descriptor fits the width that `descSize` gives it. -/
structure Representable (d : GroupDesc) (descSize : Nat) : Prop where
  blockBitmap : d.blockBitmap < if descSize64bit ≤ descSize then 2 ^ 64 else 2 ^ 32
  inodeBitmap : d.inodeBitmap < if descSize64bit ≤ descSize then 2 ^ 64 else 2 ^ 32
  inodeTable : d.inodeTable < if descSize64bit ≤ descSize then 2 ^ 64 else 2 ^ 32
  freeBlocksCount : d.freeBlocksCount < if descSize64bit ≤ descSize then 2 ^ 32 else 2 ^ 16
  freeInodesCount : d.freeInodesCount < if descSize64bit ≤ descSize then 2 ^ 32 else 2 ^ 16
  usedDirsCount : d.usedDirsCount < if descSize64bit ≤ descSize then 2 ^ 32 else 2 ^ 16
  flags : d.flags < 2 ^ 16
  excludeBitmap : d.excludeBitmap < if descSize64bit ≤ descSize then 2 ^ 64 else 2 ^ 32
  blockBitmapCsum : d.blockBitmapCsum < if descSize64bit ≤ descSize then 2 ^ 32 else 2 ^ 16
  inodeBitmapCsum : d.inodeBitmapCsum < if descSize64bit ≤ descSize then 2 ^ 32 else 2 ^ 16
  itableUnused : d.itableUnused < if descSize64bit ≤ descSize then 2 ^ 32 else 2 ^ 16
  checksum : d.checksum < 2 ^ 16

/-- The fields a descriptor of `descSize` bytes has. -/
def fieldsFor (d : GroupDesc) (descSize : Nat) : List Field :=
  if descSize64bit ≤ descSize then d.wideFields else d.lowFields

theorem encode_eq (d : GroupDesc) (descSize : Nat) :
    d.encode descSize = writeAll (List.replicate descSize 0) (d.fieldsFor descSize) := by
  unfold fieldsFor
  split
  · next h => exact encode_wide h
  · next h => exact encode_narrow (Nat.not_le.mp h)

theorem length_encode (d : GroupDesc) (descSize : Nat) : (d.encode descSize).length = descSize := by
  rw [encode_eq, length_writeAll, List.length_replicate]

@[simp] theorem length_encodeWithCsum (d : GroupDesc) (descSize : Nat)
    (scheme : Csum.GroupDescCsum) (seed : UInt32) (uuid : List UInt8) (group : Nat) :
    (d.encodeWithCsum descSize scheme seed uuid group).length = descSize := by
  simp only [encodeWithCsum, length_putU16, length_encode]

/-- The layout of a descriptor of `descSize` bytes. -/
def layoutFor (descSize : Nat) : List (Nat × Nat) :=
  if descSize64bit ≤ descSize then wideLayout else lowLayout

theorem fieldsFor_place (d : GroupDesc) (descSize : Nat) :
    (d.fieldsFor descSize).map Field.place = layoutFor descSize := by
  unfold fieldsFor layoutFor
  split <;> rfl

theorem layoutFor_apart (descSize : Nat) : (layoutFor descSize).Pairwise Apart := by
  unfold layoutFor
  split
  · exact wideLayout_apart
  · exact lowLayout_apart

theorem layoutFor_within {descSize : Nat} (hsize : minDescSize ≤ descSize) :
    ∀ p ∈ layoutFor descSize, p.1 + p.2 ≤ descSize := by
  unfold layoutFor
  split
  · next hwide =>
    intro p hp
    have hmax : ∀ p ∈ wideLayout, p.1 + p.2 ≤ 64 := by decide
    exact Nat.le_trans (hmax p hp) hwide
  · intro p hp
    have hmax : ∀ p ∈ lowLayout, p.1 + p.2 ≤ 32 := by decide
    exact Nat.le_trans (hmax p hp) hsize

/-- A number of a descriptor reads back cut to its width. -/
theorem read_encode (d : GroupDesc) {descSize : Nat} (hsize : minDescSize ≤ descSize)
    {i off width v : Nat} (hf : (d.fieldsFor descSize)[i]? = some (.num off width v)) :
    ofLe (slice (d.encode descSize) off width) = v % 256 ^ width := by
  have hin : off + width ≤ descSize := by
    refine layoutFor_within hsize (off, width) ?_
    rw [← d.fieldsFor_place]
    exact List.mem_map.mpr ⟨_, List.mem_of_getElem? hf, rfl⟩
  rw [encode_eq]
  exact ofLe_slice_writeAll (d.fieldsFor_place descSize) (layoutFor_apart descSize) hf
    (by rw [List.length_replicate]; exact hin)

/-- The same once the checksum was stamped, that field apart. -/
theorem read_encodeWithCsum (d : GroupDesc) {descSize : Nat} (hsize : minDescSize ≤ descSize)
    (scheme : Csum.GroupDescCsum) (seed : UInt32) (uuid : List UInt8) (group : Nat)
    {i off width v : Nat} (hf : (d.fieldsFor descSize)[i]? = some (.num off width v))
    (h : off + width ≤ 0x1e ∨ 0x20 ≤ off) :
    ofLe (slice (d.encodeWithCsum descSize scheme seed uuid group) off width) =
      v % 256 ^ width := by
  rw [encodeWithCsum, slice_putU16_disjoint h, d.read_encode hsize hf]

theorem groupDescCsum_lt (scheme : Csum.GroupDescCsum) (seed : UInt32) (uuid : List UInt8)
    (group : Nat) (desc : List UInt8) :
    Csum.groupDescCsum scheme seed uuid group desc < 2 ^ 16 := by
  unfold Csum.groupDescCsum
  cases scheme with
  | none => exact Nat.two_pow_pos 16
  | crc32c => exact Nat.mod_lt _ (by decide)
  | crc16 => exact UInt16.toNat_lt _

/-- `d` with the checksum that encoding it for `group` computes. -/
def stamped (d : GroupDesc) (descSize : Nat) (scheme : Csum.GroupDescCsum) (seed : UInt32)
    (uuid : List UInt8) (group : Nat) : GroupDesc :=
  { d with checksum := Csum.groupDescCsum scheme seed uuid group (d.encode descSize) }

/-- A buffer in which the fields of a descriptor stand, each cut to its width, decodes to it, if
    they fit: with the checksum that the buffer has. -/
theorem decode_of_reads {d : GroupDesc} {descSize : Nat} {buf : List UInt8}
    (hsize : descSize = minDescSize ∨ descSize64bit ≤ descSize) (h : d.Representable descSize)
    (hread : ∀ {i off width v : Nat}, (d.fieldsFor descSize)[i]? = some (.num off width v) →
      off + width ≤ 0x1e ∨ 0x20 ≤ off → ofLe (slice buf off width) = v % 256 ^ width) :
    decode buf descSize = { d with checksum := getU16 buf 0x1e } := by
  obtain ⟨h1, h2, h3, h4, h5, h6, h7, h8, h9, h10, h11, -⟩ := h
  rcases hsize with rfl | hwide
  · have hnarrow : ¬ descSize64bit ≤ minDescSize := by decide
    simp only [if_neg hnarrow] at h1 h2 h3 h4 h5 h6 h8 h9 h10 h11
    have cut : ∀ {w n v : Nat}, 256 ^ n = 2 ^ w → v < 2 ^ w → join w (v % 256 ^ n) 0 = v :=
      fun {w n v} hpow hv => by
        rw [hpow, join, Nat.zero_mul, Nat.add_zero, Nat.mod_eq_of_lt hv]
    have hfields : d.fieldsFor minDescSize = d.lowFields := if_neg hnarrow
    simp only [hfields] at hread
    unfold decode
    simp only [if_neg hnarrow, if_neg (by decide : ¬ bgBlockBitmapCsumHiLocation ≤ minDescSize),
      if_neg (by decide : ¬ bgBlockBitmapCsumHiLocation + 2 ≤ minDescSize)]
    simp only [getU32, getU16]
    rw [@hread 0 0x00 4 _ rfl (by decide), @hread 1 0x04 4 _ rfl (by decide),
      @hread 2 0x08 4 _ rfl (by decide), @hread 3 0x0c 2 _ rfl (by decide),
      @hread 4 0x0e 2 _ rfl (by decide), @hread 5 0x10 2 _ rfl (by decide),
      @hread 6 0x12 2 _ rfl (by decide), @hread 7 0x14 4 _ rfl (by decide),
      @hread 8 0x18 2 _ rfl (by decide), @hread 9 0x1a 2 _ rfl (by decide),
      @hread 10 0x1c 2 _ rfl (by decide),
      @cut 32 4 _ rfl h1, @cut 32 4 _ rfl h2, @cut 32 4 _ rfl h3, @cut 16 2 _ rfl h4,
      @cut 16 2 _ rfl h5, @cut 16 2 _ rfl h6, @cut 32 4 _ rfl h8, @cut 16 2 _ rfl h9,
      @cut 16 2 _ rfl h10, @cut 16 2 _ rfl h11,
      Nat.mod_eq_of_lt (show d.flags < 256 ^ 2 from h7)]
  · simp only [if_pos hwide] at h1 h2 h3 h4 h5 h6 h8 h9 h10 h11
    have cut : ∀ {w n v : Nat}, 256 ^ n = 2 ^ w → v < 2 ^ (w + w) →
        join w (v % 256 ^ n) (v / 2 ^ w % 256 ^ n) = v := fun {w n v} hpow hv => by
      rw [hpow, join_halves, Nat.mod_eq_of_lt hv]
    have hfields : d.fieldsFor descSize = d.wideFields := if_pos hwide
    simp only [hfields] at hread
    unfold decode
    simp only [if_pos hwide, if_pos (Nat.le_trans (by decide) hwide :
      bgBlockBitmapCsumHiLocation ≤ descSize), if_pos (Nat.le_trans (by decide) hwide :
      bgBlockBitmapCsumHiLocation + 2 ≤ descSize)]
    simp only [getU32, getU16]
    rw [@hread 0 0x00 4 _ rfl (by decide), @hread 1 0x04 4 _ rfl (by decide),
      @hread 2 0x08 4 _ rfl (by decide), @hread 3 0x0c 2 _ rfl (by decide),
      @hread 4 0x0e 2 _ rfl (by decide), @hread 5 0x10 2 _ rfl (by decide),
      @hread 6 0x12 2 _ rfl (by decide), @hread 7 0x14 4 _ rfl (by decide),
      @hread 8 0x18 2 _ rfl (by decide), @hread 9 0x1a 2 _ rfl (by decide),
      @hread 10 0x1c 2 _ rfl (by decide), @hread 12 0x20 4 _ rfl (by decide),
      @hread 13 0x24 4 _ rfl (by decide), @hread 14 0x28 4 _ rfl (by decide),
      @hread 15 0x2c 2 _ rfl (by decide), @hread 16 0x2e 2 _ rfl (by decide),
      @hread 17 0x30 2 _ rfl (by decide), @hread 18 0x32 2 _ rfl (by decide),
      @hread 19 0x34 4 _ rfl (by decide), @hread 20 0x38 2 _ rfl (by decide),
      @hread 21 0x3a 2 _ rfl (by decide),
      @cut 32 4 _ rfl h1, @cut 32 4 _ rfl h2, @cut 32 4 _ rfl h3, @cut 16 2 _ rfl h4,
      @cut 16 2 _ rfl h5, @cut 16 2 _ rfl h6, @cut 32 4 _ rfl h8, @cut 16 2 _ rfl h9,
      @cut 16 2 _ rfl h10, @cut 16 2 _ rfl h11,
      Nat.mod_eq_of_lt (show d.flags < 256 ^ 2 from h7)]

theorem minDescSize_le_of {descSize : Nat}
    (hsize : descSize = minDescSize ∨ descSize64bit ≤ descSize) : minDescSize ≤ descSize := by
  rcases hsize with hsize | hsize
  · exact Nat.le_of_eq hsize.symm
  · exact Nat.le_trans (by decide) hsize

/-- The checksum field holds what was stamped. -/
theorem checksum_encodeWithCsum (d : GroupDesc) {descSize : Nat} (hmin : minDescSize ≤ descSize)
    (scheme : Csum.GroupDescCsum) (seed : UInt32) (uuid : List UInt8) (group : Nat) :
    getU16 (d.encodeWithCsum descSize scheme seed uuid group) 0x1e =
      Csum.groupDescCsum scheme seed uuid group (d.encode descSize) := by
  rw [getU16, encodeWithCsum, slice_putU16_self (by rw [length_encode]; exact hmin),
    ofLe_toLe_of_lt (groupDescCsum_lt scheme seed uuid group _)]

/-- A descriptor that fits its width reads back, with its checksum recomputed. -/
theorem decode_encodeWithCsum {d : GroupDesc} {descSize : Nat}
    (hsize : descSize = minDescSize ∨ descSize64bit ≤ descSize) (h : d.Representable descSize)
    (scheme : Csum.GroupDescCsum) (seed : UInt32) (uuid : List UInt8) (group : Nat) :
    decode (d.encodeWithCsum descSize scheme seed uuid group) descSize =
      d.stamped descSize scheme seed uuid group := by
  have hmin := minDescSize_le_of hsize
  rw [decode_of_reads hsize h fun {_ _ _ _} hf =>
    d.read_encodeWithCsum hmin scheme seed uuid group hf, d.checksum_encodeWithCsum hmin]
  rfl

end GroupDesc

end MkfsExt4
