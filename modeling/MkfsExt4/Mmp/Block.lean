/-
  The multiple-mount-protection block (`src/mmp.rs`): its contents, its codec, and the
  sequence numbers a holder may use.

  `MmpFs` is what the protocol reads of an opened filesystem. Its block size carries the
  bound every ext4 block size meets (1024 bytes or more), which is what leaves room for
  the checksum at 0x3fc.

  Proved: a block written by `writeMmp` is read back with its sequence number
  (`readMmp_writeMmp`), and a drawn sequence is never a reserved one (`newSeq_lt`,
  `newSeq_ne_clean`, `newSeq_ne_fsck`).
-/
import MkfsExt4.Csum
import MkfsExt4.Error

namespace MkfsExt4

open Lib.Store Lib.Endian

/-- The contents of the MMP block. Names are their bytes. -/
structure Mmp where
  seq : Nat
  time : Nat
  nodename : List UInt8
  bdevname : List UInt8
  checkInterval : Nat
deriving DecidableEq

namespace Mmp

/-- `EXT4_MMP_MAGIC` -/
def mmpMagic : Nat := 0x004D4D50

/-- `EXT4_MMP_SEQ_CLEAN`: nobody holds the filesystem. -/
def seqClean : Nat := 0xFF4D4D50

/-- `EXT4_MMP_SEQ_FSCK`: a checker holds it. -/
def seqFsck : Nat := 0xE24D4D50

/-- `EXT4_MMP_SEQ_MAX`: the largest sequence a holder may use. -/
def seqMax : Nat := 0xE24D4D4F

/-- `EXT4_MMP_MIN_CHECK_INTERVAL`: never wait less than this. -/
def minCheckInterval : Nat := 5

/-! ## Field offsets within the block -/

def offMagic : Nat := 0x00
def offSeq : Nat := 0x04
def offTime : Nat := 0x08
def offNodename : Nat := 0x10
def offBdevname : Nat := 0x50
def offCheckInterval : Nat := 0x70
def offPad1 : Nat := 0x72
def offChecksum : Nat := 0x3fc

/-- What the protocol reads of an opened filesystem. -/
structure MmpFs where
  blockSize : Nat
  metadataCsum : Bool
  csumSeed : UInt32
  firstDataBlock : Nat
  blocksCount : Nat
  mmpBlock : Nat
  mmpUpdateInterval : Nat
  blockSize_ge : 1024 ≤ blockSize

/-- Whether anybody holds the filesystem. -/
def isHeld (m : Mmp) : Bool := m.seq ≠ seqClean

/-- How the holder should be described in a refusal. -/
def holder (m : Mmp) : List UInt8 :=
  match m.nodename.isEmpty, m.bdevname.isEmpty with
  | true, true => "an unnamed host".toUTF8.toList
  | false, true => m.nodename
  | true, false => "a host using ".toUTF8.toList ++ m.bdevname
  | false, false =>
    m.nodename ++ " (as ".toUTF8.toList ++ m.bdevname ++ ")".toUTF8.toList

/-- Decode from a block. -/
def decode (buf : List UInt8) : Except Error Mmp :=
  let magic := getU32 buf offMagic
  if magic ≠ mmpMagic then
    .error (.corrupt "mmp block" ("magic " ++ hex 8 magic ++ ", expected " ++ hex 8 mmpMagic))
  else
    .ok { seq := getU32 buf offSeq
          time := getU64 buf offTime
          nodename := fieldToString (slice buf offNodename 64)
          bdevname := fieldToString (slice buf offBdevname 32)
          checkInterval := getU16 buf offCheckInterval }

/-- The fields of a block, before its checksum. -/
def encodeFields (m : Mmp) (blockSize : Nat) : List UInt8 :=
  let buf := List.replicate blockSize 0
  let buf := putU32 buf offMagic mmpMagic
  let buf := putU32 buf offSeq m.seq
  let buf := putU64 buf offTime m.time
  let buf := putBytes buf offNodename 64 m.nodename
  let buf := putBytes buf offBdevname 32 m.bdevname
  let buf := putU16 buf offCheckInterval m.checkInterval
  putU16 buf offPad1 0

/-- Encode into a block, stamping the checksum when the filesystem carries them. -/
def encode (m : Mmp) (blockSize : Nat) (metadataCsum : Bool) (seed : UInt32) : List UInt8 :=
  let buf := encodeFields m blockSize
  if metadataCsum then
    putU32 buf offChecksum (Csum.crc32c seed (buf.take offChecksum)).toNat
  else buf

/-- Verify the checksum of a block this was decoded from. -/
def verifyChecksum (buf : List UInt8) (metadataCsum : Bool) (seed : UInt32) : Bool :=
  if !metadataCsum then true
  else (Csum.crc32c seed (buf.take offChecksum)).toNat == getU32 buf offChecksum

/-- Read the MMP block: what `read_mmp` makes of the bytes the device returned. -/
def readMmp (fs : MmpFs) (buf : List UInt8) : Except Error Mmp :=
  if !verifyChecksum buf fs.metadataCsum fs.csumSeed then
    .error (.corrupt "mmp block" "checksum does not match its contents")
  else decode buf

/-- Write the MMP block: the bytes `write_mmp` puts on the device. -/
def writeMmp (fs : MmpFs) (m : Mmp) : List UInt8 :=
  m.encode fs.blockSize fs.metadataCsum fs.csumSeed

/-- A sequence number a holder may use: random, and never one of the reserved values.
    `raw` is the first four bytes of a fresh UUID. -/
def newSeq (raw : UInt32) : Nat := raw.toNat % (seqMax - 1) + 1

theorem newSeq_lt (raw : UInt32) : newSeq raw < seqMax := by
  have : raw.toNat % (seqMax - 1) < seqMax - 1 := Nat.mod_lt _ (by decide)
  have hmax : seqMax = seqMax - 1 + 1 := by decide
  unfold newSeq
  omega

theorem newSeq_ne_clean (raw : UInt32) : newSeq raw ≠ seqClean := by
  have h := newSeq_lt raw
  have : seqMax < seqClean := by decide
  omega

theorem newSeq_ne_fsck (raw : UInt32) : newSeq raw ≠ seqFsck := by
  have h := newSeq_lt raw
  have : seqMax < seqFsck := by decide
  omega

theorem newSeq_lt_word (raw : UInt32) : newSeq raw < 2 ^ 32 :=
  Nat.lt_trans (newSeq_lt raw) (by decide)

/-! ## Reading a written block back -/

/-- The fields fill a whole block. -/
theorem length_encodeFields (m : Mmp) (bs : Nat) : (m.encodeFields bs).length = bs := by
  simp [encodeFields]

theorem getU32_encodeFields_magic (m : Mmp) {bs : Nat} (hbs : 1024 ≤ bs) :
    getU32 (m.encodeFields bs) offMagic = mmpMagic := by
  unfold encodeFields
  rw [getU32_putU16_disjoint (by decide), getU32_putU16_disjoint (by decide),
    getU32_putBytes_disjoint (by decide), getU32_putBytes_disjoint (by decide),
    getU32_putU64_disjoint (by decide), getU32_putU32_disjoint (by decide)]
  refine getU32_putU32 ?_ (by decide)
  rw [List.length_replicate, offMagic]
  omega

theorem getU32_encodeFields_seq (m : Mmp) {bs : Nat} (hbs : 1024 ≤ bs) (hseq : m.seq < 2 ^ 32) :
    getU32 (m.encodeFields bs) offSeq = m.seq := by
  unfold encodeFields
  rw [getU32_putU16_disjoint (by decide), getU32_putU16_disjoint (by decide),
    getU32_putBytes_disjoint (by decide), getU32_putBytes_disjoint (by decide),
    getU32_putU64_disjoint (by decide)]
  refine getU32_putU32 ?_ hseq
  rw [length_putU32, List.length_replicate, offSeq]
  omega

/-- The checksum field is past every field `decode` reads, so stamping it changes none. -/
theorem getU32_encode {m : Mmp} {bs off : Nat} (csum : Bool) (seed : UInt32)
    (h : off + 4 ≤ offChecksum) :
    getU32 (m.encode bs csum seed) off = getU32 (m.encodeFields bs) off := by
  unfold encode
  cases csum
  · rfl
  · exact getU32_putU32_disjoint (Or.inl h)

theorem verifyChecksum_encode (m : Mmp) {bs : Nat} (hbs : 1024 ≤ bs) (csum : Bool)
    (seed : UInt32) : verifyChecksum (m.encode bs csum seed) csum seed = true := by
  cases csum
  · rfl
  have hlen : offChecksum + 4 ≤ (m.encodeFields bs).length := by
    rw [length_encodeFields, offChecksum]; omega
  have htake : ∀ v, (putU32 (m.encodeFields bs) offChecksum v).take offChecksum =
      (m.encodeFields bs).take offChecksum := by
    intro v
    have : slice (splice (m.encodeFields bs) offChecksum (toLe 4 v)) 0 offChecksum =
        slice (m.encodeFields bs) 0 offChecksum := slice_splice_disjoint (Or.inl (by omega))
    simpa [slice, putU32] using this
  simp only [verifyChecksum, encode, Bool.not_true, Bool.false_eq_true, if_false, if_true, htake]
  rw [getU32_putU32 hlen (UInt32.toNat_lt _)]
  exact beq_self_eq_true _

/-- A block written by `writeMmp` decodes, and to the sequence number written. -/
theorem readMmp_writeMmp (fs : MmpFs) (m : Mmp) (hseq : m.seq < 2 ^ 32) :
    ∃ m', readMmp fs (writeMmp fs m) = .ok m' ∧ m'.seq = m.seq := by
  have hmagic : getU32 (writeMmp fs m) offMagic = mmpMagic := by
    rw [writeMmp, getU32_encode _ _ (by decide), getU32_encodeFields_magic m fs.blockSize_ge]
  have hs : getU32 (writeMmp fs m) offSeq = m.seq := by
    rw [writeMmp, getU32_encode _ _ (by decide), getU32_encodeFields_seq m fs.blockSize_ge hseq]
  have hv : verifyChecksum (writeMmp fs m) fs.metadataCsum fs.csumSeed = true :=
    verifyChecksum_encode m fs.blockSize_ge _ _
  have hread : readMmp fs (writeMmp fs m) = decode (writeMmp fs m) := by
    simp only [readMmp, hv, Bool.not_true, Bool.false_eq_true, if_false]
  rw [hread]
  simp only [decode, hmagic, ne_eq, not_true_eq_false, if_false]
  exact ⟨_, rfl, hs⟩

end Mmp

end MkfsExt4
