/-
  Reading an inode and writing it back (`src/fs.rs`): `write_inode(n, read_inode(n))` against
  the bytes on disk.
-/
import MkfsExt4.Fs.Descriptors
import MkfsExt4.Structs.InodeStamp

namespace MkfsExt4

open Lib.Store Lib.Hoare

namespace Filesystem

variable {fs : Filesystem} {inum : Nat} {raw : List UInt8} {inode : Inode}

/-- Where an inode was read from. -/
theorem readInodeRaw_ok (h : fs.readInodeRaw inum = .ok raw) :
    ∃ group block offset, fs.inodeLocation inum = .ok (group, block, offset) ∧
      fs.readBlock block = .ok (window fs.device.bytes (block * fs.blockSize) fs.blockSize) ∧
      offset + fs.superblock.inodeSize ≤ fs.blockSize ∧
      block * fs.blockSize < 2 ^ 64 ∧ block * fs.blockSize + fs.blockSize ≤ fs.device.size ∧
      raw = window fs.device.bytes (block * fs.blockSize + offset) fs.superblock.inodeSize := by
  unfold readInodeRaw at h
  obtain ⟨⟨group, block, offset⟩, hloc, h⟩ := bind_ok h
  obtain ⟨tableBlock, hread, h⟩ := bind_ok h
  obtain ⟨hroom, h⟩ := panicIf_bind_ok_iff.mp h
  obtain rfl := Except.ok.inj h
  have hat : fs.readAtBlock block fs.blockSize = .ok tableBlock := by
    unfold readBlock at hread
    dsimp only at hread
    split at hread
    · cases hread
    · exact hread
  obtain ⟨⟨hoff, hin⟩, rfl⟩ := readAtBlock_ok_iff.mp hat
  rw [length_window] at hroom
  exact ⟨group, block, offset, hloc, hread, by omega, hoff, hin, slice_window _ (by omega)⟩

/-- What writing an inode does, where its block can be read. -/
theorem exec_writeInode {group block offset : Nat}
    (hloc : fs.inodeLocation inum = .ok (group, block, offset))
    (hread : fs.readBlock block = .ok (window fs.device.bytes (block * fs.blockSize) fs.blockSize))
    (hroom : offset + fs.superblock.inodeSize ≤ fs.blockSize) (hoff : block * fs.blockSize < 2 ^ 64)
    (hin : block * fs.blockSize + fs.blockSize ≤ fs.device.size)
    (henc : Inode.Encodable fs.superblock.inodeSize) :
    exec (writeInode inum inode) fs = (.ok (), fs.withBytes (block * fs.blockSize + offset)
      (inode.encodeWithCsum fs.superblock.inodeSize fs.hasMetadataCsum fs.csumSeed inum)) := by
  have hpanic : panicIf (¬ Inode.Encodable fs.superblock.inodeSize) = .ok () :=
    panicIf_of_not (not_not.mpr henc)
  have hencoded : (fun fs : Filesystem => (Except.ok (inode.encodeWithCsum
      fs.superblock.inodeSize fs.hasMetadataCsum fs.csumSeed inum) : Except Failure _)) fs =
        .ok (inode.encodeWithCsum fs.superblock.inodeSize fs.hasMetadataCsum fs.csumSeed inum) := rfl
  unfold writeInode
  rw [exec_bind_of_ok (exec_reading hloc)]
  dsimp only
  rw [exec_bind_of_ok (exec_reading hpanic), exec_bind_of_ok (exec_reading hencoded),
    exec_bind_of_ok (exec_reading hread),
    exec_bind_of_ok (exec_reading (panicIf_of_not (by rw [length_window]; omega))),
    exec_writeBlock hoff (by rw [length_splice, length_window]; exact hin)]
  unfold withBytes
  rw [overlay_splice_window _ (by rw [Inode.length_encodeWithCsum]; exact hroom)]

/-- A write changes nothing exactly when it writes what stands there. -/
theorem withBytes_eq_iff {offset : Nat} {buf : List UInt8} :
    fs.withBytes offset buf = fs ↔ buf = window fs.device.bytes offset buf.length := by
  constructor
  · intro h
    have hbytes : overlay fs.device.bytes offset buf = fs.device.bytes :=
      congrArg (fun fs => fs.device.bytes) h
    conv_lhs => rw [← window_overlay fs.device.bytes offset buf, hbytes]
  · intro h
    have hbytes : overlay fs.device.bytes offset buf = fs.device.bytes := by
      funext p
      by_cases hin : offset ≤ p ∧ p < offset + buf.length
      · rw [overlay_of_mem _ _ 0 hin.1 hin.2, h, getD_window _ _ _ _ _ (by omega),
          Nat.add_sub_cancel' hin.1]
      · rw [overlay_apply _ _ _ _ 0, if_neg hin]
    unfold withBytes
    rw [hbytes]

/-- Writing an inode back as it was read changes nothing exactly when its bytes encode to
    themselves. -/
theorem rewrite_iff (hraw : fs.readInodeRaw inum = .ok raw) :
    exec (writeInode inum inode) fs = (.ok (), fs) ↔
      Inode.Encodable fs.superblock.inodeSize ∧
        inode.encodeWithCsum fs.superblock.inodeSize fs.hasMetadataCsum fs.csumSeed inum = raw := by
  obtain ⟨group, block, offset, hloc, hblock, hroom, hoff, hin, rfl⟩ := readInodeRaw_ok hraw
  by_cases henc : Inode.Encodable fs.superblock.inodeSize
  · rw [exec_writeInode hloc hblock hroom hoff hin henc]
    constructor
    · intro h
      have heq := withBytes_eq_iff.mp (congrArg Prod.snd h)
      rw [Inode.length_encodeWithCsum] at heq
      exact ⟨henc, heq⟩
    · rintro ⟨-, heq⟩
      have hsame := withBytes_eq_iff.mpr (show _ = _ by rw [Inode.length_encodeWithCsum, heq])
      rw [hsame]
  · refine ⟨fun h => ?_, fun h => absurd h.1 henc⟩
    unfold writeInode at h
    rw [exec_bind_of_ok (exec_reading hloc)] at h
    obtain ⟨_, _, hpanic, -⟩ := exec_bind_ok h
    exact absurd (panicIf_ok (reading_ok hpanic).1) (not_not.mpr henc)

/-- Encoding a decoded inode reproduces it, and writing it back as it was read changes nothing,
    exactly when every byte of its extra area that lies in no whole known field is zero. -/
theorem inode_codec_iff (raw : List UInt8) :
    (∀ inodeSize : Nat, raw.length = inodeSize → goodOldInodeSize ≤ inodeSize →
        goodOldInodeSize + Inode.extraIsizeOf raw inodeSize ≤ inodeSize →
        (Inode.Reproduced raw inodeSize ↔
          Inode.Encodable inodeSize ∧ Inode.Covered raw inodeSize)) ∧
      ∀ (fs : Filesystem) (inum : Nat) (inode : Inode),
        fs.readInodeRaw inum = .ok raw → fs.readInode inum = .ok inode →
        goodOldInodeSize + Inode.extraIsizeOf raw fs.superblock.inodeSize ≤
          fs.superblock.inodeSize →
        getU16 raw 0x7e = 0 →
        Inode.ChecksumRight raw fs.superblock.inodeSize fs.hasMetadataCsum fs.csumSeed inum →
        (exec (writeInode inum inode) fs = (.ok (), fs) ↔
          Inode.Encodable fs.superblock.inodeSize ∧ Inode.Kept raw fs.superblock.inodeSize) := by
  refine ⟨fun inodeSize hlen _ hfit => Inode.reproduced_iff hlen hfit,
    fun fs inum inode hraw hread hfit hres hright => ?_⟩
  have hdec : Inode.decode raw fs.superblock.inodeSize = .ok inode := by
    unfold readInode at hread
    rwa [hraw] at hread
  have hlen : raw.length = fs.superblock.inodeSize := by
    obtain ⟨_, _, _, -, -, -, -, -, rfl⟩ := readInodeRaw_ok hraw
    exact length_window _ _ _
  rw [rewrite_iff hraw]
  exact and_congr_right fun henc => Inode.encodeWithCsum_eq_iff hlen henc hfit hdec hres hright

/-- A file with times in its extra area and attributes behind it. -/
def labelled : Inode :=
  { mode := 0x81a4, size := 5, linksCount := 1, generation := 7, extraIsize := 32,
    crtime := 1700000000, projid := 3, tail := [0, 0, 2, 0xea, 5, 1] }

/-- Its bytes, both checksum halves among them. -/
def labelledRaw : List UInt8 := labelled.encodeWithCsum 256 true 0x1234 3

/-- A filesystem of one group with metadata checksums that has it for inode 3. -/
def labelledFs : Filesystem where
  device := { size := 16384, bytes := overlay (fun _ => 0) (5 * 1024 + 512) labelledRaw }
  superblock := { Superblock.default with
    inodesCount := 8, blocksCount := 16, inodesPerGroup := 8, logBlockSize := 0,
    firstDataBlock := 1, blocksPerGroup := 8192 }
  groupDescs := [{ inodeTable := 5 }]
  csumScheme := .crc32c
  csumSeed := 0x1234

theorem length_labelledRaw : labelledRaw.length = 256 := labelled.length_encodeWithCsum ..

theorem labelledFs_raw : labelledFs.readInodeRaw 3 = .ok labelledRaw := by
  have hloc : labelledFs.inodeLocation 3 = .ok (0, 5, 512) := by decide +kernel
  have hread : labelledFs.readBlock 5 = .ok (window labelledFs.device.bytes (5 * 1024) 1024) :=
    readBlock_ok_iff.mpr ⟨by decide, by decide, by decide, rfl⟩
  unfold readInodeRaw
  rw [bind_of_ok hloc]
  dsimp only
  rw [bind_of_ok hread]
  refine panicIf_bind_ok_iff.mpr ⟨by rw [length_window]; decide, congrArg _ ?_⟩
  rw [slice_window _ (by decide)]
  have hwindow := window_overlay (fun _ => 0) (5 * 1024 + 512) labelledRaw
  rw [length_labelledRaw] at hwindow
  exact hwindow

/-- Nothing of it is lost: it encodes to itself, and writing it back as it was read changes
    nothing. -/
theorem inode_codec_labelled : Inode.Reproduced labelledRaw 256 ∧
    ∃ inode, labelledFs.readInode 3 = .ok inode ∧ inode.tail = labelled.tail ∧
      exec (writeInode 3 inode) labelledFs = (.ok (), labelledFs) := by
  have hword : getU16 labelledRaw 0x80 = 32 := by decide +kernel
  have hextra : Inode.extraIsizeOf labelledRaw 256 = 32 := (if_pos (by decide)).trans hword
  have hfit : goodOldInodeSize + Inode.extraIsizeOf labelledRaw 256 ≤ 256 := by rw [hextra]; decide
  have hlast : ∀ i, Inode.Uncovered (Inode.extraIsizeOf labelledRaw 256) i → i < 0x84 := by
    intro i hi
    rw [hextra] at hi
    unfold Inode.Uncovered at hi
    rw [goodOldInodeSize] at hi
    omega
  obtain ⟨inode, hdec⟩ := @Inode.decode_of_encodable labelledRaw 256 length_labelledRaw (by decide)
  have hread : labelledFs.readInode 3 = .ok inode := bind_ok_iff.mpr ⟨_, labelledFs_raw, hdec⟩
  have htail : inode.tail = labelled.tail := by
    obtain ⟨-, hsize, htail⟩ := Inode.decode_tail hdec (by decide)
    rw [htail, hsize, hword]
    decide +kernel
  have hright := @Inode.checksumRight_encodeWithCsum 256 labelled
    (fun _ => by decide +kernel) (by decide) 0x1234 3
  have hwritten := (inode_codec_iff labelledRaw).2 labelledFs 3 inode labelledFs_raw hread
  rw [show labelledFs.superblock.inodeSize = 256 from rfl] at hwritten
  refine ⟨((inode_codec_iff labelledRaw).1 256 length_labelledRaw (by decide) hfit).mpr
    ⟨by decide, fun i hlo hi => ?_⟩, inode, hread, htail,
    (hwritten hfit (by decide +kernel) hright).mpr ⟨by decide, fun i hi hlo => ?_⟩⟩
  · exact absurd (hlast i hi) (Nat.not_lt.mpr hlo)
  · rw [hextra] at hlo
    exact absurd (hlast i hi) (by omega)

/-- An inode whose extra area declares one word more than the codec knows, with that word set. -/
def newerInode : List UInt8 := putU16 (putU16 (List.replicate 256 0) 0x80 36) 0xa0 1

/-- The word past the last known field is lost. -/
theorem newer_field_lost : newerInode.length = 256 ∧
    goodOldInodeSize + Inode.extraIsizeOf newerInode 256 ≤ 256 ∧
    ¬ Inode.Reproduced newerInode 256 := by
  have hlen : newerInode.length = 256 := by decide +kernel
  have hfit : goodOldInodeSize + Inode.extraIsizeOf newerInode 256 ≤ 256 := by decide +kernel
  refine ⟨hlen, hfit, fun h => ?_⟩
  have hcov := ((Inode.reproduced_iff hlen hfit).mp h).2
  have hset : ¬ newerInode.getD 0xa0 0 = 0 := by decide +kernel
  exact hset (hcov 0xa0 (by decide) (by decide +kernel))

end Filesystem

end MkfsExt4
