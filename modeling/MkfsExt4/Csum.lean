/-
  Metadata checksums (`src/csum.rs`).

  `crc32c` is the bare table-free update of `crc32c_bare`: the source's `crc32c`
  complements on the way in and out of an append that complements too, and the four
  complements cancel. `crc16` is the reflected CRC-16 of the legacy scheme; a table
  entry is computed by `crc16Entry` where the source looks it up.

  What most layers above use is that each checksum is a function of its seed and its bytes,
  and its width. The last section says what bytes at the end add to one.
-/
import MkfsExt4.Bytes
import MkfsExt4.Lib.Crc

namespace MkfsExt4.Csum

open Lib.Endian

/-- Castagnoli, reflected. -/
def crc32cPoly : UInt32 := 0x82F63B78

/-- Eight rounds of the reflected shift-and-xor, one per bit of a byte. -/
def crc32cBits : Nat → UInt32 → UInt32
  | 0, crc => crc
  | n + 1, crc => crc32cBits n ((crc >>> 1) ^^^ (crc32cPoly &&& (0 - (crc &&& 1))))

/-- crc32c, seeded: `ext2fs_crc32c_le`. -/
def crc32c (seed : UInt32) (data : List UInt8) : UInt32 :=
  data.foldl (fun crc b => crc32cBits 8 (crc ^^^ b.toUInt32)) seed

/-- One entry of the CRC-16 table, poly 0x8005 reflected. -/
def crc16Entry : Nat → UInt16 → UInt16
  | 0, crc => crc
  | n + 1, crc => crc16Entry n (if crc &&& 1 ≠ 0 then (crc >>> 1) ^^^ 0xA001 else crc >>> 1)

/-- CRC-16 as e2fsprogs computes it: reflected, no final xor. -/
def crc16 (seed : UInt16) (data : List UInt8) : UInt16 :=
  data.foldl (fun crc b => (crc >>> 8) ^^^ crc16Entry 8 ((crc ^^^ b.toUInt16) &&& 0xff)) seed

/-- How a filesystem checksums its group descriptors. -/
inductive GroupDescCsum where
  /-- No group descriptor checksums. -/
  | none
  /-- Legacy crc16 (`uninit_bg`). -/
  | crc16
  /-- crc32c truncated to 16 bits (`metadata_csum`). -/
  | crc32c
deriving DecidableEq, Repr

/-- Offset of `bg_checksum` within a group descriptor. -/
def bgChecksumOffset : Nat := 0x1e

/-- Group descriptor checksum over the descriptor's bytes, `bg_checksum` taken as zero
    under crc32c and skipped under crc16. -/
def groupDescCsum (scheme : GroupDescCsum) (seed : UInt32) (uuid : List UInt8) (group : Nat)
    (desc : List UInt8) : Nat :=
  match scheme with
  | .none => 0
  | .crc32c =>
    let zeroed :=
      if desc.length > bgChecksumOffset + 1 then Lib.Store.splice desc bgChecksumOffset [0, 0]
      else desc
    let crc := crc32c seed (toLe 4 group)
    (crc32c crc zeroed).toNat % 2 ^ 16
  | .crc16 =>
    let crc := crc16 0xffff uuid
    let crc := crc16 crc (toLe 4 group)
    let crc := crc16 crc (desc.take bgChecksumOffset)
    let after := bgChecksumOffset + 2
    (if after < desc.length then crc16 crc (desc.drop after) else crc).toNat

/-- Bitmap checksum, the same computation for block and inode bitmaps. -/
def bitmapCsum (seed : UInt32) (bitmap : List UInt8) : Nat := (crc32c seed bitmap).toNat

/-- The checksum of an inode, an extent block or a directory block: `seed`, then the
    inode number, then its generation, then the bytes. -/
def inodeSeededCsum (seed : UInt32) (inum generation : Nat) (bytes : List UInt8) : Nat :=
  (crc32c (crc32c (crc32c seed (toLe 4 inum)) (toLe 4 generation)) bytes).toNat

/-- Inode checksum, over the inode with its checksum fields zeroed. -/
def inodeCsum (seed : UInt32) (inum generation : Nat) (inode : List UInt8) : Nat :=
  inodeSeededCsum seed inum generation inode

/-- Extent block checksum, over the block up to its tail. -/
def extentBlockCsum (seed : UInt32) (inum generation : Nat) (block : List UInt8) : Nat :=
  inodeSeededCsum seed inum generation block

theorem extentBlockCsum_lt (seed : UInt32) (inum generation : Nat) (block : List UInt8) :
    extentBlockCsum seed inum generation block < 2 ^ 32 := UInt32.toNat_lt _

/-- Directory leaf block checksum, over the block up to its tail. -/
def direntCsum (seed : UInt32) (inum generation : Nat) (block : List UInt8) : Nat :=
  inodeSeededCsum seed inum generation block

/-- The filesystem checksum seed for a UUID: `crc32c(~0, uuid)`. -/
def seedFromUuid (uuid : List UInt8) : UInt32 := crc32c 0xffffffff uuid

/-- The check value of CRC-16/ARC: `crc16` of "123456789" from 0. -/
example : crc16 0 [0x31, 0x32, 0x33, 0x34, 0x35, 0x36, 0x37, 0x38, 0x39] = 0xBB3D := by decide

/-! ## What bytes at the end add -/

theorem crc32cBits_toBitVec (n : Nat) (crc : UInt32) :
    (crc32cBits n crc).toBitVec = Lib.Crc.rounds crc32cPoly.toBitVec n crc.toBitVec := by
  induction n generalizing crc with
  | zero => rfl
  | succ n ih =>
    rw [crc32cBits, ih, Lib.Crc.rounds, Lib.Crc.round]
    congr 1
    rw [UInt32.toBitVec_xor, UInt32.toBitVec_and, UInt32.toBitVec_sub, UInt32.toBitVec_and,
      UInt32.toBitVec_shiftRight]
    have hone : crc.toBitVec &&& (1 : UInt32).toBitVec =
        BitVec.setWidth 32 (BitVec.ofBool (crc.toBitVec.getLsbD 0)) :=
      BitVec.and_one_eq_setWidth_ofBool_getLsbD
    rw [hone]
    cases crc.toBitVec.getLsbD 0
    · exact BitVec.xor_zero
    · exact congrArg _ BitVec.and_allOnes

theorem crc16Entry_toBitVec (n : Nat) (crc : UInt16) :
    (crc16Entry n crc).toBitVec = Lib.Crc.rounds 0xA001#16 n crc.toBitVec := by
  induction n generalizing crc with
  | zero => rfl
  | succ n ih =>
    rw [crc16Entry, ih, Lib.Crc.rounds, Lib.Crc.round]
    congr 1
    have hone : (crc &&& 1).toBitVec =
        BitVec.setWidth 16 (BitVec.ofBool (crc.toBitVec.getLsbD 0)) :=
      BitVec.and_one_eq_setWidth_ofBool_getLsbD
    cases hbit : crc.toBitVec.getLsbD 0
    · rw [if_neg Bool.false_ne_true, if_neg]
      · rfl
      · rw [ne_eq, ← UInt16.toBitVec_inj, hone, hbit]
        decide
    · rw [if_pos rfl, if_pos]
      · rfl
      · rw [ne_eq, ← UInt16.toBitVec_inj, hone, hbit]
        decide

theorem crc32cBits_xor (n : Nat) (a b : UInt32) :
    crc32cBits n (a ^^^ b) = crc32cBits n a ^^^ crc32cBits n b := by
  rw [← UInt32.toBitVec_inj, UInt32.toBitVec_xor, crc32cBits_toBitVec, crc32cBits_toBitVec,
    crc32cBits_toBitVec, UInt32.toBitVec_xor, Lib.Crc.rounds_xor]

theorem crc16Entry_xor (n : Nat) (a b : UInt16) :
    crc16Entry n (a ^^^ b) = crc16Entry n a ^^^ crc16Entry n b := by
  rw [← UInt16.toBitVec_inj, UInt16.toBitVec_xor, crc16Entry_toBitVec, crc16Entry_toBitVec,
    crc16Entry_toBitVec, UInt16.toBitVec_xor, Lib.Crc.rounds_xor]

theorem and_xor (a b m : UInt16) : (a ^^^ b) &&& m = (a &&& m) ^^^ (b &&& m) := by
  rw [← UInt16.toBitVec_inj]
  refine BitVec.eq_of_getLsbD_eq fun i _ => ?_
  simp only [UInt16.toBitVec_and, UInt16.toBitVec_xor, BitVec.getLsbD_and, BitVec.getLsbD_xor]
  exact Bool.and_xor_distrib_right _ _ _

theorem crc32c_append (seed : UInt32) (xs ys : List UInt8) :
    crc32c seed (xs ++ ys) = crc32c (crc32c seed xs) ys := List.foldl_append

theorem crc16_append (seed : UInt16) (xs ys : List UInt8) :
    crc16 seed (xs ++ ys) = crc16 (crc16 seed xs) ys := List.foldl_append

/-- What `data` makes of a remainder: what zeroes make of it, and what `data` makes of zero. -/
theorem crc32c_eq_xor (seed : UInt32) (data : List UInt8) :
    crc32c seed data = crc32c seed (List.replicate data.length 0) ^^^ crc32c 0 data := by
  have hstep : ∀ (s t : UInt32) (b : UInt8), crc32cBits 8 ((s ^^^ t) ^^^ b.toUInt32) =
      crc32cBits 8 (s ^^^ (0 : UInt8).toUInt32) ^^^ crc32cBits 8 (t ^^^ b.toUInt32) := by
    intro s t b
    rw [← crc32cBits_xor, UInt32.xor_assoc, UInt32.xor_assoc]
    exact congrArg (fun x => crc32cBits 8 (s ^^^ x)) UInt32.zero_xor.symm
  have hfold := @Lib.Crc.foldl_add _ _ (· ^^^ ·) (fun crc (b : UInt8) =>
    crc32cBits 8 (crc ^^^ b.toUInt32)) 0 hstep seed 0 data
  rwa [UInt32.xor_zero] at hfold

theorem crc16_eq_xor (seed : UInt16) (data : List UInt8) :
    crc16 seed data = crc16 seed (List.replicate data.length 0) ^^^ crc16 0 data := by
  have hstep : ∀ (s t : UInt16) (b : UInt8),
      ((s ^^^ t) >>> 8) ^^^ crc16Entry 8 (((s ^^^ t) ^^^ b.toUInt16) &&& 0xff) =
        ((s >>> 8) ^^^ crc16Entry 8 ((s ^^^ (0 : UInt8).toUInt16) &&& 0xff)) ^^^
          ((t >>> 8) ^^^ crc16Entry 8 ((t ^^^ b.toUInt16) &&& 0xff)) := by
    intro s t b
    have hzero : s ^^^ (0 : UInt8).toUInt16 = s := UInt16.xor_zero
    have hlow : ((s ^^^ t) ^^^ b.toUInt16) &&& 0xff =
        (s &&& 0xff) ^^^ ((t ^^^ b.toUInt16) &&& 0xff) := by rw [UInt16.xor_assoc, and_xor]
    rw [hzero, hlow, crc16Entry_xor, UInt16.shiftRight_xor]
    ac_rfl
  have hfold := @Lib.Crc.foldl_add _ _ (· ^^^ ·) (fun (crc : UInt16) (b : UInt8) =>
    (crc >>> 8) ^^^ crc16Entry 8 ((crc ^^^ b.toUInt16) &&& 0xff)) 0 hstep seed 0 data
  rwa [UInt16.xor_zero] at hfold

end MkfsExt4.Csum
