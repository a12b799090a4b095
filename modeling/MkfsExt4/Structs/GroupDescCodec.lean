/-
  Group descriptors there and back (`src/structs/group_desc.rs`, `src/csum.rs`).

  Proved: a descriptor that fits its width decodes to itself (`decode_encode`); encoding what
  was decoded gives the bytes back with those from 0x3c on cleared (`encode_decode`), which is
  lossless for 32 bytes; the checksum does not read its own field (`groupDescCsum_putU16`); and
  the bytes from 0x3c on add to it what they make of a zero remainder (`groupDescCsum_cleared`).
-/
import MkfsExt4.Structs.GroupDesc
import Mathlib.Data.List.GetD

namespace MkfsExt4

open Lib.Store Lib.Endian Lib.Record

/-- The end of the last field of a descriptor. What follows is reserved. -/
def bgReservedLocation : Nat := 0x3c

/-- A descriptor's bytes with the reserved ones zero. -/
def clearReserved (raw : List UInt8) : List UInt8 :=
  raw.take bgReservedLocation ++ List.replicate (raw.length - bgReservedLocation) 0

@[simp] theorem length_clearReserved (raw : List UInt8) :
    (clearReserved raw).length = raw.length := by
  rw [clearReserved, List.length_append, List.length_take, List.length_replicate]
  omega

theorem getD_clearReserved {raw : List UInt8} {i : Nat} (hi : i < raw.length) :
    (clearReserved raw).getD i 0 = if i < bgReservedLocation then raw.getD i 0 else 0 := by
  rw [clearReserved]
  split
  · next h =>
    rw [List.getD_append _ _ _ _ (by rw [List.length_take]; omega), List.getD_eq_getElem?_getD,
      List.getElem?_take_of_lt h, ← List.getD_eq_getElem?_getD]
  · next h =>
    rw [List.getD_append_right _ _ _ _ (by rw [List.length_take]; omega),
      List.getD_eq_getElem?_getD, List.getElem?_getD_replicate_default_eq]

theorem clearReserved_short {raw : List UInt8} (h : raw.length ≤ bgReservedLocation) :
    clearReserved raw = raw := by
  rw [clearReserved, Nat.sub_eq_zero_of_le h, List.replicate_zero, List.append_nil,
    List.take_of_length_le h]

namespace GroupDesc

variable {d : GroupDesc} {descSize : Nat} {raw : List UInt8}

/-! ## Encoding and decoding -/

/-- A descriptor that fits its width is what its encoding decodes to. -/
theorem decode_encode (hsize : descSize = minDescSize ∨ descSize64bit ≤ descSize)
    (h : d.Representable descSize) : decode (d.encode descSize) descSize = d := by
  have hmin := minDescSize_le_of hsize
  have hcsum : getU16 (d.encode descSize) 0x1e = d.checksum := by
    have hf : (d.fieldsFor descSize)[11]? = some (.num 0x1e 2 d.checksum) := by
      unfold fieldsFor
      split <;> rfl
    rw [getU16, d.read_encode hmin hf]
    exact Nat.mod_eq_of_lt h.checksum
  rw [decode_of_reads hsize h fun {_ _ _ _} hf _ => d.read_encode hmin hf, hcsum]

/-- Over the raw bytes, encoding what was decoded from them changes nothing. -/
theorem encodeLow_raw (hlen : raw.length = descSize) (hmin : minDescSize ≤ descSize) :
    (decode raw descSize).encodeLow raw = raw := by
  simp only [minDescSize] at hmin
  unfold decode encodeLow
  simp (disch := omega) only [putU32_join, putU16_join, putU16_getU16]

theorem encodeHigh_raw (hlen : raw.length = descSize) (hwide : descSize64bit ≤ descSize) :
    (decode raw descSize).encodeHigh descSize raw = raw := by
  have hlo : bgBlockBitmapCsumHiLocation ≤ descSize := Nat.le_trans (by decide) hwide
  have hhi : bgBlockBitmapCsumHiLocation + 2 ≤ descSize := Nat.le_trans (by decide) hwide
  unfold decode encodeHigh
  simp only [if_pos hwide, if_pos hlo, if_pos hhi]
  simp only [descSize64bit] at hwide
  simp (disch := omega) only [putU32_join_div, putU16_join_div]

/-- The places of the fields are the bytes up to the reserved ones. -/
theorem layoutFor_covers (hsize : descSize = minDescSize ∨ descSize64bit ≤ descSize) {i : Nat}
    (hi : i < descSize) :
    (∃ p ∈ layoutFor descSize, p.1 ≤ i ∧ i < p.1 + p.2) ↔ i < bgReservedLocation := by
  rcases hsize with rfl | hwide
  · have hall : ∀ i < 32, ∃ p ∈ lowLayout, p.1 ≤ i ∧ i < p.1 + p.2 := by decide
    exact ⟨fun _ => Nat.lt_trans hi (by decide), fun _ => hall i hi⟩
  · have hall : ∀ i < 0x3c, ∃ p ∈ wideLayout, p.1 ≤ i ∧ i < p.1 + p.2 := by decide
    have hend : ∀ p ∈ wideLayout, p.1 + p.2 ≤ 0x3c := by decide
    rw [layoutFor, if_pos hwide]
    exact ⟨fun ⟨p, hp, _, hlt⟩ => Nat.lt_of_lt_of_le hlt (hend p hp), hall i⟩

/-- Encoding what was decoded keeps every byte but the reserved ones, and clears these. -/
theorem encode_decode (hsize : descSize = minDescSize ∨ descSize64bit ≤ descSize)
    (hlen : raw.length = descSize) : (decode raw descSize).encode descSize = clearReserved raw := by
  have hmin := minDescSize_le_of hsize
  have hraw : writeAll raw ((decode raw descSize).fieldsFor descSize) = raw := by
    unfold fieldsFor
    split
    · next hwide =>
      have hlow : writeAll raw (decode raw descSize).wideFields =
          (decode raw descSize).encodeHigh descSize ((decode raw descSize).encodeLow raw) := by
        unfold encodeHigh
        dsimp only
        rw [if_pos (Nat.le_trans (by decide) hwide), if_pos (Nat.le_trans (by decide) hwide)]
        rfl
      rw [hlow, encodeLow_raw hlen hmin, encodeHigh_raw hlen hwide]
    · exact encodeLow_raw hlen hmin
  rw [encode_eq]
  have hplace := (decode raw descSize).fieldsFor_place descSize
  generalize (decode raw descSize).fieldsFor descSize = fields at hraw hplace
  refine ext_getD 0 (by simp [hlen]) fun i hi => ?_
  have hi : i < descSize := by simpa using hi
  have hcovers := layoutFor_covers hsize hi
  rw [← hplace] at hcovers
  rw [getD_clearReserved (hlen ▸ hi)]
  split
  · next hres =>
    obtain ⟨p, hp, hpi⟩ := hcovers.mpr hres
    obtain ⟨f, hf, rfl⟩ := List.mem_map.mp hp
    have hsame := @getD_writeAll_congr fields (List.replicate descSize 0) raw i
      (by rw [List.length_replicate, hlen]) (by rw [List.length_replicate]; exact hi)
      (Or.inl ⟨f, hf, hpi⟩)
    rw [hsame, hraw]
  · next hres =>
    rw [getD_writeAll_outside fun f hf hin => hres (hcovers.mp ⟨_, List.mem_map_of_mem hf, hin⟩),
      List.getD_eq_getElem?_getD, List.getElem?_getD_replicate_default_eq]

end GroupDesc

/-! ## The checksum -/

namespace Csum

/-- What the bytes of a descriptor from 0x3c on make of a zero remainder. -/
def reservedCsum (scheme : GroupDescCsum) (raw : List UInt8) : Nat :=
  match scheme with
  | .none => 0
  | .crc32c => (crc32c 0 (raw.drop bgReservedLocation)).toNat % 2 ^ 16
  | .crc16 => (crc16 0 (raw.drop bgReservedLocation)).toNat

/-- The checksum of a descriptor does not read its own field. -/
theorem groupDescCsum_putU16 (scheme : GroupDescCsum) (seed : UInt32) (uuid : List UInt8)
    (group : Nat) {desc : List UInt8} (h : minDescSize ≤ desc.length) (v : Nat) :
    groupDescCsum scheme seed uuid group (putU16 desc bgChecksumOffset v) =
      groupDescCsum scheme seed uuid group desc := by
  simp only [minDescSize] at h
  unfold groupDescCsum
  cases scheme with
  | none => rfl
  | crc32c =>
    have hlong : desc.length > bgChecksumOffset + 1 := by
      simp only [bgChecksumOffset]
      omega
    simp only [length_putU16, if_pos hlong]
    rw [putU16, splice_splice_same (length_toLe 2 v) (by rw [length_toLe]; exact hlong)]
  | crc16 =>
    have htake : (putU16 desc bgChecksumOffset v).take bgChecksumOffset =
        desc.take bgChecksumOffset := take_splice (by simp only [bgChecksumOffset]; omega)
    have hdrop : (putU16 desc bgChecksumOffset v).drop (bgChecksumOffset + 2) =
        desc.drop (bgChecksumOffset + 2) := by
      have hdrop := @drop_splice _ desc (toLe 2 v) bgChecksumOffset
        (by rw [length_toLe, bgChecksumOffset]; exact h)
      rwa [length_toLe] at hdrop
    simp only [length_putU16, htake, hdrop]

/-- The reserved bytes add to the checksum what they make of a zero remainder. -/
theorem groupDescCsum_cleared (scheme : GroupDescCsum) (seed : UInt32) (uuid : List UInt8)
    (group : Nat) (raw : List UInt8) :
    groupDescCsum scheme seed uuid group raw =
      groupDescCsum scheme seed uuid group (clearReserved raw) ^^^ reservedCsum scheme raw := by
  by_cases hlen : raw.length ≤ bgReservedLocation
  · rw [clearReserved_short hlen]
    have hnone : reservedCsum scheme raw = 0 := by
      unfold reservedCsum
      rw [List.drop_eq_nil_of_le hlen]
      cases scheme <;> rfl
    rw [hnone, Nat.xor_zero]
  -- The bytes are `front` and, behind it, those that `clearReserved` puts zeroes for.
  have hfront : (raw.take bgReservedLocation).length = 0x3c := by
    rw [List.length_take]
    simp only [bgReservedLocation] at hlen ⊢
    omega
  have hraw := (List.take_append_drop bgReservedLocation raw).symm
  have hzeroes : raw.length - bgReservedLocation = (raw.drop bgReservedLocation).length :=
    (List.length_drop).symm
  rw [clearReserved, hzeroes]
  unfold reservedCsum
  generalize raw.drop bgReservedLocation = tail at hraw ⊢
  generalize raw.take bgReservedLocation = front at hraw hfront ⊢
  subst hraw
  unfold groupDescCsum
  cases scheme with
  | none => exact (Nat.xor_self 0).symm
  | crc32c =>
    have hlong : ∀ rest : List UInt8, (front ++ rest).length > bgChecksumOffset + 1 := by
      intro rest
      rw [List.length_append, hfront, bgChecksumOffset]
      omega
    simp only [if_pos (hlong _)]
    rw [splice_append (by rw [hfront]; decide), splice_append (by rw [hfront]; decide)]
    rw [crc32c_append, crc32c_append, crc32c_eq_xor _ tail, UInt32.toNat_xor,
      Nat.xor_mod_two_pow]
  | crc16 =>
    have hlong : ∀ rest : List UInt8, bgChecksumOffset + 2 < (front ++ rest).length := by
      intro rest
      rw [List.length_append, hfront, bgChecksumOffset]
      omega
    have htake : ∀ rest, (front ++ rest).take bgChecksumOffset = front.take bgChecksumOffset :=
      fun rest => List.take_append_of_le_length (by rw [hfront]; decide)
    have hdrop : ∀ rest, (front ++ rest).drop (bgChecksumOffset + 2) =
        front.drop (bgChecksumOffset + 2) ++ rest :=
      fun rest => List.drop_append_of_le_length (by rw [hfront]; decide)
    simp only [if_pos (hlong _), htake, hdrop]
    rw [crc16_append, crc16_append, crc16_eq_xor _ tail, UInt16.toNat_xor]

end Csum

namespace GroupDesc

variable {d : GroupDesc} {descSize : Nat}

/-- Encoding writes no reserved byte. -/
theorem getD_encode_reserved (d : GroupDesc)
    (hsize : descSize = minDescSize ∨ descSize64bit ≤ descSize) {i : Nat} (hi : i < descSize)
    (hres : bgReservedLocation ≤ i) : (d.encode descSize).getD i 0 = 0 := by
  rw [encode_eq, getD_writeAll_outside, List.getD_eq_getElem?_getD,
    List.getElem?_getD_replicate_default_eq]
  intro f hf hin
  have hplace : f.place ∈ layoutFor descSize := by
    rw [← d.fieldsFor_place]
    exact List.mem_map_of_mem hf
  exact Nat.not_lt.mpr hres ((layoutFor_covers hsize hi).mp ⟨_, hplace, hin⟩)

theorem clearReserved_encodeWithCsum (d : GroupDesc)
    (hsize : descSize = minDescSize ∨ descSize64bit ≤ descSize) (scheme : Csum.GroupDescCsum)
    (seed : UInt32) (uuid : List UInt8) (group : Nat) :
    clearReserved (d.encodeWithCsum descSize scheme seed uuid group) =
      d.encodeWithCsum descSize scheme seed uuid group := by
  refine ext_getD 0 (by simp) fun i hi => ?_
  have hi : i < descSize := by simpa using hi
  rw [getD_clearReserved (by rw [length_encodeWithCsum]; exact hi)]
  split
  · rfl
  · next hres =>
    have hlast : ¬ (0x1e ≤ i ∧ i < 0x1e + 2) := by
      simp only [bgReservedLocation] at hres
      omega
    rw [encodeWithCsum, putU16, getD_splice _ _ (by rw [length_encode]; exact hi), length_toLe,
      if_neg hlast, d.getD_encode_reserved hsize hi (Nat.not_lt.mp hres)]

/-- A stamped descriptor, read back and encoded again, has the checksum it carries. -/
theorem checksum_decode_encodeWithCsum (d : GroupDesc)
    (hsize : descSize = minDescSize ∨ descSize64bit ≤ descSize) (scheme : Csum.GroupDescCsum)
    (seed : UInt32) (uuid : List UInt8) (group : Nat) :
    let read := decode (d.encodeWithCsum descSize scheme seed uuid group) descSize
    read.checksum = Csum.groupDescCsum scheme seed uuid group (read.encode descSize) := by
  have hmin := minDescSize_le_of hsize
  dsimp only
  rw [encode_decode hsize (d.length_encodeWithCsum descSize scheme seed uuid group),
    d.clearReserved_encodeWithCsum hsize]
  refine (d.checksum_encodeWithCsum hmin scheme seed uuid group).trans ?_
  rw [encodeWithCsum, show 0x1e = Csum.bgChecksumOffset from rfl,
    Csum.groupDescCsum_putU16 scheme seed uuid group (by rw [length_encode]; exact hmin)]

/-! ### Narrow descriptors -/

/-- What `descSize` bytes keep of a descriptor: of the bitmap checksums, 32 bytes have the low
halves only. -/
def kept (d : GroupDesc) (descSize : Nat) : GroupDesc :=
  if descSize64bit ≤ descSize then d
  else { d with
    blockBitmapCsum := d.blockBitmapCsum % 2 ^ 16
    inodeBitmapCsum := d.inodeBitmapCsum % 2 ^ 16 }

theorem kept_fields (d : GroupDesc) (descSize : Nat) :
    (d.kept descSize).blockBitmap = d.blockBitmap ∧ (d.kept descSize).inodeBitmap = d.inodeBitmap ∧
      (d.kept descSize).inodeTable = d.inodeTable ∧
      (d.kept descSize).freeBlocksCount = d.freeBlocksCount ∧
      (d.kept descSize).flags = d.flags := by
  unfold kept
  split <;> exact ⟨rfl, rfl, rfl, rfl, rfl⟩

theorem putU16_cut (buf : List UInt8) (off v : Nat) :
    putU16 buf off (v % 2 ^ 16) = putU16 buf off v := by
  rw [putU16, putU16, show (2 : Nat) ^ 16 = 256 ^ 2 from rfl, toLe_mod]

/-- The rest is not stored either way. -/
theorem encode_kept (d : GroupDesc) (descSize : Nat) :
    (d.kept descSize).encode descSize = d.encode descSize := by
  by_cases hwide : descSize64bit ≤ descSize
  · rw [kept, if_pos hwide]
  · rw [kept, if_neg hwide, encode, encode, if_neg hwide, if_neg hwide]
    unfold encodeLow
    simp only [putU16_cut]

/-- A stamped descriptor decodes to what its bytes keep of it, if the rest fits. -/
theorem decode_kept (d : GroupDesc) (hsize : descSize = minDescSize ∨ descSize64bit ≤ descSize)
    (h : (d.kept descSize).Representable descSize) (scheme : Csum.GroupDescCsum) (seed : UInt32)
    (uuid : List UInt8) (group : Nat) :
    decode (d.encodeWithCsum descSize scheme seed uuid group) descSize =
      (d.kept descSize).stamped descSize scheme seed uuid group := by
  rw [← decode_encodeWithCsum hsize h scheme seed uuid group, encodeWithCsum, encodeWithCsum,
    encode_kept]

end GroupDesc

end MkfsExt4
