/-
  Inode checksums, as `encode_with_csum` stamps and `verify_checksum` checks them.

  `Preserved raw inode` says that an inode has the extra area and the tail of a decoded one; its
  base fields and timestamps are free. Whatever the extra area, encoding such an inode brings
  back `i_extra_isize` (`getU16_encode_extraIsize`: a tail that starts inside that word starts
  with its own bytes), so that the verifier zeroes the words the stamper wrote and takes the
  checksum of the same bytes (`verifyChecksum_restate`). So what was stamped verifies, and with
  other checksum halves does not, at every size that `encode` can fill (`stamped_verifies_iff`).
-/
import MkfsExt4.Structs.InodeCodec

namespace MkfsExt4.Inode

open Lib.Store Lib.Endian Lib.Record Lib.Hoare

variable {raw : List UInt8} {inodeSize : Nat} {read inode : Inode}

/-- The inode has the extra area's size and the tail of one that was read. -/
structure Preserved (read inode : Inode) : Prop where
  extraIsize : inode.extraIsize = read.extraIsize
  tail : inode.tail = read.tail

/-- Put checksum halves over those there: the high one only where it is carried. -/
def restate (bytes : List UInt8) (hasHi : Bool) (lo hi : Nat) : List UInt8 :=
  if hasHi then putU16 (putU16 bytes 0x7c lo) 0x82 hi else putU16 bytes 0x7c lo

/-- Stamping an inode: sizes that `encode` cannot fill make it index past its buffer. -/
def stamped (inode : Inode) (inodeSize : Nat) (metadataCsum : Bool) (seed : UInt32) (inum : Nat) :
    Except Failure (List UInt8) := do
  panicIf (¬ Encodable inodeSize)
  return inode.encodeWithCsum inodeSize metadataCsum seed inum

/-- Stamping ends, its bytes verify, and with other checksum halves they do not, unless the first
    128 bytes are zero. -/
def StampVerifies (inode : Inode) (inodeSize : Nat) (seed : UInt32) (inum : Nat) : Prop :=
  ∀ metadataCsum, ∃ bytes, stamped inode inodeSize metadataCsum seed inum = .ok bytes ∧
    verifyChecksum bytes inodeSize metadataCsum seed inum = .ok true ∧
    (metadataCsum → ∀ lo hi, let changed := restate bytes (inode.hasChecksumHi inodeSize) lo hi
      changed ≠ bytes → verifyChecksum changed inodeSize metadataCsum seed inum =
        .ok ((changed.take goodOldInodeSize).all (· == 0)))

/-! ## What encoding leaves where the checksum lies -/

/-- The low half is written as zero. -/
theorem encode_low (inode : Inode) (hsize : goodOldInodeSize ≤ inodeSize) :
    putU16 (inode.encode inodeSize) 0x7c 0 = inode.encode inodeSize := by
  have hin : 0x7c + 2 ≤ (inode.encode inodeSize).length := by
    rw [length_encode]
    rw [goodOldInodeSize] at hsize
    omega
  have hzero : getU16 (inode.encode inodeSize) 0x7c = 0 := by
    rw [getU16, inode.slice_encode hsize (by decide), encodeBase_eq]
    exact @ofLe_slice_writeAll _ _ baseLayout rfl baseLayout_apart 21 0x7c 2 0 rfl
      (by rw [List.length_replicate]; rw [length_encode] at hin; omega)
  conv_lhs => rw [← hzero]
  exact putU16_getU16 hin

/-- So is the high half, of an inode that carries it. -/
theorem encode_high (inode : Inode) (hsize : Encodable inodeSize)
    (hhi : inode.hasChecksumHi inodeSize) :
    putU16 (inode.encode inodeSize) 0x82 0 = inode.encode inodeSize := by
  obtain ⟨hlarge, hextra⟩ := Bool.and_eq_true_iff.mp hhi
  have hlarge := of_decide_eq_true hlarge
  have hextra := of_decide_eq_true hextra
  rw [inodeCsumHiExtraEnd] at hextra
  have hroom : 132 ≤ inodeSize := by
    unfold Encodable at hsize
    rw [goodOldInodeSize] at hsize hlarge
    omega
  have hstop : 132 ≤ extraEnd inode.extraIsize inodeSize := by
    rw [extraEnd, goodOldInodeSize]
    omega
  have hin : 0x82 + 2 ≤ (inode.encode inodeSize).length := by
    rw [length_encode]
    omega
  have hzero : getU16 (inode.encode inodeSize) 0x82 = 0 := by
    unfold encode encodeExtra
    dsimp only
    rw [if_neg (Nat.not_le.mpr hlarge), getU16, slice_splice_disjoint (Or.inl (by omega))]
    repeat rw [slice_putExtra _ _ (by omega)]
    rw [putU16, slice_splice (length_toLe _ _) (by
      rw [length_putU16, length_encodeBase, List.length_replicate]; omega), ofLe_toLe]
    exact Nat.zero_mod _
  conv_lhs => rw [← hzero]
  exact putU16_getU16 hin

/-- Where a buffer agrees with what was read, it does with the tail written back over it. -/
theorem getD_splice_tail {buf : List UInt8} {stop i : Nat} (hbuf : buf.length = inodeSize)
    (hlen : inodeSize ≤ raw.length) (hi : i < inodeSize)
    (hsame : buf.getD i 0 = raw.getD i 0) :
    (splice buf stop ((dropTrailingZeroes (slice raw stop (inodeSize - stop))).take
      (inodeSize - stop))).getD i 0 = raw.getD i 0 := by
  by_cases hstop : stop ≤ i
  · have hslice : (slice raw stop (inodeSize - stop)).length = inodeSize - stop :=
      length_slice (by omega)
    have hfit := length_dropTrailingZeroes_le (slice raw stop (inodeSize - stop))
    rw [hslice] at hfit
    rw [List.take_of_length_le hfit, getD_splice _ _ (by omega)]
    split
    · next hin =>
      have hkept := getD_dropTrailingZeroes (slice raw stop (inodeSize - stop)) (i - stop)
      rw [if_pos (by omega), getD_slice _ _ _ _ _ (by omega), Nat.add_sub_cancel' hstop] at hkept
      exact hkept.symm
    · exact hsame
  · rw [getD_splice _ _ (by omega), if_neg fun h => hstop h.1]
    exact hsame

/-- `i_extra_isize` comes back, also where the tail starts inside it. -/
theorem getU16_encode_extraIsize (h : decode raw inodeSize = .ok read)
    (hkeep : Preserved read inode) (hsize : Encodable inodeSize)
    (hlarge : goodOldInodeSize < inodeSize) :
    getU16 (inode.encode inodeSize) 0x80 = inode.extraIsize := by
  obtain ⟨hlen, hextra, htail⟩ := decode_tail h hlarge
  have hroom : 132 ≤ inodeSize := by
    unfold Encodable at hsize
    rw [goodOldInodeSize] at hsize hlarge
    omega
  have hend : extraEnd read.extraIsize inodeSize ≤ inodeSize := Nat.min_le_right _ _
  have hbytes : slice (inode.encode inodeSize) 0x80 2 = slice raw 0x80 2 := by
    refine ext_getD 0 ?_ fun i hi => ?_
    · rw [length_slice (by rw [length_encode]; omega), length_slice (by omega)]
    rw [length_slice (by rw [length_encode]; omega)] at hi
    rw [getD_slice _ _ _ _ _ hi, getD_slice _ _ _ _ _ hi]
    unfold encode encodeExtra
    dsimp only
    rw [if_neg (Nat.not_le.mpr hlarge), hkeep.extraIsize, hkeep.tail, htail]
    refine getD_splice_tail ?_ hlen (by omega) ?_
    · simp only [length_putExtra, length_putU16, length_encodeBase, List.length_replicate]
    rw [← getD_slice _ 0x80 2 _ _ hi, ← getD_slice raw 0x80 2 _ _ hi]
    repeat rw [slice_putExtra _ _ (by omega)]
    rw [slice_putU16_disjoint (by omega), putU16, slice_splice (length_toLe _ _) (by
      rw [length_encodeBase, List.length_replicate]; omega), hextra, getU16,
      toLe_ofLe_slice (by omega)]
  rw [hkeep.extraIsize, hextra, getU16, hbytes]
  rfl

/-! ## Other halves over an encoded inode -/

theorem length_restate (bytes : List UInt8) (hasHi : Bool) (lo hi : Nat) :
    (restate bytes hasHi lo hi).length = bytes.length := by
  unfold restate
  split <;> simp only [length_putU16]

theorem getD_restate (bytes : List UInt8) (hasHi : Bool) (lo hi : Nat) {i : Nat}
    (h : i < bytes.length) : (restate bytes hasHi lo hi).getD i 0 =
      if hasHi ∧ 0x82 ≤ i ∧ i < 0x84 then (toLe 2 hi).getD (i - 0x82) 0
      else if 0x7c ≤ i ∧ i < 0x7e then (toLe 2 lo).getD (i - 0x7c) 0 else bytes.getD i 0 := by
  cases hasHi with
  | false =>
    rw [restate, if_neg Bool.false_ne_true, if_neg (by simp), putU16, getD_splice _ _ h,
      length_toLe]
  | true =>
    rw [restate, if_pos rfl, putU16, putU16, getD_splice _ _ (by rw [length_splice]; exact h),
      getD_splice _ _ h, length_toLe, length_toLe]
    exact if_congr (by simp) rfl rfl

/-- Of two halves stated one after another the later stand. -/
theorem restate_restate (bytes : List UInt8) (hasHi : Bool) (lo hi lo' hi' : Nat) :
    restate (restate bytes hasHi lo hi) hasHi lo' hi' = restate bytes hasHi lo' hi' := by
  refine ext_getD 0 (by simp only [length_restate]) fun i h => ?_
  rw [length_restate, length_restate] at h
  rw [getD_restate _ _ _ _ (by rw [length_restate]; exact h), getD_restate _ _ _ _ h,
    getD_restate _ _ _ _ h]
  split
  · rfl
  · split <;> rfl

theorem slice_restate {bytes : List UInt8} {hasHi : Bool} {lo hi off n : Nat}
    (h : off + n ≤ 0x7c ∨ 0x7e ≤ off ∧ off + n ≤ 0x82) :
    slice (restate bytes hasHi lo hi) off n = slice bytes off n := by
  unfold restate
  split
  · rw [slice_putU16_disjoint (by omega), slice_putU16_disjoint (by omega)]
  · rw [slice_putU16_disjoint (by omega)]

/-- The halves read back. -/
theorem getU16_restate {bytes : List UInt8} {hasHi : Bool} {lo hi : Nat}
    (hlow : 0x7c + 2 ≤ bytes.length) (hhigh : hasHi → 0x82 + 2 ≤ bytes.length) :
    getU16 (restate bytes hasHi lo hi) 0x7c = lo % 2 ^ 16 ∧
      (hasHi → getU16 (restate bytes hasHi lo hi) 0x82 = hi % 2 ^ 16) := by
  unfold restate getU16
  cases hasHi with
  | false =>
    rw [if_neg Bool.false_ne_true, slice_putU16_self hlow, ofLe_toLe]
    exact ⟨rfl, nofun⟩
  | true =>
    rw [if_pos rfl, slice_putU16_disjoint (by omega), slice_putU16_self hlow,
      slice_putU16_self (by rw [length_putU16]; exact hhigh rfl), ofLe_toLe, ofLe_toLe]
    exact ⟨rfl, fun _ => rfl⟩

/-- An encoded inode is what the verifier takes the checksum of, whatever halves are on it. -/
theorem withoutChecksum_restate (inode : Inode) (hsize : Encodable inodeSize) (lo hi : Nat) :
    withoutChecksum (restate (inode.encode inodeSize) (inode.hasChecksumHi inodeSize) lo hi)
      (inode.hasChecksumHi inodeSize) = inode.encode inodeSize := by
  have hzero : ∀ bytes hasHi, withoutChecksum bytes hasHi = restate bytes hasHi 0 0 :=
    fun _ _ => rfl
  rw [hzero, restate_restate, restate, encode_low inode (encodable_ge hsize)]
  split
  · next hhi => exact encode_high inode hsize hhi
  · rfl

theorem encodeWithCsum_eq_restate (inode : Inode) (inodeSize : Nat) (seed : UInt32) (inum : Nat) :
    inode.encodeWithCsum inodeSize true seed inum =
      restate (inode.encode inodeSize) (inode.hasChecksumHi inodeSize)
        (Csum.inodeCsum seed inum inode.generation (inode.encode inodeSize))
        (Csum.inodeCsum seed inum inode.generation (inode.encode inodeSize) / 2 ^ 16) := rfl

section Verify

variable (hextra : goodOldInodeSize < inodeSize →
    getU16 (inode.encode inodeSize) 0x80 = inode.extraIsize)
  (hsize : Encodable inodeSize)

include hextra in
/-- Whether the high half is carried reads back as the stamper had it. -/
theorem hasHiOf_restate (lo hi : Nat) :
    hasHiOf (restate (inode.encode inodeSize) (inode.hasChecksumHi inodeSize) lo hi) inodeSize =
      inode.hasChecksumHi inodeSize := by
  unfold hasHiOf hasChecksumHi extraIsizeOf
  by_cases hlarge : goodOldInodeSize < inodeSize
  · rw [if_pos hlarge, getU16, slice_restate (by omega)]
    rw [show ofLe _ = _ from hextra hlarge]
  · rw [decide_eq_false hlarge, Bool.false_and, Bool.false_and]

include hsize

theorem generation_restate (hasHi : Bool) (lo hi : Nat) :
    getU32 (restate (inode.encode inodeSize) hasHi lo hi) 0x64 = inode.generation % 2 ^ 32 := by
  have hold := encodable_ge hsize
  rw [getU32, slice_restate (by omega), inode.slice_encode hold (by decide), encodeBase_eq]
  rw [goodOldInodeSize] at hold
  exact @ofLe_slice_writeAll _ _ baseLayout rfl baseLayout_apart 13 0x64 4 _ rfl
    (by rw [List.length_replicate]; omega)

/-- An inode that carries the high half has room for it. -/
theorem room_of_hasHi (hyes : inode.hasChecksumHi inodeSize) : 0x84 ≤ inodeSize := by
  have hlarge := of_decide_eq_true (Bool.and_eq_true_iff.mp hyes).1
  unfold Encodable at hsize
  rw [goodOldInodeSize] at hsize hlarge
  omega

/-- The halves on an encoded inode read back. -/
theorem halves_restate (lo hi : Nat) :
    let bytes := restate (inode.encode inodeSize) (inode.hasChecksumHi inodeSize) lo hi
    getU16 bytes 0x7c = lo % 2 ^ 16 ∧
      (inode.hasChecksumHi inodeSize → getU16 bytes 0x82 = hi % 2 ^ 16) := by
  have hold := encodable_ge hsize
  rw [goodOldInodeSize] at hold
  exact getU16_restate (by rw [length_encode]; omega) fun hyes => by
    rw [length_encode]
    exact room_of_hasHi hsize hyes

/-- The checksum of an encoded inode, whatever halves are on it. -/
theorem inodeCsum_restate (seed : UInt32) (inum lo hi : Nat) :
    let bytes := restate (inode.encode inodeSize) (inode.hasChecksumHi inodeSize) lo hi
    Csum.inodeCsum seed inum (getU32 bytes 0x64)
        (withoutChecksum bytes (inode.hasChecksumHi inodeSize)) =
      Csum.inodeCsum seed inum inode.generation (inode.encode inodeSize) := by
  dsimp only
  rw [withoutChecksum_restate inode hsize, generation_restate hsize]
  unfold Csum.inodeCsum Csum.inodeSeededCsum
  rw [show toLe 4 (inode.generation % 2 ^ 32) = toLe 4 inode.generation from toLe_mod 4 _]

include hextra

/-- What was stamped is right. -/
theorem checksumRight_encodeWithCsum (seed : UInt32) (inum : Nat) :
    ChecksumRight (inode.encodeWithCsum inodeSize true seed inum) inodeSize true seed inum := by
  obtain ⟨hlow, hhigh⟩ := @halves_restate inodeSize inode hsize
    (Csum.inodeCsum seed inum inode.generation (inode.encode inodeSize))
    (Csum.inodeCsum seed inum inode.generation (inode.encode inodeSize) / 2 ^ 16)
  have hlt : Csum.inodeCsum seed inum inode.generation (inode.encode inodeSize) < 2 ^ 32 :=
    UInt32.toNat_lt _
  unfold ChecksumRight
  dsimp only
  rw [encodeWithCsum_eq_restate, hasHiOf_restate hextra, if_pos rfl, inodeCsum_restate hsize]
  exact ⟨hlow, fun hyes => (hhigh hyes).trans (Nat.mod_eq_of_lt (by omega))⟩

/-- The verdict on an encoded inode with any halves: they are right, or the inode was never
    written. -/
theorem verifyChecksum_restate (seed : UInt32) (inum lo hi : Nat) :
    let hasHi := inode.hasChecksumHi inodeSize
    let bytes := restate (inode.encode inodeSize) hasHi lo hi
    let crc := Csum.inodeCsum seed inum inode.generation (inode.encode inodeSize)
    verifyChecksum bytes inodeSize true seed inum =
      .ok (decide (lo % 2 ^ 16 = crc % 2 ^ 16 ∧ (hasHi → hi % 2 ^ 16 = crc / 2 ^ 16)) ||
        (bytes.take goodOldInodeSize).all (· == 0)) := by
  intro hasHi bytes crc
  have hlen : bytes.length = inodeSize := by rw [length_restate, length_encode]
  obtain ⟨j, hj⟩ := decode_of_encodable hlen hsize
  obtain ⟨hhi, hgen⟩ := hasChecksumHi_decode hj
  rw [show hasHiOf bytes inodeSize = hasHi from hasHiOf_restate hextra lo hi] at hhi
  have hhalves := @halves_restate inodeSize inode hsize lo hi
  have hlow : getU16 bytes 0x7c = lo % 2 ^ 16 := hhalves.1
  have hhigh : hasHi → getU16 bytes 0x82 = hi % 2 ^ 16 := hhalves.2
  have hcrc : Csum.inodeCsum seed inum j.generation
      (withoutChecksum (bytes.take inodeSize) hasHi) = crc := by
    rw [List.take_of_length_le (Nat.le_of_eq hlen), hgen]
    exact inodeCsum_restate hsize seed inum lo hi
  have hlt : crc < 2 ^ 32 := UInt32.toNat_lt _
  have hsmall : ¬ (j.hasChecksumHi inodeSize = true ∧ inodeSize < 0x84) := by
    rintro ⟨hyes, hlt⟩
    have := room_of_hasHi hsize (hhi.symm.trans hyes)
    omega
  have hverdict : verifyChecksum bytes inodeSize true seed inum =
      .ok (join 16 (getU16 bytes 0x7c) (if j.hasChecksumHi inodeSize then getU16 bytes 0x82 else 0)
        == (if j.hasChecksumHi inodeSize then Csum.inodeCsum seed inum j.generation
          (withoutChecksum (bytes.take inodeSize) (j.hasChecksumHi inodeSize)) else
          Csum.inodeCsum seed inum j.generation
            (withoutChecksum (bytes.take inodeSize) (j.hasChecksumHi inodeSize)) % 2 ^ 16) ||
        (bytes.take goodOldInodeSize).all (· == 0)) := by
    unfold verifyChecksum
    rw [if_neg (by decide), bind_of_ok (show decode bytes inodeSize = _ from hj)]
    dsimp only
    rw [panicIf, if_neg hsmall]
    rfl
  rw [hverdict, hhi, hcrc, hlow]
  refine congrArg _ (congrArg (· || _) ?_)
  rw [beq_eq_decide]
  refine decide_eq_decide.mpr ?_
  clear_value hasHi crc
  cases hasHi with
  | false =>
    rw [if_neg Bool.false_ne_true, if_neg Bool.false_ne_true, join, Nat.zero_mul, Nat.add_zero]
    exact ⟨fun heq => ⟨heq, (absurd · Bool.false_ne_true)⟩, And.left⟩
  | true =>
    rw [if_pos rfl, if_pos rfl, hhigh rfl, join]
    simp only [forall_const]
    omega

end Verify

/-! ## Stamped inodes verify -/

/-- Other halves that change nothing are those there. -/
theorem restate_eq_of_mod (bytes : List UInt8) (hasHi : Bool) {lo hi lo' hi' : Nat}
    (hlo : lo % 2 ^ 16 = lo' % 2 ^ 16) (hhi : hasHi → hi % 2 ^ 16 = hi' % 2 ^ 16) :
    restate bytes hasHi lo hi = restate bytes hasHi lo' hi' := by
  have hword : ∀ {v w : Nat}, v % 2 ^ 16 = w % 2 ^ 16 → toLe 2 v = toLe 2 w := by
    intro v w heq
    rw [← toLe_mod 2 v, ← toLe_mod 2 w]
    exact congrArg (toLe 2) heq
  unfold restate putU16
  rw [hword hlo]
  cases hasHi with
  | false => rw [if_neg Bool.false_ne_true, if_neg Bool.false_ne_true]
  | true => rw [hword (hhi rfl)]

/-- An inode that was decoded, with base fields and timestamps changed, verifies as it was
    stamped and with no other checksum halves exactly when `encode` can fill its size. -/
theorem stamped_verifies_iff (h : decode raw inodeSize = .ok read) (hkeep : Preserved read inode)
    (seed : UInt32) (inum : Nat) :
    StampVerifies inode inodeSize seed inum ↔ Encodable inodeSize := by
  constructor
  · intro hverifies
    obtain ⟨_, hok, -⟩ := hverifies false
    exact not_not.mp (panicIf_bind_ok_iff.mp hok).1
  · intro hsize metadataCsum
    refine ⟨_, panicIf_bind_ok_iff.mpr ⟨not_not.mpr hsize, rfl⟩, ?_⟩
    cases metadataCsum with
    | false => exact ⟨if_pos rfl, nofun⟩
    | true =>
      have hverdict := verifyChecksum_restate (getU16_encode_extraIsize h hkeep hsize) hsize seed inum
      have hlt : Csum.inodeCsum seed inum inode.generation (inode.encode inodeSize) < 2 ^ 32 :=
        UInt32.toNat_lt _
      rw [encodeWithCsum_eq_restate]
      dsimp only at hverdict ⊢
      generalize Csum.inodeCsum seed inum inode.generation (inode.encode inodeSize) = crc
        at hverdict hlt ⊢
      constructor
      · rw [hverdict, decide_eq_true ⟨rfl, fun _ => Nat.mod_eq_of_lt (by omega)⟩, Bool.true_or]
      · intro _ lo hi hne
        rw [restate_restate] at hne ⊢
        rw [hverdict, decide_eq_false, Bool.false_or]
        rintro ⟨hlo, hhi⟩
        refine hne (restate_eq_of_mod _ _ hlo fun hyes => ?_)
        rw [hhi hyes, Nat.mod_eq_of_lt (by omega)]

/-- An inode of 256 bytes whose `i_extra_isize` is 1: its tail starts inside that word. -/
def smallExtra : List UInt8 := List.replicate 128 1 ++ ([1, 0, 7] ++ List.replicate 125 0)

theorem stamped_verifies_small : ∃ read : Inode, decode smallExtra 256 = .ok read ∧
    ∀ mode mtime seed inum,
      StampVerifies { read with mode, mtime } 256 seed inum ↔ Encodable 256 := by
  have hlen : smallExtra.length = 256 := by
    rw [smallExtra, List.length_append, List.length_append, List.length_replicate,
      List.length_replicate]
    rfl
  obtain ⟨read, hread⟩ := decode_of_encodable hlen (by decide)
  refine ⟨read, hread, fun mode mtime seed inum => ?_⟩
  have hkeep : Preserved read { read with mode, mtime } := ⟨rfl, rfl⟩
  exact stamped_verifies_iff hread hkeep seed inum

/-- Not every size is one that stamping fills. -/
theorem stamp_panics : ¬ ∀ (raw : List UInt8) (inodeSize : Nat) (read inode : Inode),
    goodOldInodeSize ≤ inodeSize → decode raw inodeSize = .ok read → Preserved read inode →
    ∀ seed inum, StampVerifies inode inodeSize seed inum := by
  intro hall
  have hlen : (List.replicate 130 (0 : UInt8)).length = 130 := List.length_replicate
  obtain ⟨read, hread, -⟩ := @decode_ok (List.replicate 130 0) 130 (by rw [hlen]; decide)
  obtain ⟨_, hok, -⟩ := hall _ 130 read read (by decide) hread ⟨rfl, rfl⟩ 0 12 true
  exact (panicIf_bind_ok_iff.mp hok).1 (by decide)

end MkfsExt4.Inode
