/-
  What the checksums are there for: bytes that were damaged no longer agree with them.

  `crc32c` and `crc16` are the remainders of the bits in turn (`crc32c_remainder`,
  `crc16_remainder`, the second of which takes its bytes in by way of a table). So they tell
  every burst as long as the checksum and every odd number of flipped bits (`crc32c_ne`,
  `crc16_ne`), in what they cover and in the checksum as it is stored (`not_stamped`). The
  superblock, the MMP block and the nodes of extent trees are checked so.
-/
import MkfsExt4.Fs.BlockMap
import MkfsExt4.Lib.Detect
import MkfsExt4.Mmp.Block
import MkfsExt4.Structs.SuperblockCodec

namespace MkfsExt4

open Lib.Crc Lib.Endian Lib.Hoare Lib.Store

namespace Csum

/-! ## The remainders -/

theorem crc32c_remainder (seed : UInt32) (bytes : List UInt8) :
    (crc32c seed bytes).toBitVec =
      remainder crc32cPoly.toBitVec seed.toBitVec (bitsOf bytes) := by
  refine foldl_bytes (fun crc b => ?_) seed bytes
  rw [crc32cBits_toBitVec, UInt32.toBitVec_xor, remainder_byteBits (by decide)]
  rfl

/-- Looking a byte up in the table is eight rounds on it. -/
theorem crc16_remainder (seed : UInt16) (bytes : List UInt8) :
    (crc16 seed bytes).toBitVec = remainder 0xA001#16 seed.toBitVec (bitsOf bytes) := by
  refine foldl_bytes (fun crc b => ?_) seed bytes
  have hbyte : b.toBitVec.setWidth 16 >>> 8 = 0#16 := by
    refine BitVec.eq_of_getLsbD_eq fun i _ => ?_
    rw [BitVec.getLsbD_ushiftRight, BitVec.getLsbD_setWidth, BitVec.getLsbD_zero,
      BitVec.getLsbD_of_ge b.toBitVec _ (by omega), Bool.and_false]
  have hwide : b.toUInt16.toBitVec = b.toBitVec.setWidth 16 := rfl
  rw [remainder_byteBits (by decide), rounds_byte, BitVec.ushiftRight_xor_distrib, hbyte,
    BitVec.xor_zero, UInt16.toBitVec_xor, crc16Entry_toBitVec, UInt16.toBitVec_and,
    UInt16.toBitVec_xor, hwide]
  rfl

/-- Damage within 32 bits in a row, or to an odd number of bits, changes a crc32c. -/
theorem crc32c_ne {xs ys : List UInt8} (h : Damaged 32 (bitsOf xs) (bitsOf ys)) (seed : UInt32) :
    crc32c seed xs ≠ crc32c seed ys := by
  intro heq
  have hsame := congrArg UInt32.toBitVec heq
  rw [crc32c_remainder, crc32c_remainder] at hsame
  exact remainder_ne (by decide) (by decide) (Nat.le_refl 32) h _ hsame

-- Four bytes in a row.
example : crc32c 7 [1, 2, 3, 4, 5, 6] ≠ crc32c 7 [1, 9, 9, 9, 9, 6] :=
  crc32c_ne (@damaged_of_bytes 32 [1] [2, 3, 4, 5] [9, 9, 9, 9] [6] rfl (by decide) (by decide)) 7

/-- Damage within 16 bits in a row, or to an odd number of bits, changes a crc16. -/
theorem crc16_ne {xs ys : List UInt8} (h : Damaged 16 (bitsOf xs) (bitsOf ys)) (seed : UInt16) :
    crc16 seed xs ≠ crc16 seed ys := by
  intro heq
  have hsame := congrArg UInt16.toBitVec heq
  rw [crc16_remainder, crc16_remainder] at hsame
  exact remainder_ne (by decide) (by decide) (Nat.le_refl 16) h _ hsame

/-- Bytes written over others, in a place where they are not there already. -/
theorem damaged_splice {buf bytes : List UInt8} {off n : Nat}
    (hend : off + bytes.length ≤ buf.length) (hne : slice buf off bytes.length ≠ bytes)
    (hn : 8 * bytes.length ≤ n) : Damaged n (bitsOf buf) (bitsOf (splice buf off bytes)) := by
  have hlen : (slice buf off bytes.length).length = bytes.length := length_slice hend
  have hbuf : buf = buf.take off ++ slice buf off bytes.length ++ buf.drop (off + bytes.length) := by
    rw [slice, List.append_assoc, ← List.drop_drop, List.take_append_drop, List.take_append_drop]
  have hsplice : splice buf off bytes =
      buf.take off ++ bytes ++ buf.drop (off + bytes.length) := by
    rw [splice, List.take_of_length_le (show bytes.length ≤ buf.length - off by omega)]
  have hd := @damaged_of_bytes n (buf.take off) _ bytes (buf.drop (off + bytes.length)) hlen hne
    (by rwa [hlen])
  rwa [← hbuf, ← hsplice] at hd

/-! ## A checksum behind what it covers -/

/-- The word at `at` is the checksum of the bytes before it. -/
def Stamped (seed : UInt32) (buf : List UInt8) (stop : Nat) : Prop :=
  (crc32c seed (buf.take stop)).toNat = getU32 buf stop

/-- A checksum taken in behind what it covers leaves zero, and nothing else does. -/
theorem crc32c_behind_iff (seed : UInt32) (bytes : List UInt8) {stored : List UInt8}
    (hlen : stored.length = 4) :
    (crc32c seed bytes).toNat = ofLe stored ↔ crc32c seed (bytes ++ stored) = 0 := by
  have hlt := ofLe_lt stored
  rw [hlen, show 256 ^ 4 = 2 ^ 32 from rfl] at hlt
  rw [crc32c_append, ← UInt32.toBitVec_inj (b := 0), crc32c_remainder]
  refine ((remainder_self_iff (by decide) _ (by rw [hlen])).trans ?_).symm
  rw [← BitVec.toNat_inj, BitVec.toNat_ofNat, Nat.mod_eq_of_lt hlt, UInt32.toNat_toBitVec]

/-- Damage to what is covered or to the checksum itself leaves the two in disagreement. -/
theorem crc32c_behind_ne {seed : UInt32} {bytes bytes' stored stored' : List UInt8}
    (hlen : stored.length = 4) (hlen' : stored'.length = 4)
    (h : (crc32c seed bytes).toNat = ofLe stored)
    (hd : Damaged 32 (bitsOf (bytes ++ stored)) (bitsOf (bytes' ++ stored'))) :
    (crc32c seed bytes').toNat ≠ ofLe stored' := by
  intro h'
  rw [crc32c_behind_iff _ _ hlen] at h
  rw [crc32c_behind_iff _ _ hlen'] at h'
  exact crc32c_ne hd seed (h.trans h'.symm)

theorem not_stamped {seed : UInt32} {buf buf' : List UInt8} {stop : Nat}
    (h : Stamped seed buf stop) (hlen : stop + 4 ≤ buf.length)
    (hd : Damaged 32 (bitsOf (buf.take (stop + 4))) (bitsOf (buf'.take (stop + 4)))) :
    ¬Stamped seed buf' stop := by
  have hlen' : stop + 4 ≤ buf'.length := by
    have hsame := hd.1
    rw [length_bitsOf, length_bitsOf, List.length_take, List.length_take] at hsame
    omega
  rw [List.take_add, List.take_add] at hd
  exact crc32c_behind_ne (length_slice hlen) (length_slice hlen') h hd

/-! ## Group descriptors -/

/-- What the checksum of a descriptor covers under crc16: all but its own field. -/
def descCovered (desc : List UInt8) : List UInt8 :=
  desc.take bgChecksumOffset ++ desc.drop (bgChecksumOffset + 2)

/-- A crc16 tells damage to a descriptor. -/
theorem groupDescCsum_ne {desc desc' : List UInt8}
    (hd : Damaged 16 (bitsOf (descCovered desc)) (bitsOf (descCovered desc'))) (seed : UInt32)
    (uuid : List UInt8) (group : Nat) :
    groupDescCsum .crc16 seed uuid group desc ≠ groupDescCsum .crc16 seed uuid group desc' := by
  have hcovered : ∀ desc : List UInt8, groupDescCsum .crc16 seed uuid group desc =
      (crc16 (crc16 (crc16 0xffff uuid) (toLe 4 group)) (descCovered desc)).toNat := by
    intro desc
    rw [descCovered, crc16_append, groupDescCsum]
    split
    · rfl
    · next hshort =>
      rw [List.drop_eq_nil_of_le (Nat.not_lt.mp hshort)]
      rfl
  rw [hcovered, hcovered]
  exact fun heq => crc16_ne hd _ (UInt16.toNat_inj.mp heq)

end Csum

open Csum

/-- A byte of a descriptor's block bitmap pointer. -/
theorem groupDescCsum_ne_pointer : groupDescCsum .crc16 0 [] 3 (List.replicate 32 0) ≠
    groupDescCsum .crc16 0 [] 3 (splice (List.replicate 32 0) 1 [9]) := by
  have hd : Damaged 16 (bitsOf (descCovered (List.replicate 32 0)))
      (bitsOf (descCovered (splice (List.replicate 32 0) 1 [9]))) :=
    @damaged_splice (List.replicate 30 0) [9] 1 16 (by decide) (by decide) (by decide)
  exact groupDescCsum_ne hd 0 [] 3

/-! ## What is checked so -/

theorem Superblock.verifyChecksum_iff {sb : Superblock} (hcsum : sb.hasMetadataCsum = true)
    (buf : List UInt8) : sb.verifyChecksum buf = true ↔ Stamped 0xffffffff buf 0x3fc := by
  rw [verifyChecksum, hcsum]
  exact beq_iff_eq

/-- A superblock verifies as it is encoded. -/
theorem Superblock.verifyChecksum_encode (sb : Superblock) : sb.verifyChecksum sb.encode = true := by
  have hlen : (sb.encodeFields (List.replicate superblockLen 0)).length = superblockLen := by
    rw [length_encodeFields, List.length_replicate]
  rw [verifyChecksum, encode, encodeInto]
  cases hcsum : sb.hasMetadataCsum with
  | false => rfl
  | true =>
    have hstands := getU32_putU32 (show 0x3fc + 4 ≤ _ from Nat.le_of_eq hlen.symm)
      (UInt32.toNat_lt (crc32c 0xffffffff
        ((sb.encodeFields (List.replicate superblockLen 0)).take 0x3fc)))
    have htake : ∀ v : Nat, (putU32 (sb.encodeFields (List.replicate superblockLen 0)) 0x3fc v).take
        0x3fc = (sb.encodeFields (List.replicate superblockLen 0)).take 0x3fc := fun v =>
      take_splice (by rw [hlen]; decide)
    simp only [Bool.not_true, Bool.false_eq_true, if_false, if_true, hstands, htake,
      beq_self_eq_true]

/-- A damaged superblock does not verify, unless it no longer says that it has a checksum. -/
theorem Superblock.damaged_not_verified {buf buf' : List UInt8} {sb sb' : Superblock}
    (hcsum : sb.hasMetadataCsum = true) (h : sb.verifyChecksum buf = true)
    (hlen : buf.length = superblockLen) (hlen' : buf'.length = superblockLen)
    (hd : Damaged 32 (bitsOf buf) (bitsOf buf')) :
    sb'.verifyChecksum buf' = !sb'.hasMetadataCsum := by
  cases hcsum' : sb'.hasMetadataCsum with
  | false => rw [verifyChecksum, hcsum']; rfl
  | true =>
    have hd : Damaged 32 (bitsOf (buf.take (0x3fc + 4))) (bitsOf (buf'.take (0x3fc + 4))) := by
      rw [superblockLen] at hlen hlen'
      rwa [List.take_of_length_le (by omega), List.take_of_length_le (by omega)]
    rw [verifyChecksum_iff hcsum] at h
    have hnot := not_stamped h (Nat.le_of_eq hlen.symm) hd
    rw [← verifyChecksum_iff hcsum'] at hnot
    exact Bool.eq_false_iff.mpr hnot

/-- A superblock that lost its mount count. -/
theorem Superblock.damaged_mntCount :
    let sb : Superblock := { Superblock.default with featureRoCompat := RoCompatFeatures.metadataCsum }
    sb.verifyChecksum (splice sb.encode 0x34 [9, 9]) = false := by
  intro sb
  have hlen : sb.encode.length = superblockLen := by
    rw [encode, length_encodeInto, List.length_replicate]
  have hcsum : sb.hasMetadataCsum = true := by decide
  refine (@damaged_not_verified _ _ sb sb hcsum (verifyChecksum_encode sb) hlen
    ((length_splice _ _ _).trans hlen) (@damaged_splice sb.encode [9, 9] 0x34 32 ?_ ?_
      (by decide))).trans (by rw [hcsum]; rfl)
  · rw [hlen]
    decide
  · have hread := @read_head sb (List.replicate superblockLen 0) (by rw [List.length_replicate]) 13
      0x34 2 sb.mntCount rfl (by decide)
    intro heq
    rw [encode, show ([9, 9] : List UInt8).length = 2 from rfl] at heq
    rw [heq] at hread
    exact absurd hread (by decide)

/-- A damaged MMP block is refused. -/
theorem Mmp.damaged_refused {fs : MmpFs} {buf buf' : List UInt8} {m : Mmp}
    (hcsum : fs.metadataCsum = true) (hlen : buf.length = fs.blockSize)
    (h : readMmp fs buf = .ok m)
    (hd : Damaged 32 (bitsOf (buf.take 0x400)) (bitsOf (buf'.take 0x400))) :
    readMmp fs buf' = .error (.corrupt "mmp block" "checksum does not match its contents") := by
  have hiff : ∀ buf, verifyChecksum buf fs.metadataCsum fs.csumSeed = true ↔
      Stamped fs.csumSeed buf 0x3fc := by
    intro buf
    rw [verifyChecksum, hcsum]
    exact beq_iff_eq
  have hstamped : Stamped fs.csumSeed buf 0x3fc := by
    rw [← hiff]
    by_contra hnot
    rw [readMmp, Bool.eq_false_iff.mpr hnot] at h
    cases h
  have hge := fs.blockSize_ge
  have hnot := not_stamped hstamped (by omega) hd
  rw [← hiff] at hnot
  rw [readMmp, Bool.eq_false_iff.mpr hnot]
  rfl

/-- A block whose sequence number was overwritten. -/
theorem Mmp.damaged_refused_seq : ∃ (fs : MmpFs) (m : Mmp),
    readMmp fs (putU32 (writeMmp fs m) offSeq 5) =
      .error (.corrupt "mmp block" "checksum does not match its contents") := by
  let fs : MmpFs :=
    { blockSize := 1024, metadataCsum := true, csumSeed := 7, firstDataBlock := 1,
      blocksCount := 64, mmpBlock := 9, mmpUpdateInterval := 5, blockSize_ge := by decide }
  let m : Mmp := { seq := 1, time := 0, nodename := [], bdevname := [], checkInterval := 5 }
  obtain ⟨m', hread, -⟩ := readMmp_writeMmp fs m (by decide)
  have hlen : (writeMmp fs m).length = 1024 := (length_putU32 _ _ _).trans (length_encodeFields m 1024)
  have hseq : getU32 (writeMmp fs m) offSeq = 1 := by
    rw [writeMmp, getU32_encode _ _ (by decide), getU32_encodeFields_seq m fs.blockSize_ge (by decide)]
  refine ⟨fs, m, damaged_refused rfl hlen hread ?_⟩
  rw [List.take_of_length_le (Nat.le_of_eq hlen),
    List.take_of_length_le (Nat.le_of_eq ((length_putU32 _ _ _).trans hlen))]
  refine damaged_splice ?_ (fun heq => ?_) (by decide)
  · rw [hlen]
    decide
  · have hfive : ofLe (toLe 4 5) = 1 := by
      rw [← heq]
      exact hseq
    exact absurd hfive (by decide)

/-- What is left of the walk after one node, with the node named if its tail is wrong. -/
theorem Filesystem.badNodes_cons {fs : Filesystem} {inode : Inode} {inum guard : Nat}
    {node : List UInt8} {origin : Option Nat} {stack : List (List UInt8 × Option Nat)}
    {bad found : List Nat}
    (h : fs.badNodes inode inum (guard + 1) ((node, origin) :: stack) bad = .ok found) :
    ∃ header stack', ExtentHeader.decode node = .ok header ∧
      fs.badNodes inode inum guard stack'
        (bad ++ origin.toList.filter fun _ => fs.badTail inode inum header node) = .ok found := by
  rw [badNodes] at h
  obtain ⟨header, hdecode, h⟩ := bind_ok_iff.mp h
  have hnamed : ∀ (c : Bool) (block : Nat),
      (if c then bad ++ [block] else bad) = bad ++ [block].filter fun _ => c := by
    rintro (_ | _) block
    · exact (List.append_nil bad).symm
    · rfl
  refine ⟨header, ?_⟩
  cases origin with
  | none =>
    rw [Option.toList_none, List.filter_nil, List.append_nil]
    by_cases hleaf : header.depth = 0
    · exact ⟨stack, returned_ok_iff.mp hdecode, (if_pos hleaf).symm.trans h⟩
    · obtain ⟨-, -, h⟩ := bind_ok_iff.mp ((if_neg hleaf).symm.trans h)
      obtain ⟨children, -, h⟩ := bind_ok_iff.mp h
      exact ⟨_, returned_ok_iff.mp hdecode, h⟩
  | some block =>
    dsimp only at h
    rw [hnamed] at h
    by_cases hleaf : header.depth = 0
    · exact ⟨stack, returned_ok_iff.mp hdecode, (if_pos hleaf).symm.trans h⟩
    · obtain ⟨-, -, h⟩ := bind_ok_iff.mp ((if_neg hleaf).symm.trans h)
      obtain ⟨children, -, h⟩ := bind_ok_iff.mp h
      exact ⟨_, returned_ok_iff.mp hdecode, h⟩

/-- A block that is named stays so. -/
theorem Filesystem.mem_badNodes {fs : Filesystem} {inode : Inode} {inum block : Nat}
    {found : List Nat} : ∀ {guard : Nat} {stack : List (List UInt8 × Option Nat)} {bad : List Nat},
    fs.badNodes inode inum guard stack bad = .ok found → block ∈ bad → block ∈ found := by
  intro guard
  induction guard with
  | zero =>
    intro stack bad h hb
    cases stack with
    | nil => exact Except.ok.inj h ▸ hb
    | cons top stack => cases h
  | succ guard ih =>
    intro stack bad h hb
    cases stack with
    | nil => exact Except.ok.inj h ▸ hb
    | cons top stack =>
      obtain ⟨header, stack', -, h⟩ := badNodes_cons h
      exact ih h (List.mem_append_left _ hb)

/-- A damaged node of an extent tree is reported, where its header still has room for as many
    entries: its tail is wrong, and the walk, if it gets past the header, names its block. -/
theorem Filesystem.damaged_node_bad {fs : Filesystem} {inode : Inode} {inum : Nat}
    {header : ExtentHeader} {node node' : List UInt8}
    (h : fs.badTail inode inum header node = false)
    (hd : Damaged 32 (bitsOf (node.take (Extent.tailOffset header.max + 4)))
      (bitsOf (node'.take (Extent.tailOffset header.max + 4)))) :
    (∀ header' : ExtentHeader, header'.max = header.max →
        fs.badTail inode inum header' node' = true) ∧
      ∀ (header' : ExtentHeader) (guard block : Nat) (stack : List (List UInt8 × Option Nat))
        (bad found : List Nat), ExtentHeader.decode node' = .ok header' →
        header'.max = header.max →
        fs.badNodes inode inum guard ((node', some block) :: stack) bad = .ok found →
        block ∈ found := by
  have hiff : ∀ (header : ExtentHeader) (node : List UInt8),
      fs.badTail inode inum header node = false ↔
        Extent.tailOffset header.max + 4 ≤ node.length ∧
          Csum.Stamped (crc32c (crc32c fs.csumSeed (toLe 4 inum)) (toLe 4 inode.generation)) node
            (Extent.tailOffset header.max) := by
    intro header node
    unfold badTail
    dsimp only
    split
    · next hshort =>
      rw [Extent.tailLen] at hshort
      exact ⟨fun hfalse => Bool.noConfusion hfalse, fun hgood => absurd hgood.1 (by omega)⟩
    · next hlong =>
      rw [decide_eq_false_iff_not, not_not]
      exact ⟨fun heq => ⟨Nat.not_lt.mp hlong, heq.symm⟩, fun hgood => hgood.2.symm⟩
  have hbad : ∀ header' : ExtentHeader, header'.max = header.max →
      fs.badTail inode inum header' node' = true := by
    intro header' hmax
    rw [← Bool.not_eq_false, hiff, hmax]
    rw [hiff] at h
    exact fun hgood => not_stamped h.2 h.1 hd hgood.2
  refine ⟨hbad, ?_⟩
  intro header' guard block stack bad found hdecode hmax hrun
  cases guard with
  | zero => cases hrun
  | succ guard =>
    obtain ⟨header'', stack', hdecode', hrest⟩ := badNodes_cons hrun
    obtain rfl := Except.ok.inj (hdecode.symm.trans hdecode')
    refine mem_badNodes hrest (List.mem_append_right _ ?_)
    rw [hbad _ hmax, List.filter_true]
    exact List.mem_singleton_self block

/-- A leaf with one extent, of three blocks, and its tail. -/
def Filesystem.leafNode : List UInt8 :=
  [10, 243, 1, 0, 1, 0, 0, 0, 0, 0, 0, 0, 0, 0, 0, 0, 3, 0, 0, 0, 100, 0, 0, 0, 229, 118, 103, 194]

/-- The first block of its extent was overwritten. -/
theorem Filesystem.damaged_node_bad_leaf : ∃ found,
    badNodes ⟨.ofChunks 0 [], .default, [], .crc32c, 7⟩ {} 12 1
      [(splice leafNode 20 [101], some 84)] [] = .ok found ∧ 84 ∈ found := by
  let header : ExtentHeader := { entries := 1, max := 1, depth := 0, generation := 0 }
  have hgood : badTail ⟨.ofChunks 0 [], .default, [], .crc32c, 7⟩ {} 12 header leafNode = false := by
    decide +kernel
  have hd : Damaged 32 (bitsOf (leafNode.take 28)) (bitsOf ((splice leafNode 20 [101]).take 28)) :=
    @damaged_splice leafNode [101] 20 32 (by decide) (by decide) (by decide)
  have hnames := (@damaged_node_bad _ {} 12 header leafNode _ hgood hd).2 header 1 84 [] []
  cases hrun : badNodes ⟨.ofChunks 0 [], .default, [], .crc32c, 7⟩ {} 12 1
      [(splice leafNode 20 [101], some 84)] [] with
  | error e => cases hrun
  | ok found => exact ⟨found, rfl, hnames found rfl rfl hrun⟩

/-- What the checksum of a directory leaf covers, and the checksum itself. -/
def Dirent.leafCovered (block : List UInt8) : List UInt8 :=
  block.take (block.length - tailLen) ++ slice block (block.length - tailLen + 8) 4

/-- A directory leaf that was damaged and still has a tail no longer agrees with it. -/
theorem Dirent.damaged_leaf_told {block block' : List UInt8} {stored stored' inum generation : Nat}
    {seed : UInt32} (h : blockCsum block = some stored) (h' : blockCsum block' = some stored')
    (hagrees : stored = direntCsum seed inum generation (block.take (block.length - tailLen)))
    (hd : Damaged 32 (bitsOf (leafCovered block)) (bitsOf (leafCovered block'))) :
    stored' ≠ direntCsum seed inum generation (block'.take (block'.length - tailLen)) := by
  have htail : ∀ {block : List UInt8} {stored : Nat}, blockCsum block = some stored →
      stored = ofLe (slice block (block.length - tailLen + 8) 4) ∧
        (slice block (block.length - tailLen + 8) 4).length = 4 := by
    intro block stored h
    unfold blockCsum at h
    split at h
    · cases h
    next hroom =>
    dsimp only at h
    split at h
    · cases h
    split at h
    · rw [tailLen] at hroom
      exact ⟨(Option.some.inj h).symm, length_slice (by rw [tailLen]; omega)⟩
    · cases h
  obtain ⟨hstored, hlen⟩ := htail h
  obtain ⟨hstored', hlen'⟩ := htail h'
  rw [hstored] at hagrees
  rw [hstored']
  exact fun heq => crc32c_behind_ne hlen hlen' hagrees.symm hd heq.symm

/-- A leaf with one entry and its tail. -/
def Dirent.dotLeaf : List UInt8 :=
  [2, 0, 0, 0, 12, 0, 1, 2, 46, 0, 0, 0, 0, 0, 0, 0, 12, 0, 0, 222, 192, 214, 191, 145]

/-- Its inode number was overwritten. -/
theorem Dirent.damaged_leaf_told_dot :
    2445268672 ≠ direntCsum 7 2 0 ((splice dotLeaf 0 [3]).take 12) :=
  @damaged_leaf_told dotLeaf (splice dotLeaf 0 [3]) 2445268672 2445268672 2 0 7 (by decide)
    (by decide) (by decide +kernel)
    (@damaged_splice (leafCovered dotLeaf) [3] 0 32 (by decide) (by decide) (by decide))

end MkfsExt4
