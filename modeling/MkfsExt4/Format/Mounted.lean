/-
  A formatted image as a reader finds it: the filesystem its superblock describes, the inodes
  that were written, and the blocks that were left with something.
-/
import MkfsExt4.Format.Kept
import MkfsExt4.Format.Planned
import MkfsExt4.Format.Schedule
import MkfsExt4.Format.Tiling
import MkfsExt4.Read.Inodes

namespace MkfsExt4.Format

open Lib.Store Lib.Endian Layout Filesystem

/-- What a filesystem over `dev` has of the plan that `dev` was formatted by. -/
structure Mounts (plan : Plan) (dev : Device) (fs : Filesystem) : Prop where
  device : fs.device = dev
  blockSize : fs.blockSize = plan.geom.blockSize
  blocksCount : fs.superblock.blocksCount = plan.geom.blocksCount
  csumScheme : fs.csumScheme = plan.csumScheme
  csumSeed : plan.csumScheme = .crc32c → fs.csumSeed = plan.csumSeed

theorem mounts_of_superblock {deviceSize : Nat} {params : Params} {ambient : Ambient} {p : Plan}
    (hplan : plan deviceSize params ambient = .ok p) {dev : Device} {fs : Filesystem}
    {freeBlocks freeInodes : Nat}
    (hfs : withSuperblock dev (buildSuperblock p freeBlocks freeInodes) = .ok fs) :
    Mounts p dev fs := by
  obtain ⟨hgeom, journal, orphan, hmade⟩ := plan_made hplan
  obtain ⟨req, start, descSize, s, grp, -, hfrom⟩ := compute_from hgeom
  obtain ⟨_, -, hrest⟩ := Lib.Hoare.bind_ok hfs
  obtain ⟨descs, -, hrest⟩ := Lib.Hoare.bind_ok hrest
  obtain rfl := Except.ok.inj hrest
  refine ⟨rfl, superblock_blockSize hfrom rfl freeBlocks freeInodes, rfl, ?_, fun hcrc => ?_⟩
  · rw [hmade.csumScheme]
    rfl
  · have hseed := hmade.csumSeed
    rw [if_pos (Or.inr hcrc)] at hseed
    show (if p.geom.features.incompat.contains IncompatFeatures.csumSeed then _ else _) = _
    split
    · next hbit =>
      show UInt32.ofNat (if p.geom.features.incompat.contains IncompatFeatures.csumSeed then
        p.csumSeed.toNat else 0) = _
      rw [if_pos hbit, UInt32.ofNat_toNat]
    · exact hseed.symm

section Opens

variable {plan : Plan} (h : plan.Sound) {dev : Device}
  (hcovers : plan.geom.blocksCount * plan.geom.blockSize ≤ dev.size) (hsize : dev.size < 2 ^ 64)

include h hcovers hsize

/-- A run of blocks that ends inside the filesystem is on the device. -/
theorem Plan.Sound.reach {b n : Nat} (hn : 0 < n) (hend : b + n ≤ plan.geom.blocksCount) :
    b * plan.geom.blockSize < 2 ^ 64 ∧
      b * plan.geom.blockSize + n * plan.geom.blockSize ≤ dev.size := by
  have hpos := Nat.mul_pos hn h.blockSize_pos
  have hbytes := Nat.mul_le_mul_right plan.geom.blockSize hend
  rw [Nat.add_mul] at hbytes
  omega

variable {fs : Filesystem} (hdev : fs.device = dev)
  (hblockSize : fs.blockSize = plan.geom.blockSize)
  (hdescSize : fs.superblock.descSize = plan.geom.descSize)

include hdev hblockSize hdescSize

theorem Plan.Sound.tableInReach_classic (hm : plan.geom.metaBg = false) (hmeta : fs.metaBg = false)
    (hcount : fs.superblock.groupCount = plan.geom.groupCount) : fs.TableInReach := by
  have hper := h.computed.descPerBlock_ge
  have htable := (h.holdsFront 0 h.computed.groupCount_pos).table h.computed hm
    (plan.geom.hasSuper_le_one (Nat.zero_le 1))
  rw [Geometry.groupFirstBlock_zero, h.firstDataBlock] at htable
  have hbytes : plan.geom.groupCount * plan.geom.descSize ≤
      plan.geom.descBlocks * plan.geom.blockSize := by
    rw [← h.descSize, ← Nat.mul_assoc]
    refine Nat.mul_le_mul_right _ ((divCeil_le_iff (by omega)).mp ?_)
    exact Nat.le_of_eq h.descBlocks.symm
  have hparts : fs.tableParts ≤ plan.geom.descBlocks := by
    unfold tableParts
    rw [hmeta, if_neg (by decide), hblockSize, hcount, hdescSize]
    exact (divCeil_le_iff h.blockSize_pos).mpr hbytes
  have hstart : fs.tableBlock 0 = if plan.geom.blockSize = 1024 then 2 else 1 := by
    unfold tableBlock
    rw [hmeta, if_neg (by decide), hblockSize]
    rfl
  have hend : fs.tableBlock 0 + plan.geom.descBlocks ≤ plan.geom.blocksCount := by
    rw [hstart]
    split
    · next hb =>
      rw [if_pos hb] at htable
      omega
    · next hb =>
      rw [if_neg hb] at htable
      omega
  obtain ⟨hlow, hhigh⟩ := h.reach hcovers hsize h.descBlocks_pos hend
  unfold TableInReach
  rw [hmeta, if_neg (by decide), hblockSize, hdev]
  exact ⟨Nat.ne_of_gt h.blockSize_pos, hlow, Nat.le_trans
    (Nat.add_le_add_left (Nat.mul_le_mul_right _ hparts) _) hhigh⟩

theorem Plan.Sound.tableInReach_distributed (hmeta : fs.metaBg = true)
    (hgdt : fs.superblock.gdtBlocks = plan.geom.descBlocks)
    (hfirst : ∀ g, groupFirstBlockFor fs.superblock g = plan.geom.groupFirstBlock g) :
    fs.TableInReach := by
  have hper := h.computed.descPerBlock_ge
  have hdpb : fs.superblock.descPerBlock = plan.geom.descPerBlock := by
    rw [Superblock.descPerBlock, hdescSize]
    exact congrArg (· / plan.geom.descSize) hblockSize
  unfold TableInReach
  rw [hmeta, if_pos rfl, hdpb, hblockSize, hdev]
  refine ⟨by omega, fun k hk => ?_⟩
  unfold tableParts at hk
  rw [hmeta, if_pos rfl, hgdt, h.descBlocks] at hk
  have hfront := h.front_two ((lt_divCeil_iff (by omega)).mp hk)
  have hsuper := Bool.toNat_le (groupHasSuperFor fs.superblock (k * plan.geom.descPerBlock))
  have hend : fs.tableBlock k + 1 ≤ plan.geom.blocksCount := by
    unfold tableBlock
    rw [hmeta, if_pos rfl, hdpb]
    dsimp only
    rw [hfirst]
    omega
  have hreach := h.reach hcovers hsize Nat.one_pos hend
  rwa [Nat.one_mul] at hreach

end Opens

/-- A device that has the blocks of a plan opens with its superblock. -/
theorem opens_of_plan {deviceSize : Nat} {params : Params} {ambient : Ambient} {p : Plan}
    (htyped : params.Typed) (hplan : plan deviceSize params ambient = .ok p) {dev : Device}
    (hcovers : p.geom.blocksCount * p.geom.blockSize ≤ dev.size) (hsize : dev.size < 2 ^ 64)
    (freeBlocks freeInodes : Nat) :
    ∃ fs, withSuperblock dev (buildSuperblock p freeBlocks freeInodes) = .ok fs := by
  have h := plan_sound htyped hplan
  obtain ⟨hgeom, -⟩ := plan_made hplan
  obtain ⟨req, start, descSize, s, grp, -, hfrom⟩ := compute_from hgeom
  obtain ⟨descSize, hmade, hfin⟩ := hfrom.made
  have hblockSize := superblock_blockSize hfrom rfl freeBlocks freeInodes
  have hdescSize := superblock_descSize hfrom rfl freeBlocks freeInodes
  obtain ⟨hcount, hgdt, -⟩ := superblock_reports htyped hfrom rfl freeBlocks freeInodes
  have hshift : ¬(32 ≤ p.geom.logBlockSize ∨
      p.geom.blocksPerGroup ≠ 0 ∧ p.geom.blocksCount < p.geom.firstDataBlock) := by
    obtain ⟨k, hk, -, hhigh⟩ := hmade.blockSize
    have hfront := h.front_two h.computed.groupCount_pos
    rw [Geometry.groupFirstBlock_zero] at hfront
    rw [hfin.logBlockSize, hk, Nat.log2_two_pow]
    omega
  let fs : Filesystem :=
    { device := dev, superblock := buildSuperblock p freeBlocks freeInodes, groupDescs := [],
      csumScheme := csumSchemeFor (buildSuperblock p freeBlocks freeInodes),
      csumSeed := (buildSuperblock p freeBlocks freeInodes).csumSeed }
  have hmeta : fs.metaBg = p.geom.metaBg := hfin.metaBg_bit
  have hin : fs.TableInReach := by
    cases hm : p.geom.metaBg with
    | false =>
      exact @Plan.Sound.tableInReach_classic p h dev hcovers hsize fs rfl hblockSize hdescSize hm
        (hmeta.trans hm) hcount
    | true =>
      exact @Plan.Sound.tableInReach_distributed p h dev hcovers hsize fs rfl hblockSize hdescSize
        (hmeta.trans hm) hgdt fun _ => rfl
  have hdescs : fs.readGroupDescs = .ok (fs.descsIn fs.tableBytes) := by
    rw [readGroupDescs, Lib.Hoare.bind_of_ok (readGdt_ok_iff.mpr ⟨hin, rfl⟩)]
    rfl
  refine ⟨{ fs with groupDescs := fs.descsIn fs.tableBytes },
    panicIf_bind_ok_iff.mpr ⟨hshift, ?_⟩⟩
  rw [Lib.Hoare.bind_of_ok hdescs]
  rfl

/-- An inode as a reader decodes it from the bytes the formatter wrote for it. -/
def readBack (plan : Plan) (inum : Nat) (inode : Inode) : Except Failure Inode :=
  Inode.decode (inode.encodeWithCsum plan.geom.inodeSize (plan.csumScheme = .crc32c) plan.csumSeed
    inum) plan.geom.inodeSize

/-- What of an inode its reader's walk depends on. -/
structure SameMap (made inode : Inode) : Prop where
  mode : inode.mode = made.mode % 2 ^ 16
  size : inode.size = made.size % 2 ^ 64
  flags : inode.flags = made.flags % 2 ^ 32
  block : inode.block = made.block
  generation : inode.generation = made.generation % 2 ^ 32
  blocks : inode.blocks = made.blocks % 2 ^ 48

theorem decode_map {buf : List UInt8} {inodeSize : Nat} {inode : Inode}
    (h : Inode.decode buf inodeSize = .ok inode) : inode.generation = getU32 buf 0x64 ∧
      inode.blocks = join 32 (getU32 buf 0x1c) (getU16 buf 0x74) := by
  obtain ⟨hsize, hlen, hword⟩ := Inode.decodable_of_decode h
  unfold Inode.decode at h
  dsimp only at h
  rw [if_neg (by omega), if_neg (by omega)] at h
  obtain rfl := Except.ok.inj h
  exact ⟨rfl, rfl⟩

theorem readBack_ok (plan : Plan) (inum : Nat) {made : Inode}
    (henc : Inode.Encodable plan.geom.inodeSize) (hblock : made.block.length = iBlockLen) :
    ∃ inode, readBack plan inum made = .ok inode ∧ SameMap made inode := by
  obtain ⟨inode, hdecode, hmode, hlen, -, hflags, hmap, -⟩ :=
    made.decode_encodeWithCsum (plan.csumScheme = .crc32c) plan.csumSeed inum henc hblock
  have hread := fun {i off width v : Nat} => @Inode.read_encodeWithCsum made plan.geom.inodeSize
    (plan.csumScheme = .crc32c) plan.csumSeed inum (Inode.encodable_ge henc) i off width v
  have hgeneration := @hread 13 0x64 4 _ rfl (by decide)
  have hlo := @hread 9 0x1c 4 _ rfl (by decide)
  have hhi := @hread 17 0x74 2 _ rfl (by decide)
  obtain ⟨jgeneration, jblocks⟩ := decode_map hdecode
  refine ⟨inode, hdecode, hmode, hlen, hflags, hmap, ?_, ?_⟩
  · rw [jgeneration, getU32, hgeneration]
    rfl
  · rw [jblocks, getU32, getU16, hlo, hhi]
    exact join_halves 32 16 made.blocks

section Fronts

variable {plan : Plan} (h : plan.Sound)

include h

/-- A superblock copy and the reserved descriptor blocks are in front of what is free. -/
theorem Plan.Sound.free_ne_front {b g : Nat} (hb : plan.geom.Free b) (hg : g < plan.geom.groupCount)
    (hsuper : plan.geom.hasSuper g = true) : b ≠ plan.geom.groupFirstBlock g := by
  rintro rfl
  have hcount := h.front_two hg
  have hfree := (Geometry.free_iff (i := 0) h.computed.groupCount_lt hg h.computed.blocksPerGroup_pos
    (by omega)).mp hb
  rw [Geometry.superOverhead, hsuper, Bool.toNat_true] at hfree
  omega

/-- The reserved area of a group with a superblock copy is not free. -/
theorem Plan.Sound.not_free_reserved {g off : Nat} (hg : g < plan.geom.groupCount)
    (hsuper : plan.geom.hasSuper g = true) (hoff : off < plan.geom.reservedGdtBlocks) :
    ¬plan.geom.Free (plan.geom.groupFirstBlock g + 1 + plan.geom.descBlocks + off) := by
  have hm : plan.geom.metaBg = false := by
    cases hm : plan.geom.metaBg with
    | false => rfl
    | true =>
      have := (h.computed.distributed hm).1
      omega
  have htable := (h.holdsFront g hg).table h.computed hm hsuper
  have hclassic := h.computed.classic hm
  have hover : plan.geom.superOverhead g =
      1 + (plan.geom.descBlocks + plan.geom.reservedGdtBlocks) := by
    rw [Geometry.superOverhead, Geometry.descBlocksInGroup, Geometry.groupHasDesc, hm, hsuper]
    rfl
  have hfree := @Geometry.free_iff plan.geom g (1 + plan.geom.descBlocks + off)
    h.computed.groupCount_lt hg (by omega) (by omega)
  rw [← Nat.add_assoc, ← Nat.add_assoc, hover] at hfree
  rw [hfree]
  omega

theorem Plan.Sound.free_ne_reserved {b off : Nat} (hb : plan.geom.Free b)
    (hoff : off < plan.geom.reservedGdtBlocks) : b ≠ reservedGdtBlock plan.geom off := by
  rw [reservedGdtBlock_eq h.firstDataBlock, ← Geometry.groupFirstBlock_zero]
  rintro rfl
  exact h.not_free_reserved h.computed.groupCount_pos (plan.geom.hasSuper_le_one (Nat.zero_le 1))
    hoff hb

/-- After the files only the superblocks are written, and those are at the fronts of groups. -/
theorem Plan.Sound.leaves_of_files {block : Nat} {Q : List UInt8 → Prop} {chunkBlocks : Nat}
    {schedule : Nat → List Nat} (hfront : ∀ g < plan.geom.groupCount, plan.geom.hasSuper g = true →
      block ≠ plan.geom.groupFirstBlock g)
    (hfiles : Leaves plan.geom.blockSize block Q (writeFiles plan)) :
    Leaves plan.geom.blockSize block Q (writeFilesystemChunked plan chunkBlocks schedule) :=
  leaves_writeFilesystemChunked h.blockSize_pos hfiles fun _ =>
    skips_writeSuperblocks h.firstDataBlock hfront h.computed.groupCount_pos

/-- The blocks of the formatter's inodes are in group 0's table. -/
theorem Plan.Sound.within_of_holdsInodes {block : Nat} (hunder : HoldsInodes plan block) :
    ∃ lay, plan.geom.group 0 = .ok lay ∧ Within (plan.geom.part lay .inodeTable) block := by
  obtain ⟨lay, hlay, inum, hinum, rfl⟩ := hunder
  have hle : inum ≤ 12 := by
    rcases List.mem_append.mp hinum with hinum | hinum
    · have := (List.mem_range'_1.mp hinum).2
      omega
    · rw [h.orphanInode inum (Option.mem_toList.mp hinum)]
      exact Nat.le_refl 12
  refine ⟨lay, hlay, Nat.le_add_right _ _, Nat.add_lt_add_left (Nat.div_lt_of_lt_mul ?_) _⟩
  show (inum - 1) * plan.geom.inodeSize < plan.geom.blockSize * plan.geom.itableBlocksPerGroup
  rw [Nat.mul_comm plan.geom.blockSize, ← h.table]
  have hgroup0 := h.group0
  exact Nat.mul_lt_mul_of_pos_right (by omega) h.inodeSize_pos

theorem Plan.Sound.free_of_holdsInodes {block : Nat} (hunder : HoldsInodes plan block) :
    plan.geom.Free block := by
  obtain ⟨lay, hlay, hwithin⟩ := h.within_of_holdsInodes hunder
  exact Geometry.part_clear h.computed.itable_pos hlay .inodeTable _ hwithin.1 hwithin.2

end Fronts

section Read

variable {plan : Plan} {dev dev' : Device} {fs : Filesystem} {chunkBlocks : Nat}
  {schedule : Nat → List Nat} {report : Report} {block : Nat} {Q : List UInt8 → Prop}

/-- A block that a format leaves with `Q` is read back with it. -/
theorem Mounts.read (h : Mounts plan dev' fs)
    (hrun : writePlan plan chunkBlocks schedule dev = (.ok report, dev'))
    (hfits : plan.geom.blocksCount * plan.geom.blockSize ≤ dev.size) (hsize : dev.size < 2 ^ 64)
    (hpos : 0 < plan.geom.blockSize) (hblock : block < plan.geom.blocksCount)
    (hleaves : Leaves plan.geom.blockSize block Q
      (writeFilesystemChunked plan chunkBlocks schedule)) :
    ∃ buf, fs.readBlock block = .ok buf ∧ buf.length = plan.geom.blockSize ∧ Q buf := by
  obtain ⟨hdev, hQ⟩ := Leaves.of_writePlan hrun hleaves
  have hend : block * plan.geom.blockSize + plan.geom.blockSize ≤ dev.size := by
    refine Nat.le_trans ?_ hfits
    rw [← Nat.succ_mul]
    exact Nat.mul_le_mul_right _ hblock
  rw [← h.device] at hdev hQ
  refine ⟨_, readBlock_ok_iff.mpr ⟨?_, ?_, ?_, rfl⟩, ?_, ?_⟩
  · rwa [h.blocksCount]
  · rw [h.blockSize]
    omega
  · rwa [h.blockSize, hdev]
  · rw [length_window, h.blockSize]
  · rwa [h.blockSize]

end Read

/-- A plan whose groups have places and whose copies fit is written, and what is left opens. -/
theorem written_of_plan {dev : Device} {params : Params} {ambient : Ambient} {p : Plan}
    (htyped : params.Typed) (hplan : plan dev.size params ambient = .ok p) (hsize : dev.size < 2 ^ 64)
    (hblocks : p.geom.blocksPerGroup ≤ 8 * p.geom.blockSize)
    (hinodes : p.geom.inodesPerGroup ≤ 8 * p.geom.blockSize)
    (hplaced : ∀ g < p.geom.groupCount, (p.geom.placeFlex (p.geom.flexFirstGroup g)).isOk = true)
    (hfit : CopiesFit p (max gdtChunkBlocks 1)) (hfront : (writeFront p).result.isOk = true)
    (hfiles : (writeFiles p).result.isOk = true) :
    ∃ report dev' fs, writePlan p gdtChunkBlocks (fun _ => []) dev = (.ok report, dev') ∧
      withSuperblock dev' (buildSuperblock p report.freeBlocksCount report.freeInodesCount) =
        .ok fs := by
  obtain ⟨hgeom, -⟩ := plan_made hplan
  obtain ⟨req, start, descSize, s, grp, -, hfrom⟩ := compute_from hgeom
  obtain ⟨report, dev', hrun⟩ :=
    runs_of_plan htyped hplan hfrom.blocks_le hblocks hinodes hplaced hfit hfront hfiles
  have hsame : dev'.size = dev.size := size_of_writePlan hrun
  obtain ⟨fs, hfs⟩ := @opens_of_plan _ _ _ p htyped hplan dev' (by rw [hsame]; exact hfrom.blocks_le)
    (by rw [hsame]; exact hsize) report.freeBlocksCount report.freeInodesCount
  exact ⟨report, dev', fs, hrun, hfs⟩

end MkfsExt4.Format
