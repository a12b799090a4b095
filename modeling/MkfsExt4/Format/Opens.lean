/-
  A formatted device opens, and with the superblock it was formatted with
  (`write_filesystem_chunked` of `src/format.rs` against `Filesystem::open` of `src/fs.rs`).

  The primary superblock is written behind everything but its own backups, so it stands whatever
  the metadata of the groups lies over. What it says is in range (`buildSuperblock_typed`) as long
  as the time it was made at fits the 40 bits there are for it.
-/
import Mathlib.Algebra.Order.BigOperators.Group.List
import MkfsExt4.Format.DryRun
import MkfsExt4.Format.Mounted
import MkfsExt4.Structs.SuperblockCodec

namespace MkfsExt4

open Lib.Store Lib.Hoare

namespace Filesystem

variable {dev : Device} {sb : Superblock}

/-- Opening is reading the superblock, where the device has room for the first read. -/
theorem openOn_of_decode (hsize : superblockOffset + superblockLen + dev.logicalSectorSize ≤ dev.size)
    (h : Superblock.decode (window dev.bytes superblockOffset superblockLen) = .ok sb) :
    openOn dev = withSuperblock dev sb := by
  have hspan := superblock_in_span dev
  have hfits : (superblockOffset + superblockLen + max dev.logicalSectorSize 1 - 1) /
      max dev.logicalSectorSize 1 * max dev.logicalSectorSize 1 ≤ dev.size := by
    refine Nat.le_trans (Nat.div_mul_le_self _ _) ?_
    omega
  unfold openOn
  dsimp only
  rw [bind_of_ok (returned_ok_iff.mpr (Device.readAt_ok_iff.mpr ⟨by rwa [Nat.zero_add], rfl⟩)),
    slice_window _ hspan, Nat.zero_add, bind_of_ok (returned_ok_iff.mpr h)]

/-- The checksum and the times of a superblock are not looked at. -/
theorem withSuperblock_inTime {fs : Filesystem} (h : withSuperblock dev sb = .ok fs)
    (checksum : Nat) : withSuperblock dev { sb.inTime with checksum } =
      .ok { fs with superblock := { sb.inTime with checksum } } := by
  obtain ⟨_, hsound, hrest⟩ := bind_ok h
  obtain ⟨descs, hdescs, hrest⟩ := bind_ok hrest
  obtain rfl := Except.ok.inj hrest
  refine panicIf_bind_ok_iff.mpr ⟨panicIf_ok hsound, ?_⟩
  have hsame : readGroupDescs
      { device := dev, superblock := { sb.inTime with checksum }, groupDescs := [],
        csumScheme := csumSchemeFor { sb.inTime with checksum },
        csumSeed := Superblock.csumSeed { sb.inTime with checksum } } = .ok descs := hdescs
  rw [bind_of_ok hsame]
  rfl

end Filesystem

namespace Format

open Lib.Trace Layout Filesystem

/-! ## What a plan takes over -/

/-- The values of a plan that are given, or asked of its surroundings. -/
structure Plan.Given (plan : Plan) (params : Params) (ambient : Ambient) : Prop where
  uuid : plan.uuid = params.uuid.getD ambient.uuid
  hashSeed : plan.hashSeed = getU32s (params.hashSeed.getD ambient.hashSeed) 0 4
  mkfsTime : plan.mkfsTime = params.mkfsTime.getD ambient.now
  journalBlocks : plan.journalBlocks = journalBlocksFor plan.geom params
  mmpUpdateInterval : plan.mmpUpdateInterval ≤ mmpInterval params
  resuid : plan.resuid = params.resuid
  resgid : plan.resgid = params.resgid
  lostFoundBlocks : plan.lostFoundBlocks =
    min (max (divCeil (16 * 1024) plan.geom.blockSize) 1) 12

theorem plan_given {deviceSize : Nat} {params : Params} {ambient : Ambient} {p : Plan}
    (h : plan deviceSize params ambient = .ok p) : p.Given params ambient := by
  obtain ⟨geom, a, hgeom, h⟩ := plan_run h
  unfold planBlocks at h
  dsimp only at h
  obtain ⟨root, a1, -, h⟩ := exec_bind_ok h
  obtain ⟨lostFound, a2, -, h⟩ := exec_bind_ok h
  obtain ⟨dind, a3, -, h⟩ := exec_bind_ok h
  obtain ⟨journal, a4, -, h⟩ := exec_bind_ok h
  obtain ⟨orphan, a5, -, h⟩ := exec_bind_ok h
  obtain ⟨mmp, a6, -, h⟩ := exec_bind_ok h
  obtain ⟨jleaf, a7, -, h⟩ := exec_bind_ok h
  obtain ⟨oleaf, a8, -, h⟩ := exec_bind_ok h
  obtain ⟨oblock, a9, -, h⟩ := exec_bind_ok h
  obtain ⟨jblock, a10, -, h⟩ := exec_bind_ok h
  obtain ⟨a11, a12, -, hlast⟩ := exec_bind_ok h
  obtain ⟨rfl, rfl⟩ := exec_pure_ok hlast
  refine ⟨rfl, rfl, rfl, rfl, ?_, rfl, rfl, rfl⟩
  dsimp only
  split
  · exact Nat.le_refl _
  · exact Nat.zero_le _

/-! ## The superblock is in range -/

/-- What the groups have free is no more than they have. -/
theorem tableFree_le (plan : Plan) :
    (tableFree plan).1 ≤ plan.geom.groupCount * plan.geom.blocksPerGroup ∧
      (tableFree plan).2 ≤ plan.geom.groupCount * plan.geom.inodesPerGroup := by
  have hended : ∀ d ∈ ((List.range plan.geom.groupCount).map (queued plan)).filterMap InFlight.ended,
      d.2.freeBlocksCount ≤ plan.geom.blocksPerGroup ∧
        d.2.freeInodesCount ≤ plan.geom.inodesPerGroup := by
    intro d hd
    obtain ⟨t, ht, hend⟩ := List.mem_filterMap.mp hd
    obtain ⟨g, -, rfl⟩ := List.mem_map.mp ht
    cases hwrite : writeGroup plan g with
    | error e =>
      rw [InFlight.ended, queued, hwrite] at hend
      cases hend
    | ok r =>
      rw [InFlight.ended, queued, hwrite] at hend
      obtain rfl := Option.some.inj hend
      obtain ⟨state, -, hstate, -, hdesc, -⟩ := writeGroup_ok hwrite
      obtain ⟨lay, -, h⟩ := Lib.Hoare.bind_ok hstate
      obtain ⟨metadata, -, h⟩ := Lib.Hoare.bind_ok h
      obtain ⟨_, -, h⟩ := Lib.Hoare.bind_ok h
      obtain ⟨_, -, h⟩ := Lib.Hoare.bind_ok h
      obtain rfl := Except.ok.inj h
      dsimp only
      rw [hdesc]
      exact ⟨Nat.sub_le _ _, Nat.sub_le _ _⟩
  have hcount : (((List.range plan.geom.groupCount).map (queued plan)).filterMap
      InFlight.ended).length ≤ plan.geom.groupCount := by
    refine Nat.le_trans (List.length_filterMap_le _ _) ?_
    rw [List.length_map, List.length_range]
  rw [tableFree]
  dsimp only
  generalize ((List.range plan.geom.groupCount).map (queued plan)).filterMap InFlight.ended = done
    at hended hcount
  constructor
  · refine Nat.le_trans (List.sum_le_card_nsmul _ plan.geom.blocksPerGroup fun n hn => ?_) ?_
    · obtain ⟨d, hd, rfl⟩ := List.mem_map.mp hn
      exact (hended d hd).1
    · rw [List.length_map, Nat.nsmul_eq_mul]
      exact Nat.mul_le_mul_right _ hcount
  · refine Nat.le_trans (List.sum_le_card_nsmul _ plan.geom.inodesPerGroup fun n hn => ?_) ?_
    · obtain ⟨d, hd, rfl⟩ := List.mem_map.mp hn
      exact (hended d hd).2
    · rw [List.length_map, Nat.nsmul_eq_mul]
      exact Nat.mul_le_mul_right _ hcount

theorem journalBlocksFor_lt {params : Params} (htyped : params.Typed) (geom : Geometry) :
    journalBlocksFor geom params < 2 ^ 32 := by
  unfold journalBlocksFor
  split
  · decide
  split
  · decide
  · next n hn => exact htyped.journal n hn
  · unfold defaultJournalBlocks
    split_ifs <;> decide

/-- The ranges of a geometry's numbers. -/
structure Ranged (geom : Geometry) : Prop where
  firstDataBlock : geom.firstDataBlock ≤ 1
  logBlockSize : geom.logBlockSize ≤ 6
  blockSize : geom.blockSize ≤ 2 ^ 16
  blocksPerGroup : geom.blocksPerGroup < 2 ^ 16
  blocksCount : geom.blocksCount < 2 ^ 54
  rBlocksCount : geom.rBlocksCount < 2 ^ 54
  inodesCount : geom.inodesCount < 2 ^ 32
  inodes : geom.groupCount * geom.inodesPerGroup = geom.inodesCount
  inodeSize : geom.inodeSize < 2 ^ 16
  reservedGdtBlocks : geom.reservedGdtBlocks < 2 ^ 16
  descSize : geom.descSize ≤ 64
  firstMetaBg : geom.firstMetaBg < 2 ^ 32
  logGroupsPerFlex : geom.logGroupsPerFlex < 32

theorem ranged_of_compute {sizeBytes : Nat} {params : Params} {geom : Geometry}
    (htyped : params.Typed) (hsize : sizeBytes < 2 ^ 64)
    (h : compute sizeBytes params = .ok geom) : Ranged geom := by
  obtain ⟨req, start, descSize, s, grp, -, hfrom⟩ := compute_from h
  obtain ⟨descSize, hmade, hfin⟩ := hfrom.made
  have hstart := hfrom.start_le
  have hgrp := hfrom.settles.eq
  obtain ⟨k, hk, hlow, hhigh⟩ := hmade.blockSize
  have hbounds := hmade.blockSize_bounds
  have hblocks : geom.blocksCount < 2 ^ 54 := by
    have hle := hfrom.blocks_le
    rw [hfin.blockSize] at hle
    have hmul := Nat.mul_le_mul_left geom.blocksCount hbounds.1
    omega
  refine ⟨?_, ?_, ?_, ?_, hblocks, Nat.lt_trans hfin.reserved_lt hblocks, ?_, ?_, ?_, ?_, ?_, ?_,
    hfin.flex_lt htyped⟩
  · rw [hfin.firstDataBlock]
    exact hmade.firstDataBlock_le
  · rw [hfin.logBlockSize, hk, Nat.log2_two_pow]
    omega
  · rw [hfin.blockSize]
    exact hbounds.2
  · have hmax : maxBlocksPerGroup < 2 ^ 16 := by decide
    have hsize : geom.blocksPerGroup = s.2 := by
      rw [hfin.blocksPerGroup, hgrp]
      rfl
    have := hmade.groupSize_le
    omega
  · rw [hfin.inodesCount]
    exact hfin.inodes_lt
  · rw [hfin.inodesCount, hfin.groupCount, hfin.inodesPerGroup, Nat.mul_comm]
  · rw [hfin.inodeSize, hmade.inodeSize]
    cases hsize : params.inodeSize with
    | none => decide
    | some n => exact htyped.inodeSize n hsize
  · rw [hfin.reservedGdt]
    split
    · decide
    · rw [hgrp]
      dsimp only [Request.groupsAt, Request.reservedGdtAt, Request.reservedGdt]
      split
      · exact Nat.mod_lt _ (by decide)
      · decide
  · rw [hfin.descSize]
    rcases hmade.descSize_eq with hd | hd
    · rw [hd]
      decide
    · exact Nat.le_of_eq hd
  · rw [hfin.firstMetaBg]
    split
    · cases hfirst : params.firstMetaBg with
      | none => decide
      | some n => exact htyped.firstMetaBg n hfirst
    · decide

/-- The numbers of a superblock that a format writes fit the fields they go to, once its times are
cut. -/
theorem buildSuperblock_typed {deviceSize : Nat} {params : Params} {ambient : Ambient} {p : Plan}
    (htyped : params.Typed) (huuid : ambient.uuid.length = 16) (hsize : deviceSize < 2 ^ 64)
    (hplan : plan deviceSize params ambient = .ok p)
    {freeBlocks freeInodes : Nat} (hblocks : freeBlocks ≤ p.geom.groupCount * p.geom.blocksPerGroup)
    (hinodes : freeInodes ≤ p.geom.groupCount * p.geom.inodesPerGroup) :
    (buildSuperblock p freeBlocks freeInodes).inTime.Typed := by
  have hsound := plan_sound htyped hplan
  obtain ⟨hgeom, -⟩ := plan_made hplan
  have hgiven := plan_given hplan
  have hranged := ranged_of_compute htyped hsize hgeom
  have hlen : p.uuid.length = 16 := by
    rw [hgiven.uuid]
    cases hu : params.uuid with
    | none => exact huuid
    | some u => exact htyped.uuid u hu
  have hjournal := journalBlocksFor_lt htyped p.geom
  rw [← hgiven.journalBlocks] at hjournal
  have hfree : freeBlocks < 2 ^ 48 := by
    have hmul := Nat.mul_le_mul hsound.computed.groupCount_lt.le hranged.blocksPerGroup.le
    have hpos : 0 < p.geom.blocksPerGroup := hsound.computed.blocksPerGroup_pos
    have hlt := Nat.mul_lt_mul_of_lt_of_le hsound.computed.groupCount_lt
      hranged.blocksPerGroup.le (by decide)
    omega
  have hfreeInodes : freeInodes < 2 ^ 32 := by
    have := hranged.inodes
    have := hranged.inodesCount
    omega
  have hinodesPer : p.geom.inodesPerGroup < 2 ^ 32 := by
    have hone := Nat.mul_le_mul_right p.geom.inodesPerGroup hsound.computed.groupCount_pos
    have := hranged.inodes
    have := hranged.inodesCount
    omega
  have hmmp : p.mmpBlock.getD 0 < 2 ^ 54 := by
    cases hblock : p.mmpBlock with
    | none => decide
    | some b =>
      exact Nat.lt_trans (hsound.laid.free b (hsound.laid.mmpBlock b hblock)).2 hranged.blocksCount
  have horphan : p.orphanInode.getD 0 ≤ 12 := by
    cases hinum : p.orphanInode with
    | none => decide
    | some inum => exact Nat.le_of_eq (hsound.orphanInode inum hinum)
  have hinterval : p.mmpUpdateInterval ≤ 300 :=
    Nat.le_trans hgiven.mmpUpdateInterval (Nat.min_le_right _ _)
  have hresuid := htyped.resuid
  have hresgid := htyped.resgid
  have h1 := hranged.firstDataBlock
  have h2 := hranged.logBlockSize
  have h3 := hranged.blocksPerGroup
  have h4 := hranged.blocksCount
  have h5 := hranged.rBlocksCount
  have h6 := hranged.inodesCount
  have h7 := hranged.inodeSize
  have h8 := hranged.reservedGdtBlocks
  have h9 := hranged.descSize
  have h10 := hranged.firstMetaBg
  have h11 := hranged.logGroupsPerFlex
  rw [← hgiven.resuid] at hresuid
  rw [← hgiven.resgid] at hresgid
  have hseed := p.csumSeed.toNat_lt
  have hfirst : goodOldFirstIno = 11 := rfl
  have hopts : defaultMntopts < 2 ^ 32 := by decide
  refine ⟨?_, ?_, ?_, ?_, ?_, ?_, ?_, ?_, rfl, ?_⟩
  · simp only [Superblock.inTime, buildSuperblock, List.forall_mem_cons]
    and_intros <;> first | omega | (split <;> decide) | exact fun v hv => absurd hv List.not_mem_nil
  · simp only [Superblock.inTime, buildSuperblock, List.forall_mem_cons, State.validFs]
    and_intros <;> first | omega | (split <;> omega) | exact fun v hv => absurd hv List.not_mem_nil
  · simp only [Superblock.inTime, buildSuperblock, List.forall_mem_cons]
    and_intros <;> first | omega | (split <;> omega) | (split <;> decide) |
      exact fun v hv => absurd hv List.not_mem_nil
  · simp only [Superblock.inTime, buildSuperblock, List.forall_mem_cons]
    and_intros <;> first | omega | exact fun v hv => absurd hv List.not_mem_nil
  · show -2 ^ 15 ≤ (-1 : Int) ∧ (-1 : Int) < 2 ^ 15
    decide
  · have hlabel : (p.label.take 16 ++ List.replicate (16 - p.label.length) 0).length = 16 := by
      rw [List.length_append, List.length_take, List.length_replicate]
      omega
    simp only [Superblock.inTime, buildSuperblock, List.forall_mem_cons]
    exact ⟨hlen, hlabel, rfl, rfl, rfl, rfl, rfl, rfl, rfl, fun v hv => absurd hv List.not_mem_nil⟩
  · show p.hashSeed.length = 4
    rw [hgiven.hashSeed]
    simp [getU32s]
  · show p.jnlBlocksBackup.length = 17
    unfold Plan.jnlBlocksBackup
    split
    · rfl
    · simp [getU32s]
  · intro v hv
    simp only [Superblock.inTime, buildSuperblock, List.mem_append] at hv
    rcases hv with (hv | hv) | hv
    · rw [hgiven.hashSeed] at hv
      exact Superblock.mem_getU32s_lt hv
    · unfold Plan.jnlBlocksBackup at hv
      split at hv
      · rw [List.eq_of_mem_replicate hv]
        decide
      · rcases List.mem_append.mp hv with hv | hv
        · exact Superblock.mem_getU32s_lt hv
        · have hmul := Nat.mul_le_mul hjournal.le hranged.blockSize
          simp only [List.mem_cons, List.not_mem_nil, or_false] at hv
          omega
    · simp only [List.mem_cons, List.not_mem_nil, or_false] at hv
      omega

/-! ## The primary superblock stands -/

/-- The superblock a format ends with. -/
def finalSuperblock (plan : Plan) : Superblock :=
  buildSuperblock plan (tableFree plan).1 (tableFree plan).2

section Primary

variable {plan : Plan} (h : plan.Sound)

include h

theorem Plan.Sound.free_of_writeContents {chunkBlocks : Nat} {schedule : Nat → List Nat}
    {free : Nat × Nat} (hfree : (writeContents plan chunkBlocks schedule).result = .ok free) :
    free = tableFree plan := by
  obtain ⟨_, -, hrest, -⟩ := bind_ok hfree
  obtain ⟨free', htable, hrest, -⟩ := bind_ok hrest
  obtain ⟨_, -, hrest, -⟩ := bind_ok hrest
  obtain rfl := Except.ok.inj hrest
  exact (h.writeTable_ok htable).1

theorem Plan.Sound.report_free {chunkBlocks : Nat} {schedule : Nat → List Nat} {report : Report}
    (hreport : (writeFilesystemChunked plan chunkBlocks schedule).result = .ok report) :
    (report.freeBlocksCount, report.freeInodesCount) = tableFree plan := by
  obtain ⟨free, hfree, hrest, -⟩ := bind_ok hreport
  obtain ⟨_, -, hrest, -⟩ := bind_ok hrest
  obtain rfl := Except.ok.inj hrest
  exact h.free_of_writeContents hfree

/-- Nothing is written over the primary superblock. -/
theorem Plan.Sound.leaves_primary (chunkBlocks : Nat) (schedule : Nat → List Nat) :
    Leaves plan.geom.blockSize
      (primarySuperblockBlock (finalSuperblock plan).encode plan.geom.blockSize).1
      (· = (primarySuperblockBlock (finalSuperblock plan).encode plan.geom.blockSize).2)
      (writeFilesystemChunked plan chunkBlocks schedule) := by
  obtain ⟨hlen, hblock⟩ := primarySuperblockBlock_spec (finalSuperblock plan) plan.geom.blockSize
  refine leaves_last fun free hfree => ?_
  obtain rfl := h.free_of_writeContents hfree
  refine leaves_first h.blockSize_pos ?_ fun _ _ => issues_pure _
  refine leaves_first h.blockSize_pos (leaves_writeBlock hlen rfl) fun _ _ => ?_
  refine issues_then (issues_forM fun g hg => ?_) (issues_emit fun span hspan => by cases hspan)
  refine skips_writeBlock ((length_splice _ _ _).trans (List.length_replicate ..)) ?_
  have hpos : 0 < g := by
    have hne := (Bool.and_eq_true_iff.mp (List.mem_filter.mp hg).2).1
    exact Nat.pos_of_ne_zero (of_decide_eq_true hne)
  have hlt := Geometry.firstDataBlock_lt_groupFirstBlock h.computed.blocksPerGroup_pos hpos
  have hfirst := h.firstDataBlock
  rcases hblock with hzero | ⟨hone, hb⟩
  · omega
  · have hword : superblockOffset = 1024 := rfl
    rw [if_pos (hb.trans hword)] at hfirst
    omega

/-- The superblock's bytes in the block it is written in. -/
theorem Plan.Sound.window_primary {bytes : Nat → UInt8}
    (hread : Lib.Store.window bytes
      ((primarySuperblockBlock (finalSuperblock plan).encode plan.geom.blockSize).1 *
        plan.geom.blockSize) plan.geom.blockSize =
      (primarySuperblockBlock (finalSuperblock plan).encode plan.geom.blockSize).2) :
    Lib.Store.window bytes superblockOffset superblockLen = (finalSuperblock plan).encode := by
  have hlen : (finalSuperblock plan).encode.length = superblockLen :=
    (Superblock.length_encodeInto _ _).trans (List.length_replicate ..)
  unfold primarySuperblockBlock at hread
  split at hread
  · next hb =>
    rw [hb, Nat.one_mul] at hread
    exact hread
  · next hb =>
    obtain ⟨k, hk, hlow, -⟩ := h.blockSize
    have hge : 2048 ≤ plan.geom.blockSize := by
      have hne : k ≠ 10 := by
        rintro rfl
        exact hb hk
      rw [hk]
      exact (show 2048 ≤ 2 ^ 11 by decide).trans (Nat.pow_le_pow_right Nat.two_pos (by omega))
    have hroom : superblockOffset + superblockLen ≤ plan.geom.blockSize := hge
    have hslice := congrArg (slice · superblockOffset superblockLen) hread
    dsimp only at hslice
    rw [slice_window _ hroom, Nat.zero_mul, Nat.zero_add,
      slice_splice hlen (by rwa [List.length_replicate])] at hslice
    exact hslice

end Primary

/-! ## The device opens -/

/-- The block size is no less than a sector. -/
theorem sector_le_blockSize {dev : Device} {params : Params} {geom : Geometry}
    (h : compute dev.size (onDevice params dev) = .ok geom) :
    dev.logicalSectorSize ≤ geom.blockSize := by
  obtain ⟨req, start, descSize, s, grp, hreq, hfrom⟩ := compute_from h
  obtain ⟨descSize', hmade, hfin⟩ := hfrom.made
  rw [hfin.blockSize]
  obtain ⟨features, -, hrest⟩ := Lib.Hoare.bind_ok hreq
  obtain ⟨blockSize, hchoose, hrest⟩ := Lib.Hoare.bind_ok hrest
  obtain ⟨_, -, hrest⟩ := Lib.Hoare.bind_ok hrest
  obtain ⟨_, -, hrest⟩ := Lib.Hoare.bind_ok hrest
  obtain ⟨_, -, hrest⟩ := Lib.Hoare.bind_ok hrest
  obtain ⟨inodes, -, hrest⟩ := Lib.Hoare.bind_ok hrest
  cases hrest
  show dev.logicalSectorSize ≤ blockSize
  unfold chooseBlockSize at hchoose
  dsimp only [onDevice, Option.getD_some] at hchoose
  split at hchoose
  · obtain ⟨_, hrefuse, hrest⟩ := Lib.Hoare.bind_ok hchoose
    obtain rfl := Except.ok.inj hrest
    have := refuse_ok hrefuse
    omega
  · obtain rfl := Except.ok.inj hchoose
    omega

/-- A device that a format was written to opens, with the superblock of the plan. -/
theorem opens_of_written {dev dev' : Device} {params : Params} {ambient : Ambient} {p : Plan}
    {chunkBlocks : Nat} {schedule : Nat → List Nat} {report : Report} (htyped : params.Typed)
    (huuid : ambient.uuid.length = 16) (hsector : dev.logicalSectorSize < 2 ^ 32)
    (hsize : dev.size < 2 ^ 64)
    (hplan : plan dev.size (onDevice params dev) ambient = .ok p)
    (hrun : writePlan p chunkBlocks schedule dev = (.ok report, dev')) :
    ∃ fs checksum, openOn dev' = .ok fs ∧ Mounts p dev' fs ∧
      fs.superblock = { (finalSuperblock p).inTime with checksum } := by
  have htyped := onDevice_typed htyped hsector
  have hsound := plan_sound htyped hplan
  obtain ⟨hgeom, -⟩ := plan_made hplan
  obtain ⟨req, start, descSize, s, grp, -, hfrom⟩ := compute_from hgeom
  obtain ⟨-, hdev⟩ := device_of_writePlan hrun
  have hsame : dev'.size = dev.size := size_of_writePlan hrun
  have hlogical : dev'.logicalSectorSize = dev.logicalSectorSize := by
    rw [hdev]
    rfl
  -- The superblock is where it is looked for.
  obtain ⟨-, hstands⟩ := Leaves.of_writePlan hrun (hsound.leaves_primary chunkBlocks schedule)
  have hwindow := hsound.window_primary hstands
  obtain ⟨hle, hle'⟩ := tableFree_le p
  obtain ⟨checksum, hdecode⟩ := Superblock.decode_encodeInto
    (buildSuperblock_typed htyped huuid hsize hplan hle hle') (Nat.le_refl 1)
    (Superblock.timely_inTime _)
    (show (List.replicate superblockLen (0 : UInt8)).length = superblockLen from
      List.length_replicate ..)
  rw [Superblock.encodeInto_inTime] at hdecode
  -- The rest is read as the superblock says.
  have hcovers : p.geom.blocksCount * p.geom.blockSize ≤ dev'.size := by
    rw [hsame]
    exact hfrom.blocks_le
  obtain ⟨fs, hfs⟩ := @opens_of_plan _ _ _ p htyped hplan dev' hcovers (by rwa [hsame])
    (tableFree p).1 (tableFree p).2
  have hmounts := mounts_of_superblock hplan hfs
  have hfs' := withSuperblock_inTime hfs checksum
  obtain ⟨_, -, hrest⟩ := Lib.Hoare.bind_ok hfs
  obtain ⟨descs, -, hrest⟩ := Lib.Hoare.bind_ok hrest
  obtain rfl := Except.ok.inj hrest
  have hroom : superblockOffset + superblockLen + dev'.logicalSectorSize ≤ dev'.size := by
    have hle := sector_le_blockSize hgeom
    have hfront := hsound.front_two hsound.computed.groupCount_pos
    rw [Geometry.groupFirstBlock_zero, hsound.firstDataBlock] at hfront
    have hword : superblockOffset + superblockLen = 2048 := rfl
    rw [hlogical, hword]
    obtain ⟨k, hk, hlow, -⟩ := hsound.blockSize
    have hmul := Nat.mul_le_mul_right p.geom.blockSize hfront
    split at hmul
    · next hb =>
      rw [hb] at hmul hle hcovers
      omega
    · next hb =>
      have hne : k ≠ 10 := by
        rintro rfl
        exact hb hk
      have hge : 2 ^ 11 ≤ p.geom.blockSize := hk ▸ Nat.pow_le_pow_right Nat.two_pos (by omega)
      omega
  exact ⟨_, checksum, (openOn_of_decode hroom (by rw [hwindow]; exact hdecode)).trans hfs',
    ⟨hmounts.device, hmounts.blockSize, hmounts.blocksCount, hmounts.csumScheme, hmounts.csumSeed⟩,
    rfl⟩

/-- A device that a format was written to opens, with the superblock of the plan and the free blocks
and inodes that the format reported, its times cut to the 40 bits they are stored in. -/
theorem opens_as_built {dev dev' : Device} {params : Params} {ambient : Ambient} {p : Plan}
    {chunkBlocks : Nat} {schedule : Nat → List Nat} {report : Report} (htyped : params.Typed)
    (huuid : ambient.uuid.length = 16) (hsector : dev.logicalSectorSize < 2 ^ 32)
    (hsize : dev.size < 2 ^ 64)
    (hplan : plan dev.size (onDevice params dev) ambient = .ok p)
    (hrun : writePlan p chunkBlocks schedule dev = (.ok report, dev')) :
    ∃ fs checksum, openOn dev' = .ok fs ∧ Mounts p dev' fs ∧ fs.superblock =
      { (buildSuperblock p report.freeBlocksCount report.freeInodesCount).inTime with checksum } := by
  obtain ⟨fs, checksum, hopen, hmounts, hsb⟩ :=
    opens_of_written htyped huuid hsector hsize hplan hrun
  have hfree := (plan_sound (onDevice_typed htyped hsector) hplan).report_free
    (device_of_writePlan hrun).1
  have hcounts : finalSuperblock p =
      buildSuperblock p report.freeBlocksCount report.freeInodesCount := by
    rw [finalSuperblock, ← hfree]
  exact ⟨fs, checksum, hopen, hmounts, hcounts ▸ hsb⟩

/-- Before the year 36812 nothing is cut. -/
theorem inTime_buildSuperblock {p : Plan} (htime : p.mkfsTime < 2 ^ 40) (freeBlocks freeInodes : Nat) :
    (buildSuperblock p freeBlocks freeInodes).inTime = buildSuperblock p freeBlocks freeInodes := by
  refine Superblock.inTime_of_timely ?_
  unfold Superblock.Timely
  simp only [buildSuperblock, List.forall_mem_cons]
  and_intros <;> first | omega | exact fun v hv => absurd hv List.not_mem_nil

/-- The filesystem of several groups opens, with the free blocks of the report. -/
theorem several_opens : ∃ p report dev' fs checksum,
    writePlan p gdtChunkBlocks (fun _ => []) severalDevice = (.ok report, dev') ∧
    openOn dev' = .ok fs ∧ fs.superblock =
      { buildSuperblock p report.freeBlocksCount report.freeInodesCount with checksum } := by
  obtain ⟨p, report, dev', hplan, -, hrun⟩ := several_written
  have htime : p.mkfsTime < 2 ^ 40 := by
    rw [(plan_given hplan).mkfsTime]
    decide
  obtain ⟨fs, checksum, hopen, -, hsb⟩ := opens_as_built severalParams_typed (by decide)
    (by decide) (by decide) hplan hrun
  rw [inTime_buildSuperblock htime] at hsb
  exact ⟨p, report, dev', fs, checksum, hrun, hopen, hsb⟩

end Format

end MkfsExt4
