/-
  Where the descriptors of a formatted image are (`write_filesystem_chunked` of `src/format.rs` and
  `group_has_desc` to `super_overhead` of `src/layout.rs`, against `read_group_descs` and the rules
  of the same names in `src/fs.rs`).

  The rules are written twice, for the geometry and for the superblock that is read, and say the
  same of every group. The table is read as it was built where each part is found: under `meta_bg`
  the reader looks for part `k` in group `k * desc_per_block`, whatever `first_meta_bg` is, while
  the groups before `first_meta_bg` have the whole table behind their superblocks. On an image with
  two parts before `first_meta_bg`, the second is taken from a block bitmap.
-/
import MkfsExt4.Format.Described

namespace MkfsExt4.Format

open Lib.Store Lib.Endian Lib.Trace Layout Filesystem

/-! ## The rules -/

/-- An opened filesystem has its superblocks and descriptors where the geometry has them. -/
structure SameLayout (geom : Geometry) (fs : Filesystem) : Prop where
  groupCount : fs.groupCount = geom.groupCount
  hasSuper : ∀ g, fs.groupHasSuper g = geom.hasSuper g
  hasDesc : ∀ g, fs.groupHasDesc g = geom.groupHasDesc g
  descBlocks : ∀ g, fs.descBlocksInGroup g = geom.descBlocksInGroup g
  overhead : ∀ g, fs.superOverhead g = geom.superOverhead g

/-- An opened filesystem has the descriptors that the groups of a plan were built with. -/
def DescsAgree (plan : Plan) (fs : Filesystem) : Prop :=
  fs.groupDescs.length = plan.geom.groupCount ∧ ∀ g < plan.geom.groupCount, ∃ state,
    buildGroup plan g = .ok state ∧ fs.groupDescs[g]? = some (plan.storedDesc g state)

section Agree

variable {plan : Plan} {chunkBlocks : Nat} {schedule : Nat → List Nat} {dev dev' : Device}
  {report : Report} {fs : Filesystem} (h : Image plan chunkBlocks schedule dev report dev' fs)

include h

/-- A group keeps the whole table by one rule as by the other. -/
theorem Image.keeps_eq (g : Nat) :
    (!fs.metaBg || decide (g / fs.descPerBlock < fs.superblock.firstMetaBg)) =
      (!plan.geom.metaBg || decide (plan.geom.metaBgOf g < plan.geom.firstMetaBg)) := by
  obtain ⟨checksum, hsb⟩ := h.superblock
  have hfirst : fs.superblock.firstMetaBg = plan.geom.firstMetaBg := by
    rw [hsb]
    rfl
  rw [h.metaBg, Filesystem.descPerBlock, h.descPerBlock, hfirst]
  rfl

theorem Image.hasDesc_eq (g : Nat) : fs.groupHasDesc g = plan.geom.groupHasDesc g := by
  obtain ⟨-, -, -, -, hsuper⟩ := h.geometry
  unfold Filesystem.groupHasDesc Geometry.groupHasDesc
  rw [h.keeps_eq, Filesystem.groupHasSuper, hsuper, Filesystem.descPerBlock, h.descPerBlock]
  rfl

theorem Image.descBlocks_eq (g : Nat) :
    fs.descBlocksInGroup g = plan.geom.descBlocksInGroup g := by
  obtain ⟨checksum, hsb⟩ := h.superblock
  have hreserved : fs.superblock.reservedGdtBlocks = plan.geom.reservedGdtBlocks := by
    rw [hsb]
    rfl
  unfold Filesystem.descBlocksInGroup Geometry.descBlocksInGroup
  rw [h.hasDesc_eq, h.keeps_eq, h.gdtBlocks, hreserved]

theorem Image.sameLayout : SameLayout plan.geom fs := by
  obtain ⟨-, -, -, -, hsuper⟩ := h.geometry
  refine ⟨h.groupCount, hsuper, h.hasDesc_eq, h.descBlocks_eq, fun g => ?_⟩
  rw [Filesystem.superOverhead, h.descBlocks_eq, Filesystem.groupHasSuper, hsuper,
    Geometry.superOverhead]

theorem Image.descsAgree (hfound : plan.TableFound)
    (hlast : plan.PartsLast (max chunkBlocks 1)) : DescsAgree plan fs := by
  refine ⟨(openOn_opened h.opened).length_groupDescs.trans h.groupCount, fun g hg => ?_⟩
  obtain ⟨state, hstate⟩ := h.built hg
  exact ⟨state, hstate, h.desc_stored hfound hlast hg hstate⟩

/-- Without checksums every block bitmap is written, and stands. -/
theorem Image.blockBitmap_stands (hapart : plan.RunsApart) (hin : plan.geom.MetadataContained)
    (hnone : plan.csumScheme = .none) {g : Nat} {lay : GroupLayout} {state : GroupState}
    (hlay : plan.geom.group g = .ok lay) (hstate : buildGroup plan g = .ok state) :
    Lib.Store.window dev'.bytes (lay.blockBitmap * plan.geom.blockSize) plan.geom.blockSize =
      state.blockBitmap := by
  obtain ⟨⟨ops, desc⟩, hwrite⟩ := writeGroup_of_build hstate
  obtain ⟨state', lay', hstate', hlay', -, hops⟩ := writeGroup_ok hwrite
  obtain rfl := Except.ok.inj (hstate.symm.trans hstate')
  obtain rfl := Except.ok.inj (hlay.symm.trans hlay')
  obtain ⟨-, hlen, -⟩ := buildGroup_ok hstate
  have hwritten : ¬state.desc.blockUninit = true := by
    obtain ⟨_, _, -, -, -, -, -, hflags⟩ := buildGroup_state hstate
    rw [GroupDesc.blockUninit, hflags, groupFlags_none hnone _ List.mem_cons_self]
    decide
  refine (Leaves.of_writePlan h.written (h.leaves_bitmap hapart hin hlay (p := .blockBitmap) rfl
    (fun heq => by cases heq) hwrite hlen ?_)).2
  rw [hops, if_neg hwritten]
  exact List.mem_append_left _ (List.mem_append_left _ List.mem_cons_self)

end Agree

/-- A formatted device opens with the layout of the geometry, and with the descriptors the formatter
built, if the reader asks for each part of the table where it was put, and no copy of the table
goes over it later. -/
theorem descs_agree {dev dev' : Device} {params : Params} {ambient : Ambient} {p : Plan}
    {chunkBlocks : Nat} {schedule : Nat → List Nat} {report : Report} (htyped : params.Typed)
    (huuid : ambient.uuid.length = 16) (hsector : dev.logicalSectorSize < 2 ^ 32)
    (hsize : dev.size < 2 ^ 64)
    (hplan : plan dev.size (onDevice params dev) ambient = .ok p)
    (hrun : writePlan p chunkBlocks schedule dev = (.ok report, dev')) :
    ∃ fs, openOn dev' = .ok fs ∧ SameLayout p.geom fs ∧
      (p.TableFound → p.PartsLast (max chunkBlocks 1) → DescsAgree p fs) := by
  obtain ⟨fs, h⟩ := image_of_plan htyped huuid hsector hsize hplan hrun
  exact ⟨fs, h.opened, h.sameLayout, h.descsAgree⟩

/-! ## A table in two parts -/

/-- 24 groups of 256 one-kilobyte blocks, 16 of them to a meta block group, without checksums. -/
def partedParams (first : Nat) : Params :=
  { blockSize := some 1024, blocksPerGroup := some 256, flexBgSize := some 1,
    inodesCount := some 384, inodeSize := some 128, firstMetaBg := some first, journal := .none,
    featureSpec := some "meta_bg,^metadata_csum" }

theorem partedParams_typed {first : Nat} (h : first < 2 ^ 32) : (partedParams first).Typed :=
  { Params.typed_default with
    blockSize := fun n hn => by cases hn; decide
    blocksPerGroup := fun n hn => by cases hn; decide
    flexBgSize := fun n hn => by cases hn; decide
    inodesCount := fun n hn => by cases hn; decide
    inodeSize := fun n hn => by cases hn; decide
    firstMetaBg := fun n hn => by cases hn; exact h
    journal := fun n hn => nomatch hn }

def partedDevice : Device := .ofChunks (6145 * 1024) []

def parted (first : Nat) : Geometry where
  blockSize := 1024
  logBlockSize := 0
  blocksCount := 6145
  firstDataBlock := 1
  blocksPerGroup := 256
  rBlocksCount := 307
  inodesCount := 384
  inodesPerGroup := 16
  inodeSize := 128
  itableBlocksPerGroup := 2
  groupCount := 24
  descSize := 64
  descBlocks := 2
  reservedGdtBlocks := 0
  logGroupsPerFlex := 0
  metaBg := true
  firstMetaBg := first
  features := { compat := 0x28, incompat := 0x2d2, roCompat := 0x6b }

theorem parted_answers : ∀ first ∈ [1, 2],
    compute partedDevice.size (onDevice (partedParams first) partedDevice) = .ok (parted first) ∧
    partsMade partedDevice.size (onDevice (partedParams first) partedDevice) {} = true ∧
    (∀ copy ∈ classicCopies (parted first), copy + 2 ≤ 6145) ∧
    (∀ g < 24, (parted first).superOverhead g ≤ 3) ∧
    ((parted 2).group 16).map (fun lay => (lay.blockBitmap, lay.inodeBitmap)) =
      .ok (4097, 4098) := by
  decide +kernel

section Parted

variable {first : Nat} (h : first ∈ [1, 2])

include h

theorem parted_hasRoom {g : Nat} (hg : g < 24) : (parted first).HasRoom g := by
  have hfront := (parted_answers first h).2.2.2.1 g hg
  refine hasRoom_of_front (show 24 < 2 ^ 32 by decide) hg rfl ?_ ?_
  · show (parted first).superOverhead g + 4 ≤ 256
    omega
  · show 1 + g * 256 + 256 ≤ 6145
    omega

theorem parted_spacious : Spacious (parted first) := by
  refine ⟨show 6145 ≤ 1 + 24 * 256 by decide, fun g hg => ?_, fun g hg => ?_⟩
  · have hnext : g + 1 < 24 := hg
    exact @parted_hasRoom _ h g (by omega)
  · exact Nat.le_trans ((parted_answers first h).2.2.2.1 g hg) (show 3 ≤ 256 by decide)

theorem parted_image : ∃ p report dev' fs,
    Format.plan partedDevice.size (onDevice (partedParams first) partedDevice) {} = .ok p ∧
      p.geom = parted first ∧
      Image p gdtChunkBlocks (fun _ => []) partedDevice report dev' fs := by
  have hlt : first < 2 ^ 32 := by
    have : ∀ n ∈ [1, 2], n < 2 ^ 32 := by decide
    exact this first h
  have htyped := partedParams_typed hlt
  obtain ⟨hcompute, hmade, hends, -⟩ := parted_answers first h
  obtain ⟨p, report, dev', hplan, hgeom, hrun⟩ := runs_of_geometry
    (onDevice_typed htyped (by decide)) hcompute hmade hends
    (show 6145 * 1024 ≤ partedDevice.size by decide) (show 256 ≤ 8 * 1024 by decide)
    (show 16 ≤ 8 * 1024 by decide)
    fun _ hg => placeFlex_of_room (show 0 < 2 by decide) (parted_hasRoom h hg)
  obtain ⟨fs, himage⟩ := image_of_plan htyped (by decide) (by decide) (by decide) hplan hrun
  exact ⟨p, report, dev', fs, hplan, hgeom, himage⟩

end Parted

/-- With one part before `first_meta_bg` both parts are found. -/
theorem parted_agree : ∃ p report dev' fs, p.geom = parted 1 ∧
    writePlan p gdtChunkBlocks (fun _ => []) partedDevice = (.ok report, dev') ∧
    openOn dev' = .ok fs ∧ SameLayout (parted 1) fs ∧ DescsAgree p fs := by
  have hin : 1 ∈ [1, 2] := by decide
  obtain ⟨p, report, dev', fs', hplan, hgeom, h⟩ := parted_image hin
  obtain ⟨fs, hopen, hlayout, hagree⟩ := descs_agree (partedParams_typed (by decide)) (by decide)
    (by decide) (by decide) hplan h.written
  have hfound : p.TableFound := fun _ => Or.inl (by rw [hgeom]; decide)
  have hapart := h.sound.runsApart (by rw [hgeom]; exact parted_spacious hin)
  exact ⟨p, report, dev', fs, hgeom, h.written, hopen, hgeom ▸ hlayout,
    hagree hfound (h.sound.partsLast hapart _)⟩

/-- A descriptor begins with the low byte of its block bitmap's number. -/
theorem decode_first (buf : List UInt8) (descSize : Nat) :
    (GroupDesc.decode buf descSize).blockBitmap % 256 = (buf.getD 0 0).toNat := by
  have hlow : getU32 buf 0 % 256 = (buf.getD 0 0).toNat := by
    unfold getU32
    cases buf with
    | nil => rfl
    | cons b rest =>
      show (b.toNat + 256 * ofLe (rest.take 3)) % 256 = b.toNat
      have := b.toNat_lt
      omega
  unfold GroupDesc.decode join
  dsimp only
  omega

/-- With both before it, group 16's descriptor is taken from its block bitmap, which stands where
the reader looks for the second part. -/
theorem parted_disagree : ∃ p report dev' fs,
    Format.plan partedDevice.size (onDevice (partedParams 2) partedDevice) {} = .ok p ∧
      writePlan p gdtChunkBlocks (fun _ => []) partedDevice = (.ok report, dev') ∧
      openOn dev' = .ok fs ∧ ¬DescsAgree p fs := by
  have hin : 2 ∈ [1, 2] := by decide
  obtain ⟨p, report, dev', fs, hplan, hgeom, h⟩ := parted_image hin
  refine ⟨p, report, dev', fs, hplan, h.written, h.opened, fun hagree => ?_⟩
  have hspacious : Spacious p.geom := by
    rw [hgeom]
    exact parted_spacious hin
  have hcontained := hspacious.contained h.sound.computed
  have hg : 16 < p.geom.groupCount := by
    rw [hgeom]
    decide
  obtain ⟨state, hstate, hget⟩ := hagree.2 16 hg
  obtain ⟨⟨lay, hlay, hblock, -⟩, -⟩ := buildGroup_ok hstate
  have hplaces : (lay.blockBitmap, lay.inodeBitmap) = (4097, 4098) := by
    have hanswer := (parted_answers 2 hin).2.2.2.2
    rw [← hgeom, hlay] at hanswer
    exact Except.ok.inj hanswer
  obtain ⟨hb, hi⟩ := Prod.mk.inj hplaces
  have hnone : p.csumScheme = .none := by
    obtain ⟨geom, -, -, hfor⟩ := plan_ok hplan
    rw [hfor.csumScheme, ← hfor.geom, hgeom]
    decide
  have hstands := h.blockBitmap_stands (h.sound.runsApart hspacious) hcontained hnone hlay hstate
  -- The first byte of what is read as the descriptor is the bitmap's.
  have hfirst : (fs.descOnDisk 16).getD 0 0 = state.blockBitmap.getD 0 0 := by
    have hroom := h.table_room
    have hpart : p.partBlock 1 = 4097 := by
      rw [Plan.partBlock, hgeom]
      decide
    rw [hgeom] at hroom
    rw [descOnDisk, h.descSize, hgeom, getD_slice _ _ _ _ _ (by decide), h.getD_tableBytes (by
      rw [hgeom]
      exact Nat.lt_of_lt_of_le (by decide) hroom), h.tableBlock_eq, hgeom]
    show (Lib.Store.window dev'.bytes (p.partBlock 1 * 1024) 1024).getD 0 0 = _
    rw [hpart, ← hstands, hb, hgeom]
    rfl
  have hbyte : (state.blockBitmap.getD 0 0).toNat = 1 := by
    have hread := (openOn_opened h.opened).groupDescs_get (show 16 < fs.groupCount by
      rw [Filesystem.groupCount, h.groupCount]
      exact hg)
    have hsame := Option.some.inj (hread.symm.trans hget)
    rw [← hfirst, ← decode_first _ fs.superblock.descSize, hsame]
    show (state.desc.kept p.geom.descSize).blockBitmap % 256 = 1
    rw [(state.desc.kept_fields _).1, hblock, hb]
  -- But there the bit of the inode bitmap is set.
  have hset : Lib.Bitmap.testBit state.blockBitmap 1 = true := by
    have hbits : p.geom.blocksPerGroup ≤ 8 * p.geom.blockSize := by
      rw [hgeom]
      decide
    refine ((h.sound.blocks_exact_iff hcontained hbits hg hstate).mpr
      (hspacious.covered h.sound.computed 16 hg) 1 (by rw [hgeom]; decide)).mpr ?_
    refine Or.inr (Or.inl ⟨16, lay, .inodeBitmap, hlay, ?_⟩)
    have heq : p.geom.groupFirstBlock 16 + 1 = lay.inodeBitmap := by
      rw [hi, hgeom]
      decide
    rw [heq]
    exact ⟨Nat.le_refl _, Nat.lt_succ_self _⟩
  unfold Lib.Bitmap.testBit at hset
  rw [show 1 / 8 = 0 from rfl, hbyte] at hset
  exact absurd hset (by decide)

end MkfsExt4.Format
