/-
  A formatted image group by group (`write_group` of `src/format.rs` against `read_gdt`,
  `read_block_bitmap` and `read_inode_bitmap` of `src/fs.rs`).

  The groups and the copies of their descriptors go out in any order, and the files and the
  superblocks after them. Where no two runs of metadata share a block and each flex group's is
  its own, nothing of it is written over, so the table reads back descriptor by descriptor and
  the bitmaps bit by bit. Under `meta_bg` the reader asks every meta block group for its part of
  the table, those before `first_meta_bg` as well, which have it only where that part is the
  first.
-/
import MkfsExt4.Format.Bitmaps
import MkfsExt4.Format.Opens
import MkfsExt4.Format.Order
import MkfsExt4.Fs.Backups
import MkfsExt4.Fsck.DescCsum
import MkfsExt4.Layout.Total

namespace MkfsExt4.Format

open Lib.Store Lib.Trace Layout Filesystem

theorem place_split {n : Nat} (b : Nat) {r : Nat} (hr : r < n) :
    (b * n + r) / n = b ∧ (b * n + r) % n = r := by
  rw [Nat.mul_comm, Nat.mul_add_div (Nat.zero_lt_of_lt hr), Nat.div_eq_of_lt hr, Nat.mul_add_mod,
    Nat.mod_eq_of_lt hr]
  exact ⟨Nat.add_zero b, rfl⟩

/-- A block is in one place of one group. -/
theorem place_inj {geom : Geometry} {g g' off off' : Nat} (hoff : off < geom.blocksPerGroup)
    (hoff' : off' < geom.blocksPerGroup)
    (h : geom.groupFirstBlock g + off = geom.groupFirstBlock g' + off') : g = g' ∧ off = off' := by
  unfold Geometry.groupFirstBlock at h
  have hsame : g * geom.blocksPerGroup + off = g' * geom.blocksPerGroup + off' := by omega
  obtain ⟨hg, hr⟩ := place_split g hoff
  obtain ⟨hg', hr'⟩ := place_split g' hoff'
  exact ⟨hg.symm.trans ((congrArg (· / geom.blocksPerGroup) hsame).trans hg'),
    hr.symm.trans ((congrArg (· % geom.blocksPerGroup) hsame).trans hr')⟩

section Beside

variable {plan : Plan} (h : plan.Sound)

include h

/-! ## The files are beside the metadata -/

/-- Nothing is handed out of a bitmap or an inode table. -/
theorem Plan.Sound.runs_beside (hin : plan.geom.MetadataContained) {b : Nat}
    (hb : b ∈ blocksOf plan.runs) : ¬plan.geom.InMetadata b := by
  have hfree := h.free hb
  obtain ⟨hprobe, hlt⟩ := h.laid.free b hb
  have hpos := h.computed.blocksPerGroup_pos
  have hlow : plan.geom.firstDataBlock ≤ b := by
    unfold Geometry.Free Geometry.inSuperRegion at hfree
    split at hfree
    · cases hfree
    · omega
  obtain ⟨j, i, hi, rfl⟩ := Geometry.exists_group hpos hlow
  have hj : (plan.geom.groupFirstBlock j + i - plan.geom.firstDataBlock) /
      plan.geom.blocksPerGroup = j := by
    rw [Geometry.groupFirstBlock, Nat.add_assoc, Nat.add_sub_cancel_left, Nat.mul_comm,
      Nat.mul_add_div hpos, Nat.div_eq_of_lt hi, Nat.add_zero]
  rcases Nat.lt_or_ge j plan.geom.groupCount with hg | hge
  · rw [metadataProbe, if_neg (Bool.eq_false_iff.mp hfree), hj,
      Nat.mod_eq_of_lt (Nat.lt_trans hg h.computed.groupCount_lt)] at hprobe
    dsimp only at hprobe
    cases hruns : plan.geom.flexMetadataRuns j with
    | error e =>
      rw [hruns] at hprobe
      cases hprobe
    | ok runs =>
      rw [hruns] at hprobe
      rw [inMetadata_iff h.computed.itable_pos hin hg hruns hi]
      rintro ⟨r, hr, hwithin⟩
      have hclear := List.any_eq_false.mp hprobe r hr
      simp only [Bool.and_eq_true, decide_eq_true_eq] at hclear
      exact hclear hwithin
  · -- Past the counted groups there is no metadata.
    rintro ⟨g, lay, p, hlay, hwithin⟩
    have hg := (Geometry.group_ok hlay).1
    obtain ⟨lay', hlay', hparts⟩ := hin g hg
    obtain rfl := Except.ok.inj (hlay.symm.trans hlay')
    have hend := (hparts p _ hwithin).2
    have hfirst := plan.geom.flexFirstGroup_le g
    have hmembers := (Geometry.flexMembers_le (Nat.lt_of_le_of_lt hfirst hg)).2.1
    have := plan.geom.groupFirstBlock_mono (Nat.le_trans hmembers hge)
    omega

end Beside

/-! ## What the table leaves -/

section Table

variable {plan : Plan} {journal orphan : List Nat} (h : plan.Sound)
  (ho : plan.Ordered journal orphan)

include h

/-- Where the table puts one thing only at every place of a block, it leaves the block with that. -/
theorem Plan.Sound.leaves_writeTable {block : Nat} {want : List UInt8}
    (hlen : want.length = plan.geom.blockSize) (hwant : ∀ r < plan.geom.blockSize,
      TablePuts plan (block * plan.geom.blockSize + r) (want.getD r 0))
    (hone : ∀ r < plan.geom.blockSize, ∀ v,
      TablePuts plan (block * plan.geom.blockSize + r) v → v = want.getD r 0) (chunkBlocks : Nat)
    (schedule : Nat → List Nat) :
    Leaves plan.geom.blockSize block (· = want) (writeTable plan chunkBlocks schedule) := by
  intro free hfree bytes
  refine ext_getD 0 ((length_window _ _ _).trans hlen.symm) fun r hr => ?_
  have hr : r < plan.geom.blockSize := by rwa [blockAfter, length_window] at hr
  rw [blockAfter, getD_window _ _ _ _ _ hr]
  have hputs := hwant r hr
  rcases lastPut_cases (writeTable plan chunkBlocks schedule).trace
    (block * plan.geom.blockSize + r) (bytes (block * plan.geom.blockSize + r)) with
    hput | ⟨hnone, -⟩
  · exact hone r hr _ ((h.puts_writeTable hfree).mp hput)
  · exact absurd ((h.puts_writeTable hfree).mpr hputs) (hnone _)

/-- What the table leaves in a block that the files and the superblocks skip stays there. -/
theorem Plan.Sound.leaves_of_table {block : Nat} {Q : List UInt8 → Prop} {chunkBlocks : Nat}
    {schedule : Nat → List Nat} (hfront : ∀ g < plan.geom.groupCount, plan.geom.hasSuper g = true →
      block ≠ plan.geom.groupFirstBlock g)
    (hfiles : Skips plan.geom.blockSize block (writeFiles plan))
    (htable : Leaves plan.geom.blockSize block Q (writeTable plan chunkBlocks schedule)) :
    Leaves plan.geom.blockSize block Q (writeFilesystemChunked plan chunkBlocks schedule) := by
  refine leaves_first h.blockSize_pos ?_ fun free _ => issues_then
    (skips_writeSuperblocks h.firstDataBlock hfront h.computed.groupCount_pos) (issues_pure _)
  refine leaves_last fun _ _ => leaves_first h.blockSize_pos htable fun _ _ => ?_
  exact issues_then hfiles (issues_pure _)

/-- A block of the descriptors of a group, at offset `off` of its front. -/
structure Plan.AtFront (plan : Plan) (g off block : Nat) : Prop where
  group : g < plan.geom.groupCount
  eq : block = plan.geom.groupFirstBlock g + off
  super : (plan.geom.hasSuper g).toNat ≤ off
  overhead : off < plan.geom.superOverhead g
  inside : off < plan.geom.blocksPerGroup
  count : block < plan.geom.blocksCount
  table : plan.geom.metaBg = false → g = 0 ∧ off < 1 + plan.geom.descBlocks

theorem Plan.Sound.not_free_front {g off block : Nat} (hat : plan.AtFront g off block) :
    ¬plan.geom.Free block := by
  have hfree := Geometry.free_iff h.computed.groupCount_lt hat.group hat.inside
    (hat.eq ▸ hat.count)
  rw [hat.eq, hfree]
  have := hat.overhead
  omega

include ho

/-- A block that is metadata of a group holds in the end what the group put in it. -/
theorem Plan.Sound.leaves_part (hapart : plan.RunsApart) (hin : plan.geom.MetadataContained)
    {g : Nat} {lay : GroupLayout} {p : Part} {block : Nat} {want : List UInt8}
    (hlay : plan.geom.group g = .ok lay) (hwithin : Within (plan.geom.part lay p) block)
    (hne : (g, p) ≠ (0, .inodeTable)) (hlen : want.length = plan.geom.blockSize)
    (hwant : ∀ r < plan.geom.blockSize,
      TablePuts plan (block * plan.geom.blockSize + r) (want.getD r 0)) (chunkBlocks : Nat)
    (schedule : Nat → List Nat) : Leaves plan.geom.blockSize block (· = want)
      (writeFilesystemChunked plan chunkBlocks schedule) := by
  have hfree : plan.geom.Free block :=
    Geometry.part_clear h.computed.itable_pos hlay p block hwithin.1 hwithin.2
  refine h.leaves_of_table (fun g hg hsuper => h.free_ne_front hfree hg hsuper)
    (ho.skips_writeFiles h.laid h.lostFound_pos (fun hb => ?_) ?_
      fun off hoff => h.free_ne_reserved hfree hoff)
    (h.leaves_writeTable hlen hwant (fun r hr v hv => h.puts_one hapart hv (hwant r hr)) chunkBlocks
      schedule)
  · exact h.runs_beside hin hb ⟨g, lay, p, hlay, hwithin⟩
  · -- The first inodes are in another piece of metadata.
    intro hunder
    obtain ⟨lay0, hlay0, hwithin0⟩ := h.within_of_holdsInodes hunder
    exact hapart.parts g lay p 0 lay0 .inodeTable block hlay hlay0 hne hwithin hwithin0

/-- Descriptors at the front of a group stay as the table left them. -/
theorem Plan.Sound.leaves_front {g off block : Nat} (hat : plan.AtFront g off block)
    {Q : List UInt8 → Prop} {chunkBlocks : Nat} {schedule : Nat → List Nat}
    (htable : Leaves plan.geom.blockSize block Q (writeTable plan chunkBlocks schedule)) :
    Leaves plan.geom.blockSize block Q (writeFilesystemChunked plan chunkBlocks schedule) := by
  have hnot := h.not_free_front hat
  have heq := hat.eq
  refine h.leaves_of_table (fun g' hg' hsuper => ?_)
    (ho.skips_writeFiles h.laid h.lostFound_pos (fun hb => hnot (h.free hb))
      (fun hunder => hnot (h.free_of_holdsInodes hunder)) fun off' hoff' => ?_) htable
  · -- A superblock is the first block of its group, before the descriptors.
    rintro hblock
    obtain ⟨rfl, hoff⟩ := place_inj hat.inside (Nat.zero_lt_of_lt hat.inside)
      (heq.symm.trans hblock)
    have hpos := hat.super
    rw [hsuper, Bool.toNat_true] at hpos
    omega
  · have hm : plan.geom.metaBg = false := by
      cases hm : plan.geom.metaBg with
      | false => rfl
      | true =>
        have := (h.computed.distributed hm).1
        omega
    obtain ⟨rfl, hlt⟩ := hat.table hm
    rw [Geometry.groupFirstBlock_zero] at heq
    rw [reservedGdtBlock_eq h.firstDataBlock]
    omega

end Table

/-! ## The image -/

/-- A device that a plan was written to, and the filesystem it opens as. -/
structure Image (plan : Plan) (chunkBlocks : Nat) (schedule : Nat → List Nat) (dev : Device)
    (report : Report) (dev' : Device) (fs : Filesystem) : Prop where
  sound : plan.Sound
  ordered : ∃ journal orphan, plan.Ordered journal orphan
  lostFoundBlocks : plan.lostFoundBlocks =
    min (max (divCeil (16 * 1024) plan.geom.blockSize) 1) 12
  journalBlocks : plan.journalBlocks < 2 ^ 32
  inodeSize : ∃ k, plan.geom.inodeSize = 2 ^ k ∧ 7 ≤ k
  inode_le : plan.geom.inodeSize ≤ plan.geom.blockSize
  inodesCount : plan.geom.groupCount * plan.geom.inodesPerGroup = plan.geom.inodesCount
  blocksPerGroup : plan.geom.blocksPerGroup < 2 ^ 16
  inodesPerGroup : plan.geom.inodesPerGroup < 2 ^ 16
  narrow : plan.geom.descSize = minDescSize ∧ plan.geom.blocksCount < 2 ^ 32 ∨
    descSize64bit ≤ plan.geom.descSize
  covers : plan.geom.blocksCount * plan.geom.blockSize ≤ dev.size
  size : dev.size < 2 ^ 64
  written : writePlan plan chunkBlocks schedule dev = (.ok report, dev')
  opened : openOn dev' = .ok fs
  mounts : Mounts plan dev' fs
  superblock : ∃ checksum, fs.superblock = { (finalSuperblock plan).inTime with checksum }
  metaBg : fs.metaBg = plan.geom.metaBg
  descSize : fs.superblock.descSize = plan.geom.descSize
  groupCount : fs.superblock.groupCount = plan.geom.groupCount
  gdtBlocks : fs.superblock.gdtBlocks = plan.geom.descBlocks

theorem image_of_plan {dev dev' : Device} {params : Params} {ambient : Ambient} {p : Plan}
    {chunkBlocks : Nat} {schedule : Nat → List Nat} {report : Report} (htyped : params.Typed)
    (huuid : ambient.uuid.length = 16) (hsector : dev.logicalSectorSize < 2 ^ 32)
    (hsize : dev.size < 2 ^ 64)
    (hplan : plan dev.size (onDevice params dev) ambient = .ok p)
    (hrun : writePlan p chunkBlocks schedule dev = (.ok report, dev')) :
    ∃ fs, Image p chunkBlocks schedule dev report dev' fs := by
  obtain ⟨fs, checksum, hopen, hmounts, hsb⟩ :=
    opens_of_written htyped huuid hsector hsize hplan hrun
  have htyped := onDevice_typed htyped hsector
  have hsound := plan_sound htyped hplan
  obtain ⟨hgeom, -⟩ := plan_made hplan
  obtain ⟨req, start, descSize, s, grp, -, hfrom⟩ := compute_from hgeom
  obtain ⟨descSize, hmade, hfin⟩ := hfrom.made
  obtain ⟨hcount, hgdt, -⟩ := superblock_reports htyped hfrom rfl report.freeBlocksCount
    report.freeInodesCount
  have hdesc := superblock_descSize hfrom rfl report.freeBlocksCount report.freeInodesCount
  have hranged := ranged_of_compute htyped hsize hgeom
  have hgiven := plan_given hplan
  refine ⟨fs, hsound, plan_ordered hplan, hgiven.lostFoundBlocks, ?_, ?_, ?_, hranged.inodes,
    hranged.blocksPerGroup, ?_, ?_, hfrom.blocks_le, hsize, hrun, hopen, hmounts, ⟨checksum, ?_⟩,
    ?_, ?_, ?_, ?_⟩
  · rw [hgiven.journalBlocks]
    exact journalBlocksFor_lt htyped p.geom
  · rw [hfin.inodeSize]
    exact hmade.inode_pow
  · rw [hfin.inodeSize, hfin.blockSize]
    exact hmade.inode_le
  · rw [hfin.inodesPerGroup]
    exact hmade.table_lt htyped hfrom.settles.count_ne hfrom.settles.table
  · have hbit := hfin.sixtyFour
    rw [hfin.descSize]
    have hdescSize := hmade.descSize
    rcases hfin.blocks_fit with hfit | hwide
    · rcases hmade.descSize_eq with h32 | h64
      · exact Or.inl ⟨h32, hfit⟩
      · exact Or.inr (Nat.le_of_eq h64.symm)
    · rw [hbit] at hwide
      rw [hwide, if_pos rfl] at hdescSize
      exact Or.inr (Nat.le_of_eq hdescSize.symm)
  · exact hsb
  · rw [Filesystem.metaBg, hsb]
    exact hfin.metaBg_bit
  · rw [hsb]
    exact hdesc
  · rw [hsb]
    exact hcount
  · rw [hsb]
    exact hgdt

/-! ## The table -/

/-- The reader asks for each part of the table where the writer put it. -/
def Plan.TableFound (plan : Plan) : Prop :=
  plan.geom.metaBg = true → plan.geom.firstMetaBg ≤ 1 ∨ plan.geom.descBlocks ≤ 1

/-- The block of a meta block group's first group that holds its part of the table. -/
def Plan.partBlock (plan : Plan) (k : Nat) : Nat :=
  plan.geom.groupFirstBlock (k * plan.geom.descPerBlock) +
    (plan.geom.hasSuper (k * plan.geom.descPerBlock)).toNat

/-- No copy of the whole table goes over a part that a meta block group keeps, in a chunk after
that part's. -/
def Plan.PartsLast (plan : Plan) (chunk : Nat) : Prop :=
  plan.geom.metaBg = true → ∀ k < plan.geom.descBlocks, ¬k < plan.geom.firstMetaBg →
    ∀ copy ∈ classicCopies plan.geom, ∀ i < plan.geom.descBlocks,
      copy + i = plan.partBlock k → i / chunk ≤ k / chunk

/-- A block of the table. -/
def tablePart (plan : Plan) (k : Nat) : List UInt8 :=
  (List.range plan.geom.blockSize).map fun r => tableByte plan (k * plan.geom.blockSize + r)

theorem length_tablePart (plan : Plan) (k : Nat) :
    (tablePart plan k).length = plan.geom.blockSize := by
  rw [tablePart, List.length_map, List.length_range]

theorem getD_tablePart {plan : Plan} {k r : Nat} (hr : r < plan.geom.blockSize) :
    (tablePart plan k).getD r 0 = tableByte plan (k * plan.geom.blockSize + r) :=
  getD_map_range _ _ hr

theorem Plan.keeps_zero {plan : Plan} (h : plan.geom.metaBg = true → 0 < plan.geom.firstMetaBg) :
    (!plan.geom.metaBg || decide (plan.geom.metaBgOf 0 < plan.geom.firstMetaBg)) = true := by
  rw [Geometry.metaBgOf, Nat.zero_div]
  cases hm : plan.geom.metaBg with
  | false => rfl
  | true => exact decide_eq_true (h hm)

section Parts

variable {plan : Plan} (h : plan.Sound)

include h

/-- The groups put nothing where descriptors are. -/
theorem Plan.Sound.queue_not_front {block : Nat} (hnot : ¬plan.geom.Free block) {chunk first : Nat}
    {t : InFlight} (ht : t ∈ chunkQueue plan chunk first) {p : Nat} {v : UInt8}
    (hp : p / plan.geom.blockSize = block) : ¬Puts t.ops p v := by
  intro hput
  have hrest := (mem_chunkQueue ht).1
  cases hwrite : writeGroup plan t.group with
  | error e =>
    rw [InFlight.ops, hrest, hwrite] at hput
    cases hput.choose_spec.1
  | ok r =>
    rw [InFlight.ops, hrest, hwrite] at hput
    obtain ⟨_, lay, part, -, hlay, ⟨hlow, hhigh⟩, -⟩ :=
      puts_writeGroup h.blockSize_pos hwrite hput
    exact hnot (hp ▸ Geometry.part_clear h.computed.itable_pos hlay part _ hlow hhigh)

/-- Each part of the table has a first group to be kept in. -/
theorem Plan.Sound.leader_lt {k : Nat} (hk : k < plan.geom.descBlocks) :
    k * plan.geom.descPerBlock < plan.geom.groupCount := by
  rw [h.descBlocks] at hk
  exact (lt_divCeil_iff h.descPerBlock_pos).mp hk

theorem Plan.Sound.metaBgOf_leader (k : Nat) :
    plan.geom.metaBgOf (k * plan.geom.descPerBlock) = k :=
  Nat.mul_div_cancel _ h.descPerBlock_pos

/-! ### Parts in group 0's copy -/

section Copy

variable {k : Nat} (hk : k < plan.geom.descBlocks)
  (hcopy : plan.geom.metaBg = true → k = 0 ∧ 0 < plan.geom.firstMetaBg)

include hk hcopy

theorem Plan.Sound.copy_at : plan.AtFront 0 (1 + k) (plan.geom.groupFirstBlock 0 + 1 + k) := by
  have hcount := h.computed.groupCount_pos
  have hsuper0 := plan.geom.hasSuper_le_one (Nat.zero_le 1)
  have hfits : 1 + k < plan.geom.blocksPerGroup ∧
      plan.geom.groupFirstBlock 0 + 1 + k < plan.geom.blocksCount := by
    cases hm : plan.geom.metaBg with
    | false =>
      have hclassic := h.computed.classic hm
      have htable := (h.holdsFront 0 hcount).table h.computed hm hsuper0
      omega
    | true =>
      have hdist := (h.computed.distributed hm).2
      have hfront := h.front_two hcount
      obtain ⟨rfl, -⟩ := hcopy hm
      omega
  refine ⟨hcount, Nat.add_assoc .., ?_, ?_, hfits.1, hfits.2, fun _ => ⟨rfl, by omega⟩⟩
  · rw [hsuper0, Bool.toNat_true]
    exact Nat.le_add_right 1 k
  · have hkeeps := Plan.keeps_zero fun hm => (hcopy hm).2
    rw [Geometry.superOverhead, Geometry.descBlocksInGroup, Geometry.groupHasDesc, if_pos hkeeps,
      hsuper0, if_neg (by decide), if_pos hkeeps, Bool.toNat_true]
    omega

theorem Plan.Sound.puts_copy {r : Nat} (hr : r < plan.geom.blockSize) :
    TablePuts plan ((plan.geom.groupFirstBlock 0 + 1 + k) * plan.geom.blockSize + r)
      (tableByte plan (k * plan.geom.blockSize + r)) := by
  have hin : plan.geom.groupFirstBlock 0 + 1 ∈ classicCopies plan.geom := by
    have hkeeps := Plan.keeps_zero fun hm => (hcopy hm).2
    refine List.mem_filterMap.mpr ⟨0, List.mem_filter.mpr
      ⟨List.mem_range.mpr h.computed.groupCount_pos, hkeeps⟩, ?_⟩
    rw [Geometry.descBlockLocation, Geometry.groupHasDesc, if_pos hkeeps,
      plan.geom.hasSuper_le_one (Nat.zero_le 1)]
    rfl
  obtain ⟨hblock, hrest⟩ := place_split (plan.geom.groupFirstBlock 0 + 1 + k) hr
  have hput := TablePuts.copy hin hk hblock
  rwa [hrest] at hput

theorem Plan.Sound.leaves_copy (chunkBlocks : Nat) (schedule : Nat → List Nat) :
    Leaves plan.geom.blockSize (plan.geom.groupFirstBlock 0 + 1 + k) (· = tablePart plan k)
      (writeTable plan chunkBlocks schedule) := by
  have hat := h.copy_at hk hcopy
  have hnot := h.not_free_front hat
  -- The fronts of the other groups are behind it.
  have hown : ∀ g, Within (plan.geom.superRegion g) (plan.geom.groupFirstBlock 0 + 1 + k) →
      g = 0 := by
    rintro g ⟨hlow, -⟩
    by_contra hne
    have hnext := groupFirstBlock_succ plan.geom 0
    have hmono := plan.geom.groupFirstBlock_mono (show 0 + 1 ≤ g by omega)
    have hinside := hat.inside
    dsimp only [Geometry.superRegion] at hlow
    omega
  refine h.leaves_writeTable (length_tablePart plan k) (fun r hr => ?_) (fun r hr v hv => ?_)
    chunkBlocks schedule
  · rw [getD_tablePart hr]
    exact h.puts_copy hk hcopy hr
  · rw [getD_tablePart hr]
    obtain ⟨hblock, -⟩ := place_split (plan.geom.groupFirstBlock 0 + 1 + k) hr
    refine h.puts_one_region ?_ ?_ hv (h.puts_copy hk hcopy hr)
    · rw [hblock]
      rintro g' lay part hlay ⟨hlow, hhigh⟩
      exact hnot (Geometry.part_clear h.computed.itable_pos hlay part _ hlow hhigh)
    · rw [hblock]
      intro g₁ _ g₂ _ hin₁ hin₂
      rw [hown g₁ hin₁, hown g₂ hin₂]

end Copy

/-! ### Parts that meta block groups keep -/

section Holder

variable (hm : plan.geom.metaBg = true) {k : Nat} (hk : k < plan.geom.descBlocks)
  (hfirst : ¬k < plan.geom.firstMetaBg)

include hm hfirst

theorem Plan.Sound.keeps_not : ¬(!plan.geom.metaBg ||
    decide (plan.geom.metaBgOf (k * plan.geom.descPerBlock) < plan.geom.firstMetaBg)) = true := by
  rw [hm, h.metaBgOf_leader]
  simpa using hfirst

theorem Plan.Sound.leader_hasDesc :
    plan.geom.groupHasDesc (k * plan.geom.descPerBlock) = true := by
  unfold Geometry.groupHasDesc
  rw [if_neg (h.keeps_not hm hfirst), Geometry.metaBgSize]
  dsimp only
  rw [Nat.mul_mod_left]
  rfl

include hk

theorem Plan.Sound.part_at : plan.AtFront (k * plan.geom.descPerBlock)
    (plan.geom.hasSuper (k * plan.geom.descPerBlock)).toNat (plan.partBlock k) := by
  have hdist := (h.computed.distributed hm).2
  have hfront := h.front_two (h.leader_lt hk)
  have hle := Bool.toNat_le (plan.geom.hasSuper (k * plan.geom.descPerBlock))
  have heq : plan.partBlock k = plan.geom.groupFirstBlock (k * plan.geom.descPerBlock) +
    (plan.geom.hasSuper (k * plan.geom.descPerBlock)).toNat := rfl
  refine ⟨h.leader_lt hk, heq, Nat.le_refl _, ?_, by omega, by omega,
    fun hm' => absurd (hm.symm.trans hm') (by decide)⟩
  rw [Geometry.superOverhead, Geometry.descBlocksInGroup, h.leader_hasDesc hm hfirst,
    if_neg (by decide), if_neg (h.keeps_not hm hfirst)]
  exact Nat.lt_succ_self _

/-- It is where the reader asks for it. -/
theorem Plan.Sound.part_held : plan.partBlock k ∈ metaHolders plan.geom k := by
  refine List.mem_filterMap.mpr ⟨k * plan.geom.descPerBlock, List.mem_filter.mpr
    ⟨List.mem_cons_self, decide_eq_true (h.leader_lt hk)⟩, ?_⟩
  rw [Geometry.descBlockLocation, h.leader_hasDesc hm hfirst]
  rfl

/-- No other part is kept there. -/
theorem Plan.Sound.part_held_only {i : Nat} (hi : plan.partBlock k ∈ metaHolders plan.geom i) :
    i = k := by
  obtain ⟨g, -, hof, -, heq⟩ :=
    holder_of_mem (Nat.le_trans (by decide) h.computed.descPerBlock_ge) hi
  have hinside := (h.part_at hm hk hfirst).inside
  have hdist := (h.computed.distributed hm).2
  have hle := Bool.toNat_le (plan.geom.hasSuper g)
  obtain ⟨rfl, -⟩ := place_inj hinside (by omega) heq
  rw [← hof, h.metaBgOf_leader]

/-- The last thing put there is the part, if no copy of a later chunk goes over it. -/
theorem Plan.Sound.part_put_last {chunkBlocks : Nat} {schedule : Nat → List Nat}
    {free : Nat × Nat} (hfree : (writeTable plan chunkBlocks schedule).result = .ok free)
    (hlast : ∀ copy ∈ classicCopies plan.geom, ∀ i < plan.geom.descBlocks,
      copy + i = plan.partBlock k → i / max chunkBlocks 1 ≤ k / max chunkBlocks 1) {r : Nat}
    (hr : r < plan.geom.blockSize) :
    ∃ before after, (writeTable plan chunkBlocks schedule).trace = before ++ after ∧
      ∀ v, Puts after (plan.partBlock k * plan.geom.blockSize + r) v ↔
        v = tableByte plan (k * plan.geom.blockSize + r) := by
  have hpos : 0 < max chunkBlocks 1 := by omega
  have hwrote := fun c hc => writeTable_chunk hfree (k := c) hc
  have htrace := (h.writeTable_ok hfree).2
  obtain ⟨hblock, hrest⟩ := place_split (plan.partBlock k) hr
  generalize plan.partBlock k * plan.geom.blockSize + r = p at hblock hrest ⊢
  generalize max chunkBlocks 1 = chunk at hpos hwrote htrace hlast
  have hdiv := Nat.div_add_mod' k chunk
  have hmod := Nat.mod_lt k hpos
  have hstart : k / chunk * chunk < plan.geom.descBlocks := by omega
  -- The chunk the part is in, and those after it.
  obtain ⟨s, t, hsplit⟩ :=
    List.append_of_mem (List.mem_range.mpr ((lt_divCeil_iff hpos).mpr hstart))
  have hsorted := hsplit ▸ List.pairwise_lt_range
  have hafter : ∀ c ∈ t, k / chunk < c :=
    (List.pairwise_cons.mp (List.pairwise_append.mp hsorted).2.1).1
  have hin : ∀ c ∈ t, c * chunk < plan.geom.descBlocks := fun c hc =>
    (lt_divCeil_iff hpos).mp (List.mem_range.mp (hsplit ▸ List.mem_append_right s
      (List.mem_cons_of_mem _ hc)))
  obtain ⟨more, hmore⟩ := hwrote _ hstart
  obtain ⟨done, hdone, hchunk⟩ := writeChunk_ok hmore
  rw [hsplit, List.flatMap_append, List.flatMap_cons, hchunk, trace_writeCopies, if_pos hm]
    at htrace
  have hregroup : ∀ a b c d e : List Op,
      a ++ (b ++ (c ++ d) ++ e) = (a ++ (b ++ c)) ++ (d ++ e) := by
    intro a b c d e
    simp only [List.append_assoc]
  refine ⟨_, _, htrace.trans (hregroup ..), fun v => ?_⟩
  rw [puts_append, puts_holders h.blockSize_pos (length_chunkTable plan _ _ done)
    fun o ho => h.getD_chunk hdone ho, hblock, hrest]
  constructor
  · rintro (⟨i, -, -, rfl, -, hheld⟩ | hlater)
    · rw [h.part_held_only hm hk hfirst hheld]
    · obtain ⟨c, hc, hput⟩ := puts_flatMap.mp hlater
      obtain ⟨more', hmore'⟩ := hwrote c (hin c hc)
      rcases (h.puts_writeChunk hmore').mp hput with
        ⟨g, hg, hops⟩ | ⟨i, hlow, hi, rfl, ⟨copy, hcopy, hplace⟩ | ⟨-, -, hheld⟩⟩
      · exact absurd hops (h.queue_not_front (h.not_free_front (h.part_at hm hk hfirst)) hg hblock)
      · -- A copy of a later chunk.
        have hle := hlast copy hcopy i (by omega) (hplace.symm.trans hblock)
        have := (Nat.le_div_iff_mul_le hpos).mpr hlow
        have := hafter c hc
        omega
      · rw [hblock] at hheld
        rw [h.part_held_only hm hk hfirst hheld, hrest]
  · rintro rfl
    exact Or.inl ⟨k, by omega, by omega, rfl, hfirst, h.part_held hm hk hfirst⟩

theorem Plan.Sound.leaves_held {chunkBlocks : Nat} (schedule : Nat → List Nat)
    (hlast : ∀ copy ∈ classicCopies plan.geom, ∀ i < plan.geom.descBlocks,
      copy + i = plan.partBlock k → i / max chunkBlocks 1 ≤ k / max chunkBlocks 1) :
    Leaves plan.geom.blockSize (plan.partBlock k) (· = tablePart plan k)
      (writeTable plan chunkBlocks schedule) := by
  intro free hfree bytes
  refine ext_getD 0 ((length_window _ _ _).trans (length_tablePart plan k).symm) fun r hr => ?_
  have hr : r < plan.geom.blockSize := by rwa [blockAfter, length_window] at hr
  obtain ⟨before, after, htrace, hputs⟩ := h.part_put_last hm hk hfirst hfree hlast hr
  rw [blockAfter, getD_window _ _ _ _ _ hr, getD_tablePart hr, htrace, lastPut_append]
  rcases lastPut_cases after (plan.partBlock k * plan.geom.blockSize + r)
    (lastPut before (plan.partBlock k * plan.geom.blockSize + r)
      (bytes (plan.partBlock k * plan.geom.blockSize + r))) with hput | ⟨hnone, -⟩
  · exact (hputs _).mp hput
  · exact absurd ((hputs _).mpr rfl) (hnone _)

end Holder

/-- Where runs are apart, no copy of the whole table goes over a part. -/
theorem Plan.Sound.partsLast (hapart : plan.RunsApart) (chunk : Nat) : plan.PartsLast chunk := by
  intro hm k hk hfirst copy hcopy i hi heq
  obtain ⟨g, hg, hkeeps, -, hin⟩ := copy_in_region hcopy hi heq.symm
  have hat := h.part_at hm hk hfirst
  have hne : g ≠ k * plan.geom.descPerBlock := by
    rintro rfl
    exact hfirst (h.metaBgOf_leader k ▸ hkeeps hm)
  refine absurd ?_ (hapart.regions g hg _ hat.group hne _ hin)
  exact ⟨Nat.le_add_right _ _, Nat.add_lt_add_left hat.overhead _⟩

end Parts

section Image

variable {plan : Plan} {chunkBlocks : Nat} {schedule : Nat → List Nat} {dev dev' : Device}
  {report : Report} {fs : Filesystem} (h : Image plan chunkBlocks schedule dev report dev' fs)

include h

theorem Image.read {block : Nat} {Q : List UInt8 → Prop} (hblock : block < plan.geom.blocksCount)
    (hleaves : Leaves plan.geom.blockSize block Q
      (writeFilesystemChunked plan chunkBlocks schedule)) :
    ∃ buf, fs.readBlock block = .ok buf ∧ buf.length = plan.geom.blockSize ∧ Q buf :=
  h.mounts.read h.written h.covers h.size h.sound.blockSize_pos hblock hleaves

theorem Image.built {g : Nat} (hg : g < plan.geom.groupCount) :
    ∃ state, buildGroup plan g = .ok state := by
  obtain ⟨hresult, -⟩ := device_of_writePlan h.written
  obtain ⟨free, hcontents, -⟩ := bind_ok hresult
  obtain ⟨_, -, hrest, -⟩ := bind_ok hcontents
  obtain ⟨free', htable, -⟩ := bind_ok hrest
  exact h.sound.built_of_writeTable htable hg

/-- The fields the reader takes from the superblock. -/
theorem Image.geometry : fs.superblock.firstDataBlock = plan.geom.firstDataBlock ∧
    fs.superblock.blocksPerGroup = plan.geom.blocksPerGroup ∧
    fs.superblock.inodesPerGroup = plan.geom.inodesPerGroup ∧
    fs.superblock.uuid = plan.uuid ∧
    ∀ g, groupHasSuperFor fs.superblock g = plan.geom.hasSuper g := by
  obtain ⟨checksum, hsb⟩ := h.superblock
  rw [hsb]
  exact ⟨rfl, rfl, rfl, rfl, fun g =>
    (hasSuperFor_eq _ plan.geom.features.compat plan.geom.features.incompat g).symm⟩

theorem Image.descPerBlock : fs.superblock.descPerBlock = plan.geom.descPerBlock := by
  have hblockSize : fs.superblock.blockSize = plan.geom.blockSize := h.mounts.blockSize
  rw [Superblock.descPerBlock, hblockSize, h.descSize]
  rfl

theorem Image.tableParts_le : fs.tableParts ≤ plan.geom.descBlocks := by
  unfold tableParts
  split
  · exact Nat.le_of_eq h.gdtBlocks
  · rw [h.mounts.blockSize, h.groupCount, h.descSize]
    refine (divCeil_le_iff h.sound.blockSize_pos).mpr ?_
    rw [← h.sound.descSize, ← Nat.mul_assoc]
    exact Nat.mul_le_mul_right _ h.sound.groups_le

/-- The reader asks for a part of the table in group 0's copy, or where a meta block group keeps
its own. -/
theorem Image.tableBlock_eq (k : Nat) : fs.tableBlock k =
    if plan.geom.metaBg then plan.partBlock k else plan.geom.groupFirstBlock 0 + 1 + k := by
  obtain ⟨hfirst, hbpg, -, -, hsuper⟩ := h.geometry
  cases hm : plan.geom.metaBg with
  | false =>
    rw [if_neg Bool.false_ne_true, tableBlock, h.metaBg, hm, if_neg Bool.false_ne_true,
      h.mounts.blockSize, Geometry.groupFirstBlock_zero, h.sound.firstDataBlock]
    split <;> rfl
  | true =>
    rw [tableBlock, h.metaBg, hm, if_pos rfl, h.descPerBlock, if_pos rfl]
    dsimp only
    rw [hsuper, groupFirstBlockFor, hfirst, hbpg]
    rfl

/-- Each part of the table is read as it was made. -/
theorem Image.part_read (hfound : plan.TableFound) (hlast : plan.PartsLast (max chunkBlocks 1))
    {k : Nat} (hk : k < fs.tableParts) : Lib.Store.window dev'.bytes
      (fs.tableBlock k * plan.geom.blockSize) plan.geom.blockSize = tablePart plan k := by
  have hk := Nat.lt_of_lt_of_le hk h.tableParts_le
  obtain ⟨journal, orphan, hord⟩ := h.ordered
  have hcopied : (plan.geom.metaBg = true → k = 0 ∧ 0 < plan.geom.firstMetaBg) →
      Lib.Store.window dev'.bytes ((plan.geom.groupFirstBlock 0 + 1 + k) * plan.geom.blockSize)
        plan.geom.blockSize = tablePart plan k := fun hcopy =>
    (Leaves.of_writePlan h.written (h.sound.leaves_front hord (h.sound.copy_at hk hcopy)
      (h.sound.leaves_copy hk hcopy chunkBlocks schedule))).2
  rw [h.tableBlock_eq]
  cases hm : plan.geom.metaBg with
  | false => exact hcopied fun hm' => absurd (hm.symm.trans hm') (by decide)
  | true =>
    rw [if_pos rfl]
    by_cases hlt : k < plan.geom.firstMetaBg
    · -- Only the first part is found before `first_meta_bg`, in group 0's copy.
      have hzero : k = 0 := by
        have := hfound hm
        omega
      have hblock : plan.partBlock k = plan.geom.groupFirstBlock 0 + 1 + k := by
        rw [hzero, Plan.partBlock, Nat.zero_mul, plan.geom.hasSuper_le_one (Nat.zero_le 1)]
        rfl
      rw [hblock]
      exact hcopied fun _ => ⟨hzero, Nat.zero_lt_of_lt hlt⟩
    · exact (Leaves.of_writePlan h.written (h.sound.leaves_front hord (h.sound.part_at hm hk hlt)
        (h.sound.leaves_held hm hk hlt schedule (hlast hm k hk hlt)))).2

theorem Image.getD_tableBytes {o : Nat} (ho : o < fs.tableParts * plan.geom.blockSize) :
    fs.tableBytes.getD o 0 = (Lib.Store.window dev'.bytes
      (fs.tableBlock (o / plan.geom.blockSize) * plan.geom.blockSize) plan.geom.blockSize).getD
        (o % plan.geom.blockSize) 0 := by
  have hlens : ∀ k, k < fs.tableParts → (Lib.Store.window fs.device.bytes
      (fs.tableBlock k * fs.blockSize) fs.blockSize).length = plan.geom.blockSize :=
    fun k _ => (length_window _ _ _).trans h.mounts.blockSize
  rw [tableBytes, getD_flatten_blocks 0 hlens ho, h.mounts.device, h.mounts.blockSize]

/-- The table is read as it was made. -/
theorem Image.tableBytes_eq (hfound : plan.TableFound)
    (hlast : plan.PartsLast (max chunkBlocks 1)) {o : Nat}
    (ho : o < fs.tableParts * plan.geom.blockSize) : fs.tableBytes.getD o 0 = tableByte plan o := by
  have hb := h.sound.blockSize_pos
  have hk := (Nat.div_lt_iff_lt_mul hb).mpr ho
  rw [h.getD_tableBytes ho, h.part_read hfound hlast hk, getD_tablePart (Nat.mod_lt o hb),
    Nat.div_add_mod']

theorem Image.table_room : plan.geom.groupCount * plan.geom.descSize ≤
    fs.tableParts * plan.geom.blockSize := by
  unfold tableParts
  split
  · have hroom := Nat.mul_le_mul_right plan.geom.descSize h.sound.groups_le
    rwa [Nat.mul_assoc, h.sound.descSize, ← h.gdtBlocks] at hroom
  · rw [h.mounts.blockSize, h.groupCount, h.descSize]
    exact Layout.le_divCeil_mul _ h.sound.blockSize_pos

/-- A descriptor stands in the table as its group was given it. -/
theorem Image.descOnDisk_eq (hfound : plan.TableFound)
    (hlast : plan.PartsLast (max chunkBlocks 1)) {g : Nat}
    (hg : g < plan.geom.groupCount) {state : GroupState} (hstate : buildGroup plan g = .ok state) :
    fs.descOnDisk g = state.desc.encodeWithCsum plan.geom.descSize plan.csumScheme plan.csumSeed
      plan.uuid g := by
  have hlen := (openOn_opened h.opened).length_descOnDisk (show g < fs.groupCount by
    rw [Filesystem.groupCount, h.groupCount]
    exact hg)
  rw [h.descSize] at hlen
  refine ext_getD 0 (hlen.trans (GroupDesc.length_encodeWithCsum ..).symm) fun r hr => ?_
  rw [hlen] at hr
  have hplace := place_split g hr
  have hroom := h.table_room
  have hend := Nat.mul_le_mul_right plan.geom.descSize hg
  rw [Nat.succ_mul] at hend
  obtain ⟨⟨ops, desc⟩, hwrite⟩ := writeGroup_of_build hstate
  obtain ⟨state', -, hstate', -, rfl, -⟩ := writeGroup_ok hwrite
  obtain rfl := Except.ok.inj (hstate.symm.trans hstate')
  rw [descOnDisk, h.descSize, getD_slice _ _ _ _ _ hr,
    h.tableBytes_eq hfound hlast (Nat.lt_of_lt_of_le (by omega) hroom)]
  rw [← hplace.1] at hg hwrite
  rw [tableByte_of_lt hg hwrite, hplace.1, hplace.2]

end Image

/-! ## The groups -/

theorem groupFlags_lt (plan : Plan) (g used : Nat) : groupFlags plan g used < 2 ^ 16 := by
  unfold groupFlags
  dsimp only
  split_ifs <;> decide

/-- The counts of a descriptor that was built, and the fields that are not places. -/
theorem buildGroup_counts {plan : Plan} {g : Nat} {state : GroupState}
    (h : buildGroup plan g = .ok state) :
    state.desc.freeBlocksCount ≤ plan.geom.blocksPerGroup ∧
      state.desc.freeInodesCount ≤ plan.geom.inodesPerGroup ∧ state.desc.usedDirsCount ≤ 2 ∧
      state.desc.itableUnused ≤ plan.geom.inodesPerGroup ∧ state.desc.excludeBitmap = 0 ∧
      state.desc.checksum = 0 ∧ state.desc.flags < 2 ^ 16 ∧
      state.desc.blockBitmapCsum < 2 ^ 32 ∧ state.desc.inodeBitmapCsum < 2 ^ 32 := by
  obtain ⟨lay, -, h⟩ := Lib.Hoare.bind_ok h
  obtain ⟨metadata, -, h⟩ := Lib.Hoare.bind_ok h
  obtain ⟨_, -, h⟩ := Lib.Hoare.bind_ok h
  obtain ⟨_, -, h⟩ := Lib.Hoare.bind_ok h
  obtain rfl := Except.ok.inj h
  refine ⟨Nat.sub_le _ _, Nat.sub_le _ _, ?_, ?_, rfl, rfl, groupFlags_lt _ _ _, ?_, ?_⟩ <;>
    dsimp only <;> split
  · exact Nat.le_refl 2
  · exact Nat.zero_le 2
  · exact Nat.zero_le _
  · exact Nat.sub_le _ _
  · exact UInt32.toNat_lt _
  · exact Nat.two_pow_pos 32
  · exact UInt32.toNat_lt _
  · exact Nat.two_pow_pos 32

/-- Without checksums no group is flagged as never written. -/
theorem groupFlags_none {plan : Plan} {g used : Nat} (h : plan.csumScheme = .none) :
    ∀ bit ∈ [BgFlags.blockUninit, BgFlags.inodeUninit], groupFlags plan g used &&& bit = 0 := by
  unfold groupFlags
  simp only [h, ne_eq, not_true_eq_false, false_and, if_false]
  cases plan.lazyItable <;> decide

/-- The descriptor of a group as the table keeps it: stamped, and of the bitmap checksums what its
size has room for. -/
def Plan.storedDesc (plan : Plan) (g : Nat) (state : GroupState) : GroupDesc :=
  (state.desc.kept plan.geom.descSize).stamped plan.geom.descSize plan.csumScheme plan.csumSeed
    plan.uuid g

/-- A group as a reader has it: its descriptor with the places and the flags it was given and
nothing to be said against its checksum, and its bitmaps as they were built. -/
structure GroupRead (fs : Filesystem) (g : Nat) (state : GroupState) : Prop where
  desc : ∃ desc, fs.groupDescs[g]? = some desc ∧ desc.blockBitmap = state.desc.blockBitmap ∧
    desc.inodeBitmap = state.desc.inodeBitmap ∧ desc.inodeTable = state.desc.inodeTable ∧
    desc.freeBlocksCount = state.desc.freeBlocksCount ∧ desc.flags = state.desc.flags ∧
    ∀ f, Fsck.checkDescCsum fs g desc f = f
  blockBitmap : fs.readBlockBitmap g = .ok state.blockBitmap
  inodeBitmap : fs.readInodeBitmap g = .ok state.inodeBitmap

section Groups

variable {plan : Plan} {chunkBlocks : Nat} {schedule : Nat → List Nat} {dev dev' : Device}
  {report : Report} {fs : Filesystem} (h : Image plan chunkBlocks schedule dev report dev' fs)
  {g : Nat} {state : GroupState}

include h

theorem Image.part_lt {lay : GroupLayout} (hlay : plan.geom.group g = .ok lay) (p : Part) :
    (plan.geom.part lay p).1 < plan.geom.blocksCount := by
  have hpos : 0 < (plan.geom.part lay p).2 := by
    cases p
    · exact Nat.one_pos
    · exact Nat.one_pos
    · exact h.sound.computed.itable_pos
  exact (Geometry.part_clear h.sound.computed.itable_pos hlay p _ (Nat.le_refl _)
    (Nat.lt_add_of_pos_right hpos)).lt_blocksCount

/-- The table has room for what it keeps of a descriptor. -/
theorem Image.kept_fits (hstate : buildGroup plan g = .ok state) :
    (state.desc.kept plan.geom.descSize).Representable plan.geom.descSize := by
  obtain ⟨⟨lay, hlay, hblock, hinode, htable⟩, -⟩ := buildGroup_ok hstate
  have hb : state.desc.blockBitmap < plan.geom.blocksCount := hblock ▸ h.part_lt hlay .blockBitmap
  have hi : state.desc.inodeBitmap < plan.geom.blocksCount := hinode ▸ h.part_lt hlay .inodeBitmap
  have ht : state.desc.inodeTable < plan.geom.blocksCount := htable ▸ h.part_lt hlay .inodeTable
  have hbpg := h.blocksPerGroup
  have hipg := h.inodesPerGroup
  obtain ⟨hfree, hinodes, hdirs, hunused, hexclude, hzero, hflags, hbcsum, hicsum⟩ :=
    buildGroup_counts hstate
  have hchecksum : state.desc.checksum < 2 ^ 16 := by omega
  rcases h.narrow with ⟨hsize, hfit⟩ | hwide
  · have hnarrow : ¬descSize64bit ≤ plan.geom.descSize := by
      rw [hsize]
      decide
    rw [GroupDesc.kept, if_neg hnarrow]
    refine ⟨?_, ?_, ?_, ?_, ?_, ?_, hflags, ?_, ?_, ?_, ?_, hchecksum⟩ <;>
      simp only [if_neg hnarrow] <;> omega
  · have hcount : plan.geom.blocksCount < 2 ^ 64 := by
      have := h.covers
      have := Nat.mul_le_mul_left plan.geom.blocksCount h.sound.blockSize_pos
      have := h.size
      omega
    rw [GroupDesc.kept, if_pos hwide]
    refine ⟨?_, ?_, ?_, ?_, ?_, ?_, hflags, ?_, ?_, ?_, ?_, hchecksum⟩ <;>
      simp only [if_pos hwide] <;> omega

theorem Image.desc_stored (hfound : plan.TableFound) (hlast : plan.PartsLast (max chunkBlocks 1))
    (hg : g < plan.geom.groupCount) (hstate : buildGroup plan g = .ok state) :
    fs.groupDescs[g]? = some (plan.storedDesc g state) := by
  have hget := (openOn_opened h.opened).groupDescs_get (show g < fs.groupCount by
    rw [Filesystem.groupCount, h.groupCount]
    exact hg)
  rw [hget, h.descOnDisk_eq hfound hlast hg hstate, h.descSize,
    state.desc.decode_kept (h.narrow.imp And.left id) (h.kept_fits hstate), Plan.storedDesc]

theorem Image.desc_read (hfound : plan.TableFound) (hlast : plan.PartsLast (max chunkBlocks 1))
    (hg : g < plan.geom.groupCount) (hstate : buildGroup plan g = .ok state) :
    ∃ desc, fs.groupDescs[g]? = some desc ∧ desc.blockBitmap = state.desc.blockBitmap ∧
      desc.inodeBitmap = state.desc.inodeBitmap ∧ desc.inodeTable = state.desc.inodeTable ∧
      desc.freeBlocksCount = state.desc.freeBlocksCount ∧ desc.flags = state.desc.flags ∧
      ∀ f, Fsck.checkDescCsum fs g desc f = f := by
  obtain ⟨r1, r2, r3, r4, r5⟩ := state.desc.kept_fields plan.geom.descSize
  refine ⟨_, h.desc_stored hfound hlast hg hstate, r1, r2, r3, r4, r5,
    Fsck.checkDescCsum_of_right ?_⟩
  have hsize := h.narrow.imp And.left id
  have hcsum := state.desc.checksum_decode_encodeWithCsum hsize plan.csumScheme plan.csumSeed
    plan.uuid g
  dsimp only at hcsum
  rw [state.desc.decode_kept hsize (h.kept_fits hstate)] at hcsum
  -- The seed weighs in one of the schemes only.
  have hseed : ∀ raw, Csum.groupDescCsum plan.csumScheme fs.csumSeed plan.uuid g raw =
      Csum.groupDescCsum plan.csumScheme plan.csumSeed plan.uuid g raw := by
    intro raw
    cases hscheme : plan.csumScheme with
    | none => rfl
    | crc16 => rfl
    | crc32c => rw [h.mounts.csumSeed hscheme]
  obtain ⟨-, -, -, huuid, -⟩ := h.geometry
  rw [h.descSize, huuid, h.mounts.csumScheme, hseed]
  exact hcsum

/-- A bitmap of a group that was written stays as it was written. -/
theorem Image.leaves_bitmap (hapart : plan.RunsApart) (hin : plan.geom.MetadataContained)
    {lay : GroupLayout} {p : Part} (hlay : plan.geom.group g = .ok lay)
    (hp : (plan.geom.part lay p).2 = 1) (hne : p ≠ .inodeTable) {ops : List Op} {desc : GroupDesc}
    (hwrite : writeGroup plan g = .ok (ops, desc)) {want : List UInt8}
    (hlen : want.length = plan.geom.blockSize)
    (hop : .write ((plan.geom.part lay p).1 * plan.geom.blockSize) want ∈ ops) :
    Leaves plan.geom.blockSize (plan.geom.part lay p).1 (· = want)
      (writeFilesystemChunked plan chunkBlocks schedule) := by
  have hwithin : Within (plan.geom.part lay p) (plan.geom.part lay p).1 :=
    ⟨Nat.le_refl _, by rw [hp]; exact Nat.lt_succ_self _⟩
  have hputs : ∀ r < plan.geom.blockSize, TablePuts plan
      ((plan.geom.part lay p).1 * plan.geom.blockSize + r) (want.getD r 0) := by
    intro r hr
    obtain ⟨hblock, hrest⟩ := place_split (plan.geom.part lay p).1 hr
    exact .group (Geometry.group_ok hlay).1 hwrite
      ⟨_, hop, (puts_write_one h.sound.blockSize_pos hlen).mpr ⟨hblock, by rw [hrest]⟩⟩
  obtain ⟨journal, orphan, hord⟩ := h.ordered
  exact h.sound.leaves_part hord hapart hin hlay hwithin (fun heq => hne (Prod.mk.inj heq).2) hlen
    hputs chunkBlocks schedule

theorem Image.bitmap_read (hapart : plan.RunsApart) (hin : plan.geom.MetadataContained)
    {lay : GroupLayout} {p : Part} (hlay : plan.geom.group g = .ok lay)
    (hp : (plan.geom.part lay p).2 = 1) (hne : p ≠ .inodeTable) {ops : List Op} {desc : GroupDesc}
    (hwrite : writeGroup plan g = .ok (ops, desc)) {want : List UInt8}
    (hlen : want.length = plan.geom.blockSize)
    (hop : .write ((plan.geom.part lay p).1 * plan.geom.blockSize) want ∈ ops) :
    fs.readBlock (plan.geom.part lay p).1 = .ok want := by
  have hblock := (Geometry.part_clear h.sound.computed.itable_pos hlay p _ (Nat.le_refl _)
    (by rw [hp]; exact Nat.lt_succ_self _)).lt_blocksCount
  obtain ⟨buf, hread, -, rfl⟩ :=
    h.read hblock (h.leaves_bitmap hapart hin hlay hp hne hwrite hlen hop)
  exact hread

/-- Every group reads back as it was built. -/
theorem Image.group_read (hapart : plan.RunsApart) (hin : plan.geom.MetadataContained)
    (hfound : plan.TableFound) (hbits : plan.geom.blocksPerGroup ≤ 8 * plan.geom.blockSize)
    (hg : g < plan.geom.groupCount)
    (hstate : buildGroup plan g = .ok state) : GroupRead fs g state := by
  have hread := h.desc_read hfound (h.sound.partsLast hapart _) hg hstate
  have hdesc := hread
  obtain ⟨desc, hget, hblock, hinode, -, -, hflags, -⟩ := hdesc
  obtain ⟨⟨lay, hlay, hb, hi, -⟩, hlenb, hleni⟩ := buildGroup_ok hstate
  obtain ⟨⟨ops, desc'⟩, hwrite⟩ := writeGroup_of_build hstate
  obtain ⟨state', lay', hstate', hlay', -, hops⟩ := writeGroup_ok hwrite
  obtain rfl := Except.ok.inj (hstate.symm.trans hstate')
  obtain rfl := Except.ok.inj (hlay.symm.trans hlay')
  obtain ⟨-, hbpg, hipg, -⟩ := h.geometry
  obtain ⟨huninitb, huniniti⟩ := uninit_eq hbits hstate h.mounts.blockSize hbpg hipg
  have hof : fs.groupDesc g = .ok desc := by rw [groupDesc, hget]
  obtain ⟨_, _, -, -, -, -, -, hgroup⟩ := buildGroup_state hstate
  -- Only a filesystem with checksums has groups flagged as never written.
  have hscheme : ∀ bit ∈ [BgFlags.blockUninit, BgFlags.inodeUninit],
      (state.desc.flags &&& bit != 0) = true → fs.csumScheme ≠ .none := by
    intro bit hbit hset hnone
    rw [h.mounts.csumScheme] at hnone
    rw [hgroup, groupFlags_none hnone bit hbit] at hset
    cases hset
  refine ⟨hread, ?_, ?_⟩
  · have hsame : desc.blockUninit = state.desc.blockUninit := by
      rw [GroupDesc.blockUninit, hflags, GroupDesc.blockUninit]
    rw [readBlockBitmap, Lib.Hoare.bind_of_ok hof, hsame, hblock]
    by_cases huninit : state.desc.blockUninit = true
    · rw [if_pos ⟨huninit, hscheme _ List.mem_cons_self huninit⟩, huninitb huninit]
      rfl
    · rw [if_neg fun hif => huninit hif.1, hb]
      refine h.bitmap_read hapart hin hlay (p := .blockBitmap) rfl (fun heq => by cases heq) hwrite
        hlenb ?_
      rw [hops, if_neg huninit]
      exact List.mem_append_left _ (List.mem_append_left _ List.mem_cons_self)
  · have hsame : desc.inodeUninit = state.desc.inodeUninit := by
      rw [GroupDesc.inodeUninit, hflags, GroupDesc.inodeUninit]
    rw [readInodeBitmap, Lib.Hoare.bind_of_ok hof, hsame, hinode]
    by_cases huninit : state.desc.inodeUninit = true
    · rw [if_pos ⟨huninit, hscheme _ (List.mem_cons_of_mem _ List.mem_cons_self) huninit⟩,
        huniniti huninit]
      rfl
    · rw [if_neg fun hif => huninit hif.1, hi]
      refine h.bitmap_read hapart hin hlay (p := .inodeBitmap) rfl (fun heq => by cases heq) hwrite
        hleni ?_
      rw [hops, if_neg huninit]
      exact List.mem_append_left _ (List.mem_append_right _ List.mem_cons_self)

end Groups

/-- A formatted device opens, and each group is read as it was laid out: its descriptor names its
metadata and passes the check, and the set bits of its bitmaps are what is in use. -/
theorem reads_in_use {dev dev' : Device} {params : Params} {ambient : Ambient} {p : Plan}
    {chunkBlocks : Nat} {schedule : Nat → List Nat} {report : Report} (htyped : params.Typed)
    (huuid : ambient.uuid.length = 16) (hsector : dev.logicalSectorSize < 2 ^ 32)
    (hsize : dev.size < 2 ^ 64)
    (hplan : plan dev.size (onDevice params dev) ambient = .ok p)
    (hroomy : Spacious p.geom) (hfound : p.TableFound)
    (hbits : p.geom.blocksPerGroup ≤ 8 * p.geom.blockSize)
    (hrun : writePlan p chunkBlocks schedule dev = (.ok report, dev')) :
    ∃ fs, openOn dev' = .ok fs ∧ fs.groupCount = p.geom.groupCount ∧
      ∀ g < p.geom.groupCount, ∃ lay desc blocks inodes,
        p.geom.group g = .ok lay ∧ fs.groupDescs[g]? = some desc ∧
        (desc.blockBitmap, desc.inodeBitmap, desc.inodeTable) =
          (lay.blockBitmap, lay.inodeBitmap, lay.inodeTable) ∧
        (∀ f, Fsck.checkDescCsum fs g desc f = f) ∧
        fs.readBlockBitmap g = .ok blocks ∧ fs.readInodeBitmap g = .ok inodes ∧
        desc.freeBlocksCount = Lib.Bitmap.clearBits blocks ∧
        ∀ i < 8 * p.geom.blockSize, (Lib.Bitmap.testBit blocks i = true ↔ p.BlockInUse g i) ∧
          (Lib.Bitmap.testBit inodes i = true ↔ p.InodeInUse g i) := by
  obtain ⟨fs, h⟩ := image_of_plan htyped huuid hsector hsize hplan hrun
  have hin := hroomy.contained h.sound.computed
  have hcovered := hroomy.covered h.sound.computed
  refine ⟨fs, h.opened, h.groupCount, fun g hg => ?_⟩
  obtain ⟨state, hstate⟩ := h.built hg
  obtain ⟨⟨lay, hlay, hb, hi, ht⟩, -⟩ := buildGroup_ok hstate
  obtain ⟨⟨desc, hget, rb, ri, rt, rfree, -, hcheck⟩, hblocks, hinodes⟩ :=
    h.group_read (h.sound.runsApart hroomy) hin hfound hbits hg hstate
  refine ⟨lay, desc, _, _, hlay, hget, ?_, hcheck, hblocks, hinodes,
    rfree.trans (freeBlocksCount_eq hbits hstate), fun i hi => ⟨?_, ?_⟩⟩
  · rw [rb, ri, rt, hb, hi, ht]
  · exact (h.sound.blocks_exact_iff hin hbits hg hstate).mpr (hcovered g hg) i hi
  · obtain ⟨_, _, -, -, -, hinode, -⟩ := buildGroup_state hstate
    rw [hinode, Lib.Bitmap.testBit_ofBits _ hi, h.sound.inodeUsed_iff]

/-- Each group of the filesystem of several groups is read as it was laid out. -/
theorem several_reads : ∃ p report dev' fs, p.geom.groupCount = 20 ∧
    writePlan p gdtChunkBlocks (fun _ => []) severalDevice = (.ok report, dev') ∧
    openOn dev' = .ok fs ∧ fs.groupCount = 20 ∧ ∀ g < 20, ∃ blocks,
      fs.readBlockBitmap g = .ok blocks ∧
        ∀ i < 8192, Lib.Bitmap.testBit blocks i = true ↔ p.BlockInUse g i := by
  obtain ⟨p, report, dev', hplan, hgeom, hrun⟩ := several_written
  have hclassic : p.geom.metaBg = false := by rw [hgeom]; rfl
  have hgroupCount : p.geom.groupCount = 20 := by rw [hgeom]; rfl
  obtain ⟨fs, hopen, hcount, hgroups⟩ := reads_in_use severalParams_typed (by decide) (by decide)
    (by decide) hplan (by rw [hgeom]; exact several_spacious)
    (fun hm => absurd (hclassic.symm.trans hm) (by decide)) (by rw [hgeom]; decide) hrun
  refine ⟨p, report, dev', fs, hgroupCount, hrun, hopen, hcount.trans hgroupCount, fun g hg => ?_⟩
  obtain ⟨lay, desc, blocks, inodes, -, -, -, -, hread, -, -, hbits⟩ := hgroups g (by omega)
  refine ⟨blocks, hread, fun i hi => ?_⟩
  exact (hbits i (by rw [hgeom]; exact hi)).1

end MkfsExt4.Format
