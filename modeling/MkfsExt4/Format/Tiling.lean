/-
  A geometry tiles its device: the groups' block ranges, the inode tables, the descriptor
  table, and the same numbers read back off the superblock made from the geometry.

  The group count is cast to 32 bits in the loop of `compute`. A device of 2^32 groups or more
  is laid out with the count's low bits.
-/
import MkfsExt4.Format.Contents
import MkfsExt4.Layout.Derived
import MkfsExt4.Layout.Overlap

namespace MkfsExt4.Layout

open Lib.Hoare

/-- The groups' block ranges partition the data blocks, and only the last may be short. -/
structure Geometry.Tiles (geom : Geometry) : Prop where
  cover : ∀ b, geom.firstDataBlock ≤ b → b < geom.blocksCount →
    ∃ g < geom.groupCount, geom.groupFirstBlock g ≤ b ∧ b ≤ geom.groupLastBlock g
  within : ∀ g < geom.groupCount, geom.firstDataBlock ≤ geom.groupFirstBlock g ∧
    geom.groupFirstBlock g ≤ geom.groupLastBlock g ∧ geom.groupLastBlock g < geom.blocksCount
  apart : ∀ g g' b, g < geom.groupCount → g' < geom.groupCount →
    geom.groupFirstBlock g ≤ b → b ≤ geom.groupLastBlock g →
    geom.groupFirstBlock g' ≤ b → b ≤ geom.groupLastBlock g' → g = g'
  whole : ∀ g, g + 1 < geom.groupCount →
    geom.groupLastBlock g + 1 = geom.groupFirstBlock g + geom.blocksPerGroup
  last : ∀ g < geom.groupCount,
    geom.groupLastBlock g < geom.groupFirstBlock g + geom.blocksPerGroup

/-- A geometry fills a device of `sizeBytes`, and its superblock says the same of it. -/
structure Geometry.FillsDevice (sizeBytes : Nat) (geom : Geometry) : Prop where
  tiles : geom.Tiles
  blocks : geom.blocksCount * geom.blockSize ≤ sizeBytes
  inodes : geom.inodesCount = geom.inodesPerGroup * geom.groupCount ∧ geom.inodesCount < 2 ^ 32
  itable : geom.itableBlocksPerGroup * (geom.blockSize / geom.inodeSize) = geom.inodesPerGroup
  descriptors : geom.groupCount ≤ geom.descBlocks * geom.descPerBlock ∧
    geom.descBlocks * geom.descPerBlock < geom.groupCount + geom.descPerBlock
  superblock : ∀ (plan : Format.Plan) (freeBlocks freeInodes : Nat), plan.geom = geom →
    let sb := Format.buildSuperblock plan freeBlocks freeInodes
    sb.groupCount = geom.groupCount ∧ sb.gdtBlocks = geom.descBlocks ∧
      sb.itableBlocksPerGroup = geom.itableBlocksPerGroup

/-- The groups tile the device when their count is the one the data blocks come to. -/
theorem Geometry.tiles_of_count {geom : Geometry} (hdata : geom.firstDataBlock < geom.blocksCount)
    (hsize : 0 < geom.blocksPerGroup)
    (hcount : geom.groupCount =
      divCeil (geom.blocksCount - geom.firstDataBlock) geom.blocksPerGroup) : geom.Tiles := by
  have hlt : ∀ g, g < geom.groupCount ↔
      geom.groupFirstBlock g < geom.blocksCount := by
    intro g
    rw [hcount, lt_divCeil_iff hsize, groupFirstBlock]
    omega
  have hlast : ∀ g, geom.groupLastBlock g =
      min (geom.groupFirstBlock g + geom.blocksPerGroup - 1) (geom.blocksCount - 1) := fun _ => rfl
  have hnext : ∀ g, geom.groupFirstBlock (g + 1) =
      geom.groupFirstBlock g + geom.blocksPerGroup := by
    intro g
    simp only [groupFirstBlock, Nat.succ_mul]
    omega
  refine ⟨?_, ?_, ?_, ?_, ?_⟩
  · intro b hlow hhigh
    -- The block's group is its distance from the first data block, divided.
    have hmod := Nat.mod_lt (b - geom.firstDataBlock) hsize
    have hdiv := Nat.div_add_mod' (b - geom.firstDataBlock) geom.blocksPerGroup
    have hfirst : geom.groupFirstBlock ((b - geom.firstDataBlock) / geom.blocksPerGroup) ≤ b := by
      rw [groupFirstBlock]
      omega
    refine ⟨(b - geom.firstDataBlock) / geom.blocksPerGroup, (hlt _).mpr (by omega), hfirst, ?_⟩
    rw [hlast, groupFirstBlock]
    omega
  · intro g hg
    have := (hlt g).mp hg
    refine ⟨Nat.le_add_right _ _, ?_, ?_⟩
    · rw [hlast]
      omega
    · rw [hlast]
      omega
  · intro g g' b hg hg' h1 h2 h3 h4
    rw [hlast] at h2 h4
    rcases Nat.lt_trichotomy g g' with h | h | h
    · have := geom.groupFirstBlock_mono h
      rw [hnext] at this
      omega
    · exact h
    · have := geom.groupFirstBlock_mono h
      rw [hnext] at this
      omega
  · intro g hg
    have := (hlt _).mp hg
    rw [hnext] at this
    rw [hlast]
    omega
  · intro g hg
    rw [hlast]
    omega

/-- The superblock made from a computed geometry has its block size. -/
theorem superblock_blockSize {sizeBytes : Nat} {params : Params} {geom : Geometry} {req : Request}
    {start s : Nat × Nat} {grp : Groups} (h : geom.From sizeBytes params req start s grp)
    {plan : Format.Plan} (hplan : plan.geom = geom) (freeBlocks freeInodes : Nat) :
    (Format.buildSuperblock plan freeBlocks freeInodes).blockSize = geom.blockSize := by
  obtain ⟨descSize, hmade, hfin⟩ := h.made
  obtain ⟨k, hk, hlow, hhigh⟩ := hmade.blockSize
  show (1024 <<< (plan.geom.logBlockSize % 32)) % 2 ^ 32 = geom.blockSize
  rw [hplan, hfin.logBlockSize, hfin.blockSize, hk, Nat.log2_two_pow, Nat.shiftLeft_eq]
  have : 1024 * 2 ^ ((k - 10) % 32) = 2 ^ k := by
    rw [Nat.mod_eq_of_lt (by omega), show 1024 = 2 ^ 10 from rfl, ← Nat.pow_add,
      Nat.add_sub_cancel' hlow]
  rw [this]
  exact Nat.mod_eq_of_lt (Nat.pow_lt_pow_right (by decide) (by omega))

theorem superblock_descSize {sizeBytes : Nat} {params : Params} {geom : Geometry} {req : Request}
    {start s : Nat × Nat} {grp : Groups} (h : geom.From sizeBytes params req start s grp)
    {plan : Format.Plan} (hplan : plan.geom = geom) (freeBlocks freeInodes : Nat) :
    (Format.buildSuperblock plan freeBlocks freeInodes).descSize = geom.descSize := by
  obtain ⟨descSize, hmade, hfin⟩ := h.made
  simp only [Superblock.descSize, Format.buildSuperblock, hplan, hfin.sixtyFour, hfin.descSize,
    hmade.descSize]
  split
  · decide
  · rfl

/-- The superblock made from a computed geometry counts its groups as the geometry does. -/
theorem superblock_groupCount {sizeBytes : Nat} {params : Params} {geom : Geometry} {req : Request}
    {start s : Nat × Nat} {grp : Groups} (h : geom.From sizeBytes params req start s grp)
    {plan : Format.Plan} (hplan : plan.geom = geom) (freeBlocks freeInodes : Nat) :
    (Format.buildSuperblock plan freeBlocks freeInodes).groupCount = geom.groupCount := by
  obtain ⟨descSize, hmade, hfin⟩ := h.made
  have heq := h.settles.eq
  have hcount : geom.groupCount = req.groupsNeeded s % 2 ^ 32 := by
    rw [hfin.groupCount, heq]
    rfl
  have hsize : geom.blocksPerGroup = s.2 := by
    rw [hfin.blocksPerGroup, heq]
    rfl
  have hblocks : geom.blocksCount = s.1 := by
    rw [hfin.blocksCount, heq]
    rfl
  simp only [Superblock.groupCount, Format.buildSuperblock, hplan, hsize, hblocks,
    if_neg h.settles.size_ne, hfin.firstDataBlock, hcount]
  rfl

/-- The superblock made from a computed geometry reports the geometry's own numbers. -/
theorem superblock_reports {sizeBytes : Nat} {params : Params} {geom : Geometry} {req : Request}
    {start s : Nat × Nat} {grp : Groups} (htyped : params.Typed)
    (h : geom.From sizeBytes params req start s grp) {plan : Format.Plan} (hplan : plan.geom = geom)
    (freeBlocks freeInodes : Nat) :
    let sb := Format.buildSuperblock plan freeBlocks freeInodes
    sb.groupCount = geom.groupCount ∧ sb.gdtBlocks = geom.descBlocks ∧
      sb.itableBlocksPerGroup = geom.itableBlocksPerGroup := by
  intro sb
  have hbs : sb.blockSize = geom.blockSize := superblock_blockSize h hplan freeBlocks freeInodes
  obtain ⟨descSize, hmade, hfin⟩ := h.made
  have heq := h.settles.eq
  have hds : sb.descSize = geom.descSize := superblock_descSize h hplan freeBlocks freeInodes
  have hgc : sb.groupCount = geom.groupCount := superblock_groupCount h hplan freeBlocks freeInodes
  refine ⟨hgc, ?_, ?_⟩
  · have hper : sb.descPerBlock = req.descPerBlock := by
      rw [Superblock.descPerBlock, hbs, hds, hfin.blockSize, hfin.descSize, hmade.descPerBlock]
    have hblocks : geom.descBlocks = divCeil (req.groupCountAt s) req.descPerBlock := by
      rw [hfin.descBlocks, heq]
      rfl
    have hgroups : geom.groupCount = req.groupCountAt s := by
      rw [hfin.groupCount, heq]
      rfl
    rw [Superblock.gdtBlocks, hgc, hper, hblocks, hgroups]
    rfl
  · have hfits := hmade.table_fits htyped h.settles.count_ne h.settles.inodes_le h.settles.table
    obtain ⟨k, hk, -, -⟩ := hmade.inodesPerBlock_pow
    have hper : sb.inodesPerBlock = req.blockSize / req.inodeSize := by
      rw [Superblock.inodesPerBlock, hbs, hfin.blockSize]
      show req.blockSize / plan.geom.inodeSize = _
      rw [hplan, hfin.inodeSize]
    have hinodes : sb.inodesPerGroup = grp.itableBlocks * (req.blockSize / req.inodeSize) := by
      show plan.geom.inodesPerGroup = _
      rw [hplan, hfin.inodesPerGroup, hfits.whole]
    rw [Superblock.itableBlocksPerGroup, hper, hinodes, hfin.itable]
    exact divCeil_mul_self _ (hk ▸ Nat.two_pow_pos k)

section Fits

variable {sizeBytes : Nat} {params : Params} {geom : Geometry} {req : Request}
  {start s : Nat × Nat} {grp : Groups} (h : geom.From sizeBytes params req start s grp)

include h

/-- The loop only gives blocks up. -/
theorem Geometry.From.start_le : s.1 ≤ start.1 ∧ s.2 ≤ start.2 :=
  h.visits.invariant (I := fun x => x.1 ≤ start.1 ∧ x.2 ≤ start.2)
    (fun _ _ hxy hx => ⟨Nat.le_trans hxy.groups_le.1 hx.1, Nat.le_trans hxy.groups_le.2.1 hx.2⟩)
    ⟨Nat.le_refl _, Nat.le_refl _⟩

theorem Geometry.From.blocks_le : geom.blocksCount * geom.blockSize ≤ sizeBytes := by
  obtain ⟨descSize, hmade, hfin⟩ := h.made
  have hblocks : geom.blocksCount = s.1 := by
    rw [hfin.blocksCount, h.settles.eq]
    rfl
  rw [hblocks, hfin.blockSize]
  apply Nat.le_trans (Nat.mul_le_mul_right _ h.start_le.1)
  rw [hmade.blocks]
  exact Nat.div_mul_le_self _ _

end Fits

/-- What `compute` accepts fills its device exactly when the groups asked for are fewer than
2^32: from there on the cast group count is not the number of groups. -/
theorem fills_device_iff {sizeBytes : Nat} {params : Params} {geom : Geometry}
    (htyped : params.Typed) (h : compute sizeBytes params = .ok geom) :
    geom.FillsDevice sizeBytes ↔ FewGroups sizeBytes params := by
  obtain ⟨req, start, descSize, s, grp, hreq, hfrom⟩ := compute_from h
  obtain ⟨descSize', hmade, hfin⟩ := hfrom.made
  have heq := hfrom.settles.eq
  have hsize : geom.blocksPerGroup = s.2 := by
    rw [hfin.blocksPerGroup, heq]
    rfl
  have hblocks : geom.blocksCount = s.1 := by
    rw [hfin.blocksCount, heq]
    rfl
  have hcount : geom.groupCount = req.groupCountAt s := by
    rw [hfin.groupCount, heq]
    rfl
  have hs2 := Nat.pos_of_ne_zero hfrom.settles.size_ne
  have hdata : req.firstDataBlock < s.1 := by
    -- No group at all would be needed otherwise.
    by_contra hle
    apply hfrom.settles.count_ne
    have hzero : s.1 - req.firstDataBlock = 0 := Nat.sub_eq_zero_of_le (Nat.le_of_not_lt hle)
    have hnone : divCeil 0 s.2 = 0 := Nat.le_zero.mp ((divCeil_le_iff hs2).mpr (Nat.zero_le _))
    rw [Request.groupCountAt, Request.groupsNeeded, hzero, hnone]
    exact Nat.zero_mod _
  constructor
  · intro hfills req' start' descSize' hreq'
    obtain ⟨rfl, rfl, rfl⟩ : req' = req ∧ start' = start ∧ descSize' = descSize := by
      rw [hreq] at hreq'
      have := Except.ok.inj hreq'
      simp only [Prod.mk.injEq] at this
      exact ⟨this.1.symm, this.2.1.symm, this.2.2.symm⟩
    by_contra hmany
    have hstart : req'.groupCountAt start' ≠ 0 := by
      rcases hfrom.visits.cases_head with hs | ⟨_, hnext, -⟩
      · rw [hs]
        exact hfrom.settles.count_ne
      · cases hnext with
        | shrink hne => exact hne
        | drop _ hne => exact hne
    have hle := hfrom.start_le.2
    have hne : start'.2 ≠ 0 := by omega
    have hshort := hfrom.visits.groupCount_lt hfrom.settles hstart (Nat.le_of_not_lt hmany) hne
    -- The first block past the counted groups is in none of them.
    have hpast := (lt_divCeil_iff hs2).mp hshort
    rw [← hcount] at hpast
    obtain ⟨g, hg, hlow, hhigh⟩ := hfills.tiles.cover
      (req'.firstDataBlock + geom.groupCount * s.2)
      (by rw [hfin.firstDataBlock]; exact Nat.le_add_right _ _) (by rw [hblocks]; omega)
    have hlast := hfills.tiles.last g hg
    have hnext : (g + 1) * s.2 ≤ geom.groupCount * s.2 := Nat.mul_le_mul_right _ hg
    rw [Nat.succ_mul] at hnext
    rw [Geometry.groupFirstBlock, hfin.firstDataBlock, hsize] at hlast
    omega
  · intro hfew
    have hlt := hfrom.visits.invariant (fun _ _ hn => hn.needed_lt hmade.blockSize_bounds.1
      (hmade.requested_bounds htyped).2) (hfew _ _ _ hreq)
    have hexact : req.groupCountAt s = req.groupsNeeded s := Nat.mod_eq_of_lt hlt
    have hfits := hmade.table_fits htyped hfrom.settles.count_ne hfrom.settles.inodes_le
      hfrom.settles.table
    have hper := hmade.descPerBlock_bounds
    have hdesc : geom.descPerBlock = req.descPerBlock := by
      rw [Geometry.descPerBlock, hfin.blockSize, hfin.descSize, hmade.descPerBlock]
    have hdblocks : geom.descBlocks = divCeil geom.groupCount req.descPerBlock := by
      rw [hcount, hfin.descBlocks, heq]
      rfl
    refine ⟨?_, ?_, ?_, ?_, ?_, ?_⟩
    · apply Geometry.tiles_of_count
      · rw [hblocks, hfin.firstDataBlock]
        exact hdata
      · rw [hsize]
        exact hs2
      · rw [hcount, hexact, hblocks, hsize, hfin.firstDataBlock]
        rfl
    · exact hfrom.blocks_le
    · rw [hfin.inodesCount, hfin.inodesPerGroup, hfin.groupCount]
      exact ⟨rfl, hfin.inodes_lt⟩
    · rw [hfin.itable, hfin.blockSize, hfin.inodeSize, hfin.inodesPerGroup]
      exact hfits.whole
    · rw [hdesc, hdblocks]
      exact ⟨le_divCeil_mul _ (by omega), divCeil_mul_lt _ (by omega)⟩
    · intro plan freeBlocks freeInodes hplan
      exact superblock_reports htyped hfrom hplan freeBlocks freeInodes

theorem roomy_fills_device :
    compute ((3 * 256 + 1) * 1024) (smallGroups 1200) = .ok roomy ∧
      roomy.FillsDevice ((3 * 256 + 1) * 1024) := by
  have hok : compute ((3 * 256 + 1) * 1024) (smallGroups 1200) = .ok roomy := by decide +kernel
  refine ⟨hok, (fills_device_iff (smallGroups_typed (by decide)) hok).mpr ?_⟩
  intro req start descSize hreq
  have hfew : (computeRequest ((3 * 256 + 1) * 1024) (smallGroups 1200)).map
      (fun x => decide (x.1.groupsNeeded x.2.1 < 2 ^ 32)) = .ok true := by decide +kernel
  rw [hreq] at hfew
  exact of_decide_eq_true (Except.ok.inj hfew)

/-- 2^32 + 5 groups of 8192 one-kilobyte blocks. -/
def vastSize : Nat := (1 + 8192 * (2 ^ 32 + 5)) * 1024

def vastParams : Params := { blockSize := some 1024, inodesCount := some 80 }

theorem vastParams_typed : vastParams.Typed :=
  { Params.typed_default with
    blockSize := fun n hn => by cases hn; decide
    inodesCount := fun n hn => by cases hn; decide }

/-- What is made of them: five groups. -/
def vast : Geometry where
  blockSize := 1024
  logBlockSize := 0
  blocksCount := 1 + 8192 * (2 ^ 32 + 5)
  firstDataBlock := 1
  blocksPerGroup := 8192
  rBlocksCount := (1 + 8192 * (2 ^ 32 + 5)) * 5 / 100
  inodesCount := 80
  inodesPerGroup := 16
  inodeSize := 256
  itableBlocksPerGroup := 4
  groupCount := 5
  descSize := 64
  descBlocks := 1
  reservedGdtBlocks := 256
  logGroupsPerFlex := 4
  metaBg := false
  firstMetaBg := 0
  features := { compat := 0x103c, incompat := 0x22c2, roCompat := 0x46b }

/-- Block 40961 is the first past the five groups, and far from the last of the filesystem. -/
theorem vast_left_over :
    vastSize < 2 ^ 64 ∧ vastParams.Typed ∧ compute vastSize vastParams = .ok vast ∧
      ¬ vast.FillsDevice vastSize := by
  refine ⟨by decide, vastParams_typed, by decide +kernel, ?_⟩
  intro hfills
  obtain ⟨g, hg, hlow, hhigh⟩ := hfills.tiles.cover 40961 (by decide) (by decide)
  have hlast := hfills.tiles.last g hg
  have hg : g < 5 := hg
  have hfirst : vast.groupFirstBlock g = 1 + g * 8192 := rfl
  have hsize : vast.blocksPerGroup = 8192 := rfl
  omega

end MkfsExt4.Layout
