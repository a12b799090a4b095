/-
  The fronts of groups: where superblock copies and descriptors start, and what a computed
  geometry leaves a group to hold them. Only the descriptor tables that `meta_bg` keeps before
  `first_meta_bg` can be longer than that.
-/
import MkfsExt4.Layout.Derived
import MkfsExt4.Layout.Overlap

namespace MkfsExt4.Layout

open Lib.FirstFit Lib.Hoare

namespace Geometry

variable {geom : Geometry}

theorem groupFirstBlock_zero (geom : Geometry) : geom.groupFirstBlock 0 = geom.firstDataBlock := by
  rw [groupFirstBlock, Nat.zero_mul, Nat.add_zero]

/-- Past group 0, a group starts past the first data block. -/
theorem firstDataBlock_lt_groupFirstBlock (hpos : 0 < geom.blocksPerGroup) {g : Nat}
    (hg : 0 < g) : geom.firstDataBlock < geom.groupFirstBlock g := by
  have := Nat.mul_pos hg hpos
  unfold groupFirstBlock
  omega

theorem superOverhead_zero_pos (geom : Geometry) : 0 < geom.superOverhead 0 := by
  rw [superOverhead, hasSuper_le_one (Nat.zero_le 1), Bool.toNat_true]
  omega

/-- The block of the primary superblock is free to nothing else. -/
theorem Free.firstDataBlock_lt (hpos : 0 < geom.blocksPerGroup) {b : Nat} (h : geom.Free b) :
    geom.firstDataBlock < b := by
  unfold Free inSuperRegion at h
  split at h
  · cases h
  dsimp only at h
  split at h
  · cases h
  have hfront := of_decide_eq_false h
  generalize (b - geom.firstDataBlock) / geom.blocksPerGroup % 2 ^ 32 = g at hfront
  rcases Nat.eq_zero_or_pos g with rfl | hg
  · have := geom.superOverhead_zero_pos
    rw [groupFirstBlock_zero] at hfront
    omega
  · have := firstDataBlock_lt_groupFirstBlock hpos hg
    omega

/-- The blocks of a group's metadata are free of superblock and descriptor regions. -/
theorem part_clear (hlen : 0 < geom.itableBlocksPerGroup) {g : Nat} {lay : GroupLayout}
    (h : geom.group g = .ok lay) (p : Part) :
    Clear geom.Free (geom.part lay p).1 (geom.part lay p).2 := by
  obtain ⟨hg, placement, hplace⟩ := group_ok h
  obtain ⟨f, i, rfl, hi, hf, hfc, hff⟩ := exists_member hg
  rw [hff] at hplace
  obtain ⟨runs, e, hplaced⟩ := flexPlaced_of_ok hlen hf hfc hplace
  intro b hlow hhigh
  exact (hplaced.bounds (List.mem_of_getElem? (hplaced.part_mem hi h p)) ⟨hlow, hhigh⟩).2.2

/-- A run of free blocks ends inside the filesystem. -/
theorem end_le_of_clear {s len : Nat} (hlen : 0 < len) (h : Clear geom.Free s len) :
    s + len ≤ geom.blocksCount := by
  have := (h (s + len - 1) (by omega) (by omega)).lt_blocksCount
  omega

/-- Where a descriptor block copy starts: past the superblock copy. -/
theorem descBlockLocation_some {g c : Nat} (h : geom.descBlockLocation g = some c) :
    geom.groupHasDesc g = true ∧ c = geom.groupFirstBlock g + (geom.hasSuper g).toNat := by
  unfold descBlockLocation at h
  split at h
  · cases h
  · next hdesc =>
    cases h
    exact ⟨by simpa using hdesc, rfl⟩

/-- A descriptor block copy never starts on the primary superblock. -/
theorem firstDataBlock_lt_of_location (hpos : 0 < geom.blocksPerGroup) {g c : Nat}
    (h : geom.descBlockLocation g = some c) : geom.firstDataBlock < c := by
  obtain ⟨-, rfl⟩ := descBlockLocation_some h
  rcases Nat.eq_zero_or_pos g with rfl | hg
  · rw [groupFirstBlock_zero, hasSuper_le_one (Nat.zero_le 1), Bool.toNat_true]
    omega
  · exact Nat.lt_add_right _ (firstDataBlock_lt_groupFirstBlock hpos hg)

end Geometry

/-! ## What a computed geometry leaves a group -/

/-- A group is whole, or it is the last and has room for what `overhead_last` counts. -/
def Geometry.HoldsFront (geom : Geometry) (g : Nat) : Prop :=
  geom.groupFirstBlock g + geom.blocksPerGroup ≤ geom.blocksCount ∨
    geom.groupFirstBlock g + (2 + geom.itableBlocksPerGroup +
      if geom.hasSuper g then 1 + geom.descBlocks + geom.reservedGdtBlocks else 0) ≤
        geom.blocksCount

theorem hasSuperFor_congr {features features' : FeatureMasks} (g : Nat)
    (h : features.roCompat = features'.roCompat) :
    hasSuperFor g features = hasSuperFor g features' := by
  rw [hasSuperFor, hasSuperFor, h]

namespace Geometry.From

variable {sizeBytes : Nat} {params : Params} {geom : Geometry} {req : Request}
  {start s : Nat × Nat} {grp : Groups}

theorem holdsFront (h : geom.From sizeBytes params req start s grp) {g : Nat}
    (hg : g < geom.groupCount) : geom.HoldsFront g := by
  obtain ⟨descSize, hmade, hfin⟩ := h.made
  have hset := h.settles
  have hcount : geom.groupCount = req.groupCountAt s := by rw [hfin.groupCount, hset.eq]; rfl
  have hblocks : geom.blocksCount = s.1 := by rw [hfin.blocksCount, hset.eq]; rfl
  have hsize : geom.blocksPerGroup = s.2 := by rw [hfin.blocksPerGroup, hset.eq]; rfl
  have hpos : 0 < s.2 := Nat.pos_of_ne_zero hset.size_ne
  have hcast : req.groupCountAt s ≤ req.groupsNeeded s := Nat.mod_le _ _
  have hdiv := Nat.div_add_mod' (s.1 - req.firstDataBlock) s.2
  have hdata : req.firstDataBlock ≤ s.1 := by
    have := (lt_divCeil_iff (a := s.1 - req.firstDataBlock) (n := 0) hpos).mp
      (show 0 < req.groupsNeeded s by have := hset.count_ne; omega)
    omega
  unfold Geometry.HoldsFront Geometry.groupFirstBlock
  rw [hsize, hblocks, hfin.firstDataBlock]
  by_cases hnext : (g + 1) * s.2 ≤ s.1 - req.firstDataBlock
  · left
    rw [Nat.succ_mul] at hnext
    omega
  right
  -- The group is the last one, and short.
  have hneeded : req.groupsNeeded s ≤ g + 1 := (divCeil_le_iff hpos).mpr (by omega)
  have hlow := (lt_divCeil_iff hpos).mp (show g < req.groupsNeeded s by omega)
  have hg' : (s.1 - req.firstDataBlock) / s.2 = g := by
    rw [Nat.succ_mul] at hnext
    exact Nat.div_eq_of_lt_le (by omega) (by rw [Nat.succ_mul]; omega)
  rw [hg'] at hdiv
  have hrem : req.remAt s = (s.1 - req.firstDataBlock) % s.2 := rfl
  have hroom := hset.room.resolve_left (by omega)
  have hlast : req.groupCountAt s - 1 = g := by omega
  have hover : 2 + geom.itableBlocksPerGroup +
      (if geom.hasSuper g then 1 + geom.descBlocks + geom.reservedGdtBlocks else 0) ≤
        req.overheadLastAt s grp.itableBlocks := by
    have hsup : geom.hasSuper g = hasSuperFor g req.features :=
      hasSuperFor_congr g hfin.roCompat
    have hres : geom.reservedGdtBlocks ≤ req.reservedGdtAt s := by
      rw [hfin.reservedGdt, hset.eq]
      split
      · exact Nat.zero_le _
      · exact Nat.le_refl _
    have hdesc : geom.descBlocks = req.descBlocksAt s := by rw [hfin.descBlocks, hset.eq]; rfl
    rw [Request.overheadLastAt, Request.overheadLast, hlast, hsup, hfin.itable, hdesc]
    split <;> omega
  omega

theorem descBlocks_eq (h : geom.From sizeBytes params req start s grp) :
    geom.descBlocks = divCeil geom.groupCount geom.descPerBlock := by
  obtain ⟨descSize, hmade, hfin⟩ := h.made
  rw [hfin.descBlocks, hfin.groupCount, h.settles.eq, Geometry.descPerBlock, hfin.blockSize,
    hfin.descSize, ← hmade.descPerBlock]
  rfl

theorem blockSize_pow (h : geom.From sizeBytes params req start s grp) :
    ∃ k, geom.blockSize = 2 ^ k ∧ 10 ≤ k ∧ k ≤ 16 := by
  obtain ⟨descSize, hmade, hfin⟩ := h.made
  rw [hfin.blockSize]
  exact hmade.blockSize

theorem firstDataBlock_eq (h : geom.From sizeBytes params req start s grp) :
    geom.firstDataBlock = if geom.blockSize = 1024 then 1 else 0 := by
  obtain ⟨descSize, hmade, hfin⟩ := h.made
  rw [hfin.firstDataBlock, hfin.blockSize, hmade.firstDataBlock]

/-- Descriptors fill their blocks. -/
theorem descSize_mul (h : geom.From sizeBytes params req start s grp) :
    geom.descPerBlock * geom.descSize = geom.blockSize := by
  obtain ⟨descSize, hmade, hfin⟩ := h.made
  obtain ⟨k, hk, hlow, -⟩ := hmade.blockSize
  apply Nat.div_mul_cancel
  rw [hfin.descSize, hfin.blockSize, hk]
  rcases hmade.descSize_eq with hd | hd <;> rw [hd]
  · exact Nat.pow_dvd_pow 2 (show 5 ≤ k by omega)
  · exact Nat.pow_dvd_pow 2 (show 6 ≤ k by omega)

/-- Inode tables are whole blocks of inodes, and group 0's has the reserved ones. -/
theorem table_bytes (h : geom.From sizeBytes params req start s grp) (htyped : params.Typed) :
    geom.inodesPerGroup * geom.inodeSize = geom.itableBlocksPerGroup * geom.blockSize ∧
      12 ≤ geom.inodesPerGroup := by
  obtain ⟨descSize, hmade, hfin⟩ := h.made
  have hfits := hmade.table_fits htyped h.settles.count_ne h.settles.inodes_le h.settles.table
  obtain ⟨k, -, -, hmul⟩ := hmade.inodesPerBlock_pow
  have hgroup0 := hfin.group0
  have hfirst : goodOldFirstIno = 11 := rfl
  rw [hfin.inodesPerGroup, hfin.inodeSize, hfin.itable, hfin.blockSize]
  constructor
  · rw [← hfits.whole, Nat.mul_assoc, Nat.mul_comm (req.blockSize / req.inodeSize), hmul]
  · have := hfits.eight
    omega

/-- One bitmap block has a bit for every inode of a group. -/
theorem inodes_le_bits (h : geom.From sizeBytes params req start s grp) (htyped : params.Typed) :
    geom.inodesPerGroup ≤ 8 * geom.blockSize := by
  obtain ⟨descSize, hmade, hfin⟩ := h.made
  have hfits := hmade.table_fits htyped h.settles.count_ne h.settles.inodes_le h.settles.table
  rw [hfin.inodesPerGroup, hfin.blockSize, Nat.mul_comm]
  exact hfits.le

end Geometry.From

section Room

variable {geom : Geometry}

/-- A group has two blocks at its front. -/
theorem Geometry.HoldsFront.two {g : Nat} (h : geom.HoldsFront g) (hc : Computed geom)
    (hdesc : 0 < geom.descBlocks) : geom.groupFirstBlock g + 2 ≤ geom.blocksCount := by
  have hbpg : 2 ≤ geom.blocksPerGroup := by
    cases hm : geom.metaBg with
    | true =>
      have := (hc.distributed hm).2
      omega
    | false =>
      have := hc.classic hm
      omega
  rcases h with h | h <;> omega

/-- Without `meta_bg` a group that carries a superblock holds its whole descriptor table. -/
theorem Geometry.HoldsFront.table {g : Nat} (h : geom.HoldsFront g) (hc : Computed geom)
    (hm : geom.metaBg = false) (hsuper : geom.hasSuper g = true) :
    geom.groupFirstBlock g + 1 + geom.descBlocks + geom.reservedGdtBlocks ≤ geom.blocksCount := by
  have := hc.classic hm
  rcases h with h | h
  · omega
  · rw [if_pos hsuper] at h
    omega

end Room

end MkfsExt4.Layout
