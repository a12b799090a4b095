/-
  Computing a geometry (`Geometry::compute` in `src/layout.rs`) from a device size and the
  parameters.

  Numbers are naturals; `% 2 ^ 32` stands where the source casts a 64-bit value to 32 bits.
  A division by zero stops the program (`Failure.panicked`). The retry loop has no bound of
  its own in the source, so the model's takes fuel and answers `Failure.looping` without it.
-/
import MkfsExt4.Layout.Geometry
import MkfsExt4.Lib.Hoare
import MkfsExt4.Structs.Superblock

namespace MkfsExt4.Layout

open Lib.Hoare

/-- `a.div_ceil(b)` -/
def divCeil (a b : Nat) : Nat := (a + b - 1) / b

/-- `n.is_power_of_two()` -/
def isPowerOfTwo (n : Nat) : Bool := n != 0 && n &&& (n - 1) == 0

/-- `EXT2_MAX_BLOCKS_PER_GROUP`: the 16-bit free-block counter sets the ceiling. -/
def maxBlocksPerGroup : Nat := 2 ^ 16 - 8

/-- `EXT2_MAX_INODES_PER_GROUP` -/
def maxInodesPerGroup (blockSize inodeSize : Nat) : Nat := 2 ^ 16 - blockSize / inodeSize

/-- Stop with an error when `bad` holds. -/
def refuse (bad : Prop) [Decidable bad] (e : Error) : Except Failure Unit :=
  if bad then .error (.error e) else .ok ()

def incompatible {α : Type} : Except String α → Except Failure α
  | .ok a => .ok a
  | .error msg => .error (.error (.incompatibleFeatures msg))

/-! ## Sizes -/

def validateBlockSize (blockSize : Nat) : Except Failure Unit :=
  refuse (¬ (1024 ≤ blockSize ∧ blockSize ≤ 65536) ∨ !isPowerOfTwo blockSize)
    (.invalidParams s!"block size {blockSize} must be a power of two between 1024 and 65536")

def validateInodeSize (inodeSize blockSize : Nat) : Except Failure Unit := do
  refuse (inodeSize < 128 ∨ !isPowerOfTwo inodeSize)
    (.invalidParams s!"inode size {inodeSize} must be a power of two of at least 128")
  refuse (blockSize < inodeSize)
    (.invalidParams s!"inode size {inodeSize} exceeds the block size {blockSize}")

/-- The block size asked for, or the size class's, never below the device's sector. -/
def chooseBlockSize (params : Params) (sizeClass : SizeType) : Except Failure Nat := do
  let sectorSize := max (params.sectorSize.getD 512) 1
  match params.blockSize with
  | some explicit =>
    refuse (explicit < sectorSize) (.invalidParams (s!"a block size of {explicit} is smaller " ++
      s!"than the device's {sectorSize}-byte sector; the filesystem could not be written " ++
      "a block at a time"))
    return explicit
  | none => return max sizeClass.blockSize sectorSize

/-- The inode count asked for, before it is rounded to fill inode tables. -/
def requestedInodes (params : Params) (sizeClass : SizeType) (features : FeatureMasks)
    (blocksCount blockSize : Nat) : Except Failure Nat :=
  match params.inodesCount with
  | some n => .ok (max n (goodOldFirstIno + 1))
  | none =>
    let ratio := params.inodeRatio.getD sizeClass.inodeRatio
    if ratio = 0 then .error .panicked
    else
      let n := max (blocksCount * blockSize / ratio) 16
      if n < 2 ^ 32 then .ok n
      else if features.incompat.contains IncompatFeatures.sixtyFourBit then .ok (2 ^ 32 - 1)
      else .error (.error (.invalidParams s!"too many inodes ({n}), raise the inode ratio"))

/-- Reserved descriptor blocks, enough to grow the filesystem 1024-fold, capped at what one
indirect block can address. -/
def calcReservedGdtBlocks (blocksCount firstDataBlock blocksPerGroup descPerBlock descBlocks
    blockSize : Nat) : Nat :=
  let maxBlocks := if blocksCount < (2 ^ 32 - 1) / 1024 then blocksCount * 1024 else 2 ^ 32 - 1
  let rsvGroups := divCeil (maxBlocks - firstDataBlock) blocksPerGroup
  let rsvGdb := divCeil rsvGroups descPerBlock % 2 ^ 32 - descBlocks
  min rsvGdb (blockSize / 4) % 2 ^ 16

/-! ## The retry loop -/

/-- What the retry loop reads and does not change. -/
structure Request where
  blockSize : Nat
  inodeSize : Nat
  firstDataBlock : Nat
  descPerBlock : Nat
  requestedInodes : Nat
  features : FeatureMasks

/-- What the retry loop settles. -/
structure Groups where
  blocksCount : Nat
  blocksPerGroup : Nat
  groupCount : Nat
  descBlocks : Nat
  inodesPerGroup : Nat
  itableBlocks : Nat
  reservedGdt : Nat
deriving DecidableEq, Repr

/-- Not even one inode per group fits the 32-bit total. -/
def tooManyGroups (groupCount : Nat) : Failure :=
  .error (.invalidParams (s!"{groupCount} block groups cannot each hold an inode table " ++
    "within the 32-bit inode count"))

namespace Request

variable (req : Request)

/-- An inode count rounded out to whole inode-table blocks, then down to a multiple of 8. -/
def roundInodes (ipg : Nat) : Nat :=
  let inodesPerBlock := req.blockSize / req.inodeSize
  max (divCeil ipg inodesPerBlock * inodesPerBlock) 8 / 8 * 8

/-- The rounded count and the blocks of its table, when the total fits 32 bits. -/
def tryInodes (groupCount ipg : Nat) : Option (Nat × Nat) :=
  let rounded := req.roundInodes ipg
  if rounded * groupCount ≤ 2 ^ 32 - 1 then
    some (rounded, divCeil (rounded * req.inodeSize) req.blockSize)
  else none

/-- Inodes per group and the blocks of their table: the rounding is repeated with one inode
less until it fits. -/
def fitInodes (groupCount : Nat) : (ipg : Nat) → Except Failure (Nat × Nat)
  | 0 => (req.tryInodes groupCount 0).elim (.error (tooManyGroups groupCount)) .ok
  | ipg + 1 =>
    match req.tryInodes groupCount (ipg + 1) with
    | some fitted => .ok fitted
    | none => if ipg = 0 then .error (tooManyGroups groupCount) else fitInodes groupCount ipg

def reservedGdt (blocksCount blocksPerGroup descBlocks : Nat) : Nat :=
  if req.features.compat.contains CompatFeatures.resizeInode then
    calcReservedGdtBlocks blocksCount req.firstDataBlock blocksPerGroup req.descPerBlock
      descBlocks req.blockSize
  else 0

/-- What the last group's own metadata takes. -/
def overheadLast (groupCount itableBlocks descBlocks reservedGdt : Nat) : Nat :=
  2 + itableBlocks +
    if hasSuperFor (groupCount - 1) req.features then 1 + descBlocks + reservedGdt else 0

/-- The loop of `compute`: too many inodes for one group's bitmap shrink the group, and a
last group too short for its own metadata is dropped. -/
def retry : (fuel blocksCount blocksPerGroup : Nat) → Except Failure Groups
  | 0, _, _ => .error .looping
  | fuel + 1, blocksCount, blocksPerGroup =>
    if blocksPerGroup = 0 then .error .panicked
    else
      let dataBlocks := blocksCount - req.firstDataBlock
      let groupCount := divCeil dataBlocks blocksPerGroup % 2 ^ 32
      if groupCount = 0 then .error (.error (.deviceTooSmall blocksCount 1 req.blockSize))
      else
        let descBlocks := divCeil groupCount req.descPerBlock
        let ipg := divCeil req.requestedInodes groupCount
        if req.blockSize * 8 < ipg then
          if 256 ≤ blocksPerGroup then retry fuel blocksCount (blocksPerGroup - 8)
          else .error (.error (.invalidParams "too many inodes requested for this block size"))
        else
          match req.fitInodes groupCount (min ipg (maxInodesPerGroup req.blockSize req.inodeSize))
          with
          | .error e => .error e
          | .ok (inodesPerGroup, itableBlocks) =>
            let reservedGdt := req.reservedGdt blocksCount blocksPerGroup descBlocks
            let overheadLast := req.overheadLast groupCount itableBlocks descBlocks reservedGdt
            let rem := dataBlocks % blocksPerGroup
            if groupCount = 1 ∧ rem ≠ 0 ∧ rem < overheadLast then
              .error (.error (.deviceTooSmall blocksCount overheadLast req.blockSize))
            else if rem ≠ 0 ∧ rem < overheadLast + 50 then
              retry fuel (blocksCount - rem) blocksPerGroup
            else
              .ok { blocksCount, blocksPerGroup, groupCount, descBlocks, inodesPerGroup,
                    itableBlocks, reservedGdt }

/-- Whether descriptors go to their meta block groups: asked for, or because the table would
swallow three quarters of a group. -/
def metaBg (grp : Groups) : Bool :=
  req.features.incompat.contains IncompatFeatures.metaBg ||
    grp.blocksPerGroup * 3 / 4 < grp.reservedGdt + grp.descBlocks

end Request

/-! ## After the loop -/

/-- `default_journal_blocks`: the journal the size class makes, if it makes one. -/
def defaultJournalBlocks (numBlocks : Nat) : Option Nat :=
  if numBlocks < 2048 then none
  else if numBlocks < 32768 then some 1024
  else if numBlocks < 256 * 1024 then some 4096
  else if numBlocks < 512 * 1024 then some 8192
  else if numBlocks < 4096 * 1024 then some 16384
  else if numBlocks < 8192 * 1024 then some 32768
  else if numBlocks < 16384 * 1024 then some 65536
  else if numBlocks < 32768 * 1024 then some 131072
  else some 262144

def chooseFlex (params : Params) (features : FeatureMasks) : Except Failure Nat :=
  if features.incompat.contains IncompatFeatures.flexBg then do
    let size := params.flexBgSize.getD 16
    refuse (!isPowerOfTwo size) (.invalidParams s!"flex_bg size {size} is not a power of two")
    return size.log2
  else return 0

/-- A filesystem must not advertise a journal it does not have. -/
def dropJournal (params : Params) (features : FeatureMasks) (blocksCount : Nat) :
    Except Failure FeatureMasks :=
  if params.journal = .default ∧ features.compat.contains CompatFeatures.hasJournal ∧
      defaultJournalBlocks blocksCount = none then
    incompatible (normalise
      { features with compat := features.compat.remove CompatFeatures.hasJournal })
  else return features

/-- The geometry for what the loop settled: the switch to `meta_bg`, the flex groups and the
checks that follow. -/
def finish (params : Params) (req : Request) (descSize : Nat) (grp : Groups) :
    Except Failure Geometry := do
  refuse (2 ^ 32 ≤ grp.inodesPerGroup * grp.groupCount)
    (.invalidParams "inode count overflows 32 bits")
  let inodesCount := grp.inodesPerGroup * grp.groupCount
  let group0Inodes := goodOldFirstIno +
    (req.features.compat.contains CompatFeatures.orphanFile).toNat
  let inodesPerGroup := grp.inodesPerGroup
  refuse (inodesPerGroup < group0Inodes)
    (.invalidParams (s!"{inodesPerGroup} inodes per group cannot hold the {group0Inodes} " ++
      "inodes group 0 needs; request more inodes"))
  let metaBg := req.metaBg grp
  let features := if metaBg then
      { req.features with
        incompat := req.features.incompat ||| IncompatFeatures.metaBg
        compat := req.features.compat.remove CompatFeatures.resizeInode }
    else req.features
  let reservedGdt := if metaBg then 0 else grp.reservedGdt
  let firstMetaBg := if metaBg then params.firstMetaBg.getD 0 else 0
  refuse (metaBg ∧ grp.blocksPerGroup < 2 + grp.itableBlocks + 2)
    (.invalidParams "block groups are too small to hold their own metadata")
  let logGroupsPerFlex ← chooseFlex params features
  let features ← dropJournal params features grp.blocksCount
  let rBlocksCount := params.reservedBlocks grp.blocksCount
  refuse (grp.blocksCount ≤ rBlocksCount)
    (.invalidParams "reserved blocks would be the whole filesystem")
  let blocksCount := grp.blocksCount
  let blockSize := req.blockSize
  let limit := 2 ^ 32 - 1
  let tib := (2 ^ 32 - 1) * blockSize / (1024 * 1024 * 1024 * 1024)
  refuse (2 ^ 32 ≤ blocksCount ∧ ¬ features.incompat.contains IncompatFeatures.sixtyFourBit)
    (.incompatibleFeatures (s!"{blocksCount} blocks needs the 64bit feature; without it a " ++
      s!"filesystem tops out at {limit} blocks ({tib} TiB at {blockSize}-byte blocks)"))
  return {
    blockSize
    logBlockSize := blockSize.log2 - 10
    blocksCount
    firstDataBlock := req.firstDataBlock
    blocksPerGroup := grp.blocksPerGroup
    rBlocksCount
    inodesCount
    inodesPerGroup
    inodeSize := req.inodeSize
    itableBlocksPerGroup := grp.itableBlocks
    groupCount := grp.groupCount
    descSize
    descBlocks := grp.descBlocks
    reservedGdtBlocks := reservedGdt
    logGroupsPerFlex
    metaBg
    firstMetaBg
    features }

/-- The retry loop visits a group size at most twice, and sizes only shrink. -/
def retryFuel (blocksPerGroup : Nat) : Nat := 2 * blocksPerGroup + 2

/-- The geometry of a device of `sizeBytes`; only the placement of the last group is
tried. -/
def compute (sizeBytes : Nat) (params : Params) : Except Failure Geometry := do
  let features ← incompatible params.resolveFeatures
  let sizeClass := SizeType.of sizeBytes
  let blockSize ← chooseBlockSize params sizeClass
  validateBlockSize blockSize
  let inodeSize := params.inodeSize.getD 256
  validateInodeSize inodeSize blockSize
  let firstDataBlock := if blockSize = 1024 then 1 else 0
  let blocksCount := sizeBytes / blockSize
  refuse (blocksCount ≤ firstDataBlock)
    (.deviceTooSmall blocksCount (firstDataBlock + 1) blockSize)
  let requestedInodes ← requestedInodes params sizeClass features blocksCount blockSize
  let blocksPerGroup := min (params.blocksPerGroup.getD (blockSize * 8)) maxBlocksPerGroup
  let descSize := if features.incompat.contains IncompatFeatures.sixtyFourBit then
    minDescSize64bit else minDescSize
  let req : Request := { blockSize, inodeSize, firstDataBlock, requestedInodes, features,
                         descPerBlock := blockSize / descSize }
  let grp ← req.retry (retryFuel blocksPerGroup) blocksCount blocksPerGroup
  let geom ← finish params req descSize grp
  match geom.group (geom.groupCount - 1) with
  | .error e => .error (.error e)
  | .ok _ => return geom

/-! ## What a computed geometry keeps -/

theorem refuse_ok {bad : Prop} [Decidable bad] {e : Error} {u : Unit}
    (h : refuse bad e = .ok u) : ¬ bad := by
  unfold refuse at h
  split at h
  · cases h
  · assumption

theorem divCeil_pos {a b : Nat} (ha : 0 < a) (hb : 0 < b) : 0 < divCeil a b :=
  Nat.div_pos (by omega) hb

theorem Request.fitInodes_pos {req : Request} (hb : 0 < req.blockSize) (hi : 0 < req.inodeSize)
    {groupCount ipg n t : Nat} (h : req.fitInodes groupCount ipg = .ok (n, t)) : 0 < t := by
  have htry : ∀ ipg n t, req.tryInodes groupCount ipg = some (n, t) → 0 < t := by
    intro ipg n t h
    simp only [tryInodes] at h
    split at h
    · cases h
      apply divCeil_pos _ hb
      apply Nat.mul_pos _ hi
      have : 8 / 8 * 8 ≤ req.roundInodes ipg := by
        apply Nat.mul_le_mul_right
        apply Nat.div_le_div_right
        exact Nat.le_max_right _ _
      omega
    · cases h
  induction ipg with
  | zero =>
    unfold fitInodes at h
    cases h0 : req.tryInodes groupCount 0 with
    | none => simp [h0] at h
    | some r =>
      rw [h0] at h
      cases h
      exact htry _ _ _ h0
  | succ ipg ih =>
    unfold fitInodes at h
    split at h
    case h_1 h1 =>
      cases h
      exact htry _ _ _ h1
    case h_2 =>
      split at h
      · cases h
      · exact ih h

theorem Request.fitInodes_ne_looping {req : Request} {groupCount ipg : Nat} :
    req.fitInodes groupCount ipg ≠ .error .looping := by
  induction ipg with
  | zero =>
    unfold fitInodes
    cases req.tryInodes groupCount 0 with
    | none => exact fun h => nomatch h
    | some r => exact fun h => nomatch h
  | succ ipg ih =>
    unfold fitInodes
    split
    · exact fun h => nomatch h
    · split
      · exact fun h => nomatch h
      · exact ih

/-- The retry loop ends: a turn either takes 8 blocks off the group size, or drops a last
group that is short, which cannot be the case twice for one group size. -/
theorem Request.retry_ne_looping {req : Request} {fuel blocksCount blocksPerGroup : Nat}
    (hfuel : 2 * blocksPerGroup +
      (if (blocksCount - req.firstDataBlock) % blocksPerGroup = 0 then 0 else 1) < fuel) :
    req.retry fuel blocksCount blocksPerGroup ≠ .error .looping := by
  induction fuel generalizing blocksCount blocksPerGroup with
  | zero => omega
  | succ fuel ih =>
    simp only [retry]
    split
    · exact fun h => nomatch h
    rename_i hbpg
    split
    · exact fun h => nomatch h
    split
    · split
      · apply ih
        split <;> omega
      · exact fun h => nomatch h
    split
    · rename_i e he
      intro h
      cases h
      exact fitInodes_ne_looping he
    split
    · exact fun h => nomatch h
    split
    · rename_i hrem
      apply ih
      have hdrop : (blocksCount - (blocksCount - req.firstDataBlock) % blocksPerGroup -
          req.firstDataBlock) % blocksPerGroup = 0 := by
        rw [Nat.sub_right_comm]
        exact Nat.sub_mod_eq_zero_of_mod_eq (Nat.mod_mod _ _).symm
      rw [if_pos hdrop]
      rw [if_neg hrem.1] at hfuel
      omega
    · exact fun h => nomatch h

theorem Request.retry_retryFuel {req : Request} {blocksCount blocksPerGroup : Nat} :
    req.retry (retryFuel blocksPerGroup) blocksCount blocksPerGroup ≠ .error .looping := by
  apply retry_ne_looping
  unfold retryFuel
  split <;> omega

/-- What the retry loop guarantees of the groups it settles on. -/
theorem Request.retry_ok {req : Request} (hb : 0 < req.blockSize) (hi : 0 < req.inodeSize)
    {fuel blocksCount blocksPerGroup : Nat} {grp : Groups}
    (h : req.retry fuel blocksCount blocksPerGroup = .ok grp) :
    0 < grp.blocksPerGroup ∧ 0 < grp.groupCount ∧ grp.groupCount < 2 ^ 32 ∧
      0 < grp.itableBlocks := by
  induction fuel generalizing blocksCount blocksPerGroup with
  | zero => cases h
  | succ fuel ih =>
    simp only [retry] at h
    split at h
    · cases h
    rename_i hbpg
    split at h
    · cases h
    rename_i hgc
    split at h
    · split at h
      · exact ih h
      · cases h
    split at h
    · cases h
    rename_i n t hfit
    split at h
    · cases h
    split at h
    · exact ih h
    · cases h
      exact ⟨Nat.pos_of_ne_zero hbpg, Nat.pos_of_ne_zero hgc, Nat.mod_lt _ (by decide),
        fitInodes_pos hb hi hfit⟩

/-- What `compute` guarantees of the geometry it returns. -/
structure Computed (geom : Geometry) : Prop where
  blocksPerGroup_pos : 0 < geom.blocksPerGroup
  groupCount_pos : 0 < geom.groupCount
  groupCount_lt : geom.groupCount < 2 ^ 32
  itable_pos : 0 < geom.itableBlocksPerGroup
  descPerBlock_ge : 16 ≤ geom.descPerBlock
  classic : geom.metaBg = false →
    geom.descBlocks + geom.reservedGdtBlocks + 1 ≤ geom.blocksPerGroup
  distributed : geom.metaBg = true →
    geom.reservedGdtBlocks = 0 ∧ geom.itableBlocksPerGroup + 4 ≤ geom.blocksPerGroup
  last : ∃ lay, geom.group (geom.groupCount - 1) = .ok lay

theorem finish_ok {params : Params} {req : Request} {descSize : Nat} {grp : Groups}
    {geom : Geometry} (h : finish params req descSize grp = .ok geom) :
    geom.blockSize = req.blockSize ∧ geom.descSize = descSize ∧
      geom.blocksPerGroup = grp.blocksPerGroup ∧ geom.groupCount = grp.groupCount ∧
      geom.itableBlocksPerGroup = grp.itableBlocks ∧
      (geom.metaBg = false →
        geom.descBlocks + geom.reservedGdtBlocks ≤ geom.blocksPerGroup * 3 / 4) ∧
      (geom.metaBg = true →
        geom.reservedGdtBlocks = 0 ∧ geom.itableBlocksPerGroup + 4 ≤ geom.blocksPerGroup) := by
  obtain ⟨_, -, h⟩ := bind_ok h
  obtain ⟨_, -, h⟩ := bind_ok h
  obtain ⟨_, hmeta, h⟩ := bind_ok h
  obtain ⟨flex, -, h⟩ := bind_ok h
  obtain ⟨features, -, h⟩ := bind_ok h
  obtain ⟨_, -, h⟩ := bind_ok h
  obtain ⟨_, -, h⟩ := bind_ok h
  cases h
  have hmeta := refuse_ok hmeta
  refine ⟨rfl, rfl, rfl, rfl, rfl, ?_, ?_⟩
  · intro (hm : req.metaBg grp = false)
    have hle : ¬ grp.blocksPerGroup * 3 / 4 < grp.reservedGdt + grp.descBlocks := by
      have hm' := hm
      simp only [Request.metaBg, Bool.or_eq_false_iff, decide_eq_false_iff_not] at hm'
      exact hm'.2
    simp only [hm, Bool.false_eq_true, if_false]
    omega
  · intro (hm : req.metaBg grp = true)
    simp only [hm, if_true, true_and] at hmeta ⊢
    omega

theorem compute_ok {sizeBytes : Nat} {params : Params} {geom : Geometry}
    (h : compute sizeBytes params = .ok geom) : Computed geom := by
  obtain ⟨features, -, h⟩ := bind_ok h
  obtain ⟨blockSize, -, h⟩ := bind_ok h
  obtain ⟨_, hblock, h⟩ := bind_ok h
  obtain ⟨_, hinode, h⟩ := bind_ok h
  obtain ⟨_, -, h⟩ := bind_ok h
  obtain ⟨inodes, -, h⟩ := bind_ok h
  obtain ⟨grp, hretry, h⟩ := bind_ok h
  obtain ⟨geom', hfinish, h⟩ := bind_ok h
  have hblock := refuse_ok hblock
  obtain ⟨_, hinode, -⟩ := bind_ok hinode
  have hinode := refuse_ok hinode
  have hsize : 1024 ≤ blockSize := by
    by_contra hlt
    exact hblock (Or.inl fun hin => hlt hin.1)
  have hisize : 128 ≤ params.inodeSize.getD 256 := by
    by_contra hlt
    exact hinode (Or.inl (Nat.lt_of_not_le hlt))
  obtain ⟨hpos, hgc, hlt, htable⟩ := Request.retry_ok (Nat.lt_of_lt_of_le (by decide) hsize)
    (Nat.lt_of_lt_of_le (by decide) hisize) hretry
  obtain ⟨hbs, hds, hbpg, hgroups, hitable, hclassic, hdist⟩ := finish_ok hfinish
  split at h
  · cases h
  rename_i lay hlast
  cases h
  refine ⟨hbpg ▸ hpos, hgroups ▸ hgc, hgroups ▸ hlt, hitable ▸ htable, ?_, ?_, hdist, lay, hlast⟩
  · -- 1024-byte blocks hold 16 of the larger descriptors.
    have hdesc : geom.descSize ≤ 64 ∧ 0 < geom.descSize := by
      rw [hds]
      split <;> decide
    rw [Geometry.descPerBlock, hbs]
    rw [Nat.le_div_iff_mul_le hdesc.2]
    exact Nat.le_trans (Nat.mul_le_mul_left 16 hdesc.1) hsize
  · intro hm
    have := hclassic hm
    omega

end MkfsExt4.Layout
