/-
  `Geometry::compute` as machine arithmetic. The model computes with naturals; here is what
  each stage has to fit for the source, which computes in 32 and 64 bits, to agree with it:
  no divisor is zero, no difference goes below zero, no sum or product leaves its type, and no
  cast cuts a number that is used afterwards.
-/
import MkfsExt4.Layout.Derived
import MkfsExt4.Layout.Overlap

namespace MkfsExt4.Layout

open Lib.Hoare

/-! ## What has to fit -/

/-- The arithmetic before the loop. -/
structure Request.InputsFit (req : Request) (start : Nat × Nat) : Prop where
  /-- `trailing_zeros() - 10` -/
  log : 10 ≤ req.blockSize.log2
  /-- `size_bytes / block_size`, `block_size / inode_size`, `.. / inodes_per_block` -/
  divisors : req.blockSize ≠ 0 ∧ req.inodeSize ≠ 0 ∧ req.blockSize / req.inodeSize ≠ 0 ∧
    req.descPerBlock ≠ 0
  /-- `blocks_count * block_size as u64` -/
  bytes : start.1 * req.blockSize < 2 ^ 64
  /-- `block_size * 8` -/
  bits : req.blockSize * 8 < 2 ^ 32
  /-- `(1 << 16) - block_size / inode_size` -/
  perBlock : req.blockSize / req.inodeSize ≤ 2 ^ 16
  requested : req.requestedInodes < 2 ^ 32

/-- The arithmetic of one turn of the retry loop, from the state it starts with. -/
structure Request.TurnFits (req : Request) (s : Nat × Nat) : Prop where
  /-- `.div_ceil(blocks_per_group)`, `% blocks_per_group` -/
  divisor : s.2 ≠ 0
  /-- `blocks_count - first_data_block` -/
  data : req.firstDataBlock ≤ s.1
  /-- `.. as u32`, the group count -/
  groups : req.groupsNeeded s < 2 ^ 32
  /-- `.. as u32`, what the last group is left with -/
  rem : req.remAt s < 2 ^ 32
  /-- `blocks_count -= rem` -/
  drop : req.remAt s ≤ s.1
  /-- `blocks_count * 1024`, in `calc_reserved_gdt_blocks` -/
  kilo : s.1 < (2 ^ 32 - 1) / 1024 → s.1 * 1024 < 2 ^ 64
  /-- `max_blocks - first_data_block` -/
  maxBlocks : req.firstDataBlock ≤ if s.1 < (2 ^ 32 - 1) / 1024 then s.1 * 1024 else 2 ^ 32 - 1
  /-- `.. as u32`, the descriptor blocks 1024 times the size needs -/
  reserved : divCeil (divCeil ((if s.1 < (2 ^ 32 - 1) / 1024 then s.1 * 1024 else 2 ^ 32 - 1) -
    req.firstDataBlock) s.2) req.descPerBlock < 2 ^ 32
  /-- `.. as u16`, the reserved descriptor blocks -/
  addresses : req.blockSize / 4 < 2 ^ 16
  /-- The inner loop: `itable_blocks * inodes_per_block`, `rounded * group_count` in 64 bits,
  `rounded * inode_size`. -/
  table : ∀ ipg ≤ maxInodesPerGroup req.blockSize req.inodeSize,
    divCeil ipg (req.blockSize / req.inodeSize) * (req.blockSize / req.inodeSize) < 2 ^ 32 ∧
    req.roundInodes ipg * req.groupCountAt s < 2 ^ 64 ∧ req.roundInodes ipg * req.inodeSize < 2 ^ 32
  /-- `overhead_last + 50` -/
  overhead : req.groupCountAt s ≠ 0 →
    divCeil req.requestedInodes (req.groupCountAt s) ≤ req.blockSize * 8 →
    ∀ n t, req.tableAt s = .ok (n, t) → req.overheadLastAt s t + 50 < 2 ^ 32

/-- The arithmetic on what the loop settles on. -/
structure Request.SettledFit (req : Request) (params : Params) (grp : Groups) : Prop where
  /-- `reserved_gdt as u32 + desc_blocks` -/
  reserved : grp.reservedGdt + grp.descBlocks < 2 ^ 32
  /-- `blocks_per_group * 3` -/
  threeQuarters : grp.blocksPerGroup * 3 < 2 ^ 32
  /-- `2 + itable_blocks_per_group + 2` -/
  table : 2 + grp.itableBlocks + 2 < 2 ^ 32
  rBlocks : params.reservedBlocks grp.blocksCount < 2 ^ 64
  /-- `u32::MAX as u64 * block_size as u64` -/
  tib : (2 ^ 32 - 1) * req.blockSize < 2 ^ 64

/-- The arithmetic of placing a geometry's last flex group. -/
structure Geometry.PlacementFits (geom : Geometry) : Prop where
  /-- `group_count - 1`, `blocks_count - 1` -/
  nonempty : 0 < geom.groupCount ∧ 0 < geom.blocksCount
  /-- `/ desc_per_block`, `/ blocks_per_group` -/
  divisors : geom.descPerBlock ≠ 0 ∧ geom.blocksPerGroup ≠ 0
  /-- `1 << log_groups_per_flex` -/
  shift : geom.logGroupsPerFlex < 32
  /-- `first_data_block + group * blocks_per_group`, and the group's end -/
  groups : ∀ g < geom.groupCount, geom.groupFirstBlock g + geom.blocksPerGroup < 2 ^ 64
  /-- `((block - first_data_block) / blocks_per_group) as u32` -/
  groupOf : ∀ b < geom.blocksCount, (b - geom.firstDataBlock) / geom.blocksPerGroup < 2 ^ 32
  /-- `has_super + desc_blocks + reserved_gdt_blocks` -/
  overhead : 1 + (geom.descBlocks + geom.reservedGdtBlocks) < 2 ^ 32
  /-- The cursor starts in the filesystem, is not moved past its end, and `cursor + itable_len`
  is formed from it. -/
  start : ∀ g < geom.groupCount,
    geom.groupFirstBlock (geom.flexFirstGroup g) ≤ geom.blocksCount
  cursor : ∀ fuel c, c ≤ geom.blocksCount → geom.skipSuper fuel c ≤ geom.blocksCount
  sum : geom.blocksCount + geom.itableBlocksPerGroup + 1 < 2 ^ 64
  /-- `placement[(g - flex_first) as usize]` -/
  index : ∀ g < geom.groupCount, ∀ placement,
    geom.placeFlex (geom.flexFirstGroup g) = .ok placement →
    g - geom.flexFirstGroup g < placement.length

/-- Every group's bitmaps fit one block. -/
structure Geometry.Bounded (geom : Geometry) : Prop where
  blocksPerGroup : 1 ≤ geom.blocksPerGroup ∧ geom.blocksPerGroup ≤ 8 * geom.blockSize
  inodesPerGroup : 8 ∣ geom.inodesPerGroup ∧ 1 ≤ geom.inodesPerGroup ∧
    geom.inodesPerGroup ≤ 8 * geom.blockSize
  groupCount : 1 ≤ geom.groupCount

/-- `compute` is total and bounded on a device and parameters: it returns a geometry or an
error, everything on the way fits its type, and a geometry's bitmaps fit their blocks. -/
structure Total (sizeBytes : Nat) (params : Params) : Prop where
  returns : ∀ f, compute sizeBytes params = .error f → ∃ e, f = .error e
  inputs : ∀ req start descSize, computeRequest sizeBytes params = .ok (req, start, descSize) →
    req.InputsFit start
  turns : ∀ req start descSize, computeRequest sizeBytes params = .ok (req, start, descSize) →
    ∀ s, req.Visits start s → req.TurnFits s
  settled : ∀ req start descSize, computeRequest sizeBytes params = .ok (req, start, descSize) →
    ∀ s grp, req.Visits start s → req.Settles s grp → req.SettledFit params grp
  placed : ∀ req start descSize, computeRequest sizeBytes params = .ok (req, start, descSize) →
    ∀ s grp geom, req.Visits start s → req.Settles s grp →
      finish params req descSize grp = .ok geom → geom.PlacementFits
  bounded : ∀ geom, compute sizeBytes params = .ok geom → geom.Bounded

/-! ## On which inputs -/

/-- The checks before the first division by a parameter pass. -/
structure Accepted (sizeBytes : Nat) (params : Params) (blockSize : Nat) : Prop where
  features : ∃ features, params.resolveFeatures = .ok features
  chosen : chooseBlockSize params (SizeType.of sizeBytes) = .ok blockSize
  valid : validateBlockSize blockSize = .ok ()
  inode : validateInodeSize (params.inodeSize.getD 256) blockSize = .ok ()
  data : (if blockSize = 1024 then 1 else 0) < sizeBytes / blockSize

/-- Neither divisor a caller may give is zero, and the groups asked for are fewer than 2^32. -/
structure Divides (sizeBytes : Nat) (params : Params) : Prop where
  ratio : ∀ blockSize, Accepted sizeBytes params blockSize → params.inodesCount = none →
    params.inodeRatio ≠ some 0
  groupSize : ∀ req start descSize,
    computeRequest sizeBytes params = .ok (req, start, descSize) → params.blocksPerGroup ≠ some 0
  few : FewGroups sizeBytes params

/-- The group size asked for is no more than the bits of a bitmap block. -/
def FitsBitmap (sizeBytes : Nat) (params : Params) : Prop :=
  ∀ req start descSize, computeRequest sizeBytes params = .ok (req, start, descSize) →
    start.2 ≤ 8 * req.blockSize

/-! ## How a computation ends -/

/-- Without a result, a computation ends in an error of the crate. -/
def Clean {α : Type} (x : Except Failure α) : Prop := ∀ f, x = .error f → ∃ e, f = .error e

theorem clean_ok {α : Type} (a : α) : Clean (.ok a : Except Failure α) := fun _ h => nomatch h

theorem clean_error {α : Type} (e : Error) : Clean (.error (.error e) : Except Failure α) := by
  intro f h
  cases h
  exact ⟨e, rfl⟩

theorem clean_bind {α β : Type} {x : Except Failure α} {f : α → Except Failure β} (hx : Clean x)
    (hf : ∀ a, x = .ok a → Clean (f a)) : Clean (x >>= f) := by
  cases x with
  | error e =>
    intro f' h
    cases h
    exact hx e rfl
  | ok a => exact hf a rfl

theorem clean_refuse (bad : Prop) [Decidable bad] (e : Error) : Clean (refuse bad e) := by
  unfold refuse
  split
  · exact clean_error e
  · exact clean_ok ()

theorem clean_incompatible {α : Type} (x : Except String α) : Clean (incompatible x) := by
  cases x with
  | error msg => exact clean_error _
  | ok a => exact clean_ok a

theorem clean_chooseBlockSize (params : Params) (sizeClass : SizeType) :
    Clean (chooseBlockSize params sizeClass) := by
  unfold chooseBlockSize
  dsimp only
  split
  · exact clean_bind (clean_refuse _ _) fun _ _ => clean_ok _
  · exact clean_ok _

theorem clean_requestedInodes {params : Params} {sizeClass : SizeType} {features : FeatureMasks}
    {blocksCount blockSize : Nat} (h : params.inodesCount = none → params.inodeRatio ≠ some 0) :
    Clean (requestedInodes params sizeClass features blocksCount blockSize) := by
  have hratio : params.inodesCount = none → params.inodeRatio.getD sizeClass.inodeRatio ≠ 0 := by
    intro hnone
    have := h hnone
    cases hr : params.inodeRatio with
    | none => cases sizeClass <;> decide
    | some r => simpa [hr] using this
  unfold requestedInodes
  split
  · exact clean_ok _
  · rename_i hnone
    dsimp only
    rw [if_neg (hratio hnone)]
    split
    · exact clean_ok _
    · split
      · exact clean_ok _
      · exact clean_error _

theorem clean_fitInodes (req : Request) (groupCount ipg : Nat) :
    Clean (req.fitInodes groupCount ipg) := by
  induction ipg with
  | zero =>
    unfold Request.fitInodes
    cases req.tryInodes groupCount 0 with
    | none => exact clean_error _
    | some fitted => exact clean_ok fitted
  | succ ipg ih =>
    unfold Request.fitInodes
    split
    · exact clean_ok _
    · split
      · exact clean_error _
      · exact ih

/-- The retry loop ends in a result or an error while its fuel lasts, from a group size that
is not zero. -/
theorem clean_retry {req : Request} {fuel blocksCount blocksPerGroup : Nat}
    (hsize : blocksPerGroup ≠ 0)
    (hfuel : req.retry fuel blocksCount blocksPerGroup ≠ .error .looping) :
    Clean (req.retry fuel blocksCount blocksPerGroup) := by
  induction fuel generalizing blocksCount blocksPerGroup with
  | zero => exact absurd rfl hfuel
  | succ fuel ih =>
    simp only [Request.retry, if_neg hsize] at hfuel ⊢
    split at hfuel
    · rw [if_pos ‹_›]
      exact clean_error _
    rename_i hcount
    rw [if_neg hcount]
    split at hfuel
    · rw [if_pos ‹_›]
      split at hfuel
      · rw [if_pos ‹_›]
        exact ih (by omega) hfuel
      · rw [if_neg ‹_›]
        exact clean_error _
    rename_i hinodes
    rw [if_neg hinodes]
    split at hfuel
    · rename_i e he
      intro f hf
      cases hf
      exact clean_fitInodes _ _ _ _ he
    rename_i n t hfit
    split at hfuel
    · rw [if_pos ‹_›]
      exact clean_error _
    rename_i halone
    rw [if_neg halone]
    split at hfuel
    · rw [if_pos ‹_›]
      exact ih hsize hfuel
    · rw [if_neg ‹_›]
      exact clean_ok _

theorem clean_finish (params : Params) (req : Request) (descSize : Nat) (grp : Groups) :
    Clean (finish params req descSize grp) := by
  have hflex : ∀ features, Clean (chooseFlex params features) := by
    intro features
    unfold chooseFlex
    split
    · exact clean_bind (clean_refuse _ _) fun _ _ => clean_ok _
    · exact clean_ok _
  have hjournal : ∀ features blocks, Clean (dropJournal params features blocks) := by
    intro features blocks
    unfold dropJournal
    split
    · exact clean_incompatible _
    · exact clean_ok _
  refine clean_bind (clean_refuse _ _) fun _ _ => ?_
  refine clean_bind (clean_refuse _ _) fun _ _ => ?_
  refine clean_bind (clean_refuse _ _) fun _ _ => ?_
  refine clean_bind (hflex _) fun _ _ => ?_
  refine clean_bind (hjournal _ _) fun _ _ => ?_
  refine clean_bind (clean_refuse _ _) fun _ _ => ?_
  exact clean_bind (clean_refuse _ _) fun _ _ => clean_ok _

theorem clean_computeRequest {sizeBytes : Nat} {params : Params}
    (h : ∀ blockSize, Accepted sizeBytes params blockSize → params.inodesCount = none →
      params.inodeRatio ≠ some 0) : Clean (computeRequest sizeBytes params) := by
  refine clean_bind (clean_incompatible _) fun features hfeatures => ?_
  refine clean_bind (clean_chooseBlockSize _ _) fun blockSize hchosen => ?_
  refine clean_bind (clean_refuse _ _) fun _ hvalid => ?_
  refine clean_bind (clean_bind (clean_refuse _ _) fun _ _ => clean_refuse _ _) fun _ hinode => ?_
  refine clean_bind (clean_refuse _ _) fun _ hdata => ?_
  refine clean_bind (clean_requestedInodes (h blockSize ?_)) fun _ _ => clean_ok _
  exact ⟨⟨features, incompatible_ok hfeatures⟩, hchosen, hvalid, hinode,
    Nat.lt_of_not_le (refuse_ok hdata)⟩

theorem groupSize_ne {sizeBytes : Nat} {params : Params} {req : Request} {start : Nat × Nat}
    {descSize : Nat} (h : req.Made sizeBytes params start descSize)
    (hne : params.blocksPerGroup ≠ some 0) : start.2 ≠ 0 := by
  have hb := h.blockSize_bounds.1
  rw [h.groupSize]
  cases hp : params.blocksPerGroup with
  | none =>
    simp only [Option.getD_none, maxBlocksPerGroup]
    omega
  | some n =>
    rw [hp] at hne
    simp only [Option.getD_some, maxBlocksPerGroup]
    have : n ≠ 0 := fun hn => hne (congrArg some hn)
    omega

theorem clean_compute {sizeBytes : Nat} {params : Params} (h : Divides sizeBytes params) :
    Clean (compute sizeBytes params) := by
  rw [compute_eq]
  refine clean_bind (clean_computeRequest h.ratio) fun (req, start, descSize) hreq => ?_
  have hsize := groupSize_ne (computeRequest_ok hreq) (h.groupSize req start descSize hreq)
  refine clean_bind (clean_retry hsize Request.retry_retryFuel) fun grp _ => ?_
  refine clean_bind (clean_finish params req descSize grp) fun geom _ => ?_
  split
  · exact clean_error _
  · exact clean_ok _

/-! ## What fits -/

theorem divCeil_le (a : Nat) {b : Nat} (hb : 0 < b) : divCeil a b ≤ a :=
  (divCeil_le_iff hb).mpr (Nat.le_mul_of_pos_right a hb)

theorem inputsFit_of_made {sizeBytes : Nat} {params : Params} {req : Request} {start : Nat × Nat}
    {descSize : Nat} (hsize : sizeBytes < 2 ^ 64) (htyped : params.Typed)
    (h : req.Made sizeBytes params start descSize) : req.InputsFit start := by
  obtain ⟨hlow, hhigh⟩ := h.blockSize_bounds
  obtain ⟨k, hk, hk9, -⟩ := h.inodesPerBlock_pow
  have hpow : 2 ^ k ≤ 512 := Nat.pow_le_pow_right Nat.two_pos hk9
  have hinode := h.inodeSize_ge
  have hdesc := h.descPerBlock_bounds.1
  refine ⟨?_, ⟨by omega, by omega, ?_, by omega⟩, ?_, by omega, by omega,
    (h.requested_bounds htyped).2⟩
  · obtain ⟨kb, hkb, hge, -⟩ := h.blockSize
    rw [hkb, Nat.log2_two_pow]
    exact hge
  · rw [hk]
    exact Nat.ne_of_gt (Nat.two_pow_pos k)
  · rw [h.blocks]
    exact Nat.lt_of_le_of_lt (Nat.div_mul_le_self _ _) hsize

section Loop

variable {sizeBytes : Nat} {params : Params} {req : Request} {start s : Nat × Nat} {descSize : Nat}

/-- What every state the loop visits keeps of the one it starts at. -/
structure Request.StateBounds (req : Request) (start s : Nat × Nat) : Prop where
  blocks : s.1 ≤ start.1
  size : s.2 ≤ start.2
  size_ne : s.2 ≠ 0
  data : req.firstDataBlock ≤ s.1
  groups : req.groupsNeeded s < 2 ^ 32

theorem Request.Made.stateBounds (h : req.Made sizeBytes params start descSize)
    (htyped : params.Typed) (hne : start.2 ≠ 0) (hfew : req.groupsNeeded start < 2 ^ 32)
    (hvisits : req.Visits start s) : req.StateBounds start s := by
  refine hvisits.invariant (I := req.StateBounds start) ?_
    ⟨Nat.le_refl _, Nat.le_refl _, hne, Nat.le_of_lt h.data, hfew⟩
  intro x y hxy hx
  obtain ⟨hblocks, hsize, hsize_ne, hdata⟩ := hxy.groups_le
  exact ⟨Nat.le_trans hblocks hx.blocks, Nat.le_trans hsize hx.size, hsize_ne hx.size_ne,
    hdata hx.data, hxy.needed_lt h.blockSize_bounds.1 (h.requested_bounds htyped).2 hx.groups⟩

theorem Request.Made.blocks_lt (h : req.Made sizeBytes params start descSize)
    (hsize : sizeBytes < 2 ^ 64) : start.1 < 2 ^ 54 := by
  rw [h.blocks, Nat.div_lt_iff_lt_mul (by have := h.blockSize_bounds.1; omega)]
  have := Nat.mul_le_mul_left (2 ^ 54) h.blockSize_bounds.1
  omega

theorem Request.Made.descBlocks_le (h : req.Made sizeBytes params start descSize) :
    req.descBlocksAt s ≤ 2 ^ 28 := by
  have hper := h.descPerBlock_bounds.1
  rw [Request.descBlocksAt, divCeil_le_iff (by omega)]
  have hlt : req.groupCountAt s < 2 ^ 32 := Nat.mod_lt _ (by decide)
  have := Nat.mul_le_mul_left (2 ^ 28) hper
  omega

theorem Request.reservedGdtAt_lt (req : Request) (s : Nat × Nat) : req.reservedGdtAt s < 2 ^ 16 := by
  unfold reservedGdtAt reservedGdt
  split
  · exact Nat.mod_lt _ (by decide)
  · decide

theorem Request.Made.itable_le (h : req.Made sizeBytes params start descSize)
    (htyped : params.Typed) (hcount : req.groupCountAt s ≠ 0)
    (hle : divCeil req.requestedInodes (req.groupCountAt s) ≤ req.blockSize * 8) {n t : Nat}
    (htable : req.tableAt s = .ok (n, t)) : t ≤ 2 ^ 19 := by
  have hfits := h.table_fits htyped hcount hle htable
  obtain ⟨k, hk, -, -⟩ := h.inodesPerBlock_pow
  have hmul : t ≤ t * (req.blockSize / req.inodeSize) := by
    rw [hk]
    exact Nat.le_mul_of_pos_right t (Nat.two_pow_pos k)
  have := hfits.whole
  have := hfits.le
  have := h.blockSize_bounds.2
  omega

/-- A request for no more inodes than a group may have, rounded out, is none the larger. -/
theorem Request.Made.rounded_le (h : req.Made sizeBytes params start descSize) {ipg : Nat}
    (hipg : ipg ≤ maxInodesPerGroup req.blockSize req.inodeSize) :
    divCeil ipg (req.blockSize / req.inodeSize) * (req.blockSize / req.inodeSize) < 2 ^ 16 ∧
      req.roundInodes ipg < 2 ^ 16 := by
  obtain ⟨k, hk, hk9, -⟩ := h.inodesPerBlock_pow
  have hpow : 2 ^ k ≤ 512 := Nat.pow_le_pow_right Nat.two_pos hk9
  have hpos : 0 < 2 ^ k := Nat.two_pow_pos k
  have hsplit : 2 ^ (16 - k) * 2 ^ k = 2 ^ 16 := by
    rw [← Nat.pow_add, Nat.sub_add_cancel (by omega)]
  have hblocks : divCeil ipg (2 ^ k) ≤ 2 ^ (16 - k) - 1 := by
    rw [divCeil_le_iff hpos, Nat.sub_mul, hsplit, Nat.one_mul, ← hk]
    exact hipg
  have hmul := Nat.mul_le_mul_right (2 ^ k) hblocks
  rw [Nat.sub_mul, hsplit, Nat.one_mul] at hmul
  have hlt : divCeil ipg (2 ^ k) * 2 ^ k < 2 ^ 16 := by omega
  rw [roundInodes, hk]
  exact ⟨hlt, by omega⟩

/-- A narrow descriptor can count the inodes of a group. -/
theorem Request.Made.table_lt (h : req.Made sizeBytes params start descSize)
    (htyped : params.Typed) (hcount : req.groupCountAt s ≠ 0) {n t : Nat}
    (htable : req.tableAt s = .ok (n, t)) : n < 2 ^ 16 := by
  obtain ⟨ipg, -, hle, hn, -⟩ := fitInodes_ok (h.asked_pos htyped hcount) htable
  rw [hn]
  exact (h.rounded_le (Nat.le_trans hle (Nat.min_le_right _ _))).2

theorem turnFits_of_bounds (htyped : params.Typed)
    (h : req.Made sizeBytes params start descSize) (hs : req.StateBounds start s) :
    req.TurnFits s := by
  have hfirst := h.firstDataBlock_le
  have hpos := Nat.pos_of_ne_zero hs.size_ne
  have hgroup : start.2 < 2 ^ 16 := by
    have := h.groupSize_le
    rw [maxBlocksPerGroup] at this
    omega
  have hrem : req.remAt s < s.2 := Nat.mod_lt _ hpos
  have hmax : (if s.1 < (2 ^ 32 - 1) / 1024 then s.1 * 1024 else 2 ^ 32 - 1) ≤ 2 ^ 32 - 1 := by
    split <;> omega
  refine ⟨hs.size_ne, hs.data, hs.groups, ?_, ?_, by omega, ?_, ?_, ?_, ?_, ?_⟩
  · have := hs.size
    omega
  · exact Nat.le_trans (Nat.mod_le _ _) (Nat.sub_le _ _)
  · have := hs.data
    split <;> omega
  · have h1 := divCeil_le ((if s.1 < (2 ^ 32 - 1) / 1024 then s.1 * 1024 else 2 ^ 32 - 1) -
      req.firstDataBlock) hpos
    have h2 := divCeil_le (divCeil ((if s.1 < (2 ^ 32 - 1) / 1024 then s.1 * 1024 else 2 ^ 32 - 1) -
      req.firstDataBlock) s.2) (show 0 < req.descPerBlock by have := h.descPerBlock_bounds.1; omega)
    omega
  · have := h.blockSize_bounds.2
    omega
  · intro ipg hipg
    obtain ⟨hwhole, hround⟩ := h.rounded_le hipg
    have hcount : req.groupCountAt s < 2 ^ 32 := Nat.mod_lt _ (by decide)
    have hinode : req.inodeSize < 2 ^ 16 := by
      rw [h.inodeSize]
      cases hi : params.inodeSize with
      | none => decide
      | some n => exact htyped.inodeSize n hi
    have h1 := Nat.mul_lt_mul'' hround hcount
    have h2 := Nat.mul_lt_mul'' hround hinode
    omega
  · intro hcount hle n t htable
    have hitable := h.itable_le htyped hcount hle htable
    have hdesc := h.descBlocks_le (s := s)
    have hreserved := req.reservedGdtAt_lt s
    rw [Request.overheadLastAt, Request.overheadLast]
    split <;> omega

theorem settledFit_of_bounds (htyped : params.Typed) (hsize : sizeBytes < 2 ^ 64)
    (h : req.Made sizeBytes params start descSize) (hs : req.StateBounds start s) {grp : Groups}
    (hsettles : req.Settles s grp) : req.SettledFit params grp := by
  have hitable := h.itable_le htyped hsettles.count_ne hsettles.inodes_le hsettles.table
  have hblocks := h.blocks_lt hsize
  have hbs := h.blockSize_bounds.2
  have hgroup := h.groupSize_le
  rw [maxBlocksPerGroup] at hgroup
  have hsize := hs.size
  have hle := hs.blocks
  refine ⟨?_, ?_, by omega, ?_, by omega⟩
  · have hdesc := h.descBlocks_le (s := s)
    have hreserved := req.reservedGdtAt_lt s
    rw [hsettles.eq]
    show req.reservedGdtAt s + req.descBlocksAt s < 2 ^ 32
    omega
  · rw [hsettles.eq]
    show s.2 * 3 < 2 ^ 32
    omega
  · rw [hsettles.eq]
    apply htyped.reservedBlocks
    show s.1 < 2 ^ 64
    omega

end Loop

theorem skipSuper_le (geom : Geometry) (fuel : Nat) {c : Nat} (hc : c ≤ geom.blocksCount) :
    geom.skipSuper fuel c ≤ geom.blocksCount := by
  induction fuel generalizing c with
  | zero => exact hc
  | succ fuel ih =>
    simp only [Geometry.skipSuper]
    split
    · rename_i hlt
      exact ih hlt.1
    · exact hc

section Placement

variable {sizeBytes : Nat} {params : Params} {req : Request} {start s : Nat × Nat} {descSize : Nat}
  {grp : Groups} {geom : Geometry}

/-- A settled geometry's groups are the ones its data blocks come to. -/
theorem Geometry.Finished.lt_groupCount_iff (hfin : geom.Finished params req descSize grp)
    (hs : req.StateBounds start s) (hsettles : req.Settles s grp) (g : Nat) :
    g < geom.groupCount ↔ geom.groupFirstBlock g < geom.blocksCount := by
  have hcount : geom.groupCount = req.groupsNeeded s := by
    rw [hfin.groupCount, hsettles.eq]
    exact Nat.mod_eq_of_lt hs.groups
  have hsize : geom.blocksPerGroup = s.2 := by
    rw [hfin.blocksPerGroup, hsettles.eq]
    rfl
  have hblocks : geom.blocksCount = s.1 := by
    rw [hfin.blocksCount, hsettles.eq]
    rfl
  rw [hcount, Request.groupsNeeded, lt_divCeil_iff (Nat.pos_of_ne_zero hs.size_ne),
    Geometry.groupFirstBlock, hsize, hblocks, hfin.firstDataBlock]
  have := hs.data
  omega

theorem placementFits_of_bounds (hsize : sizeBytes < 2 ^ 64) (htyped : params.Typed)
    (h : req.Made sizeBytes params start descSize) (hs : req.StateBounds start s)
    (hsettles : req.Settles s grp) (hfin : geom.Finished params req descSize grp) :
    geom.PlacementFits := by
  have hiff := hfin.lt_groupCount_iff hs hsettles
  have hblocks : geom.blocksCount = s.1 := by
    rw [hfin.blocksCount, hsettles.eq]
    rfl
  have hgroup : geom.blocksPerGroup = s.2 := by
    rw [hfin.blocksPerGroup, hsettles.eq]
    rfl
  have hfirst : geom.firstDataBlock = req.firstDataBlock := hfin.firstDataBlock
  have hgc : 0 < geom.groupCount := by
    rw [hfin.groupCount, hsettles.eq]
    exact Nat.pos_of_ne_zero hsettles.count_ne
  have hitable := h.itable_le htyped hsettles.count_ne hsettles.inodes_le hsettles.table
  have hlt := h.blocks_lt hsize
  have hle := hs.blocks
  have hsize_lt : s.2 < 2 ^ 16 := by
    have h1 := h.groupSize_le
    have h2 := hs.size
    rw [maxBlocksPerGroup] at h1
    omega
  have hpos := Nat.pos_of_ne_zero hs.size_ne
  refine ⟨⟨hgc, ?_⟩, ⟨?_, ?_⟩, hfin.flex_lt htyped, ?_, ?_, ?_, ?_, ?_, ?_, ?_⟩
  · exact Nat.lt_of_le_of_lt (Nat.zero_le _) ((hiff 0).mp hgc)
  · rw [Geometry.descPerBlock, hfin.blockSize, hfin.descSize, ← h.descPerBlock]
    have := h.descPerBlock_bounds.1
    omega
  · rw [hgroup]
    exact hs.size_ne
  · intro g hg
    have := (hiff g).mp hg
    omega
  · intro b hb
    have hneeded := hs.groups
    rw [Request.groupsNeeded] at hneeded
    have hcover := le_divCeil_mul (s.1 - req.firstDataBlock) hpos
    have hdata : b - req.firstDataBlock < divCeil (s.1 - req.firstDataBlock) s.2 * s.2 := by
      have := (hiff 0).mp hgc
      rw [Geometry.groupFirstBlock, Nat.zero_mul] at this
      omega
    rw [hgroup, hfirst]
    exact Nat.lt_trans ((Nat.div_lt_iff_lt_mul hpos).mpr hdata) hneeded
  · have hdesc := h.descBlocks_le (s := s)
    have hreserved := req.reservedGdtAt_lt s
    have h1 : geom.descBlocks = req.descBlocksAt s := by
      rw [hfin.descBlocks, hsettles.eq]
      rfl
    have h2 : geom.reservedGdtBlocks ≤ req.reservedGdtAt s := by
      rw [hfin.reservedGdt]
      split
      · exact Nat.zero_le _
      · rw [hsettles.eq]
        exact Nat.le_refl _
    omega
  · intro g hg
    have h1 := geom.groupFirstBlock_mono (geom.flexFirstGroup_le g)
    have h2 := (hiff g).mp hg
    omega
  · intro fuel c hc
    exact skipSuper_le geom fuel hc
  · rw [hfin.itable]
    omega
  · intro g hg placement hplace
    have hlen : 0 < geom.itableBlocksPerGroup := by
      have hfits := h.table_fits htyped hsettles.count_ne hsettles.inodes_le hsettles.table
      have h8 := hfits.eight_le
      have hwhole := hfits.whole
      rw [hfin.itable]
      rcases Nat.eq_zero_or_pos grp.itableBlocks with h0 | hpos
      · rw [h0, Nat.zero_mul] at hwhole
        omega
      · exact hpos
    obtain ⟨bbs, ibs, its, e, hplaced, rfl⟩ := Geometry.placeFlex_ok hlen hplace
    have hlt := geom.lt_flexFirstGroup_add g hg
    have hle := geom.flexFirstGroup_le g
    simp only [List.length_zip, hplaced.blockBitmaps_length, hplaced.inodeBitmaps_length,
      hplaced.inodeTables_length]
    omega

theorem bounded_of_settles (htyped : params.Typed)
    (h : req.Made sizeBytes params start descSize) (hs : req.StateBounds start s)
    (hsettles : req.Settles s grp) (hfin : geom.Finished params req descSize grp)
    (hbits : start.2 ≤ 8 * req.blockSize) : geom.Bounded := by
  have hfits := h.table_fits htyped hsettles.count_ne hsettles.inodes_le hsettles.table
  have hgroup : geom.blocksPerGroup = s.2 := by
    rw [hfin.blocksPerGroup, hsettles.eq]
    rfl
  have hle := hs.size
  have hne := hs.size_ne
  have h8 := hfits.eight_le
  have hipg := hfits.le
  refine ⟨?_, ?_, ?_⟩
  · rw [hgroup, hfin.blockSize]
    omega
  · rw [hfin.inodesPerGroup, hfin.blockSize]
    exact ⟨hfits.eight, by omega, by omega⟩
  · rw [hfin.groupCount, hsettles.eq]
    exact Nat.pos_of_ne_zero hsettles.count_ne

end Placement

/-! ## The whole computation -/

/-- With divisors that are not zero, fewer than 2^32 groups, and groups no larger than a
bitmap block has bits, the whole computation is total and bounded. -/
theorem total_of_divides {sizeBytes : Nat} {params : Params} (hsize : sizeBytes < 2 ^ 64)
    (htyped : params.Typed) (hbits : FitsBitmap sizeBytes params)
    (h : Divides sizeBytes params) : Total sizeBytes params := by
  have hstate : ∀ req start descSize, computeRequest sizeBytes params = .ok (req, start, descSize) →
      req.Made sizeBytes params start descSize ∧
        ∀ s, req.Visits start s → req.StateBounds start s := by
    intro req start descSize hreq
    have hmade := computeRequest_ok hreq
    refine ⟨hmade, fun s hs => ?_⟩
    exact hmade.stateBounds htyped (groupSize_ne hmade (h.groupSize _ _ _ hreq))
      (h.few _ _ _ hreq) hs
  refine ⟨clean_compute h, ?_, ?_, ?_, ?_, ?_⟩
  · intro req start descSize hreq
    exact inputsFit_of_made hsize htyped (hstate _ _ _ hreq).1
  · intro req start descSize hreq s hs
    obtain ⟨hmade, hbounds⟩ := hstate _ _ _ hreq
    exact turnFits_of_bounds htyped hmade (hbounds s hs)
  · intro req start descSize hreq s grp hs hsettles
    obtain ⟨hmade, hbounds⟩ := hstate _ _ _ hreq
    exact settledFit_of_bounds htyped hsize hmade (hbounds s hs) hsettles
  · intro req start descSize hreq s grp geom hs hsettles hfinish
    obtain ⟨hmade, hbounds⟩ := hstate _ _ _ hreq
    exact placementFits_of_bounds hsize htyped hmade (hbounds s hs) hsettles
      (finish_finished hfinish)
  · intro geom hgeom
    obtain ⟨req, start, descSize, s, grp, hreq, hfrom⟩ := compute_from hgeom
    obtain ⟨descSize', hmade, hfin⟩ := hfrom.made
    obtain ⟨-, hbounds⟩ := hstate _ _ _ hreq
    exact bounded_of_settles htyped hmade (hbounds s hfrom.visits) hfrom.settles hfin
      (hbits _ _ _ hreq)

/-- A ratio of zero is divided by. -/
theorem panicked_of_ratio {sizeBytes : Nat} {params : Params} {blockSize : Nat}
    (h : Accepted sizeBytes params blockSize) (hnone : params.inodesCount = none)
    (hratio : params.inodeRatio = some 0) : compute sizeBytes params = .error .panicked := by
  obtain ⟨⟨features, hfeatures⟩, hchosen, hvalid, hinode, hdata⟩ := h
  have hzero : requestedInodes params (SizeType.of sizeBytes) features (sizeBytes / blockSize)
      blockSize = .error .panicked := by
    simp only [requestedInodes, hnone, hratio, Option.getD_some, if_true]
  have hfeatures : incompatible params.resolveFeatures = .ok features := by
    rw [hfeatures]
    rfl
  have hdata : refuse (sizeBytes / blockSize ≤ if blockSize = 1024 then 1 else 0)
      (.deviceTooSmall (sizeBytes / blockSize) ((if blockSize = 1024 then 1 else 0) + 1)
        blockSize) = .ok () := if_neg (Nat.not_le.mpr hdata)
  have hreq : computeRequest sizeBytes params = .error .panicked := by
    refine (bind_of_ok hfeatures).trans ((bind_of_ok hchosen).trans ?_)
    refine (bind_of_ok hvalid).trans ((bind_of_ok hinode).trans ((bind_of_ok hdata).trans ?_))
    exact bind_of_error hzero
  rw [compute_eq, hreq]
  rfl

/-- A total computation divides by nothing that is zero, and counts its groups in 32 bits. -/
theorem divides_of_total {sizeBytes : Nat} {params : Params} (h : Total sizeBytes params) :
    Divides sizeBytes params := by
  refine ⟨?_, ?_, ?_⟩
  · intro blockSize haccepted hnone hratio
    obtain ⟨e, he⟩ := h.returns _ (panicked_of_ratio haccepted hnone hratio)
    cases he
  · intro req start descSize hreq hzero
    apply (h.turns _ _ _ hreq start .refl).divisor
    rw [(computeRequest_ok hreq).groupSize, hzero]
    rfl
  · intro req start descSize hreq
    exact (h.turns _ _ _ hreq start .refl).groups

/-- Where the groups asked for fit a bitmap block, `compute` is total and bounded exactly when
the divisors a caller gives are not zero and the groups are fewer than 2^32. -/
theorem total_iff_divides {sizeBytes : Nat} {params : Params} (hsize : sizeBytes < 2 ^ 64)
    (htyped : params.Typed) (hbits : FitsBitmap sizeBytes params) :
    Total sizeBytes params ↔ Divides sizeBytes params :=
  ⟨divides_of_total, total_of_divides hsize htyped hbits⟩

theorem roomy_total : Total ((3 * 256 + 1) * 1024) (smallGroups 1200) := by
  have hreq : ∀ req start descSize,
      computeRequest ((3 * 256 + 1) * 1024) (smallGroups 1200) = .ok (req, start, descSize) →
      start.2 ≤ 8 * req.blockSize ∧ req.groupsNeeded start < 2 ^ 32 := by
    intro req start descSize hreq
    have heval : (computeRequest ((3 * 256 + 1) * 1024) (smallGroups 1200)).map (fun x =>
        decide (x.2.1.2 ≤ 8 * x.1.blockSize ∧ x.1.groupsNeeded x.2.1 < 2 ^ 32)) = .ok true := by
      decide +kernel
    rw [hreq] at heval
    exact of_decide_eq_true (Except.ok.inj heval)
  refine (total_iff_divides (by decide) (smallGroups_typed (by decide))
    fun req start descSize h => (hreq req start descSize h).1).mpr ⟨?_, ?_, ?_⟩
  · intro blockSize _ hnone
    cases hnone
  · intro req start descSize _
    decide
  · intro req start descSize h
    exact (hreq req start descSize h).2

/-- Groups of 16384 one-kilobyte blocks, twice what a bitmap block has bits for. -/
def wideGroups : Params := { blockSize := some 1024, blocksPerGroup := some 16384 }

theorem wideGroups_typed : wideGroups.Typed :=
  { Params.typed_default with
    blockSize := fun n hn => by cases hn; decide
    blocksPerGroup := fun n hn => by cases hn; decide }

def zeroRatio : Params := { inodeRatio := some 0 }

def zeroGroupSize : Params := { blocksPerGroup := some 0 }

/-- 16 MiB: groups wider than their bitmaps are accepted, and a ratio or a group size of zero
is divided by. -/
theorem wide_groups_not_total :
    wideGroups.Typed ∧ ¬ Total ((1 + 16384) * 1024) wideGroups ∧
      compute ((1 + 16384) * 1024) zeroRatio = .error .panicked ∧
      compute ((1 + 16384) * 1024) zeroGroupSize = .error .panicked := by
  refine ⟨wideGroups_typed, ?_, by decide +kernel, by decide +kernel⟩
  intro htotal
  have hwide : (compute ((1 + 16384) * 1024) wideGroups).map
      (fun geom => (geom.blocksPerGroup, geom.blockSize)) = .ok (16384, 1024) := by decide +kernel
  cases hgeom : compute ((1 + 16384) * 1024) wideGroups with
  | error f =>
    rw [hgeom] at hwide
    cases hwide
  | ok geom =>
    rw [hgeom] at hwide
    have hfields := Except.ok.inj hwide
    simp only [Prod.mk.injEq] at hfields
    have := (htotal.bounded geom hgeom).blocksPerGroup.2
    omega

end MkfsExt4.Layout
