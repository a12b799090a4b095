/-
  Where a computed geometry comes from: what `compute` reads off its parameters before the
  retry loop, the state the loop settles at, and the fields it makes of the two.
-/
import MkfsExt4.Layout.Loop

namespace MkfsExt4.Layout

open Lib.Hoare

/-! ## Before the loop -/

/-- The part of `compute` before the retry loop: what the loop reads, the block count and
group size it starts from, and the descriptor size. -/
def computeRequest (sizeBytes : Nat) (params : Params) :
    Except Failure (Request × (Nat × Nat) × Nat) := do
  let features ← incompatible params.resolveFeatures
  let sizeClass := SizeType.of sizeBytes
  let blockSize ← chooseBlockSize params sizeClass
  validateBlockSize blockSize
  let inodeSize := params.inodeSize.getD 256
  validateInodeSize inodeSize blockSize
  let firstDataBlock := if blockSize = 1024 then 1 else 0
  let blocksCount := sizeBytes / blockSize
  refuse (blocksCount ≤ firstDataBlock)
    (.deviceTooSmall blocksCount (firstDataBlock + 1) blockSize)
  let requestedInodes ← requestedInodes params sizeClass features blocksCount blockSize
  let blocksPerGroup := min (params.blocksPerGroup.getD (blockSize * 8)) maxBlocksPerGroup
  let descSize := if features.incompat.contains IncompatFeatures.sixtyFourBit then
    minDescSize64bit else minDescSize
  return ({ blockSize, inodeSize, firstDataBlock, requestedInodes, features,
            descPerBlock := blockSize / descSize }, (blocksCount, blocksPerGroup), descSize)

/-- The part of `compute` from the retry loop on. -/
def computeFrom (params : Params) (req : Request) (start : Nat × Nat) (descSize : Nat) :
    Except Failure Geometry := do
  let grp ← req.retry (retryFuel start.2) start.1 start.2
  let geom ← finish params req descSize grp
  match geom.group (geom.groupCount - 1) with
  | .error e => .error (.error e)
  | .ok _ => return geom

theorem compute_eq (sizeBytes : Nat) (params : Params) : compute sizeBytes params =
    (computeRequest sizeBytes params >>= fun (req, start, descSize) =>
      computeFrom params req start descSize) := by
  simp only [computeRequest, bind_assoc, pure_bind]
  rfl

/-- Cut into groups of the size asked for, the device comes to fewer than 2^32 of them. -/
def FewGroups (sizeBytes : Nat) (params : Params) : Prop :=
  ∀ req start descSize, computeRequest sizeBytes params = .ok (req, start, descSize) →
    req.groupsNeeded start < 2 ^ 32

/-- What a request is made of. -/
structure Request.Made (sizeBytes : Nat) (params : Params) (req : Request) (start : Nat × Nat)
    (descSize : Nat) : Prop where
  features : params.resolveFeatures = .ok req.features
  blockSize : ∃ k, req.blockSize = 2 ^ k ∧ 10 ≤ k ∧ k ≤ 16
  inodeSize : req.inodeSize = params.inodeSize.getD 256
  inode_pow : ∃ k, req.inodeSize = 2 ^ k ∧ 7 ≤ k
  inode_le : req.inodeSize ≤ req.blockSize
  firstDataBlock : req.firstDataBlock = if req.blockSize = 1024 then 1 else 0
  blocks : start.1 = sizeBytes / req.blockSize
  data : req.firstDataBlock < start.1
  groupSize : start.2 = min (params.blocksPerGroup.getD (req.blockSize * 8)) maxBlocksPerGroup
  inodes : Layout.requestedInodes params (SizeType.of sizeBytes) req.features start.1
    req.blockSize = .ok req.requestedInodes
  descPerBlock : req.descPerBlock = req.blockSize / descSize
  descSize : descSize = if req.features.incompat.contains IncompatFeatures.sixtyFourBit then
    minDescSize64bit else minDescSize

theorem incompatible_ok {α : Type} {x : Except String α} {a : α} (h : incompatible x = .ok a) :
    x = .ok a := by
  cases x with
  | error msg => cases h
  | ok b =>
    cases h
    rfl

theorem computeRequest_ok {sizeBytes : Nat} {params : Params} {req : Request}
    {start : Nat × Nat} {descSize : Nat}
    (h : computeRequest sizeBytes params = .ok (req, start, descSize)) :
    req.Made sizeBytes params start descSize := by
  obtain ⟨features, hfeatures, h⟩ := bind_ok h
  obtain ⟨blockSize, -, h⟩ := bind_ok h
  obtain ⟨_, hblock, h⟩ := bind_ok h
  obtain ⟨_, hinode, h⟩ := bind_ok h
  obtain ⟨_, hdata, h⟩ := bind_ok h
  obtain ⟨inodes, hinodes, h⟩ := bind_ok h
  cases h
  obtain ⟨k, hk, hlow, hle⟩ := validateInodeSize_ok hinode
  exact ⟨incompatible_ok hfeatures, validateBlockSize_ok hblock, rfl, ⟨k, hk, hlow⟩, hle, rfl,
    rfl, Nat.lt_of_not_le (refuse_ok hdata), rfl, hinodes, rfl, rfl⟩

namespace Request.Made

variable {sizeBytes : Nat} {params : Params} {req : Request} {start : Nat × Nat} {descSize : Nat}
  (h : req.Made sizeBytes params start descSize)

include h

theorem blockSize_bounds : 1024 ≤ req.blockSize ∧ req.blockSize ≤ 65536 := by
  obtain ⟨k, hk, hlow, hhigh⟩ := h.blockSize
  rw [hk]
  exact ⟨Nat.pow_le_pow_right Nat.two_pos hlow, Nat.pow_le_pow_right Nat.two_pos hhigh⟩

theorem inodeSize_ge : 128 ≤ req.inodeSize := by
  obtain ⟨k, hk, hlow⟩ := h.inode_pow
  rw [hk]
  exact Nat.pow_le_pow_right Nat.two_pos hlow

theorem firstDataBlock_le : req.firstDataBlock ≤ 1 := by
  rw [h.firstDataBlock]
  split <;> decide

theorem groupSize_le : start.2 ≤ maxBlocksPerGroup := by
  rw [h.groupSize]
  exact Nat.min_le_right _ _

theorem descSize_eq : descSize = 32 ∨ descSize = 64 := by
  rw [h.descSize]
  split
  · exact Or.inr rfl
  · exact Or.inl rfl

theorem descPerBlock_bounds : 16 ≤ req.descPerBlock ∧ req.descPerBlock ≤ 2048 := by
  obtain ⟨hlow, hhigh⟩ := h.blockSize_bounds
  rw [h.descPerBlock]
  rcases h.descSize_eq with hd | hd <;> rw [hd] <;> omega

/-- An inode table's blocks hold a power of two of inodes. -/
theorem inodesPerBlock_pow : ∃ k, req.blockSize / req.inodeSize = 2 ^ k ∧ k ≤ 9 ∧
    req.inodeSize * (req.blockSize / req.inodeSize) = req.blockSize := by
  obtain ⟨kb, hkb, -, hhigh⟩ := h.blockSize
  obtain ⟨ki, hki, hlow⟩ := h.inode_pow
  have hle : ki ≤ kb := by
    have := h.inode_le
    rw [hkb, hki] at this
    exact (Nat.pow_le_pow_iff_right (by decide)).mp this
  refine ⟨kb - ki, ?_, by omega, ?_⟩
  · rw [hkb, hki, Nat.pow_div hle (by decide)]
  · rw [hkb, hki, Nat.pow_div hle (by decide), ← Nat.pow_add, Nat.add_sub_cancel' hle]

/-- The inode count asked for is at least what group 0 needs, and fits 32 bits. -/
theorem requested_bounds (htyped : params.Typed) :
    12 ≤ req.requestedInodes ∧ req.requestedInodes < 2 ^ 32 := by
  have hreq := h.inodes
  unfold Layout.requestedInodes at hreq
  split at hreq
  · rename_i n hn
    have hreq := Except.ok.inj hreq
    have := htyped.inodesCount n hn
    have hfirst : goodOldFirstIno = 11 := rfl
    omega
  · dsimp only at hreq
    split at hreq
    · cases hreq
    · split at hreq
      · have hreq := Except.ok.inj hreq
        omega
      · split at hreq
        · have hreq := Except.ok.inj hreq
          omega
        · cases hreq

end Request.Made

/-! ## Inode tables -/

/-- A fitted inode count is a rounded one, of a request no larger than the first. -/
theorem Request.fitInodes_ok {req : Request} {groupCount ipg n t : Nat} (hipg : 1 ≤ ipg)
    (h : req.fitInodes groupCount ipg = .ok (n, t)) :
    ∃ ipg', 1 ≤ ipg' ∧ ipg' ≤ ipg ∧ n = req.roundInodes ipg' ∧ n * groupCount < 2 ^ 32 ∧
      t = divCeil (n * req.inodeSize) req.blockSize := by
  induction ipg with
  | zero => cases hipg
  | succ ipg ih =>
    unfold fitInodes at h
    split at h
    · rename_i fitted htry
      cases h
      simp only [tryInodes] at htry
      split at htry
      · rename_i hfit
        cases htry
        exact ⟨ipg + 1, hipg, Nat.le_refl _, rfl, by omega, rfl⟩
      · cases htry
    · split at h
      · cases h
      · rename_i hne
        obtain ⟨ipg', hpos, hle, hrest⟩ := ih (Nat.pos_of_ne_zero hne) h
        exact ⟨ipg', hpos, by omega, hrest⟩

/-- Rounding down to a multiple of 8 takes nothing off whole table blocks. -/
theorem round_dvd {r k : Nat} (hr : 2 ^ k ∣ r) (hle : 2 ^ k ≤ r) : 2 ^ k ∣ max r 8 / 8 * 8 := by
  rcases Nat.lt_or_ge k 3 with hk | hk
  · have h8 : 2 ^ k ∣ 8 := Nat.pow_dvd_pow 2 (Nat.le_of_lt hk)
    exact Nat.dvd_trans h8 (Nat.dvd_mul_left 8 _)
  · have h8 : 8 ∣ 2 ^ k := Nat.pow_dvd_pow 2 hk
    have hr8 : 8 ∣ r := Nat.dvd_trans h8 hr
    have hmax : max r 8 = r := by
      have := Nat.le_of_dvd (Nat.two_pow_pos k) h8
      omega
    rw [hmax, Nat.div_mul_cancel hr8]
    exact hr

/-- What an inode table of the loop comes to. -/
structure Request.TableFits (req : Request) (groupCount n t : Nat) : Prop where
  eight : 8 ∣ n
  eight_le : 8 ≤ n
  le : n ≤ req.blockSize * 8
  total : n * groupCount < 2 ^ 32
  whole : t * (req.blockSize / req.inodeSize) = n

/-- At least one inode is asked for a group. -/
theorem Request.Made.asked_pos {sizeBytes : Nat} {params : Params} {req : Request}
    {start s : Nat × Nat} {descSize : Nat} (h : req.Made sizeBytes params start descSize)
    (htyped : params.Typed) (hcount : req.groupCountAt s ≠ 0) :
    1 ≤ min (divCeil req.requestedInodes (req.groupCountAt s))
      (maxInodesPerGroup req.blockSize req.inodeSize) := by
  obtain ⟨k, hk, hk9, -⟩ := h.inodesPerBlock_pow
  have hipb : 2 ^ k ≤ 512 := Nat.pow_le_pow_right Nat.two_pos hk9
  refine Nat.le_min.mpr ⟨divCeil_pos ?_ (Nat.pos_of_ne_zero hcount), ?_⟩
  · have := (h.requested_bounds htyped).1
    omega
  · rw [maxInodesPerGroup, hk]
    omega

theorem Request.Made.table_fits {sizeBytes : Nat} {params : Params} {req : Request}
    {start s : Nat × Nat} {descSize n t : Nat} (h : req.Made sizeBytes params start descSize)
    (htyped : params.Typed) (hcount : req.groupCountAt s ≠ 0)
    (hle : divCeil req.requestedInodes (req.groupCountAt s) ≤ req.blockSize * 8)
    (htable : req.tableAt s = .ok (n, t)) : req.TableFits (req.groupCountAt s) n t := by
  obtain ⟨k, hk, hk9, hmul⟩ := h.inodesPerBlock_pow
  obtain ⟨hlow, hhigh⟩ := h.blockSize_bounds
  have hipb : 2 ^ k ≤ 512 := Nat.pow_le_pow_right Nat.two_pos hk9
  have hpos : 0 < 2 ^ k := Nat.two_pow_pos k
  obtain ⟨ipg, hipg, hipg_le, hn, htotal, ht⟩ := fitInodes_ok (h.asked_pos htyped hcount) htable
  have hround : n = max (divCeil ipg (2 ^ k) * 2 ^ k) 8 / 8 * 8 := by
    rw [hn, roundInodes, hk]
  have hwhole_le : 2 ^ k ≤ divCeil ipg (2 ^ k) * 2 ^ k :=
    Nat.le_mul_of_pos_left _ (divCeil_pos hipg hpos)
  have hdvd : 2 ^ k ∣ n := by
    rw [hround]
    exact round_dvd (Nat.dvd_mul_left _ _) hwhole_le
  obtain ⟨q, hq⟩ := hdvd
  refine ⟨⟨_, by rw [hround, Nat.mul_comm]⟩, by omega, ?_, htotal, ?_⟩
  · -- The bitmap's bits are whole table blocks, so rounding up does not pass them.
    have hbits : divCeil ipg (2 ^ k) ≤ req.inodeSize * 8 := by
      rw [divCeil_le_iff hpos, Nat.mul_right_comm, ← hk, hmul]
      omega
    have := Nat.mul_le_mul_right (2 ^ k) hbits
    rw [Nat.mul_right_comm, ← hk, hmul, hk] at this
    omega
  · have hbytes : n * req.inodeSize = q * req.blockSize := by
      rw [hq, Nat.mul_comm (2 ^ k) q, Nat.mul_assoc, ← hk, Nat.mul_comm (req.blockSize / _), hmul]
    rw [ht, hbytes, divCeil_mul_self q (by omega), hk, hq, Nat.mul_comm]

/-! ## After the loop -/

/-- What a feature set keeps of the one it is normalised from. -/
theorem normalise_ok {m m' : FeatureMasks} (h : normalise m = .ok m') :
    m'.roCompat = m.roCompat ∧ ∀ bits, IncompatFeatures.csumSeed &&& bits = 0 →
      m'.incompat.contains bits = m.incompat.contains bits := by
  unfold normalise at h
  split at h
  · cases h
  rename_i hcsum
  -- Without a journal no orphan file, without checksums no seed of their own.
  have hjournal : ∀ m1 : FeatureMasks, m1 = (if m.compat.contains CompatFeatures.hasJournal then m
      else { m with compat := m.compat.remove CompatFeatures.orphanFile }) →
      m1.roCompat = m.roCompat ∧ m1.incompat = m.incompat := by
    intro m1 h1
    rw [h1]
    split <;> exact ⟨rfl, rfl⟩
  have hseed : ∀ m1 m2 : FeatureMasks, m2 = (if m1.incompat.contains IncompatFeatures.csumSeed ∧
      ¬ m1.roCompat.contains RoCompatFeatures.metadataCsum then
      { m1 with incompat := m1.incompat.remove IncompatFeatures.csumSeed } else m1) →
      m2.roCompat = m1.roCompat ∧ ∀ bits, IncompatFeatures.csumSeed &&& bits = 0 →
        m2.incompat.contains bits = m1.incompat.contains bits := by
    intro m1 m2 h2
    rw [h2]
    split
    · exact ⟨rfl, fun bits hbits => Mask.contains_remove hbits⟩
    · exact ⟨rfl, fun _ _ => rfl⟩
  extract_lets m1 m2 at h
  obtain ⟨hro1, hin1⟩ := hjournal m1 rfl
  obtain ⟨hro2, hin2⟩ := hseed m1 m2 rfl
  rw [hin1] at hin2
  rw [hro1] at hro2
  split at h
  · cases h
  split at h
  · cases h
    exact ⟨hro2, hin2⟩
  · rw [← Except.ok.inj h]
    exact ⟨hro2, hin2⟩

/-- What `finish` makes of the groups the loop settled on. -/
structure Geometry.Finished (params : Params) (req : Request) (descSize : Nat) (grp : Groups)
    (geom : Geometry) : Prop where
  blockSize : geom.blockSize = req.blockSize
  logBlockSize : geom.logBlockSize = req.blockSize.log2 - 10
  blocksCount : geom.blocksCount = grp.blocksCount
  firstDataBlock : geom.firstDataBlock = req.firstDataBlock
  blocksPerGroup : geom.blocksPerGroup = grp.blocksPerGroup
  rBlocksCount : geom.rBlocksCount = params.reservedBlocks grp.blocksCount
  reserved_lt : geom.rBlocksCount < geom.blocksCount
  inodesCount : geom.inodesCount = grp.inodesPerGroup * grp.groupCount
  inodes_lt : grp.inodesPerGroup * grp.groupCount < 2 ^ 32
  inodesPerGroup : geom.inodesPerGroup = grp.inodesPerGroup
  group0 : goodOldFirstIno ≤ grp.inodesPerGroup
  inodeSize : geom.inodeSize = req.inodeSize
  itable : geom.itableBlocksPerGroup = grp.itableBlocks
  groupCount : geom.groupCount = grp.groupCount
  descSize : geom.descSize = descSize
  descBlocks : geom.descBlocks = grp.descBlocks
  metaBg : geom.metaBg = req.metaBg grp
  reservedGdt : geom.reservedGdtBlocks = if geom.metaBg then 0 else grp.reservedGdt
  firstMetaBg : geom.firstMetaBg = if geom.metaBg then params.firstMetaBg.getD 0 else 0
  flex_lt : params.Typed → geom.logGroupsPerFlex < 32
  roCompat : geom.features.roCompat = req.features.roCompat
  metaBg_bit : geom.features.incompat.contains IncompatFeatures.metaBg = geom.metaBg
  sixtyFour : geom.features.incompat.contains IncompatFeatures.sixtyFourBit =
    req.features.incompat.contains IncompatFeatures.sixtyFourBit
  blocks_fit : geom.blocksCount < 2 ^ 32 ∨
    geom.features.incompat.contains IncompatFeatures.sixtyFourBit = true

theorem dropJournal_ok {params : Params} {features features' : FeatureMasks} {blocksCount : Nat}
    (h : dropJournal params features blocksCount = .ok features') :
    features'.roCompat = features.roCompat ∧ ∀ bits, IncompatFeatures.csumSeed &&& bits = 0 →
      features'.incompat.contains bits = features.incompat.contains bits := by
  unfold dropJournal at h
  split at h
  · obtain ⟨hro, hbits⟩ := normalise_ok (incompatible_ok h)
    exact ⟨hro, hbits⟩
  · cases h
    exact ⟨rfl, fun _ _ => rfl⟩

theorem chooseFlex_ok {params : Params} {features : FeatureMasks} {log : Nat}
    (htyped : params.Typed) (h : chooseFlex params features = .ok log) : log < 32 := by
  unfold chooseFlex at h
  split at h
  · obtain ⟨_, hpow, h⟩ := bind_ok h
    cases h
    have hpow := refuse_ok hpow
    simp only [Bool.not_eq_true', Bool.not_eq_false] at hpow
    obtain ⟨k, hk⟩ := isPowerOfTwo_iff.mp hpow
    have hlt : params.flexBgSize.getD 16 < 2 ^ 32 := by
      cases hsize : params.flexBgSize with
      | none => decide
      | some n => exact htyped.flexBgSize n hsize
    rw [hk] at hlt ⊢
    rw [Nat.log2_two_pow]
    exact (Nat.pow_lt_pow_iff_right (by decide)).mp hlt
  · cases h
    decide

theorem finish_finished {params : Params} {req : Request} {descSize : Nat} {grp : Groups}
    {geom : Geometry} (h : finish params req descSize grp = .ok geom) :
    geom.Finished params req descSize grp := by
  obtain ⟨_, hinodes, h⟩ := bind_ok h
  obtain ⟨_, hgroup0, h⟩ := bind_ok h
  obtain ⟨_, -, h⟩ := bind_ok h
  obtain ⟨flex, hflex, h⟩ := bind_ok h
  obtain ⟨features, hfeatures, h⟩ := bind_ok h
  obtain ⟨_, hreserved, h⟩ := bind_ok h
  obtain ⟨_, hfit, h⟩ := bind_ok h
  cases h
  have hinodes := refuse_ok hinodes
  have hgroup0 := refuse_ok hgroup0
  have hreserved := refuse_ok hreserved
  have hfit := refuse_ok hfit
  obtain ⟨hro, hbits⟩ := dropJournal_ok hfeatures
  refine ⟨rfl, rfl, rfl, rfl, rfl, rfl, Nat.lt_of_not_le hreserved, rfl,
    Nat.lt_of_not_le hinodes, rfl, by omega, rfl, rfl, rfl, rfl, rfl, rfl, rfl, rfl,
    fun htyped => chooseFlex_ok htyped hflex, ?_, ?_, ?_, ?_⟩
  · rw [hro]
    split <;> rfl
  · rw [hbits _ (by decide)]
    cases hm : req.metaBg grp with
    | true => exact Mask.contains_or_self _ _
    | false =>
      simp only [Request.metaBg, Bool.or_eq_false_iff] at hm
      exact hm.1
  · rw [hbits _ (by decide)]
    split
    · exact Mask.contains_or (by decide)
    · rfl
  · by_contra hno
    rw [not_or, Bool.not_eq_true] at hno
    exact hfit ⟨Nat.le_of_not_lt hno.1, by rw [hno.2]; exact Bool.false_ne_true⟩

/-- What `compute` returns is made from a request, at a state the loop visits and settles at. -/
structure Geometry.From (sizeBytes : Nat) (params : Params) (geom : Geometry) (req : Request)
    (start s : Nat × Nat) (grp : Groups) : Prop where
  made : ∃ descSize, req.Made sizeBytes params start descSize ∧
    geom.Finished params req descSize grp
  visits : req.Visits start s
  settles : req.Settles s grp

theorem compute_from {sizeBytes : Nat} {params : Params} {geom : Geometry}
    (h : compute sizeBytes params = .ok geom) :
    ∃ req start descSize s grp, computeRequest sizeBytes params = .ok (req, start, descSize) ∧
      geom.From sizeBytes params req start s grp := by
  rw [compute_eq] at h
  obtain ⟨⟨req, start, descSize⟩, hreq, h⟩ := bind_ok h
  obtain ⟨grp, hretry, h⟩ := bind_ok h
  obtain ⟨geom', hfinish, h⟩ := bind_ok h
  split at h
  · cases h
  cases h
  obtain ⟨s, hvisits, hsettles⟩ := Request.retry_visits hretry
  exact ⟨req, start, descSize, s, grp, hreq,
    ⟨descSize, computeRequest_ok hreq, finish_finished hfinish⟩, hvisits, hsettles⟩

end MkfsExt4.Layout
