/-
  The bitmaps of a planned filesystem (`build_group` in `src/format.rs`, and `uninit_bitmap` in
  `src/fs.rs`), bit by bit, against what is in use.

  A group's block bitmap is filled from ranges that are clamped to the group's own window: its own
  superblock and descriptor region, the metadata of its flex group, every planned run, and what is
  past the end. Proved: that leaves nothing out exactly when a bitmap block has a bit for each
  block of a group and the regions that outgrow their group are covered by the rest
  (`bitmapsExact_iff`).
-/
import MkfsExt4.Format.Mounted

namespace MkfsExt4.Layout.Geometry

/-- Every group has its metadata, on blocks of its own flex group. -/
def MetadataContained (geom : Geometry) : Prop :=
  ∀ g < geom.groupCount, ∃ lay, geom.group g = .ok lay ∧ ∀ p b, Within (geom.part lay p) b →
    geom.groupFirstBlock (geom.flexFirstGroup g) ≤ b ∧
      b < geom.groupFirstBlock (geom.flexFirstGroup g + geom.flexMembers (geom.flexFirstGroup g))

/-- A block of some bitmap or inode table. -/
def InMetadata (geom : Geometry) (b : Nat) : Prop :=
  ∃ g lay p, geom.group g = .ok lay ∧ Within (geom.part lay p) b

/-- A block of some superblock and descriptor region. -/
def InRegion (geom : Geometry) (b : Nat) : Prop :=
  ∃ h < geom.groupCount, Within (geom.superRegion h) b

end MkfsExt4.Layout.Geometry

namespace MkfsExt4.Format

open Lib.Bitmap Lib.Hoare Layout

/-- What block `i` of group `g` has to be for its bit to be set. -/
def Plan.BlockInUse (plan : Plan) (g i : Nat) : Prop :=
  let b := plan.geom.groupFirstBlock g + i
  plan.geom.InRegion b ∨ plan.geom.InMetadata b ∨ b ∈ blocksOf plan.runs ∨
    plan.geom.blocksPerGroup ≤ i ∨ plan.geom.blocksCount ≤ b

/-- What inode `i` of group `g` has to be for its bit to be set: reserved, `lost+found`, the
orphan file, or no inode of the group. -/
def Plan.InodeInUse (plan : Plan) (g i : Nat) : Prop :=
  let inum := g * plan.geom.inodesPerGroup + i + 1
  inum < goodOldFirstIno ∨ inum = goodOldFirstIno ∨ plan.orphanInode = some inum ∨
    plan.geom.inodesPerGroup ≤ i

/-- A group as it is built says what is in use and no more, and a reader that computes a bitmap
instead of reading it gets the same. -/
structure Plan.Exact (plan : Plan) (g : Nat) (state : GroupState) : Prop where
  blocks : ∀ i < 8 * plan.geom.blockSize,
    testBit state.blockBitmap i = true ↔ plan.BlockInUse g i
  free : state.desc.freeBlocksCount = clearBits state.blockBitmap
  inodes : ∀ i < 8 * plan.geom.blockSize,
    testBit state.inodeBitmap i = true ↔ plan.InodeInUse g i
  uninit : ∀ dev freeBlocks freeInodes fs,
    Filesystem.withSuperblock dev (buildSuperblock plan freeBlocks freeInodes) = .ok fs →
      (state.desc.blockUninit = true →
        fs.uninitBitmap fs.superblock.blocksPerGroup = state.blockBitmap) ∧
      (state.desc.inodeUninit = true →
        fs.uninitBitmap fs.superblock.inodesPerGroup = state.inodeBitmap)

/-- The clear bits of the block bitmap built for a group. -/
def clearIn (plan : Plan) (g : Nat) : Nat :=
  match buildGroup plan g with
  | .ok state => clearBits state.blockBitmap
  | .error _ => 0

/-- Every group can be built and is exact, and a format reports what they have free together. -/
structure Plan.BitmapsExact (plan : Plan) : Prop where
  groups : ∀ g < plan.geom.groupCount, ∃ state, buildGroup plan g = .ok state ∧
    plan.Exact g state
  total : ∀ chunkBlocks schedule dev report dev',
    writePlan plan chunkBlocks schedule dev = (.ok report, dev') →
      report.freeBlocksCount = ((List.range plan.geom.groupCount).map (clearIn plan)).sum

/-- What a superblock or descriptor region reaches of a group that is not its own is in use for
another reason: reported by `in_super_region`, metadata, or handed out. -/
def Plan.RegionsCovered (plan : Plan) : Prop :=
  ∀ g < plan.geom.groupCount, ∀ i < plan.geom.blocksPerGroup,
    let b := plan.geom.groupFirstBlock g + i
    b < plan.geom.blocksCount → plan.geom.InRegion b →
      plan.geom.inSuperRegion b = true ∨ plan.geom.InMetadata b ∨ b ∈ blocksOf plan.runs

/-! ## What is marked -/

section Marks

variable {plan : Plan} {g : Nat} {lay : GroupLayout} {metadata : List (Nat × Nat)}

theorem group_fields (h : plan.geom.group g = .ok lay) : lay.group = g ∧
    lay.firstBlock = plan.geom.groupFirstBlock g ∧ lay.lastBlock = plan.geom.groupLastBlock g := by
  unfold Geometry.group at h
  split at h
  · cases h
  obtain ⟨placement, -, h⟩ := bind_ok h
  obtain rfl := Except.ok.inj h
  exact ⟨rfl, rfl, rfl⟩

theorem marked_iff {bits : List (Nat × Nat)} {i : Nat} :
    marked bits i = true ↔ ∃ r ∈ bits, r.1 ≤ i ∧ i < r.2 := by
  simp only [marked, List.any_eq_true, Bool.and_eq_true, decide_eq_true_eq]

/-- A bit in the group's window is marked when one of the ranges covers its block. -/
theorem marked_map_window {ranges : List (Nat × Nat)} {i : Nat}
    (hi : i < plan.geom.blocksPerGroup) :
    marked (ranges.map (window lay plan.geom.blocksPerGroup)) i = true ↔
      ∃ r ∈ ranges, r.1 ≤ lay.firstBlock + i ∧ lay.firstBlock + i < r.2 := by
  simp only [marked_iff, List.mem_map, exists_exists_and_eq_and]
  refine exists_congr fun r => and_congr_right fun _ => ?_
  dsimp only [window]
  rw [Nat.lt_min]
  omega

/-- The window ends with the group. -/
theorem not_marked_past {ranges : List (Nat × Nat)} {i : Nat}
    (hi : plan.geom.blocksPerGroup ≤ i) :
    marked (ranges.map (window lay plan.geom.blocksPerGroup)) i = false := by
  simp only [← Bool.not_eq_true, marked_iff, List.mem_map, exists_exists_and_eq_and]
  rintro ⟨r, -, -, hhigh⟩
  dsimp only [window] at hhigh
  rw [Nat.lt_min] at hhigh
  omega

theorem mem_blocksOf_iff {runs : List Run} {b : Nat} :
    b ∈ blocksOf runs ↔ ∃ r ∈ runs, r.start ≤ b ∧ b < r.start + r.len := by
  simp only [blocksOf, List.mem_flatMap, Run.blocks, List.mem_range'_1]

/-- The ranges cover the group's own region, the metadata listed, what was handed out, and what is
past the end of the filesystem. -/
theorem exists_mark_iff (hlay : plan.geom.group g = .ok lay) {i : Nat}
    (hi : i < plan.geom.blocksPerGroup) (hcount : 0 < plan.geom.blocksCount) :
    (∃ r ∈ marks plan lay metadata, r.1 ≤ lay.firstBlock + i ∧ lay.firstBlock + i < r.2) ↔
      i < plan.geom.superOverhead g ∨
        (∃ r ∈ metadata, Within r (plan.geom.groupFirstBlock g + i)) ∨
          plan.geom.groupFirstBlock g + i ∈ blocksOf plan.runs ∨
            plan.geom.blocksCount ≤ plan.geom.groupFirstBlock g + i := by
  obtain ⟨hgroup, hfirst, hlast⟩ := group_fields hlay
  simp only [marks, hgroup, hfirst, hlast, List.mem_cons, List.mem_append, List.mem_map,
    List.not_mem_nil, or_false, mem_blocksOf_iff]
  constructor
  · rintro ⟨r, rfl | (⟨m, hm, rfl⟩ | ⟨m, hm, rfl⟩) | rfl, hlow, hhigh⟩
    · exact Or.inl (by omega)
    · exact Or.inr (Or.inl ⟨m, hm, hlow, hhigh⟩)
    · exact Or.inr (Or.inr (Or.inl ⟨m, hm, hlow, hhigh⟩))
    · refine Or.inr (Or.inr (Or.inr ?_))
      dsimp only [Geometry.groupLastBlock] at hlow
      omega
  · rintro (hown | ⟨m, hm, hin⟩ | ⟨m, hm, hin⟩ | hpast)
    · exact ⟨_, Or.inl rfl, by dsimp only; omega, by dsimp only; omega⟩
    · exact ⟨_, Or.inr (Or.inl (Or.inl ⟨m, hm, rfl⟩)), hin⟩
    · exact ⟨_, Or.inr (Or.inl (Or.inr ⟨m, hm, rfl⟩)), hin⟩
    · refine ⟨_, Or.inr (Or.inr rfl), ?_, ?_⟩
      · dsimp only [Geometry.groupLastBlock]
        omega
      · dsimp only
        omega

end Marks

/-! ## Metadata of a flex group -/

section Flex

variable {geom : Geometry} {g : Nat} {metadata : List (Nat × Nat)}

/-- The runs of a group's flex group are the pieces of its members. -/
theorem mem_flexMetadataRuns (hlen : 0 < geom.itableBlocksPerGroup) (hg : g < geom.groupCount)
    (h : geom.flexMetadataRuns g = .ok metadata) (r : Nat × Nat) :
    r ∈ metadata ↔ ∃ h lay p, geom.flexFirstGroup h = geom.flexFirstGroup g ∧
      geom.group h = .ok lay ∧ geom.part lay p = r := by
  obtain ⟨placement, hplace, h⟩ := bind_ok h
  obtain rfl := Except.ok.inj h
  obtain ⟨f, i, rfl, hi, hf, hfc, hff⟩ := Geometry.exists_member hg
  rw [hff] at hplace ⊢
  obtain ⟨bbs, ibs, its, e, hplaced, hzip⟩ := Geometry.placeFlex_ok hlen hplace
  have hlength : placement.length = geom.flexMembers f := by
    rw [hzip, List.length_zip, List.length_zip, hplaced.blockBitmaps_length,
      hplaced.inodeBitmaps_length, hplaced.inodeTables_length, Nat.min_self, Nat.min_self]
  have hmem := geom.flexMembers_le hfc
  -- Place `j` of the placement is the layout of the group's member `j`.
  have hlay : ∀ j (hj : j < geom.flexMembers f), ∃ lay, geom.group (f + j) = .ok lay ∧
      placement[j]? = some (lay.blockBitmap, lay.inodeBitmap, lay.inodeTable) := by
    intro j hj
    refine ⟨_, Geometry.group_member hf hfc hj hplace, ?_⟩
    rw [List.getD_eq_getElem?_getD, List.getElem?_eq_getElem (by omega), Option.getD_some]
  simp only [List.mem_flatMap]
  constructor
  · rintro ⟨place, hplace, hr⟩
    obtain ⟨j, hj⟩ := List.mem_iff_getElem?.mp hplace
    have hlt : j < geom.flexMembers f := by
      rw [← hlength]
      exact (List.getElem?_eq_some_iff.mp hj).1
    obtain ⟨lay, hok, hget⟩ := hlay j hlt
    obtain rfl := Option.some.inj (hget.symm.trans hj)
    have hfirst : geom.flexFirstGroup (f + j) = f := Geometry.flexFirstGroup_add hf (by omega)
    simp only [List.mem_cons, List.not_mem_nil, or_false] at hr
    rcases hr with rfl | rfl | rfl
    · exact ⟨_, lay, .blockBitmap, hfirst, hok, rfl⟩
    · exact ⟨_, lay, .inodeBitmap, hfirst, hok, rfl⟩
    · exact ⟨_, lay, .inodeTable, hfirst, hok, rfl⟩
  · rintro ⟨h, lay, p, hfirst, hok, rfl⟩
    obtain ⟨f', j, rfl, hj, hf', hfc', hff'⟩ := Geometry.exists_member (Geometry.group_ok hok).1
    obtain rfl : f' = f := hff'.symm.trans hfirst
    obtain ⟨lay', hok', hget⟩ := hlay j hj
    obtain rfl := Except.ok.inj (hok.symm.trans hok')
    refine ⟨_, List.mem_of_getElem? hget, ?_⟩
    cases p
    · exact List.mem_cons_self
    · exact List.mem_cons_of_mem _ List.mem_cons_self
    · exact List.mem_cons_of_mem _ (List.mem_cons_of_mem _ List.mem_cons_self)

/-- On metadata that is contained, a block of a group is metadata when it is metadata of the
group's flex group. -/
theorem inMetadata_iff (hlen : 0 < geom.itableBlocksPerGroup) (hin : geom.MetadataContained)
    (hg : g < geom.groupCount) (h : geom.flexMetadataRuns g = .ok metadata) {i : Nat}
    (hi : i < geom.blocksPerGroup) :
    geom.InMetadata (geom.groupFirstBlock g + i) ↔
      ∃ r ∈ metadata, Within r (geom.groupFirstBlock g + i) := by
  simp only [mem_flexMetadataRuns hlen hg h]
  constructor
  · rintro ⟨g', lay, p, hlay, hb⟩
    refine ⟨_, ⟨g', lay, p, ?_, hlay, rfl⟩, hb⟩
    -- Another flex group's blocks end before this one's, or start after.
    have hg' := (Geometry.group_ok hlay).1
    obtain ⟨lay', hlay', hwithin⟩ := hin g' hg'
    obtain rfl := Except.ok.inj (hlay.symm.trans hlay')
    obtain ⟨hlow, hhigh⟩ := hwithin p _ hb
    have hlast := geom.groupFirstBlock_mono (geom.flexFirstGroup_le g)
    have hnext : geom.groupFirstBlock (g + 1) =
        geom.groupFirstBlock g + geom.blocksPerGroup := by
      rw [Geometry.groupFirstBlock, Geometry.groupFirstBlock, Nat.succ_mul, Nat.add_assoc]
    rcases Nat.lt_trichotomy (geom.flexFirstGroup g') (geom.flexFirstGroup g) with hlt | heq | hlt
    · have := geom.groupFirstBlock_mono (Geometry.flex_ordered hg' hlt)
      omega
    · exact heq
    · have hmem := geom.lt_flexFirstGroup_add g hg
      have := geom.groupFirstBlock_mono (Geometry.flex_ordered hg hlt)
      have := geom.groupFirstBlock_mono (show g + 1 ≤ _ from hmem)
      omega
  · rintro ⟨r, ⟨g', lay, p, -, hlay, rfl⟩, hb⟩
    exact ⟨g', lay, p, hlay, hb⟩

end Flex

/-! ## One group -/

section Group

variable {plan : Plan} {g : Nat} {state : GroupState}

/-- What a group that can be built is built from. -/
theorem buildGroup_state (h : buildGroup plan g = .ok state) : ∃ lay metadata,
    plan.geom.group g = .ok lay ∧ plan.geom.flexMetadataRuns g = .ok metadata ∧
      let bits := (marks plan lay metadata).map (window lay plan.geom.blocksPerGroup)
      let counted := 8 * min (divCeil plan.geom.blocksPerGroup 8) plan.geom.blockSize
      let used := ((List.range counted).filter (marked bits)).length
      state.blockBitmap = ofBits plan.geom.blockSize
          (fun i => marked bits i || plan.geom.blocksPerGroup ≤ i) ∧
        state.inodeBitmap = ofBits plan.geom.blockSize
          (fun i => inodeUsed plan g i || plan.geom.inodesPerGroup ≤ i) ∧
        state.desc.freeBlocksCount = plan.geom.blocksPerGroup - used ∧
        state.desc.flags = groupFlags plan g used := by
  obtain ⟨lay, hlay, h⟩ := bind_ok h
  obtain ⟨metadata, hmeta, h⟩ := bind_ok h
  obtain ⟨_, -, h⟩ := bind_ok h
  obtain ⟨_, -, h⟩ := bind_ok h
  obtain rfl := Except.ok.inj h
  have hlay := returned_ok hlay
  rw [(group_fields hlay).1] at hmeta
  exact ⟨lay, metadata, hlay, returned_ok hmeta, rfl, rfl, rfl, rfl⟩

/-- Only what is below `m` is counted when nothing from `m` on holds. -/
theorem filter_range_of_past {p : Nat → Bool} {m n : Nat} (hmn : m ≤ n)
    (hp : ∀ i, m ≤ i → p i = false) : (List.range n).filter p = (List.range m).filter p := by
  have happend := @List.range'_append_1 0 m (n - m)
  rw [Nat.zero_add, Nat.add_sub_cancel' hmn] at happend
  rw [List.range_eq_range', List.range_eq_range', ← happend, List.filter_append]
  have hpast : (List.range' m (n - m)).filter p = [] := by
    refine List.filter_eq_nil_iff.mpr fun i hi => ?_
    rw [hp i (List.mem_range'_1.mp hi).1]
    exact Bool.false_ne_true
  rw [hpast, List.append_nil]

/-- How many of the first `m` numbers do not hold, counted over more of them. -/
theorem length_filter_not {p : Nat → Bool} {m n : Nat} (hmn : m ≤ n)
    (hp : ∀ i, m ≤ i → p i = false) :
    ((List.range n).filter fun i => !(p i || decide (m ≤ i))).length =
      m - ((List.range n).filter p).length := by
  have hbelow : (List.range m).filter (fun i => !(p i || decide (m ≤ i))) =
      (List.range m).filter fun i => !p i := by
    refine List.filter_congr fun i hi => ?_
    rw [decide_eq_false (Nat.not_le.mpr (List.mem_range.mp hi)), Bool.or_false]
  have htotal := List.length_eq_length_filter_add p (l := List.range m)
  rw [List.length_range] at htotal
  rw [filter_range_of_past hmn hp, filter_range_of_past hmn (fun i hi => ?_), hbelow]
  · omega
  · rw [decide_eq_true hi, Bool.or_true, Bool.not_true]

/-- The reserved inodes, `lost+found` and the orphan file are all inodes of group 0. -/
theorem Plan.Sound.inodeUsed_iff (h : plan.Sound) {i : Nat} :
    (inodeUsed plan g i || decide (plan.geom.inodesPerGroup ≤ i)) = true ↔
      plan.InodeInUse g i := by
  have hgroup0 := h.group0
  have hfirst : goodOldFirstIno = 11 := rfl
  have horphan := h.orphanInode
  simp only [inodeUsed, Plan.InodeInUse, Bool.or_eq_true, Bool.and_eq_true, decide_eq_true_eq]
  rcases Nat.eq_zero_or_pos g with rfl | hg
  · rw [Nat.zero_mul, Nat.zero_add]
    constructor
    · rintro (⟨-, hlow | ho⟩ | hpast)
      · omega
      · exact Or.inr (Or.inr (Or.inl ho))
      · exact Or.inr (Or.inr (Or.inr hpast))
    · rintro (hlow | hlow | ho | hpast)
      · exact Or.inl ⟨rfl, Or.inl (by omega)⟩
      · exact Or.inl ⟨rfl, Or.inl (by omega)⟩
      · exact Or.inl ⟨rfl, Or.inr ho⟩
      · exact Or.inr hpast
  · have hmul := Nat.mul_le_mul_right plan.geom.inodesPerGroup (show 1 ≤ g from hg)
    constructor
    · rintro (⟨h0, -⟩ | hpast)
      · omega
      · exact Or.inr (Or.inr (Or.inr hpast))
    · rintro (hlow | hlow | ho | hpast)
      · omega
      · omega
      · have := horphan _ ho
        omega
      · exact Or.inr hpast

/-- A block bitmap flagged as never written has no bit set but the padding. -/
theorem used_of_blockUninit {used : Nat} (hflags : state.desc.flags = groupFlags plan g used)
    (h : state.desc.blockUninit = true) : used = 0 := by
  unfold GroupDesc.blockUninit at h
  rw [hflags, groupFlags] at h
  by_contra hused
  rw [if_neg (c := _ ∧ used = 0 ∧ _) (fun hc => hused hc.2.1)] at h
  revert h
  split <;> split <;> decide

theorem used_of_inodeUninit {used : Nat} (hflags : state.desc.flags = groupFlags plan g used)
    (h : state.desc.inodeUninit = true) : usedInodes plan g = 0 := by
  unfold GroupDesc.inodeUninit at h
  rw [hflags, groupFlags] at h
  by_contra hused
  rw [if_neg (c := _ ∧ usedInodes plan g = 0) (fun hc => hused hc.2)] at h
  revert h
  split <;> split <;> decide

theorem inodeUsed_of_none {i : Nat} (h : usedInodes plan g = 0) : inodeUsed plan g i = false := by
  unfold usedInodes at h
  split at h
  · have : goodOldFirstIno = 11 := rfl
    omega
  · next hg =>
    unfold inodeUsed
    rw [decide_eq_false hg, Bool.false_and]

/-- The bits of a block bitmap, by what the group marks. -/
theorem Plan.Sound.testBit_blockBitmap (h : plan.Sound) (hin : plan.geom.MetadataContained)
    (hg : g < plan.geom.groupCount) (hbuild : buildGroup plan g = .ok state) {i : Nat}
    (hi : i < 8 * plan.geom.blockSize) :
    testBit state.blockBitmap i = true ↔ i < plan.geom.superOverhead g ∨
      plan.geom.InMetadata (plan.geom.groupFirstBlock g + i) ∨
        plan.geom.groupFirstBlock g + i ∈ blocksOf plan.runs ∨
          plan.geom.blocksPerGroup ≤ i ∨
            plan.geom.blocksCount ≤ plan.geom.groupFirstBlock g + i := by
  obtain ⟨lay, metadata, hlay, hmeta, hblock, -⟩ := buildGroup_state hbuild
  have hcount : 0 < plan.geom.blocksCount := by
    have := h.front_two hg
    omega
  rw [hblock, testBit_ofBits _ hi, Bool.or_eq_true, decide_eq_true_eq]
  rcases Nat.lt_or_ge i plan.geom.blocksPerGroup with hlt | hge
  · rw [marked_map_window hlt, exists_mark_iff hlay hlt hcount,
      inMetadata_iff h.computed.itable_pos hin hg hmeta hlt]
    have hno : ¬plan.geom.blocksPerGroup ≤ i := Nat.not_le.mpr hlt
    simp only [hno, or_false, false_or]
  · simp only [hge, or_true, true_or]

/-- A group's own region is a region, and the rest of them are covered or not. -/
theorem Plan.Sound.blocks_exact_iff (h : plan.Sound) (hin : plan.geom.MetadataContained)
    (hbits : plan.geom.blocksPerGroup ≤ 8 * plan.geom.blockSize) (hg : g < plan.geom.groupCount)
    (hbuild : buildGroup plan g = .ok state) :
    (∀ i < 8 * plan.geom.blockSize, testBit state.blockBitmap i = true ↔ plan.BlockInUse g i) ↔
      ∀ i < plan.geom.blocksPerGroup,
        plan.geom.groupFirstBlock g + i < plan.geom.blocksCount →
          plan.geom.InRegion (plan.geom.groupFirstBlock g + i) →
            plan.geom.inSuperRegion (plan.geom.groupFirstBlock g + i) = true ∨
              plan.geom.InMetadata (plan.geom.groupFirstBlock g + i) ∨
                plan.geom.groupFirstBlock g + i ∈ blocksOf plan.runs := by
  have hown : ∀ i < plan.geom.blocksPerGroup,
      plan.geom.groupFirstBlock g + i < plan.geom.blocksCount →
        (plan.geom.inSuperRegion (plan.geom.groupFirstBlock g + i) = true ↔
          i < plan.geom.superOverhead g) := by
    intro i hi hb
    have hfree := Geometry.free_iff h.computed.groupCount_lt hg hi hb
    rw [Geometry.Free] at hfree
    rw [← Nat.not_le, ← hfree, Bool.not_eq_false]
  constructor
  · intro hexact i hi hb hregion
    rw [hown i hi hb]
    have hset := (hexact i (by omega)).mpr (Or.inl hregion)
    rcases (h.testBit_blockBitmap hin hg hbuild (by omega)).mp hset with
      hfront | hmeta | hrun | hpast | hpast
    · exact Or.inl hfront
    · exact Or.inr (Or.inl hmeta)
    · exact Or.inr (Or.inr hrun)
    · omega
    · omega
  · intro hcovered i hi
    rw [h.testBit_blockBitmap hin hg hbuild hi]
    constructor
    · rintro (hfront | hmeta | hrun | hpast | hpast)
      · exact Or.inl ⟨g, hg, Nat.le_add_right _ _, Nat.add_lt_add_left hfront _⟩
      · exact Or.inr (Or.inl hmeta)
      · exact Or.inr (Or.inr (Or.inl hrun))
      · exact Or.inr (Or.inr (Or.inr (Or.inl hpast)))
      · exact Or.inr (Or.inr (Or.inr (Or.inr hpast)))
    · rintro (hregion | hmeta | hrun | hpast | hpast)
      · by_cases hinside : i < plan.geom.blocksPerGroup ∧
          plan.geom.groupFirstBlock g + i < plan.geom.blocksCount
        · obtain ⟨hlt, hb⟩ := hinside
          rcases hcovered i hlt hb hregion with hfront | hmeta | hrun
          · exact Or.inl ((hown i hlt hb).mp hfront)
          · exact Or.inr (Or.inl hmeta)
          · exact Or.inr (Or.inr (Or.inl hrun))
        · omega
      · exact Or.inr (Or.inl hmeta)
      · exact Or.inr (Or.inr (Or.inl hrun))
      · exact Or.inr (Or.inr (Or.inr (Or.inl hpast)))
      · exact Or.inr (Or.inr (Or.inr (Or.inr hpast)))

/-- The free count is taken before the padding, over whole bytes of the bitmap. -/
theorem freeBlocksCount_eq (hbits : plan.geom.blocksPerGroup ≤ 8 * plan.geom.blockSize)
    (hbuild : buildGroup plan g = .ok state) :
    state.desc.freeBlocksCount = clearBits state.blockBitmap := by
  obtain ⟨lay, metadata, -, -, hblock, -, hfree, -⟩ := buildGroup_state hbuild
  have hup := le_divCeil_mul plan.geom.blocksPerGroup (show 0 < 8 by decide)
  have hpast := fun i hi => @not_marked_past plan lay (marks plan lay metadata) i hi
  rw [hblock, clearBits_ofBits, length_filter_not hbits hpast, hfree,
    filter_range_of_past hbits hpast, filter_range_of_past (by omega) hpast]

/-- With groups larger than a bitmap's block the count goes past the bits there are. -/
theorem freeBlocksCount_ne (hbits : 8 * plan.geom.blockSize < plan.geom.blocksPerGroup)
    (hbuild : buildGroup plan g = .ok state) :
    state.desc.freeBlocksCount ≠ clearBits state.blockBitmap := by
  obtain ⟨lay, metadata, -, -, hblock, -, hfree, -⟩ := buildGroup_state hbuild
  have hclear := clearBits_ofBits plan.geom.blockSize fun i =>
    marked ((marks plan lay metadata).map (window lay plan.geom.blocksPerGroup)) i ||
      decide (plan.geom.blocksPerGroup ≤ i)
  have hcounted : 8 * min (divCeil plan.geom.blocksPerGroup 8) plan.geom.blockSize =
      8 * plan.geom.blockSize := by
    have := le_divCeil_mul plan.geom.blocksPerGroup (show 0 < 8 by decide)
    omega
  have hbelow : (List.range (8 * plan.geom.blockSize)).filter (fun i =>
      !(marked ((marks plan lay metadata).map (window lay plan.geom.blocksPerGroup)) i ||
        decide (plan.geom.blocksPerGroup ≤ i))) =
      (List.range (8 * plan.geom.blockSize)).filter fun i =>
        !marked ((marks plan lay metadata).map (window lay plan.geom.blocksPerGroup)) i := by
    refine List.filter_congr fun i hi => ?_
    have := List.mem_range.mp hi
    rw [decide_eq_false (by omega), Bool.or_false]
  have htotal := List.length_eq_length_filter_add
    (marked ((marks plan lay metadata).map (window lay plan.geom.blocksPerGroup)))
    (l := List.range (8 * plan.geom.blockSize))
  rw [List.length_range] at htotal
  rw [hcounted] at hfree
  rw [hblock, hclear, hbelow, hfree]
  omega

/-- What a reader computes for a group flagged as never written is what was built. -/
theorem uninit_eq (hbits : plan.geom.blocksPerGroup ≤ 8 * plan.geom.blockSize)
    (hbuild : buildGroup plan g = .ok state) {fs : Filesystem}
    (hblockSize : fs.blockSize = plan.geom.blockSize)
    (hblocks : fs.superblock.blocksPerGroup = plan.geom.blocksPerGroup)
    (hinodes : fs.superblock.inodesPerGroup = plan.geom.inodesPerGroup) :
    (state.desc.blockUninit = true →
        fs.uninitBitmap fs.superblock.blocksPerGroup = state.blockBitmap) ∧
      (state.desc.inodeUninit = true →
        fs.uninitBitmap fs.superblock.inodesPerGroup = state.inodeBitmap) := by
  obtain ⟨lay, metadata, -, -, hblock, hinode, -, hflags⟩ := buildGroup_state hbuild
  unfold Filesystem.uninitBitmap
  rw [hblockSize, hblocks, hinodes, hblock, hinode]
  constructor
  · intro hflag
    have hused := used_of_blockUninit hflags hflag
    have hup := le_divCeil_mul plan.geom.blocksPerGroup (show 0 < 8 by decide)
    have hpast := fun i hi => @not_marked_past plan lay (marks plan lay metadata) i hi
    rw [List.length_eq_zero_iff, filter_range_of_past (by omega) hpast,
      List.filter_eq_nil_iff] at hused
    congr 1
    funext i
    rcases Nat.lt_or_ge i plan.geom.blocksPerGroup with hlt | hge
    · have hclear := hused i (List.mem_range.mpr hlt)
      rw [Bool.not_eq_true] at hclear
      rw [hclear, Bool.false_or]
    · rw [hpast i hge, Bool.false_or]
  · intro hflag
    have hused := used_of_inodeUninit hflags hflag
    congr 1
    funext i
    rw [inodeUsed_of_none hused, Bool.false_or]

end Group

/-! ## The whole table -/

/-- A format reports what its groups have free, each as its bitmap has it. -/
theorem Plan.Sound.freeBlocksCount_report {plan : Plan} (h : plan.Sound)
    (hbits : plan.geom.blocksPerGroup ≤ 8 * plan.geom.blockSize)
    (hbuilt : ∀ g < plan.geom.groupCount, ∃ state, buildGroup plan g = .ok state)
    {chunkBlocks : Nat} {schedule : Nat → List Nat} {dev dev' : Device} {report : Report}
    (hrun : writePlan plan chunkBlocks schedule dev = (.ok report, dev')) :
    report.freeBlocksCount = ((List.range plan.geom.groupCount).map (clearIn plan)).sum := by
  have hresult : (writeFilesystemChunked plan chunkBlocks schedule).result = .ok report := by
    unfold writePlan at hrun
    dsimp only at hrun
    split at hrun
    · cases hrun
    · exact (Prod.mk.inj hrun).1
  rw [writeFilesystemChunked_eq] at hresult
  obtain ⟨_, -, hresult, -⟩ := Lib.Trace.bind_ok hresult
  obtain ⟨free, hfree, hresult, -⟩ := Lib.Trace.bind_ok hresult
  obtain ⟨_, -, hresult, -⟩ := Lib.Trace.bind_ok hresult
  obtain ⟨_, -, hresult, -⟩ := Lib.Trace.bind_ok hresult
  obtain rfl := Except.ok.inj hresult
  show free.1 = _
  rw [(h.writeTable_ok hfree).1, tableFree]
  dsimp only
  congr 1
  have hended : ∀ g ∈ List.range plan.geom.groupCount,
      ∃ desc, (queued plan g).ended = some (g, desc) ∧ desc.freeBlocksCount = clearIn plan g := by
    intro g hg
    obtain ⟨state, hstate⟩ := hbuilt g (List.mem_range.mp hg)
    obtain ⟨⟨ops, desc⟩, hwrite⟩ := writeGroup_of_build hstate
    obtain ⟨state', -, hstate', -, rfl, -⟩ := writeGroup_ok hwrite
    obtain rfl := Except.ok.inj (hstate.symm.trans hstate')
    refine ⟨state.desc, InFlight.ended_of hwrite, ?_⟩
    rw [clearIn, hstate, freeBlocksCount_eq hbits hstate]
  generalize List.range plan.geom.groupCount = groups at hended ⊢
  induction groups with
  | nil => rfl
  | cons g gs ih =>
    obtain ⟨desc, hdesc, hcount⟩ := hended g List.mem_cons_self
    rw [List.map_cons, List.filterMap_cons, hdesc, List.map_cons, List.map_cons, hcount,
      ih fun g' hg' => hended g' (List.mem_cons_of_mem _ hg')]

/-- The bitmaps of a plan whose metadata is contained are exact when a bitmap's block has a bit
for each block of a group and no region reaches a block of another group that is not in use
otherwise, and only then. -/
theorem bitmapsExact_iff {deviceSize : Nat} {params : Params} {ambient : Ambient} {p : Plan}
    (htyped : params.Typed) (hplan : plan deviceSize params ambient = .ok p)
    (hin : p.geom.MetadataContained) :
    p.BitmapsExact ↔ p.geom.blocksPerGroup ≤ 8 * p.geom.blockSize ∧ p.RegionsCovered := by
  have h := plan_sound htyped hplan
  obtain ⟨hgeom, -⟩ := plan_made hplan
  obtain ⟨req, start, descSize, s, grp, -, hfrom⟩ := compute_from hgeom
  constructor
  · intro hexact
    have hbits : p.geom.blocksPerGroup ≤ 8 * p.geom.blockSize := by
      by_contra hlarge
      obtain ⟨state, hbuild, hstate⟩ := hexact.groups 0 h.computed.groupCount_pos
      exact freeBlocksCount_ne (Nat.lt_of_not_le hlarge) hbuild hstate.free
    refine ⟨hbits, fun g hg => ?_⟩
    obtain ⟨state, hbuild, hstate⟩ := hexact.groups g hg
    exact (h.blocks_exact_iff hin hbits hg hbuild).mp hstate.blocks
  · rintro ⟨hbits, hcovered⟩
    have hbuilt : ∀ g < p.geom.groupCount, ∃ state, buildGroup p g = .ok state := by
      intro g hg
      obtain ⟨lay, hlay, -⟩ := hin g hg
      obtain ⟨-, placement, hplace⟩ := Geometry.group_ok hlay
      exact buildGroup_of_placed hg hbits (hfrom.inodes_le_bits htyped) hplace
    refine ⟨fun g hg => ?_, fun _ _ _ _ _ hrun => h.freeBlocksCount_report hbits hbuilt hrun⟩
    obtain ⟨state, hbuild⟩ := hbuilt g hg
    refine ⟨state, hbuild, (h.blocks_exact_iff hin hbits hg hbuild).mpr (hcovered g hg),
      freeBlocksCount_eq hbits hbuild, fun i hi => ?_, fun dev freeBlocks freeInodes fs hfs => ?_⟩
    · obtain ⟨lay, metadata, -, -, -, hinode, -⟩ := buildGroup_state hbuild
      rw [hinode, testBit_ofBits _ hi, h.inodeUsed_iff]
    · have hmounts := mounts_of_superblock hplan hfs
      obtain ⟨_, -, hrest⟩ := bind_ok hfs
      obtain ⟨descs, -, hrest⟩ := bind_ok hrest
      obtain rfl := Except.ok.inj hrest
      exact uninit_eq hbits hbuild hmounts.blockSize rfl rfl

/-- Without `meta_bg` no region outgrows its group. -/
theorem Plan.Sound.covered_of_classic {plan : Plan} (h : plan.Sound)
    (hm : plan.geom.metaBg = false) : plan.RegionsCovered := by
  rintro g hg i hi b hb ⟨g', hg', hlow, hhigh⟩
  left
  have hfits : plan.geom.superOverhead g' ≤ plan.geom.blocksPerGroup := by
    by_contra hspill
    have := (Geometry.table_of_spill h.computed (Nat.lt_of_not_le hspill)).2.2
    rw [hm] at this
    cases this
  have hnext : ∀ g, plan.geom.groupFirstBlock (g + 1) =
      plan.geom.groupFirstBlock g + plan.geom.blocksPerGroup := by
    intro g
    rw [Geometry.groupFirstBlock, Geometry.groupFirstBlock, Nat.succ_mul, Nat.add_assoc]
  dsimp only [Geometry.superRegion] at hlow hhigh
  obtain rfl : g' = g := by
    rcases Nat.lt_trichotomy g' g with hlt | heq | hlt
    · have := plan.geom.groupFirstBlock_mono (show g' + 1 ≤ g from hlt)
      have := hnext g'
      omega
    · exact heq
    · have := plan.geom.groupFirstBlock_mono (show g + 1 ≤ g' from hlt)
      have := hnext g
      omega
  rw [← Bool.not_eq_false]
  intro hfree
  have := (Geometry.free_iff h.computed.groupCount_lt hg hi hb).mp hfree
  omega

/-! ## Geometries with room -/

/-- With room, the metadata of a flex group stays in it. -/
theorem Spacious.contained {geom : Geometry} (h : Spacious geom) (hc : Computed geom) :
    geom.MetadataContained := by
  intro g hg
  obtain ⟨lay, hlay⟩ := (h.metadataSound hc).placed g hg
  refine ⟨lay, hlay, fun p b hb => ?_⟩
  have hinside := (h.metadataSound hc).inside g lay p b hlay hb
  obtain ⟨f, i, rfl, hi, hf, hfc, hff⟩ := Geometry.exists_member hg
  obtain ⟨runs, e, hplaced, hend⟩ := Geometry.flexPlaced_of_room hc h.room hf hfc
  obtain ⟨hlow, hhigh, -⟩ := hplaced.bounds (List.mem_of_getElem? (hplaced.part_mem hi hlay p)) hb
  rw [hff]
  refine ⟨hlow, ?_⟩
  have hmem := geom.flexMembers_le hfc
  by_cases hnext : f + geom.flexMembers f < geom.groupCount
  · exact Nat.lt_of_lt_of_le hhigh (hend hnext)
  · have := h.reach
    have := geom.groupFirstBlock_mono (show geom.groupCount ≤ f + geom.flexMembers f by omega)
    omega

/-- With room, every block of a region is told from the others. -/
theorem Spacious.covered {plan : Plan} (h : Spacious plan.geom) (hc : Computed plan.geom) :
    plan.RegionsCovered := by
  rintro g - i - b hb ⟨g', hg', hwithin⟩
  exact Or.inl (h.regionsReported hc g' hg' _ hb hwithin)

/-- Every bitmap of the groups with their own metadata is exact. -/
theorem bitmapsExact_iff_several : ∃ p,
    Format.plan severalDevice.size (onDevice severalParams severalDevice) {} = .ok p ∧
      p.geom.groupCount = 20 ∧
      (p.BitmapsExact ↔ p.geom.blocksPerGroup ≤ 8 * p.geom.blockSize ∧ p.RegionsCovered) ∧
      p.BitmapsExact := by
  obtain ⟨p, report, dev', hplan, hgeom, -⟩ := several_written
  have htyped : (onDevice severalParams severalDevice).Typed :=
    onDevice_typed severalParams_typed (by decide)
  have hsound := plan_sound htyped hplan
  have hroomy : Spacious p.geom := by
    rw [hgeom]
    exact several_spacious
  have hcovered := hsound.covered_of_classic (by rw [hgeom]; rfl)
  have hiff := bitmapsExact_iff htyped hplan (hroomy.contained hsound.computed)
  have hbits : p.geom.blocksPerGroup ≤ 8 * p.geom.blockSize := by
    rw [hgeom]
    decide
  exact ⟨p, hplan, by rw [hgeom]; rfl, hiff, hiff.mpr ⟨hbits, hcovered⟩⟩

/-! ### A group too large for its bitmap -/

/-- A hundred blocks in one group of a given size. -/
def denseParams (blocksPerGroup : Nat) : Params :=
  { blockSize := some 1024, blocksPerGroup := some blocksPerGroup, inodesCount := some 16,
    inodeSize := some 128, journal := .none }

def dense (blocksPerGroup : Nat) : Geometry where
  blockSize := 1024
  logBlockSize := 0
  blocksCount := 100
  firstDataBlock := 1
  blocksPerGroup := blocksPerGroup
  rBlocksCount := 5
  inodesCount := 16
  inodesPerGroup := 16
  inodeSize := 128
  itableBlocksPerGroup := 2
  groupCount := 1
  descSize := 64
  descBlocks := 1
  reservedGdtBlocks := 0
  logGroupsPerFlex := 4
  metaBg := false
  firstMetaBg := 0
  features := { compat := 0x38, incompat := 0x22c2, roCompat := 0x46b }

def denseLayout (blocksPerGroup : Nat) : GroupLayout where
  group := 0
  firstBlock := 1
  lastBlock := (dense blocksPerGroup).groupLastBlock 0
  hasSuper := true
  blockBitmap := 3
  inodeBitmap := 4
  inodeTable := 5

theorem dense_contained {blocksPerGroup : Nat} (h : 8 ≤ blocksPerGroup)
    (hlay : (dense blocksPerGroup).group 0 = .ok (denseLayout blocksPerGroup)) :
    (dense blocksPerGroup).MetadataContained := by
  intro g hg
  obtain rfl : g = 0 := by
    have : (dense blocksPerGroup).groupCount = 1 := rfl
    omega
  refine ⟨_, hlay, fun p b hb => ?_⟩
  have hfirst : (dense blocksPerGroup).flexFirstGroup 0 = 0 :=
    Nat.le_zero.mp (Geometry.flexFirstGroup_le 0)
  have hmembers : 1 ≤ (dense blocksPerGroup).flexMembers 0 := (Geometry.flexMembers_le hg).2.2
  have hend := (dense blocksPerGroup).groupFirstBlock_mono hmembers
  have hone : (dense blocksPerGroup).groupFirstBlock 1 = 1 + 1 * blocksPerGroup := rfl
  rw [hfirst, Nat.zero_add, Geometry.groupFirstBlock_zero]
  have hdata : (dense blocksPerGroup).firstDataBlock = 1 := rfl
  have hin : 3 ≤ b ∧ b < 7 := by
    obtain ⟨hlow, hhigh⟩ := hb
    cases p <;> dsimp only [Geometry.part, denseLayout, dense] at hlow hhigh <;> omega
  omega

/-- A hundred blocks in a group of twice the size a block's bitmap is for: marking what is past
the end of the filesystem runs off the bitmap. -/
theorem dense_not_exact : ∃ p, Format.plan (100 * 1024) (denseParams 16384) {} = .ok p ∧
    p.geom.MetadataContained ∧ ¬p.BitmapsExact := by
  have hanswers : compute (100 * 1024) (denseParams 16384) = .ok (dense 16384) ∧
      (dense 16384).group 0 = .ok (denseLayout 16384) ∧
      (Format.plan (100 * 1024) (denseParams 16384) {}).toOption.any
        (fun p => !(buildGroup p 0).isOk) = true := by
    decide +kernel
  obtain ⟨hcompute, hlay, hok⟩ := hanswers
  cases hplan : Format.plan (100 * 1024) (denseParams 16384) {} with
  | error e =>
    rw [hplan] at hok
    cases hok
  | ok p =>
    rw [hplan] at hok
    have hgeom : p.geom = dense 16384 := Except.ok.inj ((plan_made hplan).1.symm.trans hcompute)
    refine ⟨p, rfl, by rw [hgeom]; exact dense_contained (by decide) hlay, fun hexact => ?_⟩
    obtain ⟨state, hbuild, -⟩ := hexact.groups 0 (by rw [hgeom]; decide)
    simp [Except.toOption, hbuild, Except.isOk, Except.toBool] at hok

end MkfsExt4.Format
