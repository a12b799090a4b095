/-
  Metadata of different groups: when it can meet.

  `compute` tries the placement of the last group only. Each flex group is placed on its
  own, so a flex group that does not fit its own blocks runs on into the next one's, which
  starts there as if nothing had come before. `metadata_sound_iff_room`: the groups'
  bitmaps and inode tables are sound together exactly when every flex group but the last
  has room for its own between its first block and the next flex group's, and no
  superblock or descriptor region reaches a block that `in_super_region` passes.
-/
import MkfsExt4.Layout.Placement
import MkfsExt4.Layout.Compute

namespace MkfsExt4.Layout

open Lib.FirstFit Lib.Hoare

/-! ## What is asked of a geometry -/

/-- The three pieces of metadata every group has. -/
inductive Part where
  | blockBitmap
  | inodeBitmap
  | inodeTable
deriving DecidableEq, Repr

/-- The place of a piece in the order of placement. -/
def Part.index : Part → Nat
  | blockBitmap => 0
  | inodeBitmap => 1
  | inodeTable => 2

theorem Part.exists_index : ∀ {n : Nat}, n < 3 → ∃ p : Part, p.index = n
  | 0, _ => ⟨blockBitmap, rfl⟩
  | 1, _ => ⟨inodeBitmap, rfl⟩
  | 2, _ => ⟨inodeTable, rfl⟩

theorem Part.index_inj {p p' : Part} (h : p.index = p'.index) : p = p' := by
  cases p <;> cases p' <;> first | rfl | cases h

/-- `block` is one of the `r.2` blocks from `r.1` on. -/
def Within (r : Nat × Nat) (block : Nat) : Prop := r.1 ≤ block ∧ block < r.1 + r.2

instance (r : Nat × Nat) (block : Nat) : Decidable (Within r block) :=
  inferInstanceAs (Decidable (_ ∧ _))

namespace Geometry

variable (geom : Geometry)

/-- The first block and the length of a piece of a group's metadata. -/
def part (lay : GroupLayout) : Part → Nat × Nat
  | .blockBitmap => (lay.blockBitmap, 1)
  | .inodeBitmap => (lay.inodeBitmap, 1)
  | .inodeTable => (lay.inodeTable, geom.itableBlocksPerGroup)

/-- A group's superblock copy, descriptors and reserved descriptor blocks. -/
def superRegion (g : Nat) : Nat × Nat := (geom.groupFirstBlock g, geom.superOverhead g)

/-- Every group has its metadata, inside the filesystem, and no block of it is metadata of
another piece or group or lies in a superblock or descriptor region. -/
structure MetadataSound : Prop where
  placed : ∀ g < geom.groupCount, ∃ lay, geom.group g = .ok lay
  inside : ∀ g lay p b, geom.group g = .ok lay → Within (geom.part lay p) b →
    geom.firstDataBlock ≤ b ∧ b < geom.blocksCount
  apart : ∀ g lay p g' lay' p' b, geom.group g = .ok lay → geom.group g' = .ok lay' →
    (g, p) ≠ (g', p') → Within (geom.part lay p) b → ¬ Within (geom.part lay' p') b
  clear : ∀ g lay p b, geom.group g = .ok lay → Within (geom.part lay p) b →
    ∀ h < geom.groupCount, ¬ Within (geom.superRegion h) b

/-- The flex group of `f` has room: its block bitmaps, inode bitmaps and inode tables can be
laid in that order on its own blocks, outside every block `in_super_region` reports. -/
def HasRoom (f : Nat) : Prop :=
  Fits geom.Free (geom.groupFirstBlock f) (geom.flexRuns (geom.flexMembers f))
    (geom.groupFirstBlock (f + geom.flexMembers f))

/-- Every flex group but the last has room. -/
def RoomForAll : Prop :=
  ∀ g, geom.flexFirstGroup g + geom.flexMembers (geom.flexFirstGroup g) < geom.groupCount →
    geom.HasRoom (geom.flexFirstGroup g)

/-- `in_super_region` reports every block of every superblock and descriptor region. -/
def RegionsReported : Prop :=
  ∀ g < geom.groupCount, ∀ b < geom.blocksCount,
    Within (geom.superRegion g) b → geom.inSuperRegion b

/-! ## Flex groups -/

section Flex

variable {geom}

theorem flexBgSize_pos : 0 < geom.flexBgSize := by
  unfold flexBgSize
  rw [Nat.one_shiftLeft]
  exact Nat.two_pow_pos _

theorem flexFirstGroup_eq (g : Nat) :
    geom.flexFirstGroup g = g / geom.flexBgSize * geom.flexBgSize := by
  unfold flexFirstGroup
  split
  · rename_i h
    simp [flexBgSize, h]
  · rfl

theorem flexMembers_eq {f : Nat} (hf : f < geom.groupCount) :
    geom.flexMembers f = min geom.flexBgSize (geom.groupCount - f) := by
  unfold flexMembers
  split
  · rename_i h
    simp only [flexBgSize, h, Nat.shiftLeft_zero]
    omega
  · rfl

theorem flexFirstGroup_le (g : Nat) : geom.flexFirstGroup g ≤ g := by
  rw [flexFirstGroup_eq]
  exact Nat.div_mul_le_self g _

theorem flexFirstGroup_self (g : Nat) :
    geom.flexFirstGroup (geom.flexFirstGroup g) = geom.flexFirstGroup g := by
  rw [flexFirstGroup_eq, flexFirstGroup_eq, Nat.mul_div_cancel _ flexBgSize_pos]

theorem lt_flexFirstGroup_add (g : Nat) (hg : g < geom.groupCount) :
    g < geom.flexFirstGroup g + geom.flexMembers (geom.flexFirstGroup g) := by
  have hle := geom.flexFirstGroup_le g
  rw [flexMembers_eq (by omega)]
  have hlt : g < geom.flexFirstGroup g + geom.flexBgSize := by
    rw [flexFirstGroup_eq]
    exact Nat.lt_div_mul_add flexBgSize_pos
  omega

/-- The members of a flex group belong to it. -/
theorem flexFirstGroup_add {f i : Nat} (hf : geom.flexFirstGroup f = f)
    (hi : i < geom.flexBgSize) : geom.flexFirstGroup (f + i) = f := by
  rw [flexFirstGroup_eq] at hf ⊢
  have hdiv : (f + i) / geom.flexBgSize = f / geom.flexBgSize := by
    rw [← hf, Nat.mul_div_cancel _ flexBgSize_pos, Nat.mul_comm, Nat.mul_add_div flexBgSize_pos,
      Nat.div_eq_of_lt hi, Nat.add_zero]
  rw [hdiv, hf]

theorem flexMembers_le {f : Nat} (hf : f < geom.groupCount) :
    geom.flexMembers f ≤ geom.flexBgSize ∧ f + geom.flexMembers f ≤ geom.groupCount ∧
      0 < geom.flexMembers f := by
  rw [flexMembers_eq hf]
  have := geom.flexBgSize_pos
  omega

/-- A flex group that is not the last is full, and the next begins where it ends. -/
theorem flexFirstGroup_next {f : Nat} (hf : geom.flexFirstGroup f = f)
    (hnext : f + geom.flexMembers f < geom.groupCount) :
    geom.flexFirstGroup (f + geom.flexMembers f) = f + geom.flexMembers f := by
  have hmem : geom.flexMembers f = geom.flexBgSize := by
    have := geom.flexMembers_eq (f := f) (by omega)
    omega
  rw [flexFirstGroup_eq] at hf
  rw [hmem, flexFirstGroup_eq, ← hf, ← Nat.succ_mul, Nat.mul_div_cancel _ flexBgSize_pos]

theorem flex_ordered {g g' : Nat} (hg : g < geom.groupCount)
    (h : geom.flexFirstGroup g < geom.flexFirstGroup g') :
    geom.flexFirstGroup g + geom.flexMembers (geom.flexFirstGroup g) ≤ geom.flexFirstGroup g' := by
  have hle := geom.flexFirstGroup_le g
  have hmem := (geom.flexMembers_le (f := geom.flexFirstGroup g) (by omega)).1
  have hstep : geom.flexFirstGroup g + geom.flexBgSize ≤ geom.flexFirstGroup g' := by
    rw [flexFirstGroup_eq, flexFirstGroup_eq] at h ⊢
    have hlt := Nat.lt_of_mul_lt_mul_right h
    rw [← Nat.succ_mul]
    exact Nat.mul_le_mul_right _ hlt
  omega

theorem groupFirstBlock_mono {g g' : Nat} (h : g ≤ g') :
    geom.groupFirstBlock g ≤ geom.groupFirstBlock g' := by
  have := Nat.mul_le_mul_right geom.blocksPerGroup h
  unfold groupFirstBlock
  omega

end Flex

/-! ## The runs of one flex group -/

/-- The flex group from `f` on is placed: `runs` are its pieces in order, up to `e`. -/
structure FlexPlaced (f : Nat) (runs : List (Nat × Nat)) (e : Nat) : Prop where
  greedy : ∃ starts, Greedy geom.Free (geom.groupFirstBlock f)
    (geom.flexRuns (geom.flexMembers f)) starts e ∧
    runs = starts.zip (geom.flexRuns (geom.flexMembers f))
  part : ∀ i < geom.flexMembers f, ∃ lay, geom.group (f + i) = .ok lay ∧
    ∀ p : Part, runs[p.index * geom.flexMembers f + i]? = some (geom.part lay p)

variable {geom}

theorem flexRuns_getElem (p : Part) (lay : GroupLayout) {m i : Nat} (hi : i < m) :
    (geom.flexRuns m)[p.index * m + i]? = some (geom.part lay p).2 := by
  unfold flexRuns
  cases p with
  | blockBitmap =>
    rw [Part.index, Nat.zero_mul, Nat.zero_add, List.getElem?_append_left (by simpa using hi)]
    simp [hi, part]
  | inodeBitmap =>
    rw [Part.index, List.getElem?_append_right (by simp), List.getElem?_append_left
      (by simp; omega)]
    simp [hi, part]
  | inodeTable =>
    rw [Part.index, List.getElem?_append_right (by simp; omega), List.getElem?_append_right
      (by simp; omega), List.length_replicate, show 2 * m + i - m - m = i by omega]
    simp [hi, part]

theorem Placed.starts_getElem {f e i : Nat} {bbs ibs its : List Nat}
    (h : geom.Placed f bbs ibs its e) (hi : i < geom.flexMembers f) {lay : GroupLayout}
    (hbb : bbs[i]? = some lay.blockBitmap) (hib : ibs[i]? = some lay.inodeBitmap)
    (hit : its[i]? = some lay.inodeTable) (p : Part) :
    (bbs ++ (ibs ++ its))[p.index * geom.flexMembers f + i]? = some (geom.part lay p).1 := by
  have hb := h.blockBitmaps_length
  have hib' := h.inodeBitmaps_length
  cases p with
  | blockBitmap =>
    rw [Part.index, Nat.zero_mul, Nat.zero_add, List.getElem?_append_left (by omega), hbb, part]
  | inodeBitmap =>
    rw [Part.index, List.getElem?_append_right (by omega), List.getElem?_append_left (by omega),
      show 1 * geom.flexMembers f + i - bbs.length = i by omega, hib, part]
  | inodeTable =>
    rw [Part.index, List.getElem?_append_right (by omega), List.getElem?_append_right (by omega),
      show 2 * geom.flexMembers f + i - bbs.length - ibs.length = i by omega, hit, part]

theorem group_member {f i : Nat} {placement : List (Nat × Nat × Nat)}
    (hf : geom.flexFirstGroup f = f) (hfc : f < geom.groupCount) (hi : i < geom.flexMembers f)
    (h : geom.placeFlex f = .ok placement) :
    geom.group (f + i) = .ok
      { group := f + i
        firstBlock := geom.groupFirstBlock (f + i)
        lastBlock := geom.groupLastBlock (f + i)
        hasSuper := geom.hasSuper (f + i)
        blockBitmap := (placement.getD i (0, 0, 0)).1
        inodeBitmap := (placement.getD i (0, 0, 0)).2.1
        inodeTable := (placement.getD i (0, 0, 0)).2.2 } := by
  have hmem := geom.flexMembers_le hfc
  have hff : geom.flexFirstGroup (f + i) = f := flexFirstGroup_add hf (by omega)
  unfold group
  rw [if_neg (by omega)]
  simp only [hff, h, Nat.add_sub_cancel_left]
  rfl

theorem flexPlaced_of_ok (hlen : 0 < geom.itableBlocksPerGroup) {f : Nat}
    (hf : geom.flexFirstGroup f = f) (hfc : f < geom.groupCount)
    {placement : List (Nat × Nat × Nat)} (h : geom.placeFlex f = .ok placement) :
    ∃ runs e, geom.FlexPlaced f runs e := by
  obtain ⟨bbs, ibs, its, e, hplaced, rfl⟩ := placeFlex_ok hlen h
  refine ⟨_, e, ⟨_, hplaced.greedy, rfl⟩, ?_⟩
  intro i hi
  refine ⟨_, group_member hf hfc hi h, ?_⟩
  intro p
  have hlens := hplaced.blockBitmaps_length
  have hlens' := hplaced.inodeBitmaps_length
  have hlens'' := hplaced.inodeTables_length
  have hbb : bbs[i]? = some bbs[i] := List.getElem?_eq_getElem (by omega)
  have hib : ibs[i]? = some ibs[i] := List.getElem?_eq_getElem (by omega)
  have hit : its[i]? = some its[i] := List.getElem?_eq_getElem (by omega)
  have hget : (bbs.zip (ibs.zip its)).getD i (0, 0, 0) = (bbs[i], ibs[i], its[i]) := by
    have hzip : (bbs.zip (ibs.zip its))[i]? = some (bbs[i], ibs[i], its[i]) :=
      List.getElem?_zip_eq_some.mpr ⟨hbb, List.getElem?_zip_eq_some.mpr ⟨hib, hit⟩⟩
    rw [List.getD_eq_getElem?_getD, hzip, Option.getD_some]
  rw [List.getElem?_zip_eq_some, hget]
  exact ⟨hplaced.starts_getElem hi hbb hib hit p, flexRuns_getElem p _ hi⟩

namespace FlexPlaced

variable {f e : Nat} {runs : List (Nat × Nat)}

theorem length_eq (h : geom.FlexPlaced f runs e) : runs.length = 3 * geom.flexMembers f := by
  obtain ⟨starts, hgreedy, rfl⟩ := h.greedy
  rw [List.length_zip, hgreedy.length_eq]
  simp only [flexRuns, List.length_append, List.length_replicate]
  omega

/-- A piece of a member's metadata is one of the runs. -/
theorem part_mem (h : geom.FlexPlaced f runs e) {i : Nat} (hi : i < geom.flexMembers f)
    {lay : GroupLayout} (hlay : geom.group (f + i) = .ok lay) (p : Part) :
    runs[p.index * geom.flexMembers f + i]? = some (geom.part lay p) := by
  obtain ⟨lay', hlay', hpart⟩ := h.part i hi
  rw [hlay] at hlay'
  cases hlay'
  exact hpart p

/-- Every run is a piece of a member's metadata. -/
theorem mem_part (h : geom.FlexPlaced f runs e) {r : Nat × Nat} (hr : r ∈ runs) :
    ∃ i < geom.flexMembers f, ∃ lay p, geom.group (f + i) = .ok lay ∧ geom.part lay p = r := by
  obtain ⟨k, hk, rfl⟩ := List.mem_iff_getElem.mp hr
  rw [h.length_eq] at hk
  have hpos : 0 < geom.flexMembers f := by omega
  obtain ⟨p, hp⟩ : ∃ p : Part, p.index = k / geom.flexMembers f :=
    Part.exists_index (Nat.div_lt_of_lt_mul (by omega))
  have hmod := Nat.mod_lt k hpos
  obtain ⟨lay, hlay, hpart⟩ := h.part _ hmod
  refine ⟨_, hmod, lay, p, hlay, ?_⟩
  have hk' := hpart p
  rw [hp, Nat.div_add_mod'] at hk'
  rw [List.getElem?_eq_getElem (by rw [h.length_eq]; exact hk)] at hk'
  exact (Option.some.inj hk').symm

theorem bounds (h : geom.FlexPlaced f runs e) {r : Nat × Nat} (hr : r ∈ runs) {b : Nat}
    (hb : Within r b) : geom.groupFirstBlock f ≤ b ∧ b < e ∧ geom.Free b := by
  obtain ⟨starts, hgreedy, rfl⟩ := h.greedy
  have hbounds := hgreedy.sorted.2 r hr
  have hclear := hgreedy.clear_of_mem hr
  unfold Within at hb
  exact ⟨by omega, by omega, hclear b hb.1 hb.2⟩

/-- Two different runs of a flex group share no block. -/
theorem apart (h : geom.FlexPlaced f runs e) {k k' : Nat} (hne : k ≠ k') {r r' : Nat × Nat}
    (hr : runs[k]? = some r) (hr' : runs[k']? = some r') {b : Nat} (hb : Within r b) :
    ¬ Within r' b := by
  obtain ⟨starts, hgreedy, rfl⟩ := h.greedy
  have hsorted := List.pairwise_iff_getElem.mp hgreedy.sorted.1
  obtain ⟨hk, rfl⟩ := List.getElem?_eq_some_iff.mp hr
  obtain ⟨hk', rfl⟩ := List.getElem?_eq_some_iff.mp hr'
  intro hb'
  unfold Within at hb hb'
  rcases Nat.lt_or_gt_of_ne hne with hlt | hlt
  · have := hsorted k k' hk hk' hlt
    omega
  · have := hsorted k' k hk' hk hlt
    omega

end FlexPlaced

/-! ## Regions that outgrow their group -/

theorem free_iff {j i : Nat} (hgc : geom.groupCount < 2 ^ 32) (hj : j < geom.groupCount)
    (hi : i < geom.blocksPerGroup) (hb : geom.groupFirstBlock j + i < geom.blocksCount) :
    geom.Free (geom.groupFirstBlock j + i) ↔ geom.superOverhead j ≤ i := by
  have hgroup : (geom.groupFirstBlock j + i - geom.firstDataBlock) / geom.blocksPerGroup = j := by
    rw [groupFirstBlock, Nat.add_assoc, Nat.add_sub_cancel_left, Nat.mul_comm,
      Nat.mul_add_div (by omega), Nat.div_eq_of_lt hi, Nat.add_zero]
  have hfirst : ¬ (geom.groupFirstBlock j + i < geom.firstDataBlock ∨
      geom.blocksCount ≤ geom.groupFirstBlock j + i) := by
    unfold groupFirstBlock at hb ⊢
    omega
  unfold Free inSuperRegion
  simp only [if_neg hfirst, hgroup, Nat.mod_eq_of_lt (Nat.lt_trans hj hgc),
    if_neg (Nat.not_le.mpr hj), decide_eq_false_iff_not, Nat.not_lt]
  omega

/-- Every block past the first data block lies in a group. -/
theorem exists_group (hpos : 0 < geom.blocksPerGroup) {b : Nat} (hb : geom.firstDataBlock ≤ b) :
    ∃ j i, i < geom.blocksPerGroup ∧ b = geom.groupFirstBlock j + i := by
  refine ⟨(b - geom.firstDataBlock) / geom.blocksPerGroup,
    (b - geom.firstDataBlock) % geom.blocksPerGroup, Nat.mod_lt _ hpos, ?_⟩
  have := Nat.div_add_mod' (b - geom.firstDataBlock) geom.blocksPerGroup
  unfold groupFirstBlock
  omega

/-- A group before the first meta block group that carries a superblock carries the whole
descriptor table. -/
theorem superOverhead_table {g : Nat} (hlt : geom.metaBgOf g < geom.firstMetaBg)
    (hsuper : geom.hasSuper g = true) :
    geom.superOverhead g = 1 + (geom.descBlocks + geom.reservedGdtBlocks) := by
  simp [superOverhead, descBlocksInGroup, groupHasDesc, hlt, hsuper]

/-- Only the descriptor table of a group before the first meta block group can outgrow its
group. -/
theorem table_of_spill (hc : Computed geom) {g : Nat}
    (h : geom.blocksPerGroup < geom.superOverhead g) :
    geom.metaBgOf g < geom.firstMetaBg ∧ geom.hasSuper g = true ∧ geom.metaBg = true := by
  have hsup : (geom.hasSuper g).toNat ≤ 1 := Bool.toNat_le _
  by_cases hmeta : geom.metaBg = true
  case neg =>
    have hclassic := hc.classic (by simpa using hmeta)
    have : geom.descBlocksInGroup g ≤ geom.descBlocks + geom.reservedGdtBlocks := by
      unfold descBlocksInGroup
      split
      · omega
      · simp [hmeta]
    unfold superOverhead at h
    omega
  obtain ⟨-, hbpg⟩ := hc.distributed hmeta
  by_cases hlt : geom.metaBgOf g < geom.firstMetaBg
  case neg =>
    have : geom.descBlocksInGroup g ≤ 1 := by
      unfold descBlocksInGroup
      split
      · omega
      · simp [hmeta, hlt]
    unfold superOverhead at h
    omega
  refine ⟨hlt, ?_, hmeta⟩
  by_contra hsuper
  have hsuper : geom.hasSuper g = false := by simpa using hsuper
  simp [superOverhead, descBlocksInGroup, groupHasDesc, hlt, hsuper] at h

theorem hasSuper_le_one {g : Nat} (h : g ≤ 1) : geom.hasSuper g = true := by
  simp [hasSuper, hasSuperFor, h]

/-- A group without a superblock copy comes after group 1, and then group 2 has none. -/
theorem sparse_of_not_hasSuper {g : Nat} (h : geom.hasSuper g = false) :
    2 ≤ g ∧ geom.hasSuper 2 = false := by
  refine ⟨?_, ?_⟩
  · by_contra hlt
    rw [hasSuper_le_one (by omega)] at h
    cases h
  · unfold hasSuper hasSuperFor at h ⊢
    split at h
    · cases h
    · rename_i hsparse
      rw [if_neg hsparse]
      rfl

/-- When a region outgrows its group onto blocks that `in_super_region` passes, the very
first block of metadata lies in some region. -/
theorem first_free_in_region (hc : Computed geom) {g b u : Nat} (hg : g < geom.groupCount)
    (hb : Within (geom.superRegion g) b) (hfree : geom.Free b)
    (hu : First geom.Free geom.firstDataBlock 1 u) :
    ∃ h < geom.groupCount, Within (geom.superRegion h) u := by
  have hpos := hc.blocksPerGroup_pos
  have hgc := hc.groupCount_lt
  have hufree : geom.Free u := clear_one.mp hu.clear
  have hub : u ≤ b := by
    apply hu.least b _ (clear_one.mpr hfree)
    have := hb.1
    simp only [superRegion, groupFirstBlock] at this
    omega
  by_cases hgu : geom.groupFirstBlock g ≤ u
  · exact ⟨g, hg, hgu, Nat.lt_of_le_of_lt hub hb.2⟩
  -- The region of `g` goes past its group: it is a whole descriptor table, longer than that.
  have hspill : geom.blocksPerGroup < geom.superOverhead g := by
    by_contra hle
    have hb1 : geom.groupFirstBlock g ≤ b := hb.1
    have hb2 : b < geom.groupFirstBlock g + geom.superOverhead g := hb.2
    obtain ⟨i, rfl⟩ := Nat.exists_eq_add_of_le hb1
    have := (free_iff hgc hg (by omega) hfree.lt_blocksCount).mp hfree
    omega
  obtain ⟨hlt, hsuper, hmeta⟩ := table_of_spill hc hspill
  have htable := superOverhead_table hlt hsuper
  -- The groups before `g` are before the first meta block group as well.
  have hbefore : ∀ h ≤ g, geom.metaBgOf h < geom.firstMetaBg := by
    intro h hle
    have : geom.metaBgOf h ≤ geom.metaBgOf g := Nat.div_le_div_right hle
    omega
  have hfull : ∀ h ≤ g, geom.hasSuper h = true →
      geom.superOverhead h = geom.superOverhead g := by
    intro h hle hs
    rw [htable, superOverhead_table (hbefore h hle) hs]
  obtain ⟨j, i, hi, rfl⟩ := exists_group hpos hu.le
  have hjg : j < g := by
    by_contra hle
    have := geom.groupFirstBlock_mono (Nat.le_of_not_lt hle)
    omega
  have hover := (free_iff hgc (Nat.lt_trans hjg hg) hi hufree.lt_blocksCount).mp hufree
  have hjsuper : geom.hasSuper j = false := by
    by_contra hs
    have := hfull j (by omega) (by simpa using hs)
    omega
  -- So superblocks are sparse, and group 2 is the first to have none.
  obtain ⟨hj2, hsuper2⟩ := sparse_of_not_hasSuper hjsuper
  have hover2 : geom.superOverhead 2 = 0 := by
    simp [superOverhead, descBlocksInGroup, groupHasDesc, hbefore 2 (by omega), hsuper2]
  have hle2 := geom.groupFirstBlock_mono hj2
  have hlt2 := hufree.lt_blocksCount
  have hfree2 : geom.Free (geom.groupFirstBlock 2) :=
    (free_iff (i := 0) hgc (by omega) hpos (by omega)).mpr (by omega)
  have hu2 : geom.groupFirstBlock j + i ≤ geom.groupFirstBlock 2 := by
    apply hu.least _ _ (clear_one.mpr hfree2)
    unfold groupFirstBlock
    omega
  have hover1 := hfull 1 (by omega) (hasSuper_le_one (Nat.le_refl 1))
  have hstep : geom.groupFirstBlock 2 = geom.groupFirstBlock 1 + geom.blocksPerGroup := by
    unfold groupFirstBlock
    omega
  refine ⟨1, by omega, ?_⟩
  simp only [Within, superRegion]
  omega

/-! ## Room is enough -/

theorem group_ok {g : Nat} {lay : GroupLayout} (h : geom.group g = .ok lay) :
    g < geom.groupCount ∧ ∃ placement, geom.placeFlex (geom.flexFirstGroup g) = .ok placement := by
  unfold group at h
  split at h
  · cases h
  rename_i hlt
  obtain ⟨placement, hplace, -⟩ := bind_ok h
  exact ⟨Nat.lt_of_not_le hlt, placement, hplace⟩

/-- The first group of the flex group that holds `g`, and `g`'s place in it. -/
theorem exists_member {g : Nat} (hg : g < geom.groupCount) :
    ∃ f i, g = f + i ∧ i < geom.flexMembers f ∧ geom.flexFirstGroup f = f ∧
      f < geom.groupCount ∧ geom.flexFirstGroup g = f := by
  have hle := geom.flexFirstGroup_le g
  have hlt := geom.lt_flexFirstGroup_add g hg
  exact ⟨geom.flexFirstGroup g, g - geom.flexFirstGroup g, by omega, by omega,
    geom.flexFirstGroup_self g, by omega, rfl⟩

/-- With room, every flex group is placed, and all but the last on their own blocks. -/
theorem flexPlaced_of_room (hc : Computed geom) (hroom : geom.RoomForAll) {f : Nat}
    (hf : geom.flexFirstGroup f = f) (hfc : f < geom.groupCount) :
    ∃ runs e, geom.FlexPlaced f runs e ∧
      (f + geom.flexMembers f < geom.groupCount →
        e ≤ geom.groupFirstBlock (f + geom.flexMembers f)) := by
  have hmem := geom.flexMembers_le hfc
  have hok : ∃ placement, geom.placeFlex f = .ok placement := by
    by_cases hnext : f + geom.flexMembers f < geom.groupCount
    · cases hplace : geom.placeFlex f with
      | ok placement => exact ⟨placement, rfl⟩
      | error e =>
        have hroom := hroom f (by rw [hf]; exact hnext)
        rw [hf] at hroom
        exact absurd hroom (placeFlex_error hc.itable_pos hplace)
    · obtain ⟨lay, hlast⟩ := hc.last
      have hff : geom.flexFirstGroup (geom.groupCount - 1) = f := by
        have hlast : geom.groupCount - 1 = f + (geom.flexMembers f - 1) := by omega
        rw [hlast]
        exact flexFirstGroup_add hf (by omega)
      obtain ⟨-, placement, hplace⟩ := group_ok hlast
      rw [hff] at hplace
      exact ⟨placement, hplace⟩
  obtain ⟨placement, hplace⟩ := hok
  obtain ⟨runs, e, hplaced⟩ := flexPlaced_of_ok hc.itable_pos hf hfc hplace
  refine ⟨runs, e, hplaced, ?_⟩
  intro hnext
  obtain ⟨starts, hgreedy, -⟩ := hplaced.greedy
  have hroom := hroom f (by rw [hf]; exact hnext)
  rw [hf] at hroom
  exact hgreedy.stop_le_of_fits hroom

/-- The block ranges of two groups' pieces, the first in an earlier flex group. -/
theorem apart_of_lt (hc : Computed geom) (hroom : geom.RoomForAll) {g g' : Nat}
    {lay lay' : GroupLayout} {p p' : Part} {b : Nat} (hlay : geom.group g = .ok lay)
    (hlay' : geom.group g' = .ok lay') (hlt : geom.flexFirstGroup g < geom.flexFirstGroup g')
    (hb : Within (geom.part lay p) b) : ¬ Within (geom.part lay' p') b := by
  have hg := (group_ok hlay).1
  have hg' := (group_ok hlay').1
  have horder := flex_ordered hg hlt
  obtain ⟨f, i, rfl, hi, hf, hfc, hff⟩ := exists_member hg
  obtain ⟨f', i', rfl, hi', hf', hfc', hff'⟩ := exists_member hg'
  rw [hff, hff'] at horder
  obtain ⟨runs, e, hplaced, hend⟩ := flexPlaced_of_room hc hroom hf hfc
  obtain ⟨runs', e', hplaced', -⟩ := flexPlaced_of_room hc hroom hf' hfc'
  intro hb'
  have hin := hplaced.bounds (List.mem_of_getElem? (hplaced.part_mem hi hlay p)) hb
  have hin' := hplaced'.bounds (List.mem_of_getElem? (hplaced'.part_mem hi' hlay' p')) hb'
  have hend := hend (by omega)
  have hmono := geom.groupFirstBlock_mono horder
  omega

theorem metadataSound_of_room (hc : Computed geom) (hroom : geom.RoomForAll)
    (hregions : geom.RegionsReported) : geom.MetadataSound := by
  -- Every block of a piece is one that `in_super_region` passes.
  have hblock : ∀ g lay p b, geom.group g = .ok lay → Within (geom.part lay p) b →
      geom.firstDataBlock ≤ b ∧ geom.Free b := by
    intro g lay p b hlay hb
    obtain ⟨f, i, rfl, hi, hf, hfc, -⟩ := exists_member (group_ok hlay).1
    obtain ⟨runs, e, hplaced, -⟩ := flexPlaced_of_room hc hroom hf hfc
    have hin := hplaced.bounds (List.mem_of_getElem? (hplaced.part_mem hi hlay p)) hb
    refine ⟨?_, hin.2.2⟩
    have := hin.1
    unfold groupFirstBlock at this
    omega
  constructor
  case placed =>
    intro g hg
    obtain ⟨f, i, rfl, hi, hf, hfc, -⟩ := exists_member hg
    obtain ⟨runs, e, hplaced, -⟩ := flexPlaced_of_room hc hroom hf hfc
    obtain ⟨lay, hlay, -⟩ := hplaced.part i hi
    exact ⟨lay, hlay⟩
  case inside =>
    intro g lay p b hlay hb
    have h := hblock g lay p b hlay hb
    exact ⟨h.1, h.2.lt_blocksCount⟩
  case clear =>
    intro g lay p b hlay hb h hh hregion
    have hfree := (hblock g lay p b hlay hb).2
    have := hregions h hh b hfree.lt_blocksCount hregion
    rw [hfree] at this
    cases this
  case apart =>
    intro g lay p g' lay' p' b hlay hlay' hne hb hb'
    rcases Nat.lt_trichotomy (geom.flexFirstGroup g) (geom.flexFirstGroup g') with hlt | heq | hlt
    · exact apart_of_lt hc hroom hlay hlay' hlt hb hb'
    · obtain ⟨f, i, rfl, hi, hf, hfc, hff⟩ := exists_member (group_ok hlay).1
      obtain ⟨f', i', rfl, hi', -, -, hff'⟩ := exists_member (group_ok hlay').1
      rw [hff, hff'] at heq
      subst heq
      obtain ⟨runs, e, hplaced, -⟩ := flexPlaced_of_room hc hroom hf hfc
      refine hplaced.apart ?_ (hplaced.part_mem hi hlay p) (hplaced.part_mem hi' hlay' p') hb hb'
      -- Equal places in the order are equal pieces of equal groups.
      intro hindex
      apply hne
      have hi0 : i = i' := by
        have := congrArg (· % geom.flexMembers f) hindex
        simpa [Nat.mod_eq_of_lt hi, Nat.mod_eq_of_lt hi'] using this
      subst hi0
      have hp : p = p' := by
        apply Part.index_inj
        exact Nat.eq_of_mul_eq_mul_right (by omega) (Nat.add_right_cancel hindex)
      rw [hp]
    · exact apart_of_lt hc hroom hlay' hlay hlt hb' hb

/-! ## Room is needed -/

theorem flexRuns_cons {m : Nat} (hm : 0 < m) : ∃ rest, geom.flexRuns m = 1 :: rest := by
  obtain ⟨m, rfl⟩ := Nat.exists_eq_add_of_lt hm
  exact ⟨_, rfl⟩

/-- The first run of a flex group is its first group's block bitmap, on its first free
block. -/
theorem FlexPlaced.head {f e : Nat} {runs : List (Nat × Nat)} (h : geom.FlexPlaced f runs e)
    (hm : 0 < geom.flexMembers f) :
    ∃ t, runs[0]? = some (t, 1) ∧ First geom.Free (geom.groupFirstBlock f) 1 t := by
  obtain ⟨starts, hgreedy, rfl⟩ := h.greedy
  obtain ⟨rest, hruns⟩ := geom.flexRuns_cons hm
  rw [hruns] at hgreedy ⊢
  obtain - | ⟨first, -⟩ := hgreedy
  exact ⟨_, rfl, first⟩

/-- A run of a length that the flex groups place, crossing into a flex group from a cursor
before it, is met by that flex group's own runs. -/
theorem FlexPlaced.meets {f e c len s : Nat} {runs : List (Nat × Nat)}
    (h : geom.FlexPlaced f runs e) (hm : 0 < geom.flexMembers f)
    (hitable : 0 < geom.itableBlocksPerGroup) (first : First geom.Free c len s)
    (hc : c ≤ geom.groupFirstBlock f) (hcross : geom.groupFirstBlock f < s + len)
    (hlen : len = 1 ∨ len = geom.itableBlocksPerGroup) :
    ∃ r ∈ runs, ∃ b, Within (s, len) b ∧ Within r b := by
  rcases Nat.lt_or_ge s (geom.groupFirstBlock f) with hlt | hge
  · -- The run covers the flex group's first block, where its first bitmap then is.
    obtain ⟨t, ht, hfirst⟩ := h.head hm
    have hfree : geom.Free (geom.groupFirstBlock f) := first.clear _ (Nat.le_of_lt hlt) hcross
    have hle := hfirst.least _ (Nat.le_refl _) (clear_one.mpr hfree)
    have hge := hfirst.le
    refine ⟨_, List.mem_of_getElem? ht, geom.groupFirstBlock f, ⟨Nat.le_of_lt hlt, hcross⟩, ?_⟩
    simp only [Within]
    omega
  · obtain ⟨starts, hgreedy, rfl⟩ := h.greedy
    have hs : ∃ r ∈ starts.zip (geom.flexRuns (geom.flexMembers f)), r.1 ≤ s ∧ s < r.1 + r.2 := by
      rcases hlen with rfl | rfl
      · obtain ⟨rest, hruns⟩ := geom.flexRuns_cons hm
        rw [hruns, ← List.nil_append (1 :: rest)] at hgreedy ⊢
        exact Greedy.hits first (by omega) hgreedy hc hge (by simp)
      · obtain ⟨m, hm'⟩ := Nat.exists_eq_add_of_lt hm
        have hruns : geom.flexRuns (geom.flexMembers f) =
            (List.replicate (geom.flexMembers f) 1 ++ List.replicate (geom.flexMembers f) 1) ++
              geom.itableBlocksPerGroup :: List.replicate m geom.itableBlocksPerGroup := by
          rw [flexRuns, List.append_assoc, ← List.replicate_succ]
          simp [hm']
        rw [hruns] at hgreedy ⊢
        refine Greedy.hits first hitable hgreedy hc hge ?_
        intro x hx
        simp only [List.mem_append, List.mem_replicate] at hx
        omega
    obtain ⟨r, hr, hrs⟩ := hs
    refine ⟨r, hr, s, ?_, hrs⟩
    simp only [Within]
    omega

/-- A flex group that ends past the first block of the next one meets its metadata. -/
theorem meets_next (hc : Computed geom) {f f' e e' : Nat} {runs runs' : List (Nat × Nat)}
    (h : geom.FlexPlaced f runs e) (h' : geom.FlexPlaced f' runs' e')
    (hm : 0 < geom.flexMembers f') (hle : geom.groupFirstBlock f ≤ geom.groupFirstBlock f')
    (hend : geom.groupFirstBlock f' < e) :
    ∃ r ∈ runs, ∃ r' ∈ runs', ∃ b, Within r b ∧ Within r' b := by
  obtain ⟨starts, hgreedy, rfl⟩ := h.greedy
  obtain ⟨c, len, s, hcS, first, hcross, hrun⟩ := hgreedy.exists_crossing hle hend
  have hlen : len = 1 ∨ len = geom.itableBlocksPerGroup := by
    have hmem := (List.of_mem_zip hrun).2
    simp only [flexRuns, List.mem_append, List.mem_replicate] at hmem
    omega
  exact ⟨_, hrun, h'.meets hm hc.itable_pos first hcS hcross hlen⟩

theorem flexPlaced_of_sound (hc : Computed geom) (hsound : geom.MetadataSound) {f : Nat}
    (hf : geom.flexFirstGroup f = f) (hfc : f < geom.groupCount) :
    ∃ runs e, geom.FlexPlaced f runs e := by
  obtain ⟨lay, hlay⟩ := hsound.placed f hfc
  obtain ⟨-, placement, hplace⟩ := group_ok hlay
  rw [hf] at hplace
  exact flexPlaced_of_ok hc.itable_pos hf hfc hplace

theorem room_of_metadataSound (hc : Computed geom) (hsound : geom.MetadataSound) :
    geom.RoomForAll := by
  intro g hnext
  have hf := geom.flexFirstGroup_self g
  generalize geom.flexFirstGroup g = f at hnext hf ⊢
  have hf' := flexFirstGroup_next hf hnext
  have hmem := geom.flexMembers_le (f := f) (by omega)
  have hmem' := geom.flexMembers_le hnext
  obtain ⟨runs, e, hplaced⟩ := flexPlaced_of_sound hc hsound hf (by omega)
  obtain ⟨runs', e', hplaced'⟩ := flexPlaced_of_sound hc hsound hf' hnext
  by_cases hend : e ≤ geom.groupFirstBlock (f + geom.flexMembers f)
  · obtain ⟨starts, hgreedy, -⟩ := hplaced.greedy
    exact hgreedy.fits.mono_stop hend
  · exfalso
    obtain ⟨r, hr, r', hr', b, hb, hb'⟩ := meets_next hc hplaced hplaced' hmem'.2.2
      (geom.groupFirstBlock_mono (by omega)) (by omega)
    obtain ⟨i, hi, lay, p, hlay, rfl⟩ := hplaced.mem_part hr
    obtain ⟨i', hi', lay', p', hlay', rfl⟩ := hplaced'.mem_part hr'
    apply hsound.apart _ lay p _ lay' p' b hlay hlay' _ hb hb'
    intro heq
    have : f + i = f + geom.flexMembers f + i' := congrArg Prod.fst heq
    omega

theorem regionsReported_of_metadataSound (hc : Computed geom) (hsound : geom.MetadataSound) :
    geom.RegionsReported := by
  intro g hg b hlt hb
  by_contra hfree
  have hfree : geom.Free b := by simpa [Free] using hfree
  have hf : geom.flexFirstGroup 0 = 0 := Nat.le_zero.mp (geom.flexFirstGroup_le 0)
  have hm := (geom.flexMembers_le hc.groupCount_pos).2.2
  obtain ⟨runs, e, hplaced⟩ := flexPlaced_of_sound hc hsound hf hc.groupCount_pos
  obtain ⟨t, ht, hfirst⟩ := hplaced.head hm
  obtain ⟨i, hi, lay, p, hlay, hpart⟩ := hplaced.mem_part (List.mem_of_getElem? ht)
  have hzero : geom.groupFirstBlock 0 = geom.firstDataBlock := by simp [groupFirstBlock]
  rw [hzero] at hfirst
  obtain ⟨h, hh, hregion⟩ := first_free_in_region hc hg hb hfree hfirst
  refine hsound.clear _ lay p t hlay ?_ h hh hregion
  rw [hpart]
  exact ⟨Nat.le_refl t, Nat.lt_succ_self t⟩

end Geometry

/-- On whatever `compute` accepts, the metadata of all groups together is sound exactly when
every flex group but the last has room for its own and no region is left unreported. -/
theorem metadata_sound_iff_room {sizeBytes : Nat} {params : Params} {geom : Geometry}
    (h : compute sizeBytes params = .ok geom) :
    geom.MetadataSound ↔ geom.RoomForAll ∧ geom.RegionsReported := by
  have hc := compute_ok h
  constructor
  · intro hsound
    exact ⟨Geometry.room_of_metadataSound hc hsound,
      Geometry.regionsReported_of_metadataSound hc hsound⟩
  · intro hcond
    exact Geometry.metadataSound_of_room hc hcond.1 hcond.2

/-- Groups of 256 one-kilobyte blocks in flex groups of two. -/
def smallGroups (inodes : Nat) : Params :=
  { blockSize := some 1024, blocksPerGroup := some 256, flexBgSize := some 2,
    inodesCount := some inodes }

theorem smallGroups_typed {inodes : Nat} (h : inodes < 2 ^ 32) : (smallGroups inodes).Typed :=
  { Params.typed_default with
    blockSize := fun n hn => by cases hn; decide
    inodesCount := fun n hn => by cases hn; exact h
    blocksPerGroup := fun n hn => by cases hn; decide
    flexBgSize := fun n hn => by cases hn; decide }

/-- Three groups with inode tables of 100 blocks. -/
def roomy : Geometry where
  blockSize := 1024
  logBlockSize := 0
  blocksCount := 769
  firstDataBlock := 1
  blocksPerGroup := 256
  rBlocksCount := 38
  inodesCount := 1200
  inodesPerGroup := 400
  inodeSize := 256
  itableBlocksPerGroup := 100
  groupCount := 3
  descSize := 64
  descBlocks := 1
  reservedGdtBlocks := 0
  logGroupsPerFlex := 1
  metaBg := true
  firstMetaBg := 0
  features := { compat := 0x28, incompat := 0x22d2, roCompat := 0x46b }

theorem roomy_hasRoom : roomy.RoomForAll := by
  intro g hg
  have hf : roomy.flexFirstGroup g = 0 := by
    simp [Geometry.flexFirstGroup, Geometry.flexMembers, Geometry.flexBgSize, roomy] at hg ⊢
    omega
  rw [hf]
  have hbitmap : ∀ s ∈ [3, 4, 5, 6], Clear roomy.Free s 1 := by
    intro s hs
    apply Geometry.findSuper_none
    revert s
    decide +kernel
  have htable : ∀ s ∈ [7, 107], Clear roomy.Free s 100 := by
    intro s hs
    apply Geometry.findSuper_none
    revert s
    decide +kernel
  exact ⟨3, by decide, hbitmap 3 (by decide), 4, by decide, hbitmap 4 (by decide),
    5, by decide, hbitmap 5 (by decide), 6, by decide, hbitmap 6 (by decide),
    7, by decide, htable 7 (by decide), 107, by decide, htable 107 (by decide),
    by show 207 ≤ _; decide⟩

theorem roomy_metadata_sound :
    compute ((3 * 256 + 1) * 1024) (smallGroups 1200) = .ok roomy ∧ roomy.MetadataSound := by
  have hok : compute ((3 * 256 + 1) * 1024) (smallGroups 1200) = .ok roomy := by decide +kernel
  have hregions : roomy.RegionsReported := by
    unfold Geometry.RegionsReported
    decide +kernel
  exact ⟨hok, (metadata_sound_iff_room hok).mpr ⟨roomy_hasRoom, hregions⟩⟩

/-- Nine groups with inode tables of 252 blocks. Behind its bitmaps group 0 has no room for
one, behind its superblock group 1 has room for one of the two. -/
def crowded : Geometry where
  blockSize := 1024
  logBlockSize := 0
  blocksCount := 2305
  firstDataBlock := 1
  blocksPerGroup := 256
  rBlocksCount := 115
  inodesCount := 9072
  inodesPerGroup := 1008
  inodeSize := 256
  itableBlocksPerGroup := 252
  groupCount := 9
  descSize := 64
  descBlocks := 1
  reservedGdtBlocks := 0
  logGroupsPerFlex := 1
  metaBg := true
  firstMetaBg := 0
  features := { compat := 0x102c, incompat := 0x22d2, roCompat := 0x46b }

/-- Group 1's inode table, blocks 511 to 762, runs over group 2's block bitmap at 513. -/
theorem crowded_metadata_overlaps :
    compute ((9 * 256 + 1) * 1024) (smallGroups 9072) = .ok crowded ∧ ¬ crowded.MetadataSound := by
  refine ⟨by decide +kernel, ?_⟩
  intro hsound
  have h1 : (crowded.group 1).map (fun lay => crowded.part lay .inodeTable) = .ok (511, 252) := by
    decide +kernel
  have h2 : (crowded.group 2).map (fun lay => crowded.part lay .blockBitmap) = .ok (513, 1) := by
    decide +kernel
  obtain ⟨lay1, hlay1⟩ := hsound.placed 1 (by decide)
  obtain ⟨lay2, hlay2⟩ := hsound.placed 2 (by decide)
  rw [hlay1] at h1
  rw [hlay2] at h2
  have h1 : crowded.part lay1 .inodeTable = (511, 252) := Except.ok.inj h1
  have h2 : crowded.part lay2 .blockBitmap = (513, 1) := Except.ok.inj h2
  refine hsound.apart 1 lay1 .inodeTable 2 lay2 .blockBitmap 513 hlay1 hlay2 (by decide) ?_ ?_
  · rw [h1]
    decide
  · rw [h2]
    decide

end MkfsExt4.Layout
