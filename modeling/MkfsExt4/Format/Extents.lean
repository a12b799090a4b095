/-
  The extents of a planned journal and orphan file, and the leaf block they need when they do
  not fit the inode (`plan` and `journal_extent_leaf_block` in `src/format.rs`).

  The extents cover the file whatever the free space is like. How many there are is how many
  pieces that space is in, which nothing bounds: the leaf holds them exactly when there are at
  most `max_entries` (`extentsFit_iff`).
-/
import MkfsExt4.Format.Contents
import MkfsExt4.Format.Room
import MkfsExt4.Layout.Fronts

namespace MkfsExt4.Format

open Lib.Hoare Layout

/-! ## Covering a file -/

/-- Extents that map the logical blocks from `logical` up to `n`, none of them empty or too
long. -/
def Covers : (logical : Nat) → List Extent → (n : Nat) → Prop
  | logical, [], n => logical = n
  | logical, e :: es, n =>
    e.block = logical ∧ (1 ≤ e.len ∧ e.len ≤ 32767) ∧ Covers (logical + e.len) es n

theorem Covers.append {l m n : Nat} {es es' : List Extent} (h : Covers l es m)
    (h' : Covers m es' n) : Covers l (es ++ es') n := by
  induction es generalizing l with
  | nil =>
    obtain rfl : l = m := h
    exact h'
  | cons e es ih => exact ⟨h.1, h.2.1, ih h.2.2⟩

/-- No file has more extents than blocks. -/
theorem Covers.length_le {l n : Nat} {es : List Extent} (h : Covers l es n) :
    l + es.length ≤ n := by
  induction es generalizing l with
  | nil => exact Nat.le_of_eq h
  | cons e es ih =>
    have hrest := ih h.2.2
    have hlen := h.2.1.1
    rw [List.length_cons]
    omega

theorem covers_runExtents {fuel logical start len : Nat} (h : len ≤ fuel) :
    Covers logical (runExtents fuel logical start len) (logical + len) := by
  induction fuel generalizing logical start len with
  | zero =>
    obtain rfl := Nat.le_zero.mp h
    rfl
  | succ fuel ih =>
    rw [runExtents]
    split
    · next h0 =>
      rw [h0]
      rfl
    · have hmax : Extent.initMaxLen - 1 = 32767 := rfl
      refine ⟨rfl, by dsimp only; omega, ?_⟩
      have hrest := @ih (logical + min len (Extent.initMaxLen - 1))
        (start + min len (Extent.initMaxLen - 1)) (len - min len (Extent.initMaxLen - 1)) (by omega)
      rwa [Nat.add_assoc, Nat.add_sub_cancel' (Nat.min_le_left _ _)] at hrest

theorem length_runExtents {fuel logical start len : Nat} (h : len ≤ fuel) :
    (runExtents fuel logical start len).length = divCeil len 32767 := by
  induction fuel generalizing logical start len with
  | zero =>
    obtain rfl := Nat.le_zero.mp h
    rfl
  | succ fuel ih =>
    rw [runExtents]
    split
    · next h0 =>
      rw [h0]
      rfl
    · have hmax : Extent.initMaxLen - 1 = 32767 := rfl
      rw [List.length_cons, ih (by omega), divCeil, divCeil]
      omega

theorem covers_journalExtentsOf (logical : Nat) (runs : List Run) :
    Covers logical (journalExtentsOf logical runs) (logical + total runs) := by
  induction runs generalizing logical with
  | nil => rfl
  | cons r runs ih =>
    refine (covers_runExtents (Nat.le_refl _)).append ?_
    have hrest := ih (logical + r.len)
    rwa [Nat.add_assoc] at hrest

theorem length_journalExtentsOf (logical : Nat) (runs : List Run) :
    (journalExtentsOf logical runs).length = (runs.map fun r => divCeil r.len 32767).sum := by
  induction runs generalizing logical with
  | nil => rfl
  | cons r runs ih =>
    rw [journalExtentsOf, List.length_append, length_runExtents (Nat.le_refl _), ih,
      List.map_cons, List.sum_cons]

/-- The orphan file does not split its runs: it is short enough not to. -/
theorem covers_orphanExtentsOf {logical : Nat} {runs : List Run} (hpos : ∀ r ∈ runs, 0 < r.len)
    (hshort : total runs ≤ 512) :
    Covers logical (orphanExtentsOf logical runs) (logical + total runs) := by
  induction runs generalizing logical with
  | nil => rfl
  | cons r runs ih =>
    have hlen : total (r :: runs) = r.len + total runs := rfl
    have hfirst := hpos r List.mem_cons_self
    have hmod : r.len % 2 ^ 16 = r.len := Nat.mod_eq_of_lt (by omega)
    have hrest := @ih (logical + r.len) (fun s hs => hpos s (List.mem_cons_of_mem r hs)) (by omega)
    rw [orphanExtentsOf, hmod, hlen]
    refine ⟨rfl, by dsimp only; omega, ?_⟩
    rwa [Nat.add_assoc] at hrest

theorem length_orphanExtentsOf (logical : Nat) (runs : List Run) :
    (orphanExtentsOf logical runs).length = runs.length := by
  induction runs generalizing logical with
  | nil => rfl
  | cons r runs ih => rw [orphanExtentsOf, List.length_cons, ih, List.length_cons]

/-! ## A leaf that holds its extents -/

/-- A node's block has room for the entries its header allows. -/
theorem maxEntries_fits {space : Nat} (hspace : 1024 ≤ space) (tail : Bool) :
    Extent.headerLen + ExtentHeader.maxEntries space tail * Extent.entryLen ≤ space := by
  have hle : ExtentHeader.maxEntries space tail ≤
      (space - Extent.headerLen - (if tail then Extent.tailLen else 0)) / Extent.entryLen :=
    Nat.mod_le _ _
  have hmul := Nat.div_mul_le_self
    (space - Extent.headerLen - (if tail then Extent.tailLen else 0)) Extent.entryLen
  have := Nat.mul_le_mul_right Extent.entryLen hle
  have hheader : Extent.headerLen = 12 := rfl
  omega

/-- A block of its own holds more extents than an inode does. -/
theorem inline_lt_maxEntries {space : Nat} (hlow : 1024 ≤ space) (hhigh : space ≤ 65536)
    (tail : Bool) :
    ExtentHeader.maxEntries Extent.inlineLen false < ExtentHeader.maxEntries space tail := by
  have hinline : ExtentHeader.maxEntries Extent.inlineLen false = 4 := rfl
  have hheader : Extent.headerLen = 12 := rfl
  have hentry : Extent.entryLen = 12 := rfl
  have htail : (if tail then Extent.tailLen else 0) ≤ 4 := by
    cases tail <;> decide
  rw [hinline, ExtentHeader.maxEntries, hheader, hentry, Nat.mod_eq_of_lt]
  · omega
  · omega

theorem extentLeafBlock_of_le {extents : List Extent} {blockSize : Nat} {tail : Bool}
    (hblock : 1024 ≤ blockSize)
    (h : extents.length ≤ ExtentHeader.maxEntries blockSize tail) :
    ∃ block, extentLeafBlock extents blockSize tail = .ok block := by
  have hfits := maxEntries_fits hblock tail
  have := Nat.mul_le_mul_right Extent.entryLen h
  refine ⟨_, bind_of_ok (?_ : panicIf _ = .ok ())⟩
  exact if_neg (by omega)

/-- The extents a plan has for its journal and its orphan file cover them, and where they go to
a leaf block, the leaf has room for them. -/
structure ExtentsFit (plan : Plan) : Prop where
  journal : Covers 0 plan.journalExtents plan.journalBlocks
  orphan : Covers 0 (orphanExtentsOf 0 plan.orphanRuns) (orphanBlocksFor plan.geom)
  journalLeaf : plan.journalExtentLeaf.isSome = true →
    plan.journalExtents.length ≤
        ExtentHeader.maxEntries plan.geom.blockSize (plan.csumScheme ≠ .none) ∧
      ∃ block, journalLeafBlock plan = .ok block
  orphanLeaf : plan.orphanExtentLeaf.isSome = true →
    (orphanExtentsOf 0 plan.orphanRuns).length ≤
        ExtentHeader.maxEntries plan.geom.blockSize false ∧
      ∃ block, extentLeafBlock (orphanExtentsOf 0 plan.orphanRuns) plan.geom.blockSize false =
        .ok block

/-- The pieces of the free space the journal goes to, those too long for one extent cut up. -/
def journalPieces (geom : Geometry) (params : Params) : Nat :=
  let space := (atJournal geom).supply (midpointJournalBlock geom (atJournal geom))
  ((runsOf (space.take (journalBlocksFor geom params))).map fun r => divCeil r.len 32767).sum

/-- The pieces of the free space the orphan file goes to. -/
def orphanPieces (geom : Geometry) (params : Params) : Nat :=
  (runsOf (((atOrphan geom params).supply geom.firstDataBlock).take (orphanBlocksFor geom))).length

theorem orphanBlocksFor_le (geom : Geometry) : orphanBlocksFor geom ≤ 512 := by
  unfold orphanBlocksFor defaultOrphanFileBlocks
  split
  · exact Nat.min_le_left _ _
  · exact Nat.zero_le _

theorem Plan.Made.journal_extents {plan : Plan} {geom : Geometry} {params : Params}
    {journal orphan : FilePlan} (h : plan.Made geom params journal orphan)
    (hext : usesExtents geom = true) :
    plan.journalExtents = journalExtentsOf 0 plan.journalRuns ∧
      total plan.journalRuns = plan.journalBlocks ∧
      plan.journalExtents.length = journalPieces geom params := by
  have hplanned := h.journalPlanned
  rw [hext, planJournal] at hplanned
  rw [h.journalExtents, h.journalRuns, h.journalBlocks, journalPieces]
  split at hplanned
  · next h0 =>
    obtain ⟨rfl, -⟩ := exec_pure_ok hplanned
    rw [h0]
    exact ⟨rfl, rfl, rfl⟩
  · rw [if_pos rfl] at hplanned
    obtain ⟨a0, a1, hget, hrest⟩ := exec_bind_ok hplanned
    cases hget
    obtain ⟨runs, a2, hruns, hrest⟩ := exec_bind_ok hrest
    obtain ⟨rfl, -⟩ := exec_pure_ok hrest
    refine ⟨rfl, (allocRuns_ok hruns).2.2, ?_⟩
    rw [← (allocRuns_eq hruns).1]
    exact length_journalExtentsOf 0 runs

theorem Plan.Made.orphan_extents {plan : Plan} {geom : Geometry} {params : Params}
    {journal orphan : FilePlan} (h : plan.Made geom params journal orphan)
    (hext : usesExtents geom = true) :
    Covers 0 (orphanExtentsOf 0 plan.orphanRuns) (orphanBlocksFor geom) ∧
      orphan.extents = orphanExtentsOf 0 plan.orphanRuns ∧
      orphan.extents.length = orphanPieces geom params := by
  obtain ⟨a, hplanned⟩ := h.orphanPlanned
  rw [hext, planOrphan] at hplanned
  rw [h.orphanRuns, orphanPieces]
  split at hplanned
  · next h0 =>
    obtain ⟨rfl, -⟩ := exec_pure_ok hplanned
    rw [h0]
    exact ⟨rfl, rfl, rfl⟩
  · obtain ⟨runs, a1, hruns, hrest⟩ := exec_bind_ok hplanned
    rw [if_pos rfl] at hrest
    obtain ⟨rfl, -⟩ := exec_pure_ok hrest
    obtain ⟨-, hpos, htotal⟩ := allocRuns_ok hruns
    have hcover := @covers_orphanExtentsOf 0 runs hpos (htotal.trans_le (orphanBlocksFor_le geom))
    rw [htotal, Nat.zero_add] at hcover
    refine ⟨hcover, rfl, ?_⟩
    rw [← (allocRuns_eq hruns).1]
    exact length_orphanExtentsOf 0 runs

/-- With extents, everything planned fits its leaf exactly when the free space planning finds is
in at most as many pieces as the leaf has entries. -/
theorem extentsFit_iff {deviceSize : Nat} {params : Params} {ambient : Ambient} {p : Plan}
    (h : plan deviceSize params ambient = .ok p) (hext : usesExtents p.geom = true) :
    ExtentsFit p ↔
      journalPieces p.geom params ≤
          ExtentHeader.maxEntries p.geom.blockSize (csumSchemeOf p.geom.features ≠ .none) ∧
        orphanPieces p.geom params ≤ ExtentHeader.maxEntries p.geom.blockSize false := by
  obtain ⟨hcompute, journal, orphan, hmade⟩ := plan_made h
  obtain ⟨hjournals, htotal, hjlen⟩ := hmade.journal_extents hext
  have hjournal := covers_journalExtentsOf 0 p.journalRuns
  rw [← hjournals, htotal, Nat.zero_add] at hjournal
  obtain ⟨horphan, horphans, holen⟩ := hmade.orphan_extents hext
  obtain ⟨req, start, descSize, s, grp, -, hfrom⟩ := compute_from hcompute
  obtain ⟨k, hk, hlow, hhigh⟩ := hfrom.blockSize_pow
  have hge : 1024 ≤ p.geom.blockSize := hk ▸ Nat.pow_le_pow_right Nat.two_pos hlow
  have hle : p.geom.blockSize ≤ 65536 := hk ▸ Nat.pow_le_pow_right Nat.two_pos hhigh
  rw [← hmade.csumScheme, ← hjlen, ← holen, horphans]
  have hjleaf := hmade.journalLeaf
  have holeaf := hmade.orphanLeaf
  rw [hext, Bool.true_and] at hjleaf holeaf
  rw [← hmade.journalExtents] at hjleaf
  rw [horphans] at holeaf
  constructor
  · -- Extents without a leaf are few enough for the inode, and so for a leaf.
    intro hfit
    constructor
    · rcases Nat.lt_or_ge (ExtentHeader.maxEntries Extent.inlineLen false) p.journalExtents.length
        with hmany | hfew
      · exact (hfit.journalLeaf (hjleaf.trans (decide_eq_true hmany))).1
      · exact Nat.le_trans hfew (Nat.le_of_lt (inline_lt_maxEntries hge hle _))
    · rcases Nat.lt_or_ge (ExtentHeader.maxEntries Extent.inlineLen false)
        (orphanExtentsOf 0 p.orphanRuns).length with hmany | hfew
      · exact (hfit.orphanLeaf (holeaf.trans (decide_eq_true hmany))).1
      · exact Nat.le_trans hfew (Nat.le_of_lt (inline_lt_maxEntries hge hle _))
  · rintro ⟨hjfit, hofit⟩
    refine ⟨hjournal, horphan, fun _ => ⟨hjfit, ?_⟩, fun _ => ⟨hofit, ?_⟩⟩
    · obtain ⟨buf, hbuf⟩ := extentLeafBlock_of_le hge hjfit
      rw [journalLeafBlock, bind_of_ok hbuf]
      split
      · exact ⟨_, rfl⟩
      · exact ⟨_, rfl⟩
    · exact extentLeafBlock_of_le hge hofit

/-! ## A filesystem of small groups -/

/-- Groups of 16 blocks of 1 KiB, each with its own metadata, and a journal of `n` blocks. -/
def crumblingParams (n : Nat) : Params :=
  { blockSize := some 1024, inodesCount := some 1472, inodeSize := some 128,
    blocksPerGroup := some 16, flexBgSize := some 1, journal := .blocks n }

def crumbled : Geometry where
  blockSize := 1024
  logBlockSize := 0
  blocksCount := 1473
  firstDataBlock := 1
  blocksPerGroup := 16
  rBlocksCount := 73
  inodesCount := 1472
  inodesPerGroup := 16
  inodeSize := 128
  itableBlocksPerGroup := 2
  groupCount := 92
  descSize := 64
  descBlocks := 6
  reservedGdtBlocks := 0
  logGroupsPerFlex := 0
  metaBg := true
  firstMetaBg := 0
  features := { compat := 0x102c, incompat := 0x22d2, roCompat := 0x46b }

/-- What a group spends on a superblock copy and a descriptor block. -/
def crumbledFront (g : Nat) : Nat :=
  (g ∈ [0, 1, 3, 5, 7, 9, 25, 27, 49, 81] : Bool).toNat + (g % 16 ∈ [0, 1, 15] : Bool).toNat

/-- The metadata of a group is its front, its bitmaps and its two table blocks. -/
theorem crumbled_groups : ∀ g < 92, crumbled.superOverhead g = crumbledFront g ∧
    crumbled.placeFlex g = .ok [(16 * g + 1 + crumbledFront g, 16 * g + 2 + crumbledFront g,
      16 * g + 3 + crumbledFront g)] := by decide +kernel

def crumbledProbe (b : Nat) : Bool :=
  b < 1 || 1473 ≤ b || (b - 1) % 16 < crumbledFront ((b - 1) / 16) + 4

theorem crumbled_probe : metadataProbe crumbled = crumbledProbe := by
  funext b
  by_cases hout : b < 1 ∨ 1473 ≤ b
  · have hsuper : crumbled.inSuperRegion b = true := if_pos hout
    rw [metadataProbe, if_pos hsuper]
    rcases hout with h | h <;> simp [crumbledProbe, h]
  · have hg : (b - 1) / 16 < 92 := by omega
    obtain ⟨hfront, hplace⟩ := crumbled_groups _ hg
    have hmod : (b - 1) / 16 % 2 ^ 32 = (b - 1) / 16 := Nat.mod_eq_of_lt (by omega)
    have hsuper : crumbled.inSuperRegion b =
        decide ((b - 1) % 16 < crumbledFront ((b - 1) / 16)) := by
      rw [Geometry.inSuperRegion,
        if_neg (show ¬(b < crumbled.firstDataBlock ∨ crumbled.blocksCount ≤ b) from hout)]
      show (if 92 ≤ (b - 1) / 16 % 2 ^ 32 then true else decide (b <
        1 + (b - 1) / 16 % 2 ^ 32 * 16 + crumbled.superOverhead ((b - 1) / 16 % 2 ^ 32))) = _
      rw [hmod, if_neg (by omega), hfront]
      exact decide_eq_decide.mpr (by omega)
    have hruns : crumbled.flexMetadataRuns ((b - 1) / 16) = .ok
        [(16 * ((b - 1) / 16) + 1 + crumbledFront ((b - 1) / 16), 1),
          (16 * ((b - 1) / 16) + 2 + crumbledFront ((b - 1) / 16), 1),
          (16 * ((b - 1) / 16) + 3 + crumbledFront ((b - 1) / 16), 2)] := by
      show (crumbled.placeFlex ((b - 1) / 16) >>= _) = _
      rw [hplace]
      rfl
    have hgroup : (b - crumbled.firstDataBlock) / crumbled.blocksPerGroup % 2 ^ 32 =
        (b - 1) / 16 := hmod
    rw [metadataProbe, hsuper, hgroup]
    dsimp only
    rw [hruns, crumbledProbe]
    by_cases hfirst : (b - 1) % 16 < crumbledFront ((b - 1) / 16)
    · rw [if_pos (decide_eq_true hfirst)]
      simp only [Bool.true_eq, Bool.or_eq_true, decide_eq_true_eq]
      omega
    · rw [if_neg (by simpa using hfirst), Bool.eq_iff_iff]
      simp only [List.any_cons, List.any_nil, Bool.or_false, Bool.or_eq_true, Bool.and_eq_true,
        decide_eq_true_eq]
      omega

def crumbledAllocator : Allocator where
  blocksCount := 1473
  firstDataBlock := 1
  blockSize := 1024
  metadata := crumbledProbe

theorem crumbled_allocator : newAllocator crumbled = crumbledAllocator := by
  rw [newAllocator, crumbled_probe]
  rfl

theorem crumbled_room : (exec (placeDirs crumbled) crumbledAllocator).1 = .ok () ∧
    1050 ≤ (exec (placeDirs crumbled) crumbledAllocator).2.room := by decide +kernel

theorem crumbled_computed : ∀ n ∈ [84, 1015],
    compute (1473 * 1024) (crumblingParams n) = .ok crumbled := by
  decide +kernel

theorem crumbled_plan {n : Nat} (hn : n ∈ [84, 1015]) :
    ∃ p, plan (1473 * 1024) (crumblingParams n) {} = .ok p := by
  obtain ⟨hdirs, hroom⟩ := crumbled_room
  rw [← crumbled_allocator] at hdirs hroom
  refine plan_of_room (crumbled_computed n hn) rfl hdirs (Nat.le_trans ?_ hroom)
  revert n
  decide

/-- Runs of at most `most` blocks come to as many extents as it takes. -/
theorem total_le_extents {most : Nat} {runs : List Run} (h : ∀ r ∈ runs, r.len ≤ most) :
    total runs ≤ most * (runs.map fun r => divCeil r.len 32767).sum := by
  induction runs with
  | nil => exact Nat.zero_le _
  | cons r runs ih =>
    have hrest := ih fun s hs => h s (List.mem_cons_of_mem r hs)
    have hlen : r.len ≤ most * divCeil r.len 32767 := by
      have hr := h r List.mem_cons_self
      rcases Nat.eq_zero_or_pos r.len with h0 | hpos
      · omega
      · exact Nat.le_trans hr (Nat.le_mul_of_pos_right most (divCeil_pos hpos (by decide)))
    have htotal : total (r :: runs) = r.len + total runs := rfl
    rw [htotal, List.map_cons, List.sum_cons, Nat.mul_add]
    omega

/-- No run of free blocks is longer than the twelve a group has at most. -/
theorem crumbled_runs {r : Run} (h : ∀ b ∈ r.blocks, metadataProbe crumbled b = false) :
    r.len ≤ 12 := by
  by_contra hlong
  have hfree : ∀ k < 13, 4 ≤ (r.start + k - 1) % 16 := by
    intro k hk
    have hb := h (r.start + k) (Run.mem_blocks.mpr ⟨by omega, by omega⟩)
    rw [crumbled_probe] at hb
    simp only [crumbledProbe, Bool.or_eq_false_iff, decide_eq_false_iff_not] at hb
    omega
  have h0 := hfree 0 (by decide)
  have h12 := hfree (16 - (r.start - 1) % 16) (by omega)
  omega

/-- 84 blocks are 84 extents at most. -/
theorem crumbled_fits : ∃ p, plan (1473 * 1024) (crumblingParams 84) {} = .ok p ∧
    ExtentsFit p := by
  obtain ⟨p, hp⟩ := @crumbled_plan 84 (by decide)
  obtain ⟨hcompute, journal, orphan, hmade⟩ := plan_made hp
  have hgeom : p.geom = crumbled :=
    Except.ok.inj (hcompute.symm.trans (crumbled_computed 84 (by decide)))
  have hext : usesExtents p.geom = true := by
    rw [hgeom]
    rfl
  obtain ⟨hextents, htotal, hjlen⟩ := hmade.journal_extents hext
  obtain ⟨horphan, horphans, holen⟩ := hmade.orphan_extents hext
  have hjournal := (covers_journalExtentsOf 0 p.journalRuns).length_le
  rw [← hextents, htotal, hjlen, hmade.journalBlocks] at hjournal
  have horphan := horphan.length_le
  rw [← horphans, holen] at horphan
  refine ⟨p, hp, (extentsFit_iff hp hext).mpr ?_⟩
  rw [hgeom] at hjournal horphan ⊢
  have hmax : ∀ tail, ExtentHeader.maxEntries crumbled.blockSize tail = 84 := by decide
  have hblocks : 0 + journalBlocksFor crumbled (crumblingParams 84) = 84 := rfl
  have horphans : orphanBlocksFor crumbled = 32 := rfl
  rw [hmax, hmax]
  omega

/-- 1015 blocks in runs of twelve are 85 extents, one more than a leaf of 1 KiB holds. -/
theorem crumbled_spills : ∃ p, plan (1473 * 1024) (crumblingParams 1015) {} = .ok p ∧
    usesExtents p.geom = true ∧ ¬ExtentsFit p := by
  obtain ⟨p, hp⟩ := @crumbled_plan 1015 (by decide)
  obtain ⟨hcompute, journal, orphan, hmade⟩ := plan_made hp
  obtain ⟨geom, -, hlaid, hfor⟩ := plan_ok hp
  have hgeom : p.geom = crumbled :=
    Except.ok.inj (hcompute.symm.trans (crumbled_computed 1015 (by decide)))
  have hext : usesExtents p.geom = true := by
    rw [hgeom]
    rfl
  refine ⟨p, hp, hext, fun hfit => ?_⟩
  obtain ⟨hextents, htotal, -⟩ := hmade.journal_extents hext
  have hblocks : p.journalBlocks = 1015 := by
    rw [hmade.journalBlocks, hgeom]
    rfl
  have hruns : ∀ r ∈ p.journalRuns, r.len ≤ 12 := by
    intro r hr
    refine crumbled_runs fun b hb => ?_
    rw [← hgeom]
    refine (hlaid.free b (hlaid.files.subset ?_)).1
    exact List.mem_cons_of_mem _ (List.mem_append_right _ (mem_blocksOf.mpr ⟨r, hr, hb⟩))
  have hmany := total_le_extents hruns
  rw [htotal, hblocks, ← length_journalExtentsOf 0, ← hextents] at hmany
  have hleaf := hmade.journalLeaf
  rw [hext, Bool.true_and, ← hmade.journalExtents, decide_eq_true (by
    show 4 < p.journalExtents.length
    omega)] at hleaf
  have hfew := (hfit.journalLeaf hleaf).1
  rw [hgeom] at hfew
  have hmax : ∀ tail, ExtentHeader.maxEntries crumbled.blockSize tail = 84 := by decide
  rw [hmax] at hfew
  omega

end MkfsExt4.Format
