/-
  What a plan keeps of each thing it places. `planBlocks` asks the allocator for one file after
  another; `Plan.Made` gives back the request for each, from the allocator as it then stood,
  beside the fields of the plan that came of it.
-/
import MkfsExt4.Format.Plan
import MkfsExt4.Layout.Normal

namespace MkfsExt4.Format

open Lib.Hoare Layout

/-- How many blocks the orphan file gets. -/
def orphanBlocksFor (geom : Geometry) : Nat :=
  if geom.features.compat.contains CompatFeatures.orphanFile then
    defaultOrphanFileBlocks geom.blocksCount else 0

/-- Whether a geometry's files are mapped by extents. -/
def usesExtents (geom : Geometry) : Bool :=
  geom.features.incompat.contains IncompatFeatures.extents

/-- The allocator at some point of planning: only free blocks were handed out so far. -/
def Reached (geom : Geometry) (a : Allocator) : Prop :=
  ∃ runs, Extends (newAllocator geom) a runs

theorem Reached.extends {geom : Geometry} {a a' : Allocator} {runs : List Run}
    (h : Reached geom a) (hext : Extends a a' runs) : Reached geom a' := by
  obtain ⟨before, hbefore⟩ := h
  exact ⟨before ++ runs, hbefore.trans hext⟩

/-- What is placed ahead of the journal: the root directory, `lost+found` and the resize
inode's block. -/
def placeDirs (geom : Geometry) : AllocM Unit := do
  let first := geom.firstDataBlock
  let _ ← alloc first 1
  let _ ← alloc first (min (max (divCeil (16 * 1024) geom.blockSize) 1) 12)
  let _ ← allocIf (geom.features.compat.contains CompatFeatures.resizeInode &&
    0 < geom.reservedGdtBlocks) first

/-- The allocator as planning finds it when it comes to the journal. -/
def atJournal (geom : Geometry) : Allocator := (exec (placeDirs geom) (newAllocator geom)).2

/-- The allocator as planning finds it when it comes to the orphan file. -/
def atOrphan (geom : Geometry) (params : Params) : Allocator :=
  (exec (planJournal geom (usesExtents geom) (journalBlocksFor geom params)) (atJournal geom)).2

/-- The requests a plan was made by, and what it keeps of their answers. -/
structure Plan.Made (plan : Plan) (g : Geometry) (params : Params)
    (journal orphan : FilePlan) : Prop where
  geom : plan.geom = g
  csumScheme : plan.csumScheme = csumSchemeOf g.features
  csumSeed : plan.csumSeed = if g.features.incompat.contains IncompatFeatures.csumSeed ∨
    plan.csumScheme = .crc32c then Csum.seedFromUuid plan.uuid else 0
  journalReached : Reached g (atJournal g)
  journalPlanned : exec (planJournal g (usesExtents g) (journalBlocksFor g params)) (atJournal g) =
    (.ok journal, atOrphan g params)
  orphanReached : Reached g (atOrphan g params)
  orphanPlanned : ∃ a, exec (planOrphan g (usesExtents g) (orphanBlocksFor g))
    (atOrphan g params) = (.ok orphan, a)
  journalBlocks : plan.journalBlocks = journalBlocksFor g params
  journalRuns : plan.journalRuns = journal.runs
  journalExtents : plan.journalExtents = journal.extents
  journalIndirect : plan.journalIndirect = journal.indirect
  orphanInode : plan.orphanInode =
    if 0 < orphanBlocksFor g then some (goodOldFirstIno + 1) else none
  orphanRuns : plan.orphanRuns = orphan.runs
  orphanIndirect : plan.orphanIndirect = orphan.indirect
  journalLeaf : plan.journalExtentLeaf.isSome = (usesExtents g &&
    ExtentHeader.maxEntries Extent.inlineLen false < journal.extents.length)
  orphanLeaf : plan.orphanExtentLeaf.isSome = (usesExtents g &&
    ExtentHeader.maxEntries Extent.inlineLen false < orphan.extents.length)
  journalIBlock : journal.runs ≠ [] → if usesExtents g then
      journalInodeIBlock journal.extents plan.journalExtentLeaf = .ok plan.journalIBlock
    else plan.journalIBlock = pointerIBlock journal.indirect
  orphanIBlock : orphan.runs ≠ [] → if usesExtents g then
      journalInodeIBlock orphan.extents plan.orphanExtentLeaf = .ok plan.orphanIBlock
    else plan.orphanIBlock = pointerIBlock orphan.indirect
  resizeDind : plan.resizeDind.isSome = (g.features.compat.contains CompatFeatures.resizeInode &&
    0 < g.reservedGdtBlocks)
  mmpBlock : plan.mmpBlock.isSome = g.features.incompat.contains IncompatFeatures.mmp
  order : usesExtents g = true → blocksOf plan.runs =
    plan.rootBlock :: plan.lostFound ++ plan.resizeDind.toList ++ blocksOf plan.journalRuns ++
      blocksOf plan.orphanRuns ++ plan.mmpBlock.toList ++ plan.journalExtentLeaf.toList ++
      plan.orphanExtentLeaf.toList

theorem allocIf_isSome {wanted : Bool} {goal : Nat} {block : Option Nat} {a a' : Allocator}
    (h : exec (allocIf wanted goal) a = (.ok block, a')) : block.isSome = wanted := by
  unfold allocIf at h
  split at h
  · next hwanted =>
    obtain ⟨b, a1, hb, hrest⟩ := exec_bind_ok h
    cases hrest
    exact hwanted.symm
  · next hnot =>
    cases h
    exact (Bool.eq_false_iff.mpr hnot).symm

theorem allocIf_extends {wanted : Bool} {goal : Nat} {block : Option Nat} {a a' : Allocator}
    (h : exec (allocIf wanted goal) a = (.ok block, a')) :
    ∃ runs, Extends a a' runs ∧ blocksOf runs = block.toList := by
  unfold allocIf at h
  split at h
  · obtain ⟨b, a1, hb, hrest⟩ := exec_bind_ok h
    cases hrest
    exact ⟨_, alloc_ok hb, rfl⟩
  · cases h
    exact ⟨[], Extends.refl _, rfl⟩

/-- With extents a file takes its runs and nothing else. -/
theorem planJournal_extends {geom : Geometry} {blocks : Nat} {file : FilePlan} {a a' : Allocator}
    (h : exec (planJournal geom true blocks) a = (.ok file, a')) :
    Extends a a' file.runs ∧ file.indirect.blocks = [] := by
  unfold planJournal at h
  split at h
  · cases h
    exact ⟨Extends.refl _, rfl⟩
  · rw [if_pos rfl] at h
    obtain ⟨a0, a1, hget, hrest⟩ := exec_bind_ok h
    cases hget
    obtain ⟨runs, a2, hruns, hrest⟩ := exec_bind_ok hrest
    cases hrest
    exact ⟨(allocRuns_ok hruns).1, rfl⟩

theorem planOrphan_extends {geom : Geometry} {blocks : Nat} {file : FilePlan} {a a' : Allocator}
    (h : exec (planOrphan geom true blocks) a = (.ok file, a')) :
    Extends a a' file.runs ∧ file.indirect.blocks = [] := by
  unfold planOrphan at h
  split at h
  · cases h
    exact ⟨Extends.refl _, rfl⟩
  · obtain ⟨runs, a1, hruns, hrest⟩ := exec_bind_ok h
    rw [if_pos rfl] at hrest
    cases hrest
    exact ⟨(allocRuns_ok hruns).1, rfl⟩

theorem fileIBlock_eq {extents : Bool} {file : FilePlan} {leaf : Option Nat} {iblock : List UInt8}
    {a a' : Allocator} (h : exec (fileIBlock extents file leaf) a = (.ok iblock, a'))
    (hruns : file.runs ≠ []) : if extents then journalInodeIBlock file.extents leaf = .ok iblock
      else iblock = pointerIBlock file.indirect := by
  rw [fileIBlock, if_neg (by rwa [List.isEmpty_iff])] at h
  split at h
  · next hext =>
    rw [if_pos hext]
    cases hblock : journalInodeIBlock file.extents leaf with
    | error e =>
      rw [hblock] at h
      cases h
    | ok b =>
      rw [hblock] at h
      cases h
      rfl
  · next hext =>
    rw [if_neg hext]
    cases h
    rfl

theorem planBlocks_made {geom : Geometry} {params : Params} {ambient : Ambient} {plan : Plan}
    {a : Allocator} (h : exec (planBlocks geom params ambient) (newAllocator geom) = (.ok plan, a)) :
    ∃ journal orphan, plan.Made geom params journal orphan := by
  unfold planBlocks at h
  dsimp only at h
  obtain ⟨root, a1, hroot, h⟩ := exec_bind_ok h
  obtain ⟨lostFound, a2, hlost, h⟩ := exec_bind_ok h
  obtain ⟨dind, a3, hdind, h⟩ := exec_bind_ok h
  obtain ⟨journal, a4, hjournal, h⟩ := exec_bind_ok h
  obtain ⟨orphan, a5, horphan, h⟩ := exec_bind_ok h
  obtain ⟨mmp, a6, hmmp, h⟩ := exec_bind_ok h
  obtain ⟨jleaf, a7, hjleaf, h⟩ := exec_bind_ok h
  obtain ⟨oleaf, a8, holeaf, h⟩ := exec_bind_ok h
  obtain ⟨oblock, a9, hoblock, h⟩ := exec_bind_ok h
  obtain ⟨jblock, a10, hjblock, h⟩ := exec_bind_ok h
  obtain ⟨a11, a12, hget, hlast⟩ := exec_bind_ok h
  cases hget
  obtain ⟨rfl, rfl⟩ := exec_pure_ok hlast
  obtain ⟨r3, e3, b3⟩ := allocIf_extends hdind
  obtain ⟨r4, e4, -⟩ := planJournal_ok hjournal
  have hbefore : Reached geom a3 := ⟨_, (alloc_ok hroot).trans ((alloc_ok hlost).trans e3)⟩
  have hdirs : exec (placeDirs geom) (newAllocator geom) = (.ok (), a3) := by
    rw [placeDirs, exec_bind_of_ok hroot, exec_bind_of_ok hlost, exec_bind_of_ok hdind]
    rfl
  obtain rfl : atJournal geom = a3 := congrArg Prod.snd hdirs
  obtain rfl : atOrphan geom params = a4 := congrArg Prod.snd hjournal
  refine ⟨journal, orphan, rfl, rfl, rfl, hbefore, hjournal, hbefore.extends e4, ⟨a5, horphan⟩,
    rfl, rfl, rfl, rfl, rfl, rfl, rfl, allocIf_isSome hjleaf, allocIf_isSome holeaf,
    fileIBlock_eq hjblock, fileIBlock_eq hoblock, allocIf_isSome hdind, allocIf_isSome hmmp, ?_⟩
  intro hext
  have hbit : geom.features.incompat.contains IncompatFeatures.extents = true := hext
  rw [hbit] at hjournal horphan
  obtain rfl := fileIBlock_ok hoblock
  obtain rfl := fileIBlock_ok hjblock
  obtain ⟨r6, e6, b6⟩ := allocIf_extends hmmp
  obtain ⟨r7, e7, b7⟩ := allocIf_extends hjleaf
  obtain ⟨r8, e8, b8⟩ := allocIf_extends holeaf
  have hall := (alloc_ok hroot).trans ((alloc_ok hlost).trans (e3.trans
    ((planJournal_extends hjournal).1.trans ((planOrphan_extends horphan).1.trans
    (e6.trans (e7.trans e8))))))
  have hruns := congrArg Allocator.runs hall.eq
  simp only [newAllocator, List.nil_append] at hruns
  dsimp only [Plan.lostFound]
  rw [hruns]
  simp only [blocksOf_append, blocksOf_cons, Run.blocks, b3, b6, b7,
    b8, List.append_assoc, List.cons_append, List.nil_append]
  rfl

theorem plan_made {deviceSize : Nat} {params : Params} {ambient : Ambient} {p : Plan}
    (h : plan deviceSize params ambient = .ok p) :
    compute deviceSize params = .ok p.geom ∧
      ∃ journal orphan, p.Made p.geom params journal orphan := by
  obtain ⟨geom, a, hgeom, hrun⟩ := plan_run h
  obtain ⟨journal, orphan, hmade⟩ := planBlocks_made hrun
  obtain rfl := hmade.geom
  exact ⟨hgeom, journal, orphan, hmade⟩

/-! ## Where planning never goes -/

theorem hasSuper_zero (geom : Geometry) : geom.hasSuper 0 = true := by
  rw [Geometry.hasSuper, hasSuperFor]
  split <;> rfl

/-- Block 0 is in no group, or the superblock is in it. -/
theorem metadataProbe_zero {geom : Geometry} (h : Computed geom) : metadataProbe geom 0 = true := by
  have hin : geom.inSuperRegion 0 = true := by
    unfold Geometry.inSuperRegion
    split
    · rfl
    · next hnot =>
      have hfirst : geom.firstDataBlock = 0 := by omega
      have hpos := h.groupCount_pos
      simp only [hfirst, Nat.zero_sub, Nat.zero_div, Nat.zero_mod, Geometry.groupFirstBlock,
        Nat.zero_mul, Geometry.superOverhead, hasSuper_zero, Bool.toNat_true]
      rw [if_neg (by omega)]
      exact decide_eq_true (by omega)
  rw [metadataProbe, if_pos hin]

end MkfsExt4.Format
