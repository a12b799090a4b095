/-
  What the superblock advertises against what the plan holds (`build_superblock` and `plan` in
  `src/format.rs`).

  The features are settled by the geometry and the sizes by the plan. They part in one place: a
  journal of an explicit size of 0 blocks keeps its feature bit (`advertises_iff`).
-/
import MkfsExt4.Format.Contents
import MkfsExt4.Format.Planned

namespace MkfsExt4.Format

open Lib.Hoare Layout

/-- The features of a superblock are those of what the plan holds. Block 0 is never the block
of the multiple mount protection: there it says that there is none. -/
structure Advertises (sb : Superblock) (plan : Plan) : Prop where
  journal : sb.featureCompat.contains CompatFeatures.hasJournal = true ↔ 0 < plan.journalBlocks
  journalInum : 0 < plan.journalBlocks ↔ sb.journalInum = Ino.journal
  orphanFile : sb.featureCompat.contains CompatFeatures.orphanFile = true ↔
    plan.orphanInode.isSome = true
  orphanJournal : sb.featureCompat.contains CompatFeatures.orphanFile = true →
    sb.featureCompat.contains CompatFeatures.hasJournal = true
  metaBg : sb.featureIncompat.contains IncompatFeatures.metaBg = true →
    sb.featureCompat.contains CompatFeatures.resizeInode = false ∧ sb.reservedGdtBlocks = 0
  csumSeed : sb.featureIncompat.contains IncompatFeatures.csumSeed = true →
    sb.featureRoCompat.contains RoCompatFeatures.metadataCsum = true
  mmp : sb.featureIncompat.contains IncompatFeatures.mmp = true ↔
    0 < sb.mmpBlock ∧ sb.firstDataBlock ≤ sb.mmpBlock ∧ sb.mmpBlock < sb.blocksCount

theorem defaultJournalBlocks_pos {n k : Nat} (h : defaultJournalBlocks n = some k) : 0 < k := by
  unfold defaultJournalBlocks at h
  split_ifs at h <;> cases h <;> decide

theorem defaultOrphanFileBlocks_pos (n : Nat) : 0 < defaultOrphanFileBlocks n := by
  unfold defaultOrphanFileBlocks
  split_ifs <;> omega

/-- A journal is planned where one is advertised, but for one of no blocks. -/
theorem journalBlocksFor_pos {geom : Geometry} {params : Params} {m : FeatureMasks}
    (h : geom.Settled params m) : 0 < journalBlocksFor geom params ↔
      geom.features.compat.contains CompatFeatures.hasJournal = true ∧
        params.journal ≠ .blocks 0 := by
  unfold journalBlocksFor
  split
  · next hno =>
    rw [Bool.not_eq_true'] at hno
    rw [hno]
    exact iff_of_false (Nat.lt_irrefl 0) fun hyes => Bool.false_ne_true hyes.1
  · next hyes =>
    rw [Bool.not_eq_true', Bool.not_eq_false] at hyes
    obtain ⟨hbit, hkept⟩ := h.hasJournal.mp hyes
    rw [hyes]
    cases hjournal : params.journal with
    | none =>
      rw [h.noJournal hjournal] at hbit
      cases hbit
    | blocks n => simp [Nat.pos_iff_ne_zero]
    | default =>
      refine iff_of_true ?_ ⟨rfl, nofun⟩
      cases hdefault : defaultJournalBlocks geom.blocksCount with
      | none => exact absurd ⟨hjournal, hdefault⟩ hkept
      | some k => exact defaultJournalBlocks_pos hdefault

/-- The block of the multiple mount protection is one that planning handed out. -/
theorem Plan.Made.mmpBlock_bounds {plan : Plan} {geom : Geometry} {params : Params}
    {journal orphan : FilePlan} (h : plan.Made geom params journal orphan) (hlaid : plan.Laid)
    (hgeom : Computed geom) : ∀ b ∈ plan.mmpBlock,
      0 < b ∧ geom.firstDataBlock ≤ b ∧ b < geom.blocksCount := by
  intro b hb
  have hin := hlaid.mmpBlock b hb
  obtain ⟨hfree, hlt⟩ := hlaid.free b hin
  rw [h.geom] at hfree hlt
  refine ⟨Nat.pos_of_ne_zero ?_, ?_, hlt⟩
  · rintro rfl
    rw [metadataProbe_zero hgeom] at hfree
    cases hfree
  · by_contra hlow
    rw [metadataProbe, Geometry.inSuperRegion, if_pos (Or.inl (Nat.not_le.mp hlow))] at hfree
    cases hfree

/-- The superblock advertises what the plan holds exactly when no journal of 0 blocks was asked
for where the features keep a journal. -/
theorem advertises_iff {deviceSize : Nat} {params : Params} {ambient : Ambient} {p : Plan}
    {m : FeatureMasks} (h : plan deviceSize params ambient = .ok p)
    (hm : params.resolveFeatures = .ok m) (freeBlocks freeInodes : Nat) :
    Advertises (buildSuperblock p freeBlocks freeInodes) p ↔
      ¬(params.journal = .blocks 0 ∧
        m.compat.contains CompatFeatures.hasJournal = true) := by
  obtain ⟨hcompute, journal, orphan, hmade⟩ := plan_made h
  obtain ⟨geom, hgeom, hlaid, -⟩ := plan_ok h
  obtain rfl := Except.ok.inj (hgeom.symm.trans hcompute)
  obtain ⟨m', hsettled⟩ := compute_settled hcompute
  obtain rfl := Except.ok.inj (hsettled.resolved.symm.trans hm)
  have hjournal := journalBlocksFor_pos hsettled
  rw [← hmade.journalBlocks] at hjournal
  constructor
  · rintro hadv ⟨hzero, hbit⟩
    have hkept : p.geom.features.compat.contains CompatFeatures.hasJournal = true :=
      hsettled.hasJournal.mpr ⟨hbit, fun hdrop => by rw [hdrop.1] at hzero; cases hzero⟩
    exact (hjournal.mp (hadv.journal.mp hkept)).2 hzero
  · intro hnot
    refine ⟨?_, ?_, ?_, hsettled.normal.orphanFile, fun hmeta => ?_, hsettled.normal.csumSeed, ?_⟩
    · refine (hjournal.trans (and_iff_left_of_imp fun hbit hzero => hnot ⟨hzero, ?_⟩)).symm
      exact (hsettled.hasJournal.mp hbit).1
    · show 0 < p.journalBlocks ↔ (if 0 < p.journalBlocks then Ino.journal else 0) = Ino.journal
      by_cases hpos : 0 < p.journalBlocks
      · rw [if_pos hpos]
        exact iff_of_true hpos rfl
      · rw [if_neg hpos]
        exact iff_of_false hpos (by decide)
    · rw [hmade.orphanInode, orphanBlocksFor]
      show p.geom.features.compat.contains CompatFeatures.orphanFile = true ↔ _
      split
      · next hbit => simp [hbit, defaultOrphanFileBlocks_pos]
      · next hbit => simp [hbit]
    · refine ⟨hsettled.normal.metaBg hmeta, ?_⟩
      obtain ⟨req, start, descSize, s, grp, -, hfrom⟩ := compute_from hcompute
      obtain ⟨descSize, -, hfinished⟩ := hfrom.made
      show p.geom.reservedGdtBlocks = 0
      rw [hfinished.reservedGdt, ← hsettled.metaBg]
      exact if_pos hmeta
    · show p.geom.features.incompat.contains IncompatFeatures.mmp = true ↔ 0 < p.mmpBlock.getD 0 ∧
        p.geom.firstDataBlock ≤ p.mmpBlock.getD 0 ∧ p.mmpBlock.getD 0 < p.geom.blocksCount
      have hbounds := hmade.mmpBlock_bounds hlaid (compute_ok hcompute)
      rw [← hmade.mmpBlock]
      cases hmmp : p.mmpBlock with
      | none => exact iff_of_false Bool.false_ne_true fun hin => Nat.lt_irrefl 0 hin.1
      | some b => exact iff_of_true rfl (hbounds b hmmp)

/-! ## A journal of no blocks -/

/-- 256 KiB in blocks of 1 KiB, with a journal of `n` blocks. -/
def sizedJournal (n : Nat) : Params :=
  { blockSize := some 1024, inodesCount := some 16, inodeSize := some 128, journal := .blocks n }

def phantom : Geometry where
  blockSize := 1024
  logBlockSize := 0
  blocksCount := 256
  firstDataBlock := 1
  blocksPerGroup := 8192
  rBlocksCount := 12
  inodesCount := 16
  inodesPerGroup := 16
  inodeSize := 128
  itableBlocksPerGroup := 2
  groupCount := 1
  descSize := 64
  descBlocks := 1
  reservedGdtBlocks := 1
  logGroupsPerFlex := 4
  metaBg := false
  firstMetaBg := 0
  features := { compat := 0x103c, incompat := 0x22c2, roCompat := 0x46b }

theorem phantom_computed : ∀ n ∈ [0, 64], compute (256 * 1024) (sizedJournal n) = .ok phantom ∧
    (sizedJournal n).resolveFeatures = .ok phantom.features := by decide +kernel

theorem phantom_planned : ∀ n ∈ [0, 64],
    (exec (planBlocks phantom (sizedJournal n) {}) (newAllocator phantom)).1.isOk = true := by
  decide +kernel

theorem sizedJournal_plan {n : Nat} (hn : n ∈ [0, 64]) :
    ∃ p, plan (256 * 1024) (sizedJournal n) {} = .ok p := by
  have hok := phantom_planned n hn
  cases hplan : plan (256 * 1024) (sizedJournal n) {} with
  | ok p => exact ⟨p, rfl⟩
  | error e =>
    rw [plan, bind_of_ok (phantom_computed n hn).1] at hplan
    rw [hplan] at hok
    cases hok

/-- A journal of 64 blocks is advertised and there. -/
theorem advertises_sized : ∃ p, plan (256 * 1024) (sizedJournal 64) {} = .ok p ∧
    Advertises (buildSuperblock p 0 0) p := by
  obtain ⟨p, hp⟩ := @sizedJournal_plan 64 (by decide)
  refine ⟨p, hp, (advertises_iff hp (phantom_computed 64 (by decide)).2 0 0).mpr ?_⟩
  rintro ⟨hzero, -⟩
  cases hzero

/-- A journal of 0 blocks is advertised all the same. -/
theorem advertises_phantom : ∃ p, plan (256 * 1024) (sizedJournal 0) {} = .ok p ∧
    ∀ freeBlocks freeInodes, ¬Advertises (buildSuperblock p freeBlocks freeInodes) p := by
  obtain ⟨p, hp⟩ := @sizedJournal_plan 0 (by decide)
  refine ⟨p, hp, fun freeBlocks freeInodes hadv => ?_⟩
  obtain ⟨hcompute, journal, orphan, hmade⟩ := plan_made hp
  have hgeom : phantom = p.geom :=
    Except.ok.inj ((phantom_computed 0 (by decide)).1.symm.trans hcompute)
  have hpos := hadv.journal.mp (by
    show p.geom.features.compat.contains CompatFeatures.hasJournal = true
    rw [← hgeom]
    rfl)
  rw [hmade.journalBlocks, ← hgeom] at hpos
  exact absurd hpos (by decide)

end MkfsExt4.Format
