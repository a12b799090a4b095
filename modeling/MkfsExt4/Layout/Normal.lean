/-
  The features of a computed geometry: the rules `normalise` imposes on a feature set, which
  still hold once the block count has switched `meta_bg` on or taken the journal away.
-/
import MkfsExt4.Layout.Derived

namespace MkfsExt4

open Lib.Hoare Layout

/-! ## Normal feature sets -/

/-- The rules the format imposes on a feature set. -/
structure FeatureMasks.Normal (m : FeatureMasks) : Prop where
  orphanFile : m.compat.contains CompatFeatures.orphanFile = true →
    m.compat.contains CompatFeatures.hasJournal = true
  csumSeed : m.incompat.contains IncompatFeatures.csumSeed = true →
    m.roCompat.contains RoCompatFeatures.metadataCsum = true
  sixtyFourBit : m.incompat.contains IncompatFeatures.sixtyFourBit = true →
    m.incompat.contains IncompatFeatures.extents = true
  metaBg : m.incompat.contains IncompatFeatures.metaBg = true →
    m.compat.contains CompatFeatures.resizeInode = false

theorem Mask.contains_remove_self (m : Mask) {bits : Mask} (h : bits ≠ 0) :
    (m.remove bits).contains bits = false := by
  have hgone : m.remove bits &&& bits = 0 := by
    ext i hi
    simp only [remove, BitVec.getElem_and, BitVec.getElem_not]
    cases m[i] <;> cases bits[i] <;> simp
  rw [contains, hgone, beq_eq_false_iff_ne]
  exact h.symm

theorem FeatureMasks.Normal.of_normalise {m m' : FeatureMasks} (h : normalise m = .ok m') :
    m'.Normal := by
  unfold normalise at h
  split at h
  · cases h
  extract_lets m1 m2 at h
  have horphan : m2.compat.contains CompatFeatures.orphanFile = true →
      m2.compat.contains CompatFeatures.hasJournal = true := by
    have hcompat : m2.compat = m1.compat := by
      simp only [m2]
      split <;> rfl
    rw [hcompat]
    simp only [m1]
    split
    · next hjournal => exact fun _ => hjournal
    · rw [Mask.contains_remove_self _ (by decide)]
      nofun
  have hseed : m2.incompat.contains IncompatFeatures.csumSeed = true →
      m2.roCompat.contains RoCompatFeatures.metadataCsum = true := by
    simp only [m2]
    split
    · rw [Mask.contains_remove_self _ (by decide)]
      nofun
    · next hrule => exact fun hbit => by_contra fun hno => hrule ⟨hbit, hno⟩
  split at h
  · cases h
  next hwide =>
  have hextents : m2.incompat.contains IncompatFeatures.sixtyFourBit = true →
      m2.incompat.contains IncompatFeatures.extents = true :=
    fun hbit => by_contra fun hno => hwide ⟨hbit, hno⟩
  split at h
  · rw [← Except.ok.inj h]
    refine ⟨fun hbit => ?_, hseed, hextents, fun _ => Mask.contains_remove_self _ (by decide)⟩
    rw [Mask.contains_remove (by decide)] at hbit ⊢
    exact horphan hbit
  · next hmeta =>
    rw [← Except.ok.inj h]
    exact ⟨horphan, hseed, hextents, fun hbit => absurd hbit hmeta⟩

/-- `normalise` neither sets nor clears `has_journal`. -/
theorem normalise_hasJournal {m m' : FeatureMasks} (h : normalise m = .ok m') :
    m'.compat.contains CompatFeatures.hasJournal =
      m.compat.contains CompatFeatures.hasJournal := by
  unfold normalise at h
  split at h
  · cases h
  extract_lets m1 m2 at h
  have hcompat : m2.compat = m1.compat := by
    simp only [m2]
    split <;> rfl
  have hkeep : m1.compat.contains CompatFeatures.hasJournal =
      m.compat.contains CompatFeatures.hasJournal := by
    simp only [m1]
    split
    · rfl
    · exact Mask.contains_remove (by decide)
  split at h
  · cases h
  split at h
  · rw [← Except.ok.inj h, Mask.contains_remove (by decide), hcompat, hkeep]
  · rw [← Except.ok.inj h, hcompat, hkeep]

/-- The last step of resolving features is to normalise them. -/
theorem Params.resolveFeatures_ok {params : Params} {m : FeatureMasks}
    (h : params.resolveFeatures = .ok m) : ∃ m', normalise m' = .ok m ∧
      (params.journal = .none → m'.compat.contains CompatFeatures.hasJournal = false) := by
  unfold Params.resolveFeatures at h
  dsimp only at h
  split at h <;> obtain ⟨m1, -, h⟩ := bind_ok h <;> refine ⟨_, h, fun hnone => ?_⟩ <;>
    rw [hnone] <;> exact Mask.contains_remove_self _ (by decide)

namespace Layout

/-! ## The features of a geometry -/

/-- Whether the size class takes the journal away. -/
def JournalDropped (params : Params) (blocksCount : Nat) : Prop :=
  params.journal = .default ∧ defaultJournalBlocks blocksCount = none

/-- What is left of the features asked for. -/
structure Geometry.Settled (geom : Geometry) (params : Params) (m : FeatureMasks) : Prop where
  resolved : params.resolveFeatures = .ok m
  noJournal : params.journal = .none → m.compat.contains CompatFeatures.hasJournal = false
  normal : geom.features.Normal
  hasJournal : geom.features.compat.contains CompatFeatures.hasJournal = true ↔
    m.compat.contains CompatFeatures.hasJournal = true ∧ ¬JournalDropped params geom.blocksCount
  metaBg : geom.features.incompat.contains IncompatFeatures.metaBg = geom.metaBg

theorem dropJournal_normal {params : Params} {features features' : FeatureMasks}
    {blocksCount : Nat} (h : dropJournal params features blocksCount = .ok features')
    (hnormal : features.Normal) : features'.Normal ∧
      (features'.compat.contains CompatFeatures.hasJournal = true ↔
        features.compat.contains CompatFeatures.hasJournal = true ∧
          ¬JournalDropped params blocksCount) := by
  unfold dropJournal at h
  split at h
  · next hdrop =>
    have hnorm := incompatible_ok h
    refine ⟨FeatureMasks.Normal.of_normalise hnorm, iff_of_false ?_ ?_⟩
    · rw [normalise_hasJournal hnorm]
      exact ne_true_of_eq_false (Mask.contains_remove_self _ (by decide))
    · exact fun hkept => hkept.2 ⟨hdrop.1, hdrop.2.2⟩
  · next hkeep =>
    cases h
    exact ⟨hnormal, ⟨fun hbit => ⟨hbit, fun hdrop => hkeep ⟨hdrop.1, hbit, hdrop.2⟩⟩, And.left⟩⟩

/-- The switch to `meta_bg` takes the resize inode with it. -/
theorem Normal.switch {m : FeatureMasks} (hnormal : m.Normal) :
    FeatureMasks.Normal { m with
      incompat := m.incompat ||| IncompatFeatures.metaBg
      compat := m.compat.remove CompatFeatures.resizeInode } := by
  refine ⟨fun hbit => ?_, fun hbit => ?_, fun hbit => ?_,
    fun _ => Mask.contains_remove_self _ (by decide)⟩
  · rw [Mask.contains_remove (by decide)] at hbit ⊢
    exact hnormal.orphanFile hbit
  · rw [Mask.contains_or (by decide)] at hbit
    exact hnormal.csumSeed hbit
  · rw [Mask.contains_or (by decide)] at hbit ⊢
    exact hnormal.sixtyFourBit hbit

theorem compute_settled {sizeBytes : Nat} {params : Params} {geom : Geometry}
    (h : compute sizeBytes params = .ok geom) : ∃ m, geom.Settled params m := by
  rw [compute_eq] at h
  obtain ⟨⟨req, start, descSize⟩, hreq, h⟩ := bind_ok h
  obtain ⟨grp, -, h⟩ := bind_ok h
  obtain ⟨geom', hfinish, h⟩ := bind_ok h
  split at h
  · cases h
  cases h
  have hmade := (computeRequest_ok hreq).features
  have hbit := (finish_finished hfinish).metaBg_bit
  obtain ⟨_, -, h⟩ := bind_ok hfinish
  obtain ⟨_, -, h⟩ := bind_ok h
  obtain ⟨_, -, h⟩ := bind_ok h
  obtain ⟨flex, -, h⟩ := bind_ok h
  obtain ⟨features, hfeatures, h⟩ := bind_ok h
  obtain ⟨_, -, h⟩ := bind_ok h
  obtain ⟨_, -, h⟩ := bind_ok h
  cases h
  obtain ⟨m, hnorm, hnone⟩ := Params.resolveFeatures_ok hmade
  have hnormal := FeatureMasks.Normal.of_normalise hnorm
  obtain ⟨hkept, hjournal⟩ := dropJournal_normal hfeatures (by
    split
    · exact Normal.switch hnormal
    · exact hnormal)
  rw [← normalise_hasJournal hnorm] at hnone
  refine ⟨req.features, hmade, hnone, hkept, hjournal.trans (and_congr_left fun _ => ?_), hbit⟩
  split
  · rw [Mask.contains_remove (by decide)]
  · exact Iff.rfl

end Layout

end MkfsExt4
