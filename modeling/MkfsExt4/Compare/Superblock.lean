/-
  Comparing two superblocks (`src/compare.rs`, `compare_features`, `compare_superblock`).

  The fields are a list written by hand, and features are compared by their names.
  `compared` is a superblock without what neither looks at: the fields the list leaves out and
  the feature bits that have no name. With everything asked for, nothing is reported exactly
  when the two superblocks agree on the rest (`report_nil_iff`), so the comparison tells apart
  any two superblocks exactly when they do not differ in those alone
  (`compare_superblocks_exact_iff`).
-/
import MkfsExt4.Compare.Report
import MkfsExt4.Lib.Utf8
import MkfsExt4.Structs.SuperblockCodec

namespace MkfsExt4.Compare

open Lib.Utf8

/-! ## Features -/

/-- The masks as one. -/
def featureMasks (sb : Superblock) : FeatureMasks where
  compat := sb.featureCompat
  incompat := sb.featureIncompat
  roCompat := sb.featureRoCompat

/-- `to_spec().split(',')` -/
def specParts (m : FeatureMasks) : List String :=
  (m.toSpec.toList.splitOn ',').map String.ofList

/-- Feature masks, name by name. -/
def compareFeatures (left right : Superblock) (options : CompareOptions)
    (report : ComparisonReport) : ComparisonReport :=
  let leftNames := specParts (featureMasks left)
  let rightNames := specParts (featureMasks right)
  let report := report.pushMissing options .features (leftNames.filter (· ≠ "")) rightNames
    "set" "not set"
  report.pushMissing options .features (rightNames.filter (· ≠ "")) leftNames "not set" "set"

/-- A name of a feature is not empty and has no comma. -/
theorem features_names_plain : ∀ feat ∈ features, feat.name ≠ "" ∧ ',' ∉ feat.name.toList := by
  decide

/-- The parts of the list are the names again, or one empty part when there are none. -/
theorem mem_specParts {m : FeatureMasks} {name : String} :
    name ≠ "" ∧ name ∈ specParts m ↔ name ∈ m.specNames := by
  have hplain : ∀ n ∈ m.specNames, n ≠ "" ∧ ',' ∉ n.toList := by
    intro n hn
    obtain ⟨feat, hf, rfl, -⟩ := m.spelled.set n hn
    exact features_names_plain feat hf
  have hlist : m.toSpec.toList = [','].intercalate (m.specNames.map String.toList) := by
    rw [FeatureMasks.toSpec, String.toList_intercalate]
    rfl
  rw [specParts, hlist]
  cases hnames : m.specNames with
  | nil => simp
  | cons n ns =>
    rw [← hnames, List.splitOn_intercalate]
    · have hback : (m.specNames.map String.toList).map String.ofList = m.specNames := by
        simp
      rw [hback]
      exact ⟨And.right, fun h => ⟨(hplain name h).1, h⟩⟩
    · intro l hl
      obtain ⟨n', hn', rfl⟩ := List.mem_map.mp hl
      exact (hplain n' hn').2
    · rw [hnames]
      exact List.cons_ne_nil _ _

/-! ## Fields -/

/-- The bytes of a field up to its first NUL, as text. -/
def fieldText (field : List UInt8) : String := String.ofList (fromUtf8Lossy (fieldToString field))

/-- `{n:0wx}`: hexadecimal, zero-padded to `w` digits. -/
def hexDigits (w n : Nat) : String :=
  let digits := Nat.toDigits 16 n
  String.ofList (List.replicate (w - digits.length) '0' ++ digits)

/-- A UUID in its hyphenated form. -/
def uuidString (uuid : List UInt8) : String :=
  let part (off n : Nat) : String :=
    String.join ((Lib.Store.slice uuid off n).map fun b => hexDigits 2 b.toNat)
  "-".intercalate [part 0 4, part 4 2, part 6 2, part 8 2, part 10 6]

/-- A field that holds a number. -/
structure NumberField where
  name : String
  significance : Significance
  get : Superblock → Int

/-- `structural!`, `incidental!` and `identity!`, in the order of the source. -/
def numberFields : List NumberField :=
  [⟨"inodes_count", .structural, fun sb => sb.inodesCount⟩,
   ⟨"blocks_count", .structural, fun sb => sb.blocksCount⟩,
   ⟨"r_blocks_count", .structural, fun sb => sb.rBlocksCount⟩,
   ⟨"first_data_block", .structural, fun sb => sb.firstDataBlock⟩,
   ⟨"log_block_size", .structural, fun sb => sb.logBlockSize⟩,
   ⟨"log_cluster_size", .structural, fun sb => sb.logClusterSize⟩,
   ⟨"blocks_per_group", .structural, fun sb => sb.blocksPerGroup⟩,
   ⟨"clusters_per_group", .structural, fun sb => sb.clustersPerGroup⟩,
   ⟨"inodes_per_group", .structural, fun sb => sb.inodesPerGroup⟩,
   ⟨"first_ino", .structural, fun sb => sb.firstIno⟩,
   ⟨"inode_size", .structural, fun sb => sb.inodeSize⟩,
   ⟨"desc_size", .structural, fun sb => sb.sDescSize⟩,
   ⟨"reserved_gdt_blocks", .structural, fun sb => sb.reservedGdtBlocks⟩,
   ⟨"log_groups_per_flex", .structural, fun sb => sb.logGroupsPerFlex⟩,
   ⟨"first_meta_bg", .structural, fun sb => sb.firstMetaBg⟩,
   ⟨"rev_level", .structural, fun sb => sb.revLevel⟩,
   ⟨"minor_rev_level", .structural, fun sb => sb.minorRevLevel⟩,
   ⟨"creator_os", .structural, fun sb => sb.creatorOs⟩,
   ⟨"min_extra_isize", .structural, fun sb => sb.minExtraIsize⟩,
   ⟨"want_extra_isize", .structural, fun sb => sb.wantExtraIsize⟩,
   ⟨"def_hash_version", .structural, fun sb => sb.defHashVersion⟩,
   ⟨"checksum_type", .structural, fun sb => sb.checksumType⟩,
   ⟨"default_mount_opts", .structural, fun sb => sb.defaultMountOpts⟩,
   ⟨"errors", .structural, fun sb => sb.errors⟩,
   ⟨"def_resuid", .structural, fun sb => sb.defResuid⟩,
   ⟨"def_resgid", .structural, fun sb => sb.defResgid⟩,
   ⟨"journal_inum", .structural, fun sb => sb.journalInum⟩,
   ⟨"journal_dev", .structural, fun sb => sb.journalDev⟩,
   ⟨"jnl_backup_type", .structural, fun sb => sb.jnlBackupType⟩,
   ⟨"lpf_ino", .structural, fun sb => sb.lpfIno⟩,
   ⟨"orphan_file_inum", .structural, fun sb => sb.orphanFileInum⟩,
   ⟨"usr_quota_inum", .structural, fun sb => sb.usrQuotaInum⟩,
   ⟨"grp_quota_inum", .structural, fun sb => sb.grpQuotaInum⟩,
   ⟨"prj_quota_inum", .structural, fun sb => sb.prjQuotaInum⟩,
   ⟨"raid_stride", .structural, fun sb => sb.raidStride⟩,
   ⟨"raid_stripe_width", .structural, fun sb => sb.raidStripeWidth⟩,
   ⟨"encoding", .structural, fun sb => sb.encoding⟩,
   ⟨"encoding_flags", .structural, fun sb => sb.encodingFlags⟩,
   ⟨"mmp_block", .structural, fun sb => sb.mmpBlock⟩,
   ⟨"mmp_update_interval", .structural, fun sb => sb.mmpUpdateInterval⟩,
   ⟨"flags", .structural, fun sb => sb.flags⟩,
   ⟨"free_blocks_count", .incidental, fun sb => sb.freeBlocksCount⟩,
   ⟨"free_inodes_count", .incidental, fun sb => sb.freeInodesCount⟩,
   ⟨"mnt_count", .incidental, fun sb => sb.mntCount⟩,
   ⟨"max_mnt_count", .incidental, fun sb => sb.maxMntCount⟩,
   ⟨"state", .incidental, fun sb => sb.state⟩,
   ⟨"checkinterval", .incidental, fun sb => sb.checkinterval⟩,
   ⟨"kbytes_written", .incidental, fun sb => sb.kbytesWritten⟩,
   ⟨"last_orphan", .incidental, fun sb => sb.lastOrphan⟩,
   ⟨"error_count", .incidental, fun sb => sb.errorCount⟩,
   ⟨"overhead_clusters", .incidental, fun sb => sb.overheadClusters⟩,
   ⟨"mkfs_time", .identity, fun sb => sb.mkfsTime⟩,
   ⟨"mtime", .identity, fun sb => sb.mtime⟩,
   ⟨"wtime", .identity, fun sb => sb.wtime⟩,
   ⟨"lastcheck", .identity, fun sb => sb.lastcheck⟩,
   ⟨"checksum_seed", .identity, fun sb => sb.checksumSeed⟩,
   ⟨"checksum", .identity, fun sb => sb.checksum⟩]

/-- The superblock fields: the numbers, then the arrays as what they stand for. -/
def compareSuperblock (l r : Superblock) (options : CompareOptions)
    (report : ComparisonReport) : ComparisonReport :=
  let report := numberFields.foldl (fun report field =>
    report.pushIf options (field.get l != field.get r)
      ⟨.superblock, field.name, toString (field.get l), toString (field.get r),
        field.significance⟩) report
  let report := report.pushIf options (l.uuid != r.uuid)
    ⟨.superblock, "uuid", uuidString l.uuid, uuidString r.uuid, .identity⟩
  let report := report.pushIf options (l.volumeName != r.volumeName)
    ⟨.superblock, "volume_name", "'" ++ fieldText l.volumeName ++ "'",
      "'" ++ fieldText r.volumeName ++ "'", .structural⟩
  let render (seed : List Nat) : String := "-".intercalate (seed.map (hexDigits 8))
  let report := report.pushIf options (l.hashSeed != r.hashSeed)
    ⟨.superblock, "hash_seed", render l.hashSeed, render r.hashSeed, .identity⟩
  let report := report.pushIf options (l.jnlBlocks != r.jnlBlocks)
    ⟨.superblock, "jnl_blocks", "journal inode backup", "differs", .identity⟩
  report.pushIf options (l.lastMounted != r.lastMounted)
    ⟨.superblock, "last_mounted", fieldText l.lastMounted, fieldText r.lastMounted, .incidental⟩

/-! ## What is compared -/

/-- A superblock without what the comparison does not look at: the fields the list leaves out,
    and the feature bits without a name. -/
def compared (sb : Superblock) : Superblock :=
  let known := (featureMasks sb).known
  { sb with
    featureCompat := known.compat
    featureIncompat := known.incompat
    featureRoCompat := known.roCompat
    blockGroupNr := 0
    algorithmUsageBitmap := 0
    preallocBlocks := 0
    preallocDirBlocks := 0
    journalUuid := []
    encryptionLevel := 0
    snapshotInum := 0
    snapshotId := 0
    snapshotRBlocksCount := 0
    snapshotList := 0
    firstErrorTime := 0
    firstErrorIno := 0
    firstErrorBlock := 0
    firstErrorFunc := []
    firstErrorLine := 0
    lastErrorTime := 0
    lastErrorIno := 0
    lastErrorLine := 0
    lastErrorBlock := 0
    lastErrorFunc := []
    firstErrorErrcode := 0
    lastErrorErrcode := 0
    mountOpts := []
    backupBgs := []
    encryptAlgos := []
    encryptPwSalt := [] }

/-- The report of two superblocks, with everything asked for. -/
def compareSuperblocks (l r : Superblock) : ComparisonReport :=
  compareSuperblock l r .everything (compareFeatures l r .everything {})

theorem everything_wants (s : Significance) : CompareOptions.everything.wants s = true := by
  cases s <;> rfl

theorem pushIf_everything_nil_iff {report : ComparisonReport} {found : Bool} {d : Difference} :
    (report.pushIf .everything found d).differences = [] ↔
      report.differences = [] ∧ found = false :=
  ComparisonReport.pushIf_nil_iff (everything_wants _) rfl

/-- Features are compared by name, so the bits without one are not. -/
theorem compareFeatures_nil_iff {l r : Superblock} :
    (compareFeatures l r .everything {}).differences = [] ↔
      (featureMasks l).known = (featureMasks r).known := by
  have hparts : ∀ a b : FeatureMasks,
      (∀ name ∈ (specParts a).filter (· ≠ ""), name ∈ specParts b) ↔
        ∀ name ∈ a.specNames, name ∈ b.specNames := by
    intro a b
    constructor
    · intro h name hn
      obtain ⟨hne, hmem⟩ := mem_specParts.mpr hn
      exact mem_specParts.mp ⟨hne, h name (List.mem_filter.mpr ⟨hmem, decide_eq_true hne⟩)⟩
    · intro h name hn
      obtain ⟨hmem, hne⟩ := List.mem_filter.mp hn
      exact (mem_specParts.mpr (h name (mem_specParts.mp ⟨of_decide_eq_true hne, hmem⟩))).2
  unfold compareFeatures
  dsimp only
  rw [ComparisonReport.pushMissing_nil_iff rfl, ComparisonReport.pushMissing_nil_iff rfl, hparts,
    hparts, FeatureMasks.known_eq_iff, ← FeatureMasks.specNames_eq_iff]
  exact ⟨fun h => ⟨h.1.2, h.2⟩, fun h => ⟨⟨rfl, h.1⟩, h.2⟩⟩

/-- Superblocks agree on what is compared when they agree on each part of it. -/
theorem compared_eq_iff {l r : Superblock} :
    compared l = compared r ↔ (featureMasks l).known = (featureMasks r).known ∧
      (∀ field ∈ numberFields, field.get l = field.get r) ∧ l.uuid = r.uuid ∧
      l.volumeName = r.volumeName ∧ l.hashSeed = r.hashSeed ∧ l.jnlBlocks = r.jnlBlocks ∧
      l.lastMounted = r.lastMounted := by
  simp only [compared, Superblock.mk.injEq, FeatureMasks.known, FeatureMasks.mk.injEq,
    featureMasks, numberFields, List.forall_mem_cons, List.not_mem_nil, IsEmpty.forall_iff,
    implies_true, and_true, Int.natCast_inj]
  constructor <;> intro h <;> simp only [h, and_self]

/-- Nothing is reported exactly when the superblocks agree on what is compared. -/
theorem report_nil_iff {l r : Superblock} :
    (compareSuperblocks l r).differences = [] ↔ compared l = compared r := by
  have hfields : ∀ report : ComparisonReport, (numberFields.foldl (fun report field =>
      report.pushIf .everything (field.get l != field.get r)
        ⟨.superblock, field.name, toString (field.get l), toString (field.get r),
          field.significance⟩) report).differences = [] ↔
      report.differences = [] ∧ ∀ field ∈ numberFields, ¬field.get l ≠ field.get r := by
    intro report
    refine ComparisonReport.foldl_nil_iff fun field _ report => ?_
    rw [pushIf_everything_nil_iff, bne_eq_false_iff_eq, not_ne_iff]
  unfold compareSuperblocks compareSuperblock
  dsimp only
  rw [pushIf_everything_nil_iff, pushIf_everything_nil_iff, pushIf_everything_nil_iff,
    pushIf_everything_nil_iff, pushIf_everything_nil_iff, hfields, compareFeatures_nil_iff,
    compared_eq_iff]
  simp only [bne_eq_false_iff_eq, not_ne_iff, and_assoc]

/-- The comparison reports something for two superblocks that differ, and nothing for two that
    are the same, exactly when they do not differ in what is not compared alone. -/
theorem compare_superblocks_exact_iff (l r : Superblock) :
    ((l ≠ r → (compareSuperblocks l r).differences ≠ []) ∧
        (l = r → (compareSuperblocks l r).differences = [])) ↔
      (compared l = compared r → l = r) := by
  rw [Ne, Ne, not_imp_not, report_nil_iff]
  refine ⟨And.left, fun h => ⟨h, ?_⟩⟩
  rintro rfl
  rfl

/-- A buffer with the magic and a revision in it, and nothing else. -/
def bareBuf : List UInt8 :=
  putU32 (putU16 (List.replicate superblockLen 0) 0x38 ext2SuperMagic) 0x4c 1

/-- The same with mount options in it. -/
def mountOptsBuf : List UInt8 := putBytes bareBuf 0x200 64 [0x72, 0x6f]

/-- Both decode, they differ, and nothing is reported. -/
theorem mount_opts_not_compared :
    ∃ l r, Superblock.decode bareBuf = .ok l ∧
      Superblock.decode mountOptsBuf = .ok r ∧ l ≠ r ∧
      (compareSuperblocks l r).differences = [] := by
  have h : ((Superblock.decode bareBuf).toOption.bind fun l =>
      (Superblock.decode mountOptsBuf).toOption.map fun r =>
        (l.mountOpts != r.mountOpts && (compareSuperblocks l r).differences.isEmpty)) =
      some true := by decide +kernel
  cases hl : Superblock.decode bareBuf with
  | error e =>
    rw [hl] at h
    cases h
  | ok l =>
    cases hr : Superblock.decode mountOptsBuf with
    | error e =>
      rw [hl, hr] at h
      cases h
    | ok r =>
      rw [hl, hr] at h
      obtain ⟨hne, hnil⟩ := Bool.and_eq_true_iff.mp (Option.some.inj h)
      refine ⟨l, r, rfl, rfl, fun heq => ?_, List.isEmpty_iff.mp hnil⟩
      rw [heq] at hne
      simp at hne

end MkfsExt4.Compare
