/-
  A check that may not write does not.

  Without `repair` and `preen` a check still changes the superblock in memory: the journal
  stage marks errors there. `Keeps (·.device)` is the property of a command that however it
  ends, the device is as it was. It is shown for the journal stage, for `prepare` and for pass 5,
  each under `options.writes = false`, and from them for the whole check
  (`check_readOnly_device`).
-/
import MkfsExt4.Fsck.Check

namespace MkfsExt4.Fsck

open Lib.Endian Lib.Hoare Filesystem

variable {α : Type}

theorem reading_keeps {τ : Type} (p : Filesystem → τ) (f : Filesystem → Except Failure α) :
    Keeps p (reading f) := by
  unfold reading
  refine keeps_bind keeps_get fun fs => ?_
  cases f fs with
  | ok a => exact keeps_pure a
  | error e => exact keeps_throw e

theorem setState_keeps (f : Nat → Nat) : Keeps Filesystem.device (setState f) :=
  keeps_modify fun _ => rfl

/-! ## The journal -/

theorem readBlock_keeps (block : Nat) : Keeps id (Jbd2.readBlock block) := by
  unfold Jbd2.readBlock
  refine keeps_bind keeps_get fun fs => ?_
  dsimp only
  split
  · exact keeps_throw _
  · split
    · exact keeps_throw _
    · exact keeps_pure _

theorem openAt_keeps (size : Nat) (walk : List (Nat × Nat)) :
    Keeps id (Jbd2.openAt size walk) := by
  unfold Jbd2.openAt
  refine keeps_bind keeps_get fun fs => ?_
  dsimp only
  split
  · exact keeps_pure _
  · split
    · exact keeps_pure _
    · exact keeps_bind (readBlock_keeps _) fun raw => keeps_pure _

theorem onJournal_keeps {m : Jbd2.FsM α} (h : Keeps id m) : Keeps id (onJournal m) := by
  refine keeps_iff_wp.mpr fun fs => ?_
  have hview := h ⟨fs.device, fs.blockSize, fs.superblock.blocksCount⟩
  unfold onJournal
  simp only [wp_bind, wp_get]
  rcases hr : exec m ⟨fs.device, fs.blockSize, fs.superblock.blocksCount⟩ with ⟨_ | a, view⟩
  all_goals
    rw [hr] at hview
    obtain rfl : view = _ := hview
    exact rfl

/-- Opening the journal reads. -/
theorem openJournal_keeps : Keeps id openJournal := by
  unfold openJournal
  refine keeps_bind keeps_get fun fs => ?_
  dsimp only
  split
  · exact keeps_pure _
  split
  · exact keeps_pure _
  split
  · exact keeps_pure _
  split
  · exact keeps_pure _
  refine keeps_bind (reading_keeps _ _) fun inode => ?_
  split
  · exact keeps_pure _
  refine keeps_bind (reading_keeps _ _) fun _ => ?_
  split
  · exact keeps_pure _
  · exact keeps_throw _
  · exact onJournal_keeps (openAt_keeps _ _)

variable {options : FsckOptions}

/-- An open journal is neither replayed nor touched by a run that may not write. -/
theorem openedJournal_keeps (hw : options.writes = false) (fuel : Nat) (recover : Bool)
    (journal : Jbd2.Journal) (report : FsckReport) :
    Keeps Filesystem.device (openedJournal fuel options recover journal report) := by
  have hpreen : options.preen = false := (Bool.or_eq_false_iff.mp hw).2
  have hmark : ∀ (b : Bool) (r : FsckReport), Keeps Filesystem.device (do
      setState (withBits State.errorFs)
      return (b, r) : FsM (Bool × FsckReport)) :=
    fun b r => keeps_bind (setState_keeps _) fun _ => keeps_pure _
  unfold openedJournal
  simp only [hw, hpreen, Bool.false_eq_true, and_false, if_false, Bool.not_false, and_true,
    if_true]
  split
  · exact keeps_pure _
  split
  · split
    · exact hmark _ _
    · exact keeps_pure _
  split
  · exact hmark _ _
  · exact keeps_pure _

theorem journalStage_keeps (hw : options.writes = false) (fuel : Nat) (report : FsckReport) :
    Keeps Filesystem.device (journalStage fuel options report) := by
  unfold journalStage
  refine keeps_bind keeps_get fun fs => ?_
  simp only [hw, Bool.false_eq_true, if_false, Bool.not_false, if_true]
  split
  · split <;> exact keeps_pure _
  refine keeps_bind openJournal_keeps.part fun opened => ?_
  split
  · exact openedJournal_keeps hw fuel _ _ _
  · split <;> exact keeps_pure _

/-! ## The rest of the check -/

theorem skip_keeps (hw : options.writes = false) (now : Nat) (report : FsckReport) :
    Keeps Filesystem.device (skip options now report) := by
  unfold skip
  simp only [hw, Bool.false_eq_true, if_false]
  exact keeps_bind keeps_get fun fs => keeps_pure _

theorem prepare_keeps (hw : options.writes = false) (fuel now : Nat) :
    Keeps Filesystem.device (prepare fuel options now) := by
  unfold prepare
  refine keeps_bind (journalStage_keeps hw fuel _) fun r => ?_
  refine keeps_bind keeps_get fun fs => ?_
  split
  · exact keeps_pure _
  refine keeps_bind (reading_keeps _ _) fun f => ?_
  simp only [hw, Bool.false_eq_true, false_and, if_false]
  split
  · exact keeps_bind (keeps_pure _) fun _ => keeps_pure _
  · refine keeps_bind (keeps_pure _) fun report => ?_
    refine keeps_bind (reading_keeps _ _) fun due => ?_
    split
    · exact keeps_pure _
    · exact keeps_bind (skip_keeps hw now _) fun _ => keeps_pure _

theorem fixBitmap_keeps (code : Code) (message : String) (block : Nat)
    (actual expected : List UInt8) (report : FsckReport) :
    Keeps Filesystem.device (fixBitmap false code message block actual expected report) := by
  unfold fixBitmap
  split <;> exact keeps_pure _

theorem pass5Group_keeps (state : ScanState) (t : Totals) (group : Nat) :
    Keeps Filesystem.device (pass5Group false state t group) := by
  unfold pass5Group
  refine keeps_bind keeps_get fun fs => ?_
  refine keeps_bind (reading_keeps _ _) fun actual => ?_
  refine keeps_bind (reading_keeps _ _) fun desc => ?_
  refine keeps_bind (fixBitmap_keeps _ _ _ _ _ _) fun report => ?_
  refine keeps_bind (reading_keeps _ _) fun _ => ?_
  refine keeps_bind (reading_keeps _ _) fun actualInodes => ?_
  refine keeps_bind (fixBitmap_keeps _ _ _ _ _ _) fun report' => ?_
  exact keeps_pure _

theorem pass5Bitmaps_keeps (f : Findings) :
    Keeps Filesystem.device (pass5Bitmaps false f) := by
  unfold pass5Bitmaps
  refine keeps_bind keeps_get fun fs => ?_
  exact keeps_bind (keeps_foldlM (pass5Group_keeps f.state) _ _) fun t => keeps_pure _

theorem passes_keeps (hw : options.writes = false) (now : Nat) (f : Findings) :
    Keeps Filesystem.device (passes options now f) := by
  have hpreen : options.preen = false := (Bool.or_eq_false_iff.mp hw).2
  unfold passes
  refine keeps_bind (reading_keeps _ _) fun r => ?_
  simp only [hpreen, Bool.false_eq_true, false_and, if_false]
  unfold repairs
  simp only [hw, Bool.false_eq_true, if_false]
  exact keeps_bind (pass5Bitmaps_keeps _) fun _ => keeps_pure _

theorem checkOpened_keeps (hw : options.writes = false) (fuel now : Nat) :
    Keeps Filesystem.device (checkOpened fuel options now) := by
  unfold checkOpened
  refine keeps_bind (prepare_keeps hw fuel now) fun r => ?_
  split
  · exact keeps_pure _
  · exact passes_keeps hw now _

/-- A check that neither repairs nor preens leaves every byte of the device as it was,
    whatever the image, and whether it ends in a report or in an error. -/
theorem check_readOnly_device (fuel : Nat) (options : FsckOptions) (now : Nat) (device : Device)
    (hrepair : options.repair = false) (hpreen : options.preen = false) :
    (check fuel options now device).2 = device := by
  have hw : options.writes = false := by simp [FsckOptions.writes, hrepair, hpreen]
  unfold check
  split
  · rfl
  · next fs hopen =>
    have hdev := checkOpened_keeps hw fuel now fs
    rw [(openOn_opened hopen).device] at hdev
    exact hdev

/-- 16 blocks of 1 KiB and 16 inodes: an empty root in block 13, a journal with a transaction to
    replay in blocks 7 to 11, an orphan of one block on the list, and both bitmaps clear. -/
def leftImage : Device := .ofChunks 16384
  [(1024, toLe 4 16 ++ toLe 4 16), (1024 + 0x14, [1]), (1024 + 0x21, [0x20]),
    (1024 + 0x28, [16]), (1024 + 0x38, [0x53, 0xef]), (1024 + 0x5c, [4, 0, 0, 0, 4]),
    (1024 + 0xe0, [8]), (1024 + 0xe8, [12]), (2048, [3, 0, 0, 0, 4, 0, 0, 0, 5]),
    (5 * 1024 + 128, [0xed, 0x41, 0, 0, 0, 4]), (5 * 1024 + 128 + 0x1a, [2, 0, 2]),
    (5 * 1024 + 128 + 0x28, [13]),
    (5 * 1024 + 7 * 128, [0x80, 0x81, 0, 0, 0, 20]), (5 * 1024 + 7 * 128 + 0x1a, [1, 0, 10]),
    (5 * 1024 + 7 * 128 + 0x28, [7, 8, 9, 10, 11].flatMap (toLe 4)),
    (6 * 1024 + 3 * 128, [0xa4, 0x81, 0, 0, 0, 4]), (6 * 1024 + 3 * 128 + 0x1c, [2]),
    (6 * 1024 + 3 * 128 + 0x28, [12]),
    (7 * 1024, [0xc0, 0x3b, 0x39, 0x98, 0, 0, 0, 4, 0, 0, 0, 0, 0, 0, 4, 0, 0, 0, 0, 5, 0, 0, 0, 1,
      0, 0, 0, 1, 0, 0, 0, 1]),
    (8 * 1024, [0xc0, 0x3b, 0x39, 0x98, 0, 0, 0, 1, 0, 0, 0, 1, 0, 0, 0, 14, 0, 0, 0, 11]),
    (9 * 1024 + 4, [7]),
    (10 * 1024, [0xc0, 0x3b, 0x39, 0x98, 0, 0, 0, 2, 0, 0, 0, 1]),
    (13 * 1024, toLe 4 2 ++ [12, 0, 1, 2, 0x2e, 0, 0, 0] ++ toLe 4 2 ++
      [0xf4, 3, 2, 2, 0x2e, 0x2e])]

theorem leftImage_found : (check 0 .checkOnly 0 leftImage).1.toOption.map
    (fun r => r.problems.map Problem.code) = some [.journalRecoverySkipped, .blockBitmapDiffers,
      .inodeBitmapDiffers, .groupFreeBlocksWrong, .groupFreeInodesWrong, .groupDirCountWrong,
      .superblockFreeBlocksWrong, .superblockFreeInodesWrong] := by
  decide +kernel

/-- All of it is told, and nothing done about it. -/
theorem check_readOnly_left : ∃ r, check 0 .checkOnly 0 leftImage = (.ok r, leftImage) ∧
    r.problems.map Problem.code = [.journalRecoverySkipped, .blockBitmapDiffers,
      .inodeBitmapDiffers, .groupFreeBlocksWrong, .groupFreeInodesWrong, .groupDirCountWrong,
      .superblockFreeBlocksWrong, .superblockFreeInodesWrong] := by
  have hdev := check_readOnly_device 0 .checkOnly 0 leftImage rfl rfl
  obtain ⟨r, hr, hcodes⟩ := Option.map_eq_some_iff.mp leftImage_found
  refine ⟨r, Prod.ext ?_ hdev, hcodes⟩
  cases hrun : (check 0 .checkOnly 0 leftImage).1 with
  | error e =>
    rw [hrun] at hr
    cases hr
  | ok r' =>
    rw [hrun] at hr
    exact congrArg Except.ok (Option.some.inj hr)

end MkfsExt4.Fsck
