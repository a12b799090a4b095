/-
  What a check leaves of the record of orphans on a bigalloc filesystem.

  There the orphans are left for the kernel: no inode, bitmap or slot is written. The head
  of the chain is cleared in memory before the feature is looked at, and the superblock is
  written on the way out, so the record outlives the release exactly if the chain was empty,
  or the superblock could not be written. The rest of a check writes the superblock with the
  orphans it has in memory, and nothing else of the record unless that is where it writes
  (`RecordApart`), so past the journal the same holds of a whole check
  (`bigalloc_record_iff`). `bigalloc_loses_chain` is an image that a release leaves without its
  chain.
-/
import MkfsExt4.Fsck.Footprint

namespace MkfsExt4

open Lib.Store Lib.Hoare Lib.Endian Lib.Record

/-! ## The record on the device -/

/-- Both devices record the same orphans: the head of the chain and `ORPHAN_PRESENT` in the
    superblock, and every byte outside it, where the links and the slots of the orphan file
    are. -/
structure SameRecord (d d' : Device) : Prop where
  head : storedLastOrphan d' = storedLastOrphan d
  present : storedOrphanPresent d' = storedOrphanPresent d
  elsewhere : ∀ p, p < superblockOffset ∨ superblockOffset + superblockLen ≤ p →
    d'.bytes p = d.bytes p

theorem SameRecord.refl (d : Device) : SameRecord d d := ⟨rfl, rfl, fun _ _ => rfl⟩

namespace Filesystem

variable {fs fs' : Filesystem}

/-- The inodes of the chain, each linked from the one before by its `i_dtime`. -/
inductive Chained (fs : Filesystem) : Nat → Prop
  | head : fs.superblock.lastOrphan ≠ 0 → Chained fs fs.superblock.lastOrphan
  | link {inum : Nat} {inode : Inode} : Chained fs inum → fs.readInode inum = .ok inode →
      inode.dtime ≠ 0 → Chained fs inode.dtime

/-- `p` is a byte of the link of an inode of the chain. -/
def InLinks (fs : Filesystem) (p : Nat) : Prop :=
  ∃ inum group block offset, fs.Chained inum ∧
    fs.inodeLocation inum = .ok (group, block, offset) ∧
    Within (block * fs.blockSize + offset + 0x14) 4 p

/-- `p` is a byte of a block of the orphan file. -/
def InSlots (fs : Filesystem) (p : Nat) : Prop :=
  fs.superblock.orphanFileInum ≠ 0 ∧ ∃ file, fs.readInode fs.superblock.orphanFileInum = .ok file ∧
    ∃ ref ∈ (fs.walkBlocks file).1, ref.kind = .data ∧
      Within (ref.physical * fs.blockSize) fs.blockSize p

/-- The device holds the record of `fs`: the head of the chain, `ORPHAN_PRESENT`, the links and
    the slots. -/
structure RecordKept (fs : Filesystem) (d : Device) : Prop where
  head : storedLastOrphan d = storedLastOrphan fs.device
  present : storedOrphanPresent d = storedOrphanPresent fs.device
  links : ∀ p, fs.InLinks p → d.bytes p = fs.device.bytes p
  slots : ∀ p, fs.InSlots p → d.bytes p = fs.device.bytes p

theorem RecordKept.refl (fs : Filesystem) : fs.RecordKept fs.device :=
  ⟨rfl, rfl, fun _ _ => rfl, fun _ _ => rfl⟩

/-- Nothing but the superblock is written over the superblock, and nothing over the links and
    the slots. -/
structure RecordApart (fs : Filesystem) : Prop where
  superblock : fs.Apart
  links : ∀ p, fs.InLinks p → fs.LeftAlone p ∧ ¬Within superblockOffset superblockLen p
  slots : ∀ p, fs.InSlots p → fs.LeftAlone p ∧ ¬Within superblockOffset superblockLen p

/-- A later state keeps the record exactly if the head of the chain is what it was. -/
theorem Follows.recordKept_iff {cur : Filesystem} {n : Nat} (h : Follows fs n cur)
    (hapart : fs.RecordApart) (hpresent : storedOrphanPresent fs.device =
      fs.superblock.featureRoCompat.contains RoCompatFeatures.orphanPresent) :
    fs.RecordKept cur.device ↔ n = storedLastOrphan fs.device := by
  constructor
  · exact fun hkept => h.head.symm.trans hkept.head
  · intro hn
    exact {
      head := h.head.trans hn
      present := h.present.trans hpresent.symm
      links := fun p hp => h.bytes p (hapart.links p hp).1 (hapart.links p hp).2
      slots := fun p hp => h.bytes p (hapart.slots p hp).1 (hapart.slots p hp).2 }

/-- The device holds the orphans that the superblock in memory records. -/
structure Recorded (fs : Filesystem) : Prop where
  head : storedLastOrphan fs.device = fs.superblock.lastOrphan % 2 ^ 32
  present : storedOrphanPresent fs.device =
    fs.superblock.featureRoCompat.contains RoCompatFeatures.orphanPresent

theorem Opened.recorded {dev : Device} (h : Opened dev fs) : fs.Recorded := by
  obtain ⟨hhead, hro⟩ := Superblock.decode_orphans h.superblock
  rw [← h.device] at hhead hro
  constructor
  · rw [hhead, storedLastOrphan, Nat.mod_eq_of_lt (getU32_lt _ _)]
  · rw [hro]
    rfl

theorem Recorded.follows (h : fs.Recorded) : Follows fs (storedLastOrphan fs.device) fs :=
  ⟨rfl, h.head.symm, rfl, h.present, fun _ _ _ => rfl⟩

theorem endsIn_recorded : EndsIn Recorded flushSuperblock := by
  intro fs _ fs' h
  rcases exec_flushSuperblock_cases fs with ⟨-, heq⟩ | ⟨-, e, heq⟩
  · rw [heq] at h
    cases h
    exact ⟨(synced_orphans fs).1, (synced_orphans fs).2⟩
  · rw [heq] at h
    cases h

end Filesystem

/-! ## The release on a bigalloc filesystem -/

namespace Fsck

open Filesystem Orphan

/-- `d` holds the record of `dev` with its chain dropped. -/
structure ChainDropped (dev d : Device) : Prop where
  head : storedLastOrphan d = 0
  present : storedOrphanPresent d = storedOrphanPresent dev
  elsewhere : ∀ p, p < superblockOffset ∨ superblockOffset + superblockLen ≤ p →
    d.bytes p = dev.bytes p

theorem ChainDropped.same_iff {dev d : Device} (h : ChainDropped dev d) :
    SameRecord dev d ↔ storedLastOrphan dev = 0 := by
  constructor
  · exact fun hs => hs.head.symm.trans h.head
  · exact fun hhead => ⟨h.head.trans hhead.symm, h.present, h.elsewhere⟩

variable {dev : Device} {fs fs' : Filesystem}

/-- The filesystem with the chain dropped in memory, and bits of the state cleared. -/
def dropChain (fs : Filesystem) (state : Nat) : Filesystem :=
  { fs with superblock := { fs.superblock with lastOrphan := 0, state } }

/-- Flushing the superblock with the chain dropped drops it on the device. -/
theorem synced_chainDropped (hrec : fs.Recorded) {d : Device} (state : Nat)
    (hd : ∀ p, p < superblockOffset ∨ superblockOffset + superblockLen ≤ p →
      d.bytes p = fs.device.bytes p) :
    ChainDropped fs.device { dropChain fs state with device := d }.synced.device := by
  obtain ⟨hhead, hpresent⟩ := synced_orphans { dropChain fs state with device := d }
  refine ⟨hhead, hpresent.trans hrec.present.symm, fun p hp => ?_⟩
  refine Eq.trans ?_ (hd p hp)
  show overlay d.bytes superblockOffset _ p = d.bytes p
  rcases hp with hp | hp
  · exact overlay_of_lt _ _ hp
  · refine overlay_of_ge _ _ ?_
    rw [Superblock.length_encodeInto, length_window]
    exact hp

/-- What a release answers on a bigalloc filesystem. -/
def leftForKernel : OrphanRelease :=
  ({} : OrphanRelease).error "orphans on a bigalloc filesystem are left for the kernel"

section Bigalloc

variable (horphans : hasOrphans fs.superblock = true)
  (hbig : fs.superblock.featureRoCompat.contains RoCompatFeatures.bigalloc = true)
  (herr : fs.superblock.state &&& State.errorFs = 0)

include horphans hbig herr

/-- The release drops the chain in memory, and writes the superblock. -/
theorem exec_releaseOrphans_bigalloc (now : Nat) :
    exec (releaseOrphans now) fs =
      exec (flushSuperblock >>= fun _ => pure leftForKernel)
        (dropChain fs fs.superblock.state) := by
  unfold releaseOrphans
  rw [exec_bind_of_ok (show exec get fs = (.ok fs, fs) from rfl)]
  dsimp only
  rw [horphans, if_neg (by decide), exec_bind_of_ok
    (show exec (modifySuperblock fun sb => { sb with lastOrphan := 0 }) fs =
      (.ok (), dropChain fs fs.superblock.state) from rfl), if_neg (by rw [herr]; decide),
    if_pos hbig]
  rfl

/-- Where the superblock can be read, the chain is dropped on the device. -/
theorem release_drops (hrec : fs.Recorded) (hraw : ∃ raw, fs.readSuperblockRaw = .ok raw)
    (now : Nat) :
    exec (releaseOrphans now) fs = (.ok leftForKernel, (dropChain fs fs.superblock.state).synced) ∧
      ChainDropped fs.device (dropChain fs fs.superblock.state).synced.device := by
  rcases exec_flushSuperblock_cases (dropChain fs fs.superblock.state) with ⟨-, hflush⟩ | ⟨hno, -⟩
  · refine ⟨?_, synced_chainDropped hrec (d := fs.device) _ fun p _ => rfl⟩
    rw [exec_releaseOrphans_bigalloc horphans hbig herr, exec_bind_of_ok hflush]
    rfl
  · exact (hraw.elim hno).elim

/-- Elsewhere nothing is written. -/
theorem release_fails (hraw : ∀ raw, fs.readSuperblockRaw ≠ .ok raw) (now : Nat) :
    ∃ e, exec (releaseOrphans now) fs = (.error e, dropChain fs fs.superblock.state) := by
  rcases exec_flushSuperblock_cases (dropChain fs fs.superblock.state) with
    ⟨hread, -⟩ | ⟨-, e, hflush⟩
  · exact (hread.elim hraw).elim
  · refine ⟨e, ?_⟩
    rw [exec_releaseOrphans_bigalloc horphans hbig herr, exec_bind, hflush]

end Bigalloc

/-- Without orphans there is nothing to release. -/
theorem exec_releaseOrphans_none (horphans : ¬hasOrphans fs.superblock = true) (now : Nat) :
    exec (releaseOrphans now) fs = (.ok {}, fs) := by
  rw [Bool.not_eq_true] at horphans
  unfold releaseOrphans
  rw [exec_bind_of_ok (show exec get fs = (.ok fs, fs) from rfl)]
  dsimp only
  rw [horphans, if_pos (by decide)]
  rfl

theorem lastOrphan_of_none (horphans : ¬hasOrphans fs.superblock = true) :
    fs.superblock.lastOrphan = 0 := by
  unfold hasOrphans at horphans
  by_contra hne
  exact horphans (by rw [decide_eq_true hne, Bool.true_or])

/-- The filesystem marked not valid in memory. -/
def marked (fs : Filesystem) : Filesystem :=
  { fs with superblock := { fs.superblock with
      state := withoutBits State.validFs fs.superblock.state } }

/-- The stage of a release that met errors marks the filesystem, and writes the superblock. -/
theorem orphanStage_state {now : Nat} {r : FsckReport} {out : OrphanRelease}
    (h : exec (releaseOrphans (now % 2 ^ 32)) fs = (.ok out, fs')) (herrors : out.errors ≠ []) :
    (exec (orphanStage now r) fs).2 = (exec flushSuperblock (marked fs')).2 := by
  unfold orphanStage
  rw [exec_bind_of_ok h]
  dsimp only
  rw [if_neg herrors, exec_bind_of_ok
    (show exec (setState (withoutBits State.validFs)) fs' = (.ok (), marked fs') from rfl),
    exec_bind]
  rcases exec flushSuperblock (marked fs') with ⟨e | _, fs1⟩
  · rfl
  · rfl

/-- So does the stage that makes it, which writes the superblock once more, marked not valid. -/
theorem stage_drops (horphans : hasOrphans fs.superblock = true)
    (hbig : fs.superblock.featureRoCompat.contains RoCompatFeatures.bigalloc = true)
    (herr : fs.superblock.state &&& State.errorFs = 0) (hrec : fs.Recorded)
    (hraw : ∃ raw, fs.readSuperblockRaw = .ok raw) (now : Nat) (r : FsckReport) :
    ChainDropped fs.device (exec (orphanStage now r) fs).2.device ∧
      (exec (orphanStage now r) fs).2.layout = fs.layout ∧
      (exec (orphanStage now r) fs).2.superblock.lastOrphan = 0 := by
  obtain ⟨hrelease, hdropped⟩ := release_drops horphans hbig herr hrec hraw (now % 2 ^ 32)
  rw [orphanStage_state hrelease nofun]
  rcases exec_flushSuperblock_cases (marked (dropChain fs fs.superblock.state).synced) with
    ⟨-, hflush⟩ | ⟨-, e, hflush⟩
  · rw [hflush]
    exact ⟨synced_chainDropped hrec _ hdropped.elsewhere, rfl, rfl⟩
  · rw [hflush]
    exact ⟨hdropped, rfl, rfl⟩

/-- Where the superblock cannot be read, the stage fails and writes nothing. -/
theorem stage_fails (horphans : hasOrphans fs.superblock = true)
    (hbig : fs.superblock.featureRoCompat.contains RoCompatFeatures.bigalloc = true)
    (herr : fs.superblock.state &&& State.errorFs = 0)
    (hraw : ∀ raw, fs.readSuperblockRaw ≠ .ok raw) (now : Nat) (r : FsckReport) :
    ∃ e, exec (orphanStage now r) fs = (.error e, dropChain fs fs.superblock.state) := by
  obtain ⟨e, hrelease⟩ := release_fails horphans hbig herr hraw (now % 2 ^ 32)
  refine ⟨e, ?_⟩
  unfold orphanStage
  rw [exec_bind, hrelease]

/-! ## The journal before it -/

/-- The journal stage of a check that writes ends with the superblock in memory stored. -/
theorem openedJournal_recorded {options : FsckOptions} (hwrites : options.writes = true)
    (hrec : fs.Recorded) {fuel : Nat} {recover : Bool} {journal : Jbd2.Journal} {r : FsckReport}
    {out : Bool × FsckReport}
    (h : exec (openedJournal fuel options recover journal r) fs = (.ok out, fs')) :
    fs'.Recorded := by
  have hhalt : ∀ r : FsckReport, EndsIn Recorded (preenHalt r) := fun r =>
    endsIn_then fun _ => endsIn_recorded.map _
  unfold openedJournal at h
  simp only [hwrites, Bool.not_true, Bool.false_eq_true, and_false, if_false, if_true] at h
  split at h
  · exact (hhalt _).map _ _ _ _ h
  · split at h
    · split at h
      · exact endsIn_then (fun _ => endsIn_then fun _ => endsIn_recorded.map _) _ _ _ h
      · obtain ⟨-, rfl⟩ := exec_pure_ok h
        exact hrec
    · exact (replayJournal_endsIn endsIn_recorded _ _ _).map _ _ _ _ h

theorem journalStage_recorded {options : FsckOptions} (hwrites : options.writes = true)
    (hrec : fs.Recorded) {fuel : Nat} {r : FsckReport} {out : Bool × FsckReport}
    (h : exec (journalStage fuel options r) fs = (.ok out, fs')) : fs'.Recorded := by
  have hhalt : ∀ r : FsckReport, EndsIn Recorded (preenHalt r) := fun r =>
    endsIn_then fun _ => endsIn_recorded.map _
  unfold journalStage at h
  obtain ⟨fs0, fs1, hget, h⟩ := exec_bind_ok h
  cases hget
  simp only [hwrites, Bool.not_true, Bool.false_eq_true, if_false, if_true] at h
  split at h
  · split at h
    · obtain ⟨-, rfl⟩ := exec_pure_ok h
      exact hrec
    · exact endsIn_then (fun _ => endsIn_recorded.map _) _ _ _ h
  · obtain ⟨opened, fs1, hopen, h⟩ := exec_bind_ok h
    obtain rfl := openJournal_ok hopen
    split at h
    · exact openedJournal_recorded hwrites hrec h
    · split at h
      · obtain ⟨-, rfl⟩ := exec_pure_ok h
        exact hrec
      · split at h
        · exact (hhalt _).map _ _ _ _ h
        · obtain ⟨-, rfl⟩ := exec_pure_ok h
          exact hrec

/-! ## The whole check -/

/-- The findings that pass 0 starts from, after a journal stage that reported `r`. -/
def foundSoFar (fs : Filesystem) (r : FsckReport) : Findings :=
  { report := { r with
      inodesCount := fs.superblock.inodesCount, blocksCount := fs.superblock.blocksCount }
    state := .new fs }

/-- Whether pass 0 found something that keeps the check from releasing orphans. -/
def hasSerious (f : Findings) : Bool := f.report.problems.any fun p => p.severity = .serious

/-- The check does not stop before the orphans: not after the journal stage, whose answer was
    `stop`, and not for what pass 0 finds. -/
def ReachesOrphans (stop : Bool) (r : FsckReport) (fs : Filesystem) : Prop :=
  stop = false ∧ ∃ f, pass0Superblock fs (foundSoFar fs r) = .ok f ∧ hasSerious f = false

/-- What `prepare` does after the journal stage. -/
def afterJournal (options : FsckOptions) (now : Nat) (stop : Bool) (r : FsckReport) :
    FsM (Except FsckReport Findings) := do
  let fs ← get
  let report := (foundSoFar fs r).report
  if stop then return .error report
  let f ← reading fun fs => pass0Superblock fs { report, state := .new fs }
  let report ←
    if options.writes ∧ !hasSerious f ∧ hasOrphans fs.superblock then orphanStage now f.report
    else pure f.report
  goOn options now f report

/-- How a check ends that is prepared. -/
def ending (options : FsckOptions) (now : Nat) : Except FsckReport Findings → FsM FsckReport
  | .error report => pure report
  | .ok f => passes options now f

variable {options : FsckOptions} {now : Nat} {stop : Bool} {r : FsckReport}

theorem prepare_eq (fuel : Nat) : prepare fuel options now = (do
    let (stop, r) ← journalStage fuel options {}
    afterJournal options now stop r) := by
  unfold prepare afterJournal goOn hasSerious foundSoFar
  rfl

theorem exec_checkOpened_after {fuel : Nat}
    (h : exec (journalStage fuel options {}) fs = (.ok (stop, r), fs')) :
    exec (checkOpened fuel options now) fs =
      exec (afterJournal options now stop r >>= ending options now) fs' := by
  have hprepare : exec (prepare fuel options now) fs =
      exec (afterJournal options now stop r) fs' := by
    rw [prepare_eq, exec_bind_of_ok h]
  unfold checkOpened
  rw [exec_bind, exec_bind, hprepare]
  rcases exec (afterJournal options now stop r) fs' with ⟨e | result, t⟩
  · rfl
  · cases result <;> rfl

/-- The passes, where they are due, keep what follows. -/
theorem ending_follows {n : Nat} (hapart : fs.Apart) (result : Except FsckReport Findings) :
    Preserves (Follows fs n) (ending options now result) := by
  cases result with
  | error => exact preserves_pure _
  | ok f => exact passes_follows hapart _ _ _

/-- A check ends before the orphans, or goes by whether there are any. -/
theorem exec_afterJournal_cases (options : FsckOptions) (now : Nat) (stop : Bool)
    (r : FsckReport) (fs : Filesystem) :
    (exec (afterJournal options now stop r) fs).2 = fs ∧ ¬ReachesOrphans stop r fs ∨
      stop = false ∧ ∃ f, pass0Superblock fs (foundSoFar fs r) = .ok f ∧
        exec (afterJournal options now stop r) fs =
          exec ((if options.writes ∧ !hasSerious f ∧ hasOrphans fs.superblock then
            orphanStage now f.report else pure f.report) >>= goOn options now f) fs := by
  unfold afterJournal
  rw [exec_bind_of_ok (show exec get fs = (.ok fs, fs) from rfl)]
  dsimp only
  cases stop with
  | true => exact Or.inl ⟨rfl, fun hreach => absurd hreach.1 (by decide)⟩
  | false =>
    rw [if_neg Bool.false_ne_true]
    cases hf : pass0Superblock fs (foundSoFar fs r) with
    | error e =>
      refine Or.inl ⟨?_, ?_⟩
      · rw [exec_bind, exec_reading_error hf]
      · rintro ⟨-, f, hok, -⟩
        rw [hf] at hok
        cases hok
    | ok f =>
      refine Or.inr ⟨rfl, f, rfl, ?_⟩
      rw [exec_bind_of_ok (exec_reading hf)]
      split <;> rfl

/-- Past the journal a check of a bigalloc filesystem without recorded errors keeps the record
    exactly if there is no chain, the superblock cannot be read, or the check does not get to the
    orphans. -/
theorem afterJournal_record_iff (hwrites : options.writes = true)
    (hbig : fs.superblock.featureRoCompat.contains RoCompatFeatures.bigalloc = true)
    (herr : fs.superblock.state &&& State.errorFs = 0) (hrec : fs.Recorded)
    (hapart : fs.RecordApart) :
    fs.RecordKept
        (exec (afterJournal options now stop r >>= ending options now) fs).2.device ↔
      storedLastOrphan fs.device = 0 ∨ (∀ raw, fs.readSuperblockRaw ≠ .ok raw) ∨
        ¬ReachesOrphans stop r fs := by
  have hkept : ∀ {n : Nat} {cur : Filesystem}, Follows fs n cur →
      (fs.RecordKept cur.device ↔ n = storedLastOrphan fs.device) := fun h =>
    h.recordKept_iff hapart hrec.present
  have hending : ∀ n result, Preserves (Follows fs n) (ending options now result) :=
    fun _ => ending_follows hapart.superblock
  rcases exec_afterJournal_cases options now stop r fs with ⟨hend, hnot⟩ | ⟨rfl, f, hf, heq⟩
  · refine iff_of_true ((hkept (Preserves.after ?_ (hending _))).mpr rfl) (Or.inr (Or.inr hnot))
    rw [hend]
    exact hrec.follows
  · split at heq
    · next hstage =>
      -- The stage makes a release.
      obtain ⟨-, hserious, horphans⟩ := hstage
      have hreach : ReachesOrphans false r fs := ⟨rfl, f, hf, by simpa using hserious⟩
      by_cases hraw : ∀ raw, fs.readSuperblockRaw ≠ .ok raw
      · obtain ⟨e, hfails⟩ := stage_fails horphans hbig herr hraw now f.report
        refine iff_of_true ?_ (Or.inr (Or.inl hraw))
        rw [exec_bind, heq, exec_bind, hfails]
        exact .refl fs
      · have hread : ∃ raw, fs.readSuperblockRaw = .ok raw := by
          by_contra hno
          exact hraw fun raw heq => hno ⟨raw, heq⟩
        obtain ⟨hdropped, hlayout, hlast⟩ :=
          stage_drops horphans hbig herr hrec hread now f.report
        have hfollows : Follows fs 0 (exec (orphanStage now f.report) fs).2 := {
          layout := hlayout
          last := by rw [hlast]; rfl
          head := hdropped.head
          present := hdropped.present.trans hrec.present
          bytes := fun p _ hout => hdropped.elsewhere p (by unfold Within at hout; omega) }
        have hfinal := Preserves.after (heq ▸ Preserves.after hfollows fun report =>
          goOn_follows options now f report) (hending 0)
        rw [hkept hfinal]
        constructor
        · exact fun hzero => Or.inl hzero.symm
        · rintro (hzero | hno | hno)
          · exact hzero.symm
          · exact absurd hno hraw
          · exact absurd hreach hno
    · next hnone =>
      -- There is nothing to release, or something serious is in the way.
      have hfinal := Preserves.after (heq ▸ Preserves.after (m := pure f.report) hrec.follows
        fun report => goOn_follows options now f report) (hending _)
      refine iff_of_true ((hkept hfinal).mpr rfl) ?_
      by_cases horphans : hasOrphans fs.superblock = true
      · refine Or.inr (Or.inr ?_)
        rintro ⟨-, f', hf', hserious⟩
        rw [hf] at hf'
        obtain rfl := Except.ok.inj hf'
        exact hnone ⟨hwrites, by simp [hserious], horphans⟩
      · refine Or.inl ?_
        rw [hrec.head, lastOrphan_of_none horphans]
        rfl

/-- On a bigalloc filesystem without recorded errors, a release of orphans, and the stage of a
    writing check that makes one, leave the record of orphans on the device as it was exactly
    if the chain is empty, or the block of the superblock cannot be read. From what its journal
    stage left, a whole check does exactly if that holds or it does not get to the orphans, where
    nothing it writes lands on the record. -/
theorem bigalloc_record_iff (hopen : openOn dev = .ok fs)
    (hbig : fs.superblock.featureRoCompat.contains RoCompatFeatures.bigalloc = true)
    (herr : fs.superblock.state &&& State.errorFs = 0) (now : Nat) (r : FsckReport) :
    (SameRecord dev (exec (releaseOrphans now) fs).2.device ↔
        fs.superblock.lastOrphan = 0 ∨ ∀ raw, fs.readSuperblockRaw ≠ .ok raw) ∧
      (SameRecord dev (exec (orphanStage now r) fs).2.device ↔
        fs.superblock.lastOrphan = 0 ∨ ∀ raw, fs.readSuperblockRaw ≠ .ok raw) ∧
      ∀ (fuel : Nat) (options : FsckOptions) (stop : Bool) (r1 : FsckReport) (fs1 : Filesystem),
        options.writes = true →
        exec (journalStage fuel options {}) fs = (.ok (stop, r1), fs1) →
        fs1.superblock.featureRoCompat.contains RoCompatFeatures.bigalloc = true →
        fs1.superblock.state &&& State.errorFs = 0 → fs1.RecordApart →
        (fs1.RecordKept (check fuel options now dev).2 ↔
          storedLastOrphan fs1.device = 0 ∨ (∀ raw, fs1.readSuperblockRaw ≠ .ok raw) ∨
            ¬ReachesOrphans stop r1 fs1) := by
  have hopened := openOn_opened hopen
  have hrec := hopened.recorded
  have hsame : SameRecord dev fs.device := hopened.device ▸ SameRecord.refl dev
  have hchain : storedLastOrphan dev = 0 ↔ fs.superblock.lastOrphan = 0 := by
    rw [(Superblock.decode_orphans hopened.superblock).1]
    exact Iff.rfl
  refine ⟨?_, ?_, ?_⟩
  · by_cases horphans : hasOrphans fs.superblock = true
    · by_cases hraw : ∀ raw, fs.readSuperblockRaw ≠ .ok raw
      · obtain ⟨e, hrelease⟩ := release_fails horphans hbig herr hraw now
        rw [hrelease]
        exact iff_of_true hsame (Or.inr hraw)
      · obtain ⟨hrelease, hdropped⟩ := release_drops horphans hbig herr hrec
          (by simpa using hraw) now
        rw [hopened.device] at hdropped
        rw [hrelease, hdropped.same_iff, or_iff_left hraw, hchain]
    · rw [exec_releaseOrphans_none horphans]
      exact iff_of_true hsame (Or.inl (lastOrphan_of_none horphans))
  · by_cases horphans : hasOrphans fs.superblock = true
    · by_cases hraw : ∀ raw, fs.readSuperblockRaw ≠ .ok raw
      · obtain ⟨e, hstage⟩ := stage_fails horphans hbig herr hraw now r
        rw [hstage]
        exact iff_of_true hsame (Or.inr hraw)
      · obtain ⟨hdropped, -, -⟩ := stage_drops horphans hbig herr hrec
          (by simpa using hraw) now r
        rw [hopened.device] at hdropped
        rw [hdropped.same_iff, or_iff_left hraw, hchain]
    · unfold orphanStage
      rw [exec_bind_of_ok (exec_releaseOrphans_none horphans _)]
      exact iff_of_true hsame (Or.inl (lastOrphan_of_none horphans))
  · intro fuel options stop r1 fs1 hwrites hjournal hbig1 herr1 hapart
    have hcheck : (check fuel options now dev).2 =
        (exec (afterJournal options now stop r1 >>= ending options now) fs1).2.device := by
      unfold check
      rw [hopen, ← exec_checkOpened_after hjournal]
    rw [hcheck]
    exact afterJournal_record_iff hwrites hbig1 herr1 (journalStage_recorded hwrites hrec hjournal)
      hapart

/-! ### An image whose orphans are left for the kernel -/

/-- 16 blocks of 1 KiB and 8 inodes on a bigalloc filesystem with `ORPHAN_PRESENT`: the chain
    starts at `head`, and the orphan file, inode 5, has a slot in block 7. -/
def chainImage (head : UInt8) : Device := .ofChunks 16384
  [(1024, toLe 4 8 ++ toLe 4 16), (1024 + 0x14, [1]), (1024 + 0x21, [0x20]),
    (1024 + 0x28, [8]), (1024 + 0x38, [0x53, 0xef, 1]), (1024 + 0x64, [0, 2, 1]),
    (1024 + 0xe8, [head]), (1024 + 0x280, [5]), (2048, [3, 0, 0, 0, 4, 0, 0, 0, 5]),
    (5 * 1024 + 128 + 0x1c, [2]), (5 * 1024 + 128, dirInode 6),
    (5 * 1024 + 4 * 128, toLe 2 0x81a4 ++ [0, 0] ++ toLe 4 1024),
    (5 * 1024 + 4 * 128 + 0x1a, [1]), (5 * 1024 + 4 * 128 + 0x28, [7]),
    (6 * 1024, dirBlock 2 2), (7 * 1024, [8])]

/-- What a release goes by, and where a check writes. -/
structure RecordFacts where
  (orphans bigalloc journal recover readable : Bool)
  (errors lastOrphan orphanFile blockSize inodeSize inodesPerGroup gdtBlocks : Nat)
  places : List (Nat × Nat × Nat)
  copyBlocks : List Nat
  slots : Option (List Nat)
deriving DecidableEq

def recordFacts (fs : Filesystem) : RecordFacts where
  orphans := hasOrphans fs.superblock
  bigalloc := fs.superblock.featureRoCompat.contains RoCompatFeatures.bigalloc
  journal := fs.superblock.featureCompat.contains CompatFeatures.hasJournal
  recover := fs.superblock.featureIncompat.contains IncompatFeatures.recover
  readable := fs.readSuperblockRaw.toBool
  errors := fs.superblock.state &&& State.errorFs
  lastOrphan := fs.superblock.lastOrphan
  orphanFile := fs.superblock.orphanFileInum
  blockSize := fs.blockSize
  inodeSize := fs.superblock.inodeSize
  inodesPerGroup := fs.superblock.inodesPerGroup
  gdtBlocks := fs.superblock.gdtBlocks
  places := fs.groupDescs.map (·.places)
  copyBlocks := (fs.copies false).map fs.copyBlock
  slots := (fs.readInode fs.superblock.orphanFileInum).toOption.map fun file =>
    ((fs.walkBlocks file).1.filter (·.kind = .data)).map (·.physical)

/-- The facts of the image with the chain `head`. -/
def chainFacts (head : Nat) : RecordFacts where
  orphans := true
  bigalloc := true
  journal := false
  recover := false
  readable := true
  errors := 0
  lastOrphan := head
  orphanFile := 5
  blockSize := 1024
  inodeSize := 128
  inodesPerGroup := 8
  gdtBlocks := 1
  places := [(3, 4, 5)]
  copyBlocks := [2]
  slots := some [7]

theorem ok_of_toOption {α : Type} {x : Except Failure α} {a : α} (h : x.toOption = some a) :
    x = .ok a := by
  cases x with
  | error e => cases h
  | ok b => exact congrArg _ (Option.some.inj h)

theorem chainImage_facts :
    (openOn (chainImage 0)).toOption.map recordFacts = some (chainFacts 0) ∧
      (openOn (chainImage 12)).toOption.map recordFacts = some (chainFacts 12) := by
  decide +kernel

/-- An inode lies in the table of a group. -/
theorem inodeLocation_start {inum group block offset : Nat}
    (h : fs.inodeLocation inum = .ok (group, block, offset)) :
    ∃ place ∈ fs.groupDescs.map (·.places), ∃ k < fs.superblock.inodesPerGroup,
      block * fs.blockSize + offset =
        place.2.2 * fs.blockSize + k * fs.superblock.inodeSize := by
  unfold inodeLocation at h
  dsimp only at h
  split at h
  · cases h
  obtain ⟨hgeometry, h⟩ := panicIf_bind_ok_iff.mp h
  split at h
  · cases h
  · next desc hdesc =>
    obtain ⟨-, h⟩ := panicIf_bind_ok_iff.mp h
    obtain ⟨-, hplace⟩ := Prod.mk.inj (Except.ok.inj h)
    obtain ⟨rfl, rfl⟩ := Prod.mk.inj hplace
    refine ⟨desc.places, List.mem_map_of_mem (List.mem_of_getElem? hdesc),
      (inum - 1) % fs.superblock.inodesPerGroup, Nat.mod_lt _ (by omega), ?_⟩
    rw [Nat.add_mul, Nat.add_assoc]
    exact congrArg _ (Nat.div_add_mod' _ fs.superblock.blockSize)

/-- In the image, the superblock and block 7 are left alone. -/
theorem chain_leftAlone {head : Nat} (hfacts : recordFacts fs = chainFacts head) {p : Nat}
    (hp : Within 1024 1024 p ∨ Within (7 * 1024) 1024 p) : fs.LeftAlone p := by
  have hbs : fs.blockSize = 1024 := congrArg RecordFacts.blockSize hfacts
  have hsize : fs.superblock.inodeSize = 128 := congrArg RecordFacts.inodeSize hfacts
  have hipg : fs.superblock.inodesPerGroup = 8 := congrArg RecordFacts.inodesPerGroup hfacts
  have hgdt : fs.superblock.gdtBlocks = 1 := congrArg RecordFacts.gdtBlocks hfacts
  have hplaces : fs.groupDescs.map (·.places) = [(3, 4, 5)] := congrArg RecordFacts.places hfacts
  have hcopies : (fs.copies false).map fs.copyBlock = [2] := congrArg RecordFacts.copyBlocks hfacts
  unfold Within at hp
  constructor
  · intro place hplace
    rw [hplaces, List.mem_singleton] at hplace
    rw [hplace, hbs]
    unfold Within
    dsimp only
    omega
  · intro g hg
    have hcopy : fs.copyBlock g ∈ [2] := hcopies ▸ List.mem_map_of_mem hg
    rw [List.mem_singleton.mp hcopy, hgdt, hbs]
    unfold Within
    omega
  · intro inum group block offset hloc hin
    obtain ⟨place, hplace, k, hk, hstart⟩ := inodeLocation_start hloc
    rw [hplaces, List.mem_singleton] at hplace
    rw [hplace, hbs, hsize] at hstart
    rw [hbs, hsize] at hin
    rw [hipg] at hk
    unfold Within at hin
    dsimp only at hstart
    omega

/-- Without a chain a release and a repair leave the record, the slot included. -/
theorem bigalloc_record_chainless : ∃ fs, openOn (chainImage 0) = .ok fs ∧
    SameRecord (chainImage 0) (exec (releaseOrphans 0) fs).2.device ∧ fs.InSlots (7 * 1024) ∧
    fs.RecordKept (check 0 .repairAll 0 (chainImage 0)).2 := by
  obtain ⟨fs, hopened, hfacts⟩ := Option.map_eq_some_iff.mp chainImage_facts.1
  have hopen := ok_of_toOption hopened
  have hbig := congrArg RecordFacts.bigalloc hfacts
  have herr := congrArg RecordFacts.errors hfacts
  have hlast := congrArg RecordFacts.lastOrphan hfacts
  have hbs : fs.blockSize = 1024 := congrArg RecordFacts.blockSize hfacts
  have halone := fun {p : Nat} => @chain_leftAlone fs 0 hfacts p
  -- Inode 5 has one block.
  obtain ⟨file, hfile, hrefs⟩ :=
    Option.map_eq_some_iff.mp (congrArg RecordFacts.slots hfacts)
  have hread := ok_of_toOption hfile
  have hapart : fs.RecordApart := by
    refine ⟨fun p hp => halone (Or.inl hp), ?_, ?_⟩
    · rintro p ⟨inum, group, block, offset, hchained, -⟩
      have hnone : ∀ inum, ¬fs.Chained inum := by
        intro inum hchained
        induction hchained with
        | head hne => exact hne hlast
        | link _ _ _ ih => exact ih
      exact absurd hchained (hnone inum)
    · rintro p ⟨-, file', hfile', ref, href, hkind, hin⟩
      rw [hread] at hfile'
      obtain rfl := Except.ok.inj hfile'
      have hblock : ref.physical ∈ [7] :=
        hrefs ▸ List.mem_map_of_mem (List.mem_filter.mpr ⟨href, decide_eq_true hkind⟩)
      rw [List.mem_singleton.mp hblock, hbs] at hin
      refine ⟨halone (Or.inr hin), ?_⟩
      unfold Within at hin ⊢
      simp only [superblockOffset, superblockLen]
      omega
  have hstage : exec (journalStage 0 .repairAll {}) fs = (.ok (false, {}), fs) := by
    have hjournal : fs.superblock.featureCompat.contains CompatFeatures.hasJournal = false :=
      congrArg RecordFacts.journal hfacts
    have hrecover : fs.superblock.featureIncompat.contains IncompatFeatures.recover = false :=
      congrArg RecordFacts.recover hfacts
    unfold journalStage
    rw [exec_bind_of_ok (show exec get fs = (.ok fs, fs) from rfl)]
    dsimp only
    rw [hjournal, hrecover]
    rfl
  have hstored : storedLastOrphan fs.device = 0 := by
    rw [(openOn_opened hopen).recorded.head]
    exact congrArg (· % 2 ^ 32) hlast
  have hall := bigalloc_record_iff hopen hbig herr 0 {}
  refine ⟨fs, hopen, hall.1.mpr (Or.inl hlast), ?_, ?_⟩
  · obtain ⟨ref, href, hblock⟩ := List.mem_map.mp (hrefs ▸ List.mem_singleton_self 7)
    obtain ⟨href, hkind⟩ := List.mem_filter.mp href
    have hinum : fs.superblock.orphanFileInum = 5 := congrArg RecordFacts.orphanFile hfacts
    refine ⟨by rw [hinum]; decide, file, hread, ref, href, of_decide_eq_true hkind, ?_⟩
    rw [hblock, hbs]
    exact ⟨Nat.le_refl _, by decide⟩
  · exact (hall.2.2 0 .repairAll false {} fs rfl hstage hbig herr hapart).mpr (Or.inl hstored)

/-- With one, the release says that the orphans are left for the kernel, and clears the head
    of the chain on the device. -/
theorem bigalloc_loses_chain : ∃ fs fs', openOn (chainImage 12) = .ok fs ∧
    fs.superblock.featureRoCompat.contains RoCompatFeatures.bigalloc = true ∧
    fs.superblock.state &&& State.errorFs = 0 ∧
    exec (releaseOrphans 0) fs = (.ok leftForKernel, fs') ∧
    storedLastOrphan (chainImage 12) = 12 ∧ storedLastOrphan fs'.device = 0 ∧
    ¬SameRecord (chainImage 12) fs'.device := by
  obtain ⟨fs, hopen, hfacts⟩ := Option.map_eq_some_iff.mp chainImage_facts.2
  have hopen := ok_of_toOption hopen
  have hbig := congrArg RecordFacts.bigalloc hfacts
  have herr := congrArg RecordFacts.errors hfacts
  have hlast := congrArg RecordFacts.lastOrphan hfacts
  have hopened := openOn_opened hopen
  obtain ⟨hrelease, hdropped⟩ := release_drops (congrArg RecordFacts.orphans hfacts) hbig herr
    hopened.recorded (toBool_iff.mp (congrArg RecordFacts.readable hfacts)) 0
  rw [hopened.device] at hdropped
  have hstored : storedLastOrphan (chainImage 12) = 12 :=
    (Superblock.decode_orphans hopened.superblock).1.symm.trans hlast
  refine ⟨fs, _, hopen, hbig, herr, hrelease, hstored, hdropped.head, fun hsame => ?_⟩
  have hlost := hdropped.same_iff.mp hsame
  rw [hstored] at hlost
  cases hlost

end Fsck

end MkfsExt4
