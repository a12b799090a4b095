/-
  The verdict of a check that writes: its exit code, and the state it leaves in the superblock.

  The exit code goes by what was fixed and what is a note, the flag by what was fixed and how
  severe it is. They agree because every stage rates what it reports by what its code means
  (`WellRated`). `ReachesUpdate` is a run up to its last update. Proved: after a run that
  completes the passes, the superblock on the device is valid exactly when the exit code is 0
  or 1, and without errors then, unless the last update writes the descriptor table over the
  superblock (`verdict_agrees`). With blocks of 1 KiB that are counted from 0 it does.
-/
import MkfsExt4.Fsck.Identity
import MkfsExt4.Fsck.Preen

namespace MkfsExt4

open Lib.Store Lib.Hoare Lib.Endian

namespace Fsck

open Filesystem

variable {fs fs' : Filesystem} {options : FsckOptions} {r r' : FsckReport} {f : Findings}

/-! ## What is said, and what is on the device -/

/-- `s_state`, as the device holds it. -/
def storedState (device : Device) : Nat :=
  getU16 (window device.bytes superblockOffset superblockLen) 0x3a

/-- A problem that is neither fixed nor a note. -/
def LeftUnfixed (r : FsckReport) : Prop := ∃ p ∈ r.problems, p.fixed = false ∧ p.isNote = false

/-- The exit code, the problems and the state of the superblock say the same. -/
structure Agrees (r : FsckReport) (device : Device) : Prop where
  valid : storedState device &&& State.validFs ≠ 0 ↔ r.exitCode = 0 ∨ r.exitCode = 1
  clear : storedState device &&& State.validFs ≠ 0 → storedState device &&& State.errorFs = 0
  left : r.exitCode = 4 ↔ LeftUnfixed r

theorem any_isUnfixed : (r.problems.any (·.isUnfixed)) = true ↔ LeftUnfixed r := by
  simp [LeftUnfixed, Problem.isUnfixed]

theorem exitCode_left : r.exitCode = 4 ↔ LeftUnfixed r := by
  rw [← any_isUnfixed]
  unfold FsckReport.exitCode
  split
  · next h => exact iff_of_true rfl h
  · next h => exact iff_of_false (by split <;> decide) h

theorem exitCode_fixed : (r.exitCode = 0 ∨ r.exitCode = 1) ↔ ¬ LeftUnfixed r := by
  rw [← any_isUnfixed]
  unfold FsckReport.exitCode
  split
  · next h => exact iff_of_false (by decide) (not_not.mpr h)
  · next h => exact iff_of_true (by split <;> decide) h

/-! ## What is reported before the passes -/

/-- A stage that only reports, of a report that is rated. -/
theorem returns_rated {m : FsM FsckReport} (hr : WellRated r) (h : Returns (OnlyReports r) m) :
    Returns WellRated m := fun s r' s' hrun => (h s r' s' hrun).goesOn.rated hr

theorem preenHalt_rated (hr : WellRated r) : Returns WellRated (preenHalt r) :=
  returns_then fun _ => returns_then fun _ => returns_pure hr

theorem openedJournal_rated (hr : WellRated r) (fuel : Nat) (recover : Bool)
    (journal : Jbd2.Journal) :
    Returns (fun out => WellRated out.2) (openedJournal fuel options recover journal r) := by
  have hstop : ∀ (stop : Bool) {m : FsM FsckReport}, Returns WellRated m →
      Returns (fun out : Bool × FsckReport => WellRated out.2) (do return (stop, ← m)) :=
    fun _ _ hm => returns_bind hm fun _ h => returns_pure h
  unfold openedJournal
  extract_lets writes hasData unflagged found report
  have hreport : WellRated report := by
    unfold report
    split
    · exact (GoesOn.pushFixed r _ _ _ _ _ rfl).rated hr
    · exact hr
  split
  · exact hstop true (preenHalt_rated hreport)
  · split
    · exact returns_pure hreport
    · split
      · split
        · refine returns_then fun _ => ?_
          split
          · exact returns_then fun _ => returns_then fun _ => returns_pure hreport
          · exact returns_pure hreport
        · exact returns_pure hreport
      · split
        · have hskipped := (OnlyReports.push report 0 .journalRecoverySkipped .info
            "skipping journal recovery because doing a read-only filesystem check" rfl).goesOn.rated
              hreport
          split
          · exact returns_then fun _ => returns_pure hskipped
          · exact returns_pure hskipped
        · exact hstop false (returns_rated hreport (replayJournal_reports _ _ _))

theorem journalStage_rated (hr : WellRated r) (fuel : Nat) :
    Returns (fun out => WellRated out.2) (journalStage fuel options r) := by
  unfold journalStage
  refine returns_then fun fs => ?_
  dsimp only
  split
  · have hflag := fun writes : Bool => (GoesOn.pushFixed r 0 .recoverFlagWithoutJournal .fixable
      "superblock needs_recovery flag is set, but no journal is present" writes rfl).rated hr
    split
    · exact returns_pure hr
    · split
      · exact returns_then fun _ => returns_then fun _ => returns_pure (hflag _)
      · exact returns_pure (hflag _)
  · refine returns_then fun opened => ?_
    split
    · exact openedJournal_rated hr fuel _ _
    · next why =>
      have hwhy := (OnlyReports.push r 0 .journalUnreplayable .serious
        ("the journal needs recovery, and " ++ why ++ "; mount and unmount the " ++
          "filesystem to let the kernel replay it, or run e2fsck") rfl).goesOn.rated hr
      split
      · exact returns_pure hr
      · split
        · exact returns_pure hwhy
        · split
          · exact returns_bind (preenHalt_rated hwhy) fun _ h => returns_pure h
          · exact returns_pure hwhy

/-- The findings that the passes start with are rated. -/
theorem prepare_rated (fuel now : Nat) :
    Returns (fun result => ∀ f, result = .ok f → WellRated f.report)
      (prepare fuel options now) := by
  have hnone : ∀ r1 : FsckReport, ∀ f : Findings, (.error r1 : Except FsckReport Findings) = .ok f →
      WellRated f.report := by
    intro r1 f hf
    cases hf
  have hgo : ∀ g : Findings, WellRated g.report → ∀ f,
      (.ok g : Except FsckReport Findings) = .ok f → WellRated f.report := by
    intro g hg f hf
    cases hf
    exact hg
  unfold prepare
  refine returns_bind (journalStage_rated wellRated_start fuel) fun out hout => ?_
  obtain ⟨stop, r1⟩ := out
  refine returns_then fun fs => ?_
  dsimp only
  split
  · exact returns_pure (hnone _)
  · refine returns_bind (P := fun f => WellRated f.report) (fun s f s' h => ?_) fun f hf => ?_
    · exact (pass0Superblock_reports (reading_ok h).1).goesOn.rated hout
    · have hrest : ∀ r2 : FsckReport, WellRated r2 →
          Returns (fun result => ∀ f, result = .ok f → WellRated f.report)
            (goOn options now f r2) := by
        intro r2 hr2
        unfold goOn
        split
        · exact returns_pure (hgo _ hr2)
        · refine returns_then fun due => ?_
          split
          · exact returns_pure (hgo _ hr2)
          · exact returns_then fun _ => returns_pure (hnone _)
      split
      · exact returns_bind (returns_rated hf (orphanStage_reports now _)) hrest
      · exact returns_bind (returns_pure hf) hrest

/-! ## The last update -/

/-- Whether a problem worth the name is left. -/
def leftWrong (r : FsckReport) : Bool := r.problems.any fun p => !p.fixed && p.isWrong

/-- The report after the last update of a superblock in `state`. -/
def finalReport (r : FsckReport) (state : Nat) : FsckReport :=
  if leftWrong r then r
  else
    let wasValid : Bool := state &&& State.validFs ≠ 0
    let marked := if wasValid then r else
      r.pushFixed 0 .markedClean .fixable
        "filesystem was not cleanly unmounted; marked clean" true
    { marked with problems := marked.problems.map fun p =>
        if p.code = .fsHasErrors then { p with fixed := true } else p }

/-- The superblock that the last update writes. -/
def finalSuperblock (now : Nat) (r : FsckReport) (sb : Superblock) : Superblock :=
  { sb with
    state := if leftWrong r then withoutBits State.validFs sb.state else State.validFs
    lastcheck := now
    mntCount := 0 }

theorem finish_ok {now : Nat} (h : exec (finish now r) fs = (.ok r', fs')) :
    r' = finalReport r fs.superblock.state ∧ ∃ fs1,
      exec flushSuperblock { fs with superblock := finalSuperblock now r fs.superblock } =
        (.ok (), fs1) ∧
      ((r'.repairedAnything = false ∧ fs' = fs1) ∨
        (r'.repairedAnything = true ∧ exec flushGroupDescs fs1 = (.ok (), fs'))) := by
  unfold finish at h
  obtain ⟨fs0, fs1, hget, h⟩ := exec_bind_ok h
  cases hget
  obtain ⟨_, fs2, hset, h⟩ := exec_bind_ok h
  cases hset
  obtain ⟨_, fs3, hflush, h⟩ := exec_bind_ok h
  change exec (do
    if (finalReport r fs.superblock.state).repairedAnything then flushGroupDescs
    return finalReport r fs.superblock.state) fs3 = (.ok r', fs') at h
  split at h
  · next hrepaired =>
    obtain ⟨_, fs4, htable, h⟩ := exec_bind_ok h
    obtain ⟨rfl, rfl⟩ := exec_pure_ok h
    exact ⟨rfl, fs3, hflush, Or.inr ⟨hrepaired, htable⟩⟩
  · next hrepaired =>
    obtain ⟨rfl, rfl⟩ := exec_pure_ok h
    exact ⟨rfl, _, hflush, Or.inl ⟨by simpa using hrepaired, rfl⟩⟩

/-! ### The report it ends with -/

theorem leftWrong_iff (hr : WellRated r) : leftWrong r = true ↔
    ∃ p ∈ r.problems, p.fixed = false ∧ p.code ≠ .fsHasErrors ∧ p.isNote = false := by
  have hwrong : ∀ p ∈ r.problems, p.isWrong = true ↔
      p.code ≠ .fsHasErrors ∧ p.isNote = false := by
    intro p hp
    have hgraded := hr p hp
    simp only [graded, beq_iff_eq, decide_eq_decide] at hgraded
    simp only [Problem.isWrong, Problem.isNote, ne_eq, decide_eq_true_eq, decide_eq_false_iff_not,
      hgraded, not_or]
  unfold leftWrong
  simp only [List.any_eq_true, Bool.and_eq_true, Bool.not_eq_true']
  exact exists_congr fun p => and_congr_right fun hp => and_congr_right fun _ => hwrong p hp

/-- The errors flag is corrected by being cleared. -/
def clearFlag (p : Problem) : Problem :=
  if p.code = .fsHasErrors then { p with fixed := true } else p

theorem clearFlag_isNote (p : Problem) : (clearFlag p).isNote = p.isNote := by
  unfold clearFlag
  split <;> rfl

theorem clearFlag_fixed (p : Problem) :
    (clearFlag p).fixed = true ↔ p.fixed = true ∨ p.code = .fsHasErrors := by
  unfold clearFlag
  split
  · next h => exact iff_of_true rfl (Or.inr h)
  · next h => exact (or_iff_left h).symm

/-- What a check says when it marks a filesystem clean that was not. -/
def markedClean : Problem :=
  { pass := 0
    code := .markedClean
    severity := .fixable
    message := "filesystem was not cleanly unmounted; marked clean"
    fixed := true }

/-- Without anything left wrong, a problem of the final report is one from before with the
    flag cleared, or says that the filesystem was marked clean. -/
theorem mem_finalReport (h : leftWrong r = false) {state : Nat} {p : Problem} :
    p ∈ (finalReport r state).problems ↔ (∃ q ∈ r.problems, clearFlag q = p) ∨
      (state &&& State.validFs = 0 ∧ p = markedClean) := by
  have hproblems : (finalReport r state).problems =
      (if state &&& State.validFs = 0 then r.problems ++ [markedClean] else r.problems).map
        clearFlag := by
    unfold finalReport
    rw [if_neg (by rw [h]; exact Bool.false_ne_true)]
    by_cases hstate : state &&& State.validFs = 0
    · simp only [hstate, ne_eq, not_true_eq_false, decide_false, Bool.false_eq_true, if_false,
        if_true]
      rfl
    · simp only [hstate, ne_eq, not_false_eq_true, decide_true, if_false, if_true]
      rfl
  rw [hproblems, List.mem_map]
  split
  · next hstate =>
    have hmark : clearFlag markedClean = markedClean := rfl
    simp [hstate, or_and_right, exists_or, hmark, eq_comm]
  · next hstate => simp [hstate]

/-- What is left unfixed by the update is what was left wrong before it. -/
theorem finalReport_left (hr : WellRated r) (state : Nat) :
    LeftUnfixed (finalReport r state) ↔ leftWrong r = true := by
  cases h : leftWrong r with
  | true =>
    obtain ⟨p, hp, hfixed, -, hnote⟩ := (leftWrong_iff hr).mp h
    rw [finalReport, if_pos h]
    exact iff_of_true ⟨p, hp, hfixed, hnote⟩ rfl
  | false =>
    refine iff_of_false ?_ Bool.false_ne_true
    rintro ⟨p, hp, hfixed, hnote⟩
    rcases (mem_finalReport h).mp hp with ⟨q, hq, rfl⟩ | ⟨-, rfl⟩
    · rw [clearFlag_isNote] at hnote
      have hopen : ¬ (q.fixed = true ∨ q.code = .fsHasErrors) :=
        fun hq => Bool.false_ne_true (hfixed ▸ (clearFlag_fixed q).mpr hq)
      rw [not_or, Bool.not_eq_true] at hopen
      exact Bool.false_ne_true (h ▸ (leftWrong_iff hr).mpr ⟨q, hq, hopen.1, hopen.2, hnote⟩)
    · cases hfixed

/-- Something is repaired, by the passes or by the update itself. -/
def UpdateRepairs (r : FsckReport) (state : Nat) : Prop :=
  r.repairedAnything = true ∨ leftWrong r = false ∧
    (state &&& State.validFs = 0 ∨ ∃ p ∈ r.problems, p.code = .fsHasErrors)

theorem repairedAnything_iff :
    r.repairedAnything = true ↔ ∃ p ∈ r.problems, p.fixed = true ∧ p.isNote = false := by
  simp [FsckReport.repairedAnything]

theorem finalReport_repaired (r : FsckReport) (state : Nat) :
    (finalReport r state).repairedAnything = true ↔ UpdateRepairs r state := by
  unfold UpdateRepairs
  cases h : leftWrong r with
  | true =>
    rw [finalReport, if_pos h]
    exact (or_iff_left fun hnone => Bool.false_ne_true hnone.1.symm).symm
  | false =>
    rw [repairedAnything_iff, repairedAnything_iff]
    constructor
    · rintro ⟨p, hp, hfixed, hnote⟩
      rcases (mem_finalReport h).mp hp with ⟨q, hq, rfl⟩ | ⟨hstate, -⟩
      · rw [clearFlag_isNote] at hnote
        rcases (clearFlag_fixed q).mp hfixed with hold | hcode
        · exact Or.inl ⟨q, hq, hold, hnote⟩
        · exact Or.inr ⟨rfl, Or.inr ⟨q, hq, hcode⟩⟩
      · exact Or.inr ⟨rfl, Or.inl hstate⟩
    · rintro (⟨q, hq, hold, hnote⟩ | ⟨-, hstate | ⟨q, hq, hcode⟩⟩)
      · exact ⟨_, (mem_finalReport h).mpr (Or.inl ⟨q, hq, rfl⟩),
          (clearFlag_fixed q).mpr (Or.inl hold), (clearFlag_isNote q).trans hnote⟩
      · exact ⟨_, (mem_finalReport h).mpr (Or.inr ⟨hstate, rfl⟩), rfl, rfl⟩
      · refine ⟨_, (mem_finalReport h).mpr (Or.inl ⟨q, hq, rfl⟩),
          (clearFlag_fixed q).mpr (Or.inr hcode), (clearFlag_isNote q).trans ?_⟩
        rw [Problem.isNote, hcode]
        rfl

/-! ### The superblock it leaves -/

/-- The first copy of the descriptor table goes where the superblock is: to block 1, with blocks
    of 1 KiB that are counted from 0. -/
def TableOnSuperblock (sb : Superblock) : Prop :=
  sb.blockSize = 1024 ∧ sb.firstDataBlock = 0 ∧ 0 < sb.groupCount

theorem tableOnSuperblock_congr (h : fs'.identity = fs.identity) :
    TableOnSuperblock fs'.superblock ↔ TableOnSuperblock fs.superblock := by
  simp only [identity, Superblock.identity, Prod.mk.injEq] at h
  rw [TableOnSuperblock, TableOnSuperblock, h.2.1, h.2.2.1, h.2.2.2]

theorem blockSize_cases (sb : Superblock) :
    sb.blockSize = 0 ∨ sb.blockSize = 1024 ∨ 2048 ≤ sb.blockSize := by
  have hshift : ∀ n < 32, (1024 <<< n) % 2 ^ 32 = 0 ∨ (1024 <<< n) % 2 ^ 32 = 1024 ∨
      2048 ≤ (1024 <<< n) % 2 ^ 32 := by decide
  exact hshift _ (Nat.mod_lt _ (by decide))

/-- Elsewhere no copy of the table reaches down to the superblock. -/
theorem superblock_table (h : exec flushGroupDescs fs = (.ok (), fs'))
    (hclear : ¬ TableOnSuperblock fs.superblock) :
    window fs'.device.bytes superblockOffset superblockLen =
      window fs.device.bytes superblockOffset superblockLen := by
  obtain ⟨hguard, -, rfl⟩ := (exec_writeGroupDescs_iff false).mp h
  refine window_congr fun p _ hp => ?_
  refine overlays_of_miss _ fun w hw => Or.inl (Nat.lt_of_lt_of_le hp ?_)
  obtain ⟨g, hg, rfl⟩ := List.mem_map.mp hw
  have hgroup : g < fs.superblock.groupCount := List.mem_range.mp (List.mem_filter.mp hg).1
  show 2048 ≤ (fs.superblock.firstDataBlock + g * fs.superblock.blocksPerGroup + 1) *
    fs.superblock.blockSize
  rcases blockSize_cases fs.superblock with hzero | hsize | hsize
  · -- No descriptor would fit a block of no bytes, and the writer panics.
    refine absurd (Or.inl ?_) hguard
    rw [Superblock.descPerBlock, hzero, Nat.zero_div]
  · have hfirst : fs.superblock.firstDataBlock ≠ 0 := fun hfirst =>
      hclear ⟨hsize, hfirst, Nat.zero_lt_of_lt hgroup⟩
    rw [hsize]
    omega
  · exact hsize.trans (Nat.le_mul_of_pos_left _ (Nat.succ_pos _))

/-- Flushing the superblock stores what it encodes to. -/
theorem superblock_flush (h : exec flushSuperblock fs = (.ok (), fs')) :
    ∃ buf, superblockLen ≤ buf.length ∧
      window fs'.device.bytes superblockOffset superblockLen = fs.superblock.encodeInto buf := by
  refine ⟨window fs.device.bytes superblockOffset superblockLen,
    (length_window _ _ _).ge, ?_⟩
  have hlen : (fs.superblock.encodeInto
      (window fs.device.bytes superblockOffset superblockLen)).length = superblockLen := by
    rw [Superblock.length_encodeInto, length_window]
  have hwindow := window_overlay fs.device.bytes superblockOffset
    (fs.superblock.encodeInto (window fs.device.bytes superblockOffset superblockLen))
  rw [hlen] at hwindow
  rw [flushSuperblock_ok h]
  exact hwindow

theorem storedState_flush (h : exec flushSuperblock fs = (.ok (), fs')) :
    storedState fs'.device = fs.superblock.state % 2 ^ 16 := by
  obtain ⟨buf, hlen, hwindow⟩ := superblock_flush h
  rw [storedState, hwindow]
  exact fs.superblock.read_head hlen (i := 16) rfl (by decide)

/-- What the state of the final superblock says, cut to the 16 bits that are stored. -/
theorem finalSuperblock_state (now : Nat) (r : FsckReport) (sb : Superblock) :
    ((finalSuperblock now r sb).state % 2 ^ 16 &&& State.validFs ≠ 0 ↔ leftWrong r = false) ∧
      (leftWrong r = false →
        (finalSuperblock now r sb).state % 2 ^ 16 &&& State.errorFs = 0) := by
  have hstate : (finalSuperblock now r sb).state =
      if leftWrong r then withoutBits State.validFs sb.state else State.validFs := rfl
  rw [hstate]
  cases leftWrong r with
  | true =>
    have hcleared : withoutBits State.validFs sb.state % 2 ^ 16 &&& State.validFs = 0 := by
      simp only [withoutBits, State.validFs, Nat.and_one_is_mod]
      omega
    exact ⟨iff_of_false (not_not.mpr hcleared) (by decide), nofun⟩
  | false =>
    rw [if_neg Bool.false_ne_true]
    decide

/-- The last update leaves what the report says, unless it writes the table over the
    superblock. -/
theorem finish_agrees {now : Nat} (hr : WellRated r)
    (hclear : TableOnSuperblock fs.superblock → ¬ UpdateRepairs r fs.superblock.state)
    (h : exec (finish now r) fs = (.ok r', fs')) : Agrees r' fs'.device := by
  obtain ⟨rfl, fs1, hflush, htable⟩ := finish_ok h
  have hstored : storedState fs'.device =
      (finalSuperblock now r fs.superblock).state % 2 ^ 16 := by
    rw [← storedState_flush hflush]
    rcases htable with ⟨-, rfl⟩ | ⟨hrepaired, htable⟩
    · rfl
    · refine congrArg (getU16 · 0x3a) (superblock_table htable fun hover => ?_)
      -- The geometry is not what the update changes.
      rw [flushSuperblock_ok hflush] at hover
      exact hclear hover ((finalReport_repaired r _).mp hrepaired)
  obtain ⟨hvalid, hclean⟩ := finalSuperblock_state now r fs.superblock
  have hleft := finalReport_left hr fs.superblock.state
  rw [← hstored] at hvalid hclean
  have hfixed : leftWrong r = false ↔ ¬ LeftUnfixed (finalReport r fs.superblock.state) := by
    rw [hleft, Bool.not_eq_true]
  exact {
    valid := hvalid.trans (hfixed.trans exitCode_fixed.symm)
    clear := fun hset => hclean (hvalid.mp hset)
    left := exitCode_left }

/-! ## The run -/

/-- The report of passes 1 to 4, with what they counted. -/
def scanned (f : Findings) : FsckReport :=
  { f.report with
    blocksUsed := f.state.blocks.count
    inodesUsed := f.state.inodesInUse.length
    directories := f.state.directories.length }

/-- A writing run over `fs` from the findings `f` gets to its last update, in `fs'` and with
    the report `r`. -/
def ReachesUpdate (f : Findings) (fs : Filesystem) (r : FsckReport) (fs' : Filesystem) : Prop :=
  ∃ f1 fixes r1 fs1 f2, scan fs f = .ok (f1, fixes) ∧
    exec (fixes.foldlM fixLinks (scanned f1)) fs = (.ok r1, fs1) ∧
    exec (pass5Bitmaps true { f1 with report := r1 }) fs1 = (.ok f2, fs') ∧ f2.report = r

theorem ReachesUpdate.rated {r1 : FsckReport} {fs1 : Filesystem} (hf : WellRated f.report)
    (h : ReachesUpdate f fs r1 fs1) : WellRated r1 := by
  obtain ⟨f1, fixes, r2, fs2, f2, hscan, hfixes, hpass5, rfl⟩ := h
  have hscanned : WellRated (scanned f1) := (scan_reports hscan).goesOn.rated hf
  exact (pass5Bitmaps_goesOn _ _ _ _ _ hpass5).rated
    ((fixesLinks_goesOn _ _ _ _ _ hfixes).rated hscanned)

/-- The repairs up to the last update leave the identity of the superblock alone. -/
theorem ReachesUpdate.identity {r1 : FsckReport} {fs1 : Filesystem}
    (h : ReachesUpdate f fs r1 fs1) : fs1.identity = fs.identity := by
  obtain ⟨f1, fixes, r2, fs2, f2, -, hfixes, hpass5, -⟩ := h
  have hlinks := Orphan.keeps_identity (keeps_foldlM fixLinks_superblock fixes (scanned f1)) fs
  have hbitmaps := pass5Bitmaps_identity true { f1 with report := r2 } fs2
  rw [hfixes] at hlinks
  rw [hpass5] at hbitmaps
  exact hbitmaps.trans hlinks

/-- A run that completes the passes without halting ends with the last update. -/
theorem passes_update {now : Nat} (hwrites : options.writes = true)
    (h : exec (passes options now f) fs = (.ok r, fs')) (hhalted : r.preenHalted = false) :
    ∃ r1 fs1, ReachesUpdate f fs r1 fs1 ∧ exec (finish now r1) fs1 = (.ok r, fs') := by
  unfold passes at h
  obtain ⟨⟨f1, fixes⟩, fs1, hscan, hrest⟩ := exec_bind_ok h
  obtain ⟨hscan, rfl⟩ := reading_ok hscan
  dsimp only at hrest
  split at hrest
  · obtain ⟨rfl, -⟩ := preenHalt_ok hrest
    cases hhalted
  · unfold repairs at hrest
    rw [if_pos hwrites] at hrest
    obtain ⟨r1, fs2, hfixes, hrest⟩ := exec_bind_ok hrest
    obtain ⟨f2, fs3, hpass5, hfinish⟩ := exec_bind_ok hrest
    exact ⟨f2.report, fs3, ⟨f1, fixes, r1, fs2, f2, hscan, hfixes, hpass5, rfl⟩, hfinish⟩

/-- After a writing run that completes the passes, the exit code and the superblock agree, in
    every run that does not repair anything with the descriptor table over the superblock. -/
theorem verdict_agrees {fuel now : Nat} {fs0 : Filesystem} (hwrites : options.writes = true)
    (hprepare : exec (prepare fuel options now) fs0 = (.ok (.ok f), fs))
    (hpasses : exec (passes options now f) fs = (.ok r, fs')) (hhalted : r.preenHalted = false)
    (hclear : TableOnSuperblock fs.superblock → ∀ r1 fs1, ReachesUpdate f fs r1 fs1 →
      ¬ UpdateRepairs r1 fs1.superblock.state) :
    Agrees r fs'.device := by
  obtain ⟨r1, fs1, hreach, hfinish⟩ := passes_update hwrites hpasses hhalted
  have hrated := hreach.rated (prepare_rated fuel now _ _ _ hprepare f rfl)
  refine finish_agrees hrated (fun hover => ?_) hfinish
  exact hclear ((tableOnSuperblock_congr hreach.identity).mp hover) r1 fs1 hreach

/-! ### An image whose blocks are counted from 0 or from 1 -/

/-- 16 blocks of 1 KiB, counted from `first`, and 8 inodes: the root, empty, is block 6. Both
    bitmaps are clear. -/
def countedImage (first : UInt8) : Device := .ofChunks 16384
  [(1024, toLe 4 8 ++ toLe 4 16), (1024 + 0x14, [first]), (1024 + 0x21, [0x20]),
    (1024 + 0x28, [8]), (1024 + 0x38, [0x53, 0xef, 1]), (2048, [3, 0, 0, 0, 4, 0, 0, 0, 5]),
    (5 * 1024 + 128 + 0x1c, [2]), (5 * 1024 + 128, dirInode 6), (6 * 1024, dirBlock 2 2)]

/-- Its repair: where the blocks are counted from, whether the check halted, the exit code and
    the state left on the device. -/
def countedRun (first : UInt8) : Option (Nat × Bool × Nat × Nat) :=
  match openOn (countedImage first) with
  | .error _ => none
  | .ok fs0 =>
    match exec (prepare 0 .repairAll 0) fs0 with
    | (.ok (.ok f), fs) =>
      match exec (passes .repairAll 0 f) fs with
      | (.ok r, fs') => some (fs.superblock.firstDataBlock, r.preenHalted, r.exitCode,
          storedState fs'.device)
      | _ => none
    | _ => none

theorem counted_run {first : UInt8} {start state : Nat}
    (h : countedRun first = some (start, false, 1, state)) : ∃ fs0 fs f r fs',
    openOn (countedImage first) = .ok fs0 ∧
    exec (prepare 0 .repairAll 0) fs0 = (.ok (.ok f), fs) ∧
    exec (passes .repairAll 0 f) fs = (.ok r, fs') ∧ r.preenHalted = false ∧
    fs.superblock.firstDataBlock = start ∧ r.exitCode = 1 ∧ storedState fs'.device = state := by
  unfold countedRun at h
  split at h
  · cases h
  · next fs0 hopen =>
    split at h
    · next f fs hprepare =>
      split at h
      · next r fs' hpasses =>
        obtain ⟨hstart, hrest⟩ := Prod.mk.inj (Option.some.inj h)
        obtain ⟨hhalted, hrest⟩ := Prod.mk.inj hrest
        obtain ⟨hcode, hstate⟩ := Prod.mk.inj hrest
        exact ⟨fs0, fs, f, r, fs', hopen, hprepare, hpasses, hhalted, hstart, hcode, hstate⟩
      · cases h
    · cases h

/-- What `countedRun` answers. The kernel runs it with the flush that does not measure what it
    writes. -/
theorem countedRun_eq :
    countedRun 1 = some (1, false, 1, 1) ∧ countedRun 0 = some (0, false, 1, 0) := by
  suffices hrun : ∃ run : UInt8 → Option (Nat × Bool × Nat × Nat),
      (∀ first, countedRun first = run first) ∧
      run 1 = some (1, false, 1, 1) ∧ run 0 = some (0, false, 1, 0) by
    obtain ⟨run, heq, h1, h0⟩ := hrun
    exact ⟨(heq 1).trans h1, (heq 0).trans h0⟩
  refine ⟨?run, fun first => ?eq, ?_, ?_⟩
  case eq =>
    unfold countedRun passes repairs finish
    rw [flushSuperblock_eq]
  all_goals decide +kernel

/-- With its blocks counted from 1, the image is repaired and marked valid. -/
theorem verdict_counted : ∃ (r : FsckReport) (fs' : Filesystem), r.exitCode = 1 ∧
    storedState fs'.device = State.validFs ∧ Agrees r fs'.device := by
  obtain ⟨fs0, fs, f, r, fs', -, hprepare, hpasses, hhalted, hstart, hcode, hstate⟩ :=
    counted_run countedRun_eq.1
  refine ⟨r, fs', hcode, hstate, verdict_agrees rfl hprepare hpasses hhalted fun hover => ?_⟩
  rw [TableOnSuperblock, hstart] at hover
  exact absurd hover.2.1 (by decide)

/-- With its blocks counted from 0, the repair ends by writing the descriptor table over the
    superblock: the exit code is 1, and the filesystem is not valid. -/
theorem counted_overwritten : ¬ ∀ (options : FsckOptions) (fuel now : Nat) (device : Device)
    (fs0 fs fs' : Filesystem) (f : Findings) (r : FsckReport), openOn device = .ok fs0 →
    options.writes = true → exec (prepare fuel options now) fs0 = (.ok (.ok f), fs) →
    exec (passes options now f) fs = (.ok r, fs') → r.preenHalted = false →
    Agrees r fs'.device := by
  intro hclaim
  obtain ⟨fs0, fs, f, r, fs', hopen, hprepare, hpasses, hhalted, -, hcode, hstate⟩ :=
    counted_run countedRun_eq.2
  have hagrees := hclaim _ 0 0 (countedImage 0) fs0 fs fs' f r hopen rfl hprepare hpasses hhalted
  have hvalid := hagrees.valid.mpr (Or.inr hcode)
  rw [hstate] at hvalid
  exact absurd rfl hvalid

end Fsck

end MkfsExt4
