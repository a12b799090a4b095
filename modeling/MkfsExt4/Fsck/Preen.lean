/-
  A preening check that halts.

  `GoesOn r r'` says that a stage did not halt the check and rated what it reported by what its
  code means, `OnlyReports r r'` that it added to the report, and marked fixed nothing but notes.
  Passes 0 to 4 and the orphan stage are of that kind, and so is the journal stage unless it
  clears a `needs_recovery` flag on a filesystem without a journal. `JournalUpkeep` and
  `OrphanUpkeep` are what the stages before the passes write: the journal's replay, its error
  number, the orphans. A halt writes the superblock, and so whatever of it the device did not
  hold as the superblock in memory has it (`Stale`). Proved: a preening check that halted
  repaired nothing and wrote no more than the upkeep and `ERROR_FS`, exactly when that flag was
  not there to be cleared and the superblock encodes to itself or is one that the upkeep writes
  anew (`halted_keeps_iff`). Which ones it does, the filesystem as it was opened tells
  (`Tended`).
-/
import MkfsExt4.Fs.Descriptors
import MkfsExt4.Fsck.ReadOnly
import MkfsExt4.Structs.SuperblockCodec

namespace MkfsExt4.Fsck

open Lib.Store Lib.Hoare Filesystem

/-! ## How findings are rated -/

/-- The severity agrees with the code on whether something is wrong: nothing is for a note, and
    nothing for the errors flag, which records what was wrong before. -/
def graded (code : Code) (severity : Severity) : Bool :=
  decide (severity = .info) == decide (code = .fsHasErrors ∨ code ∈ notes)

/-- Every problem of a report is rated by what its code means. -/
def WellRated (r : FsckReport) : Prop := ∀ p ∈ r.problems, graded p.code p.severity

theorem wellRated_start : WellRated {} := nofun

/-- What a stage keeps of the report: the check is not halted, and the problems are rated. -/
structure GoesOn (r r' : FsckReport) : Prop where
  halted : r'.preenHalted = r.preenHalted
  rated : WellRated r → WellRated r'

namespace GoesOn

variable {r r' r'' : FsckReport}

theorem refl (r : FsckReport) : GoesOn r r := ⟨rfl, id⟩

theorem trans (h : GoesOn r r') (h' : GoesOn r' r'') : GoesOn r r'' :=
  ⟨h'.halted.trans h.halted, fun hr => h'.rated (h.rated hr)⟩

theorem pushFixed (r : FsckReport) (pass : Nat) (code : Code) (severity : Severity)
    (message : String) (repairing : Bool) (h : graded code severity) :
    GoesOn r (r.pushFixed pass code severity message repairing) := by
  refine ⟨rfl, fun hr p hp => ?_⟩
  rcases List.mem_append.mp hp with hold | hnew
  · exact hr p hold
  · obtain rfl := List.mem_singleton.mp hnew
    exact h

/-- Marking a problem fixed rates it no other way. -/
theorem markFixed (r : FsckReport) (index : Nat) : GoesOn r (r.markFixed index) := by
  refine ⟨rfl, fun hr p hp => ?_⟩
  obtain ⟨i, hi, rfl⟩ := List.mem_iff_getElem.mp hp
  simp only [FsckReport.markFixed, List.getElem_modify]
  have hold := hr _ (List.getElem_mem (by simpa [FsckReport.markFixed] using hi))
  split <;> exact hold

end GoesOn

/-! ## Stages that only report -/

/-- Findings were added, none of them fixed but notes, and the check was not halted. -/
structure OnlyReports (r r' : FsckReport) : Prop where
  added : ∃ ps, r'.problems = r.problems ++ ps ∧ ∀ p ∈ ps, p.fixed = true → p.isNote = true
  goesOn : GoesOn r r'

namespace OnlyReports

variable {r r' r'' : FsckReport}

theorem refl (r : FsckReport) : OnlyReports r r := ⟨⟨[], by simp, by simp⟩, .refl r⟩

theorem trans (h : OnlyReports r r') (h' : OnlyReports r' r'') : OnlyReports r r'' := by
  obtain ⟨ps, hps, hfix⟩ := h.added
  obtain ⟨qs, hqs, hfix'⟩ := h'.added
  refine ⟨⟨ps ++ qs, by rw [hqs, hps, List.append_assoc], fun p hp => ?_⟩,
    h.goesOn.trans h'.goesOn⟩
  exact (List.mem_append.mp hp).elim (hfix p) (hfix' p)

theorem halted (h : OnlyReports r r') : r'.preenHalted = r.preenHalted := h.goesOn.halted

/-- Only the counts of the report changed. -/
theorem of_eq (hproblems : r'.problems = r.problems) (hhalted : r'.preenHalted = r.preenHalted) :
    OnlyReports r r' :=
  ⟨⟨[], by rw [hproblems, List.append_nil], nofun⟩, hhalted, fun hr p hp => hr p (hproblems ▸ hp)⟩

theorem pushFixed (r : FsckReport) (pass : Nat) (code : Code) (severity : Severity)
    (message : String) {repairing : Bool} (h : repairing = true → code ∈ notes)
    (hrated : graded code severity) :
    OnlyReports r (r.pushFixed pass code severity message repairing) :=
  ⟨⟨_, rfl, by simpa [Problem.isNote] using h⟩, .pushFixed r pass code severity message _ hrated⟩

/-- Something done, and noted. -/
theorem note (r : FsckReport) (pass : Nat) (code : Code) (severity : Severity)
    (message : String) (h : code ∈ notes) (hrated : graded code severity) :
    OnlyReports r (r.pushFixed pass code severity message true) :=
  pushFixed r pass code severity message (fun _ => h) hrated

theorem push (r : FsckReport) (pass : Nat) (code : Code) (severity : Severity)
    (message : String) (hrated : graded code severity) :
    OnlyReports r (r.push pass code severity message) :=
  pushFixed r pass code severity message (by simp) hrated

theorem pushIf (r : FsckReport) (bad : Prop) [Decidable bad] (pass : Nat) (code : Code)
    (severity : Severity) (message : String) (hrated : graded code severity) :
    OnlyReports r (r.pushIf bad pass code severity message) := by
  unfold FsckReport.pushIf
  split
  · exact push r pass code severity message hrated
  · exact refl r

theorem foldl {α : Type} {g : FsckReport → α → FsckReport} (hg : ∀ r x, OnlyReports r (g r x))
    (xs : List α) (r : FsckReport) : OnlyReports r (xs.foldl g r) := by
  induction xs generalizing r with
  | nil => exact refl r
  | cons x xs ih => exact (hg r x).trans (ih _)

/-- The same over findings, whose report the step adds to. -/
theorem findings_foldl {α : Type} {g : Findings → α → Findings}
    (hg : ∀ f x, OnlyReports f.report (g f x).report) (xs : List α) (f : Findings) :
    OnlyReports f.report (xs.foldl g f).report := by
  induction xs generalizing f with
  | nil => exact refl _
  | cons x xs ih => exact (hg f x).trans (ih _)

/-- The same over findings, by a step that may fail. -/
theorem findings_foldlM {α : Type} {g : Findings → α → Except Failure Findings}
    (hg : ∀ f x f', g f x = .ok f' → OnlyReports f.report f'.report) {xs : List α}
    {f f' : Findings} (h : xs.foldlM g f = .ok f') : OnlyReports f.report f'.report :=
  foldlM_ok (fun _ k => OnlyReports f.report k.report)
    (fun _ x k k' hk hstep => hk.trans (hg k x k' hstep)) (refl _) h

end OnlyReports

variable {fs : Filesystem} {f f' : Findings}

/-! ## Passes 0 to 4 -/

theorem checkPointer_reports (sb : Superblock) (group : Nat) (f : Findings) (p : String × Nat) :
    OnlyReports f.report (checkPointer sb group f p).report := .pushIf _ _ _ _ _ _ rfl

theorem checkDescCsum_reports (group : Nat) (desc : GroupDesc) (f : Findings) :
    OnlyReports f.report (checkDescCsum fs group desc f).report := .pushIf _ _ _ _ _ _ rfl

theorem pass0Group_reports {group : Nat} (h : pass0Group fs f group = .ok f') :
    OnlyReports f.report f'.report := by
  unfold pass0Group at h
  obtain ⟨_, -, h⟩ := bind_ok h
  split at h
  · cases h
    exact .refl _
  · obtain ⟨_, -, h⟩ := bind_ok h
    cases h
    refine OnlyReports.trans ?_ (checkDescCsum_reports _ _ _)
    have hclaim : ∀ (g : Findings) (a b c d : Nat),
        (((g.claim a).claim b).claimRange c d).report = g.report := fun _ _ _ _ _ => rfl
    rw [hclaim]
    have hclaim' : ∀ a b : Nat, (f.claimRange a b).report = f.report := fun _ _ => rfl
    rw [← hclaim' (fs.groupFirstBlock group) (fs.groupFirstBlock group + fs.superOverhead group)]
    exact OnlyReports.findings_foldl (checkPointer_reports _ _) _ _

theorem checkSuperblock_reports (h : checkSuperblock fs f = .ok f') :
    OnlyReports f.report f'.report := by
  unfold checkSuperblock at h
  dsimp only at h
  split at h
  · cases h
    exact (OnlyReports.pushIf _ _ _ _ _ _ rfl).trans (.pushIf _ _ _ _ _ _ rfl)
  · obtain ⟨raw, -, h⟩ := bind_ok h
    cases h
    exact ((OnlyReports.pushIf _ _ _ _ _ _ rfl).trans
      (.pushIf _ _ _ _ _ _ rfl)).trans
      (.pushIf _ _ _ _ _ _ rfl)

theorem pass0Superblock_reports (h : pass0Superblock fs f = .ok f') :
    OnlyReports f.report f'.report := by
  unfold pass0Superblock at h
  dsimp only at h
  split at h
  · cases h
    exact (OnlyReports.pushIf _ _ _ _ _ _ rfl).trans (.push _ _ _ _ _ rfl)
  · obtain ⟨f1, h1, h⟩ := bind_ok h
    obtain ⟨f2, h2, h⟩ := bind_ok h
    cases h
    have hloose : (claimLoose fs.superblock f2).report = f2.report := by
      unfold claimLoose
      dsimp only
      split <;> rfl
    rw [hloose]
    exact ((OnlyReports.pushIf _ _ _ _ _ _ rfl).trans (checkSuperblock_reports h1)).trans
      (OnlyReports.findings_foldlM (fun _ _ _ => pass0Group_reports) h2)

theorem checkExtentCsums_reports {inode : Inode} {inum : Nat}
    (h : checkExtentCsums fs inode inum f = .ok f') : OnlyReports f.report f'.report := by
  unfold checkExtentCsums at h
  split at h
  · cases h
    exact OnlyReports.findings_foldl (fun _ _ => .push _ _ _ _ _ rfl) _ f
  · cases h
    exact .refl _
  · cases h

theorem claimInode_reports {inode : Inode} {inum : Nat}
    (h : claimInode fs inode inum f = .ok f') : OnlyReports f.report f'.report := by
  unfold claimInode at h
  dsimp only at h
  split at h
  · cases h
    exact .push _ _ _ _ _ rfl
  · cases h
  · obtain ⟨f1, h1, h⟩ := bind_ok h
    cases h
    refine OnlyReports.trans ?_
      ((checkExtentCsums_reports h1).trans (.pushIf _ _ _ _ _ _ rfl))
    exact OnlyReports.findings_foldl (fun _ _ => .push _ _ _ _ _ rfl) _
      ⟨f.report, (fs.walkBlocks inode).1.foldl
        (visitBlock fs.superblock (decide (inum = Ino.resize))) f.state⟩

theorem checkInode_reports {raw : List UInt8} {inode : Inode} {inum : Nat}
    (h : checkInode fs raw inode inum f = .ok f') : OnlyReports f.report f'.report := by
  unfold checkInode at h
  obtain ⟨sound, -, h⟩ := bind_ok h
  cases h
  refine OnlyReports.trans ?_ (.pushIf _ _ _ _ _ _ rfl)
  split <;> exact .pushIf _ _ _ _ _ _ rfl

theorem pass1Inode_reports {inum : Nat} (h : pass1Inode fs inum f = .ok f') :
    OnlyReports f.report f'.report := by
  unfold pass1Inode at h
  obtain ⟨raw, -, h⟩ := bind_ok h
  obtain ⟨inode, -, h⟩ := bind_ok h
  split at h
  · cases h
    exact .refl _
  · obtain ⟨f1, h1, h⟩ := bind_ok h
    split at h
    · cases h
      exact checkInode_reports h1
    · exact (checkInode_reports h1).trans (claimInode_reports h)

theorem pass1Group_reports {group : Nat} {ws : List Nat} (h : pass1Group fs group ws f = .ok f') :
    OnlyReports f.report f'.report := by
  induction ws generalizing f with
  | nil =>
    cases h
    exact .refl _
  | cons w ws ih =>
    simp only [pass1Group] at h
    obtain ⟨_, -, h⟩ := bind_ok h
    split at h
    · cases h
      exact .refl _
    · obtain ⟨f1, h1, h⟩ := bind_ok h
      exact (pass1Inode_reports h1).trans (ih h)

theorem pass1Inodes_reports (h : pass1Inodes fs f = .ok f') : OnlyReports f.report f'.report := by
  unfold pass1Inodes at h
  obtain ⟨f1, h1, h⟩ := bind_ok h
  cases h
  exact (OnlyReports.findings_foldlM (fun _ _ _ => pass1Group_reports) h1).trans
    (OnlyReports.findings_foldl (fun _ _ => .push _ _ _ _ _ rfl) _ _)

theorem scanDirBlock_reports (dirIno : Nat) (dir : Inode) (logical : Nat) (buf : List UInt8)
    (s : DirScan) : OnlyReports s.report (scanDirBlock fs dirIno dir logical buf s).report := by
  unfold scanDirBlock
  dsimp only
  generalize hsums : (if fs.hasMetadataCsum = true then _ else s.report) = report
  have hcsum : OnlyReports s.report report := by
    rw [← hsums]
    split
    · split
      · exact .pushIf _ _ _ _ _ _ rfl
      · exact .refl _
    · exact .refl _
  split
  · exact hcsum
  · exact hcsum.trans (.push _ _ _ _ _ rfl)

theorem scanDir_reports {dirIno : Nat} {dir : Inode} {blocks : List Nat} {s s' : DirScan}
    (h : scanDir fs dirIno dir blocks s = .ok s') : OnlyReports s.report s'.report := by
  induction blocks generalizing s with
  | nil =>
    cases h
    exact .refl _
  | cons logical rest ih =>
    simp only [scanDir] at h
    obtain ⟨mapped, -, h⟩ := bind_ok h
    split at h
    · exact ih h
    · split at h
      · exact (scanDirBlock_reports _ _ _ _ _).trans (ih h)
      · cases h
        exact .push _ _ _ _ _ rfl
      · cases h

theorem checkDot_reports (dirIno : Nat) (entries : List DirEntry) (f : Findings) :
    OnlyReports f.report (checkDot dirIno entries f).report := by
  unfold checkDot
  split
  · split
    · exact .pushIf _ _ _ _ _ _ rfl
    · exact .push _ _ _ _ _ rfl
  · exact .push _ _ _ _ _ rfl

theorem checkDotdot_reports (dirIno : Nat) (entries : List DirEntry) (f : Findings) :
    OnlyReports f.report (checkDotdot dirIno entries f).report := by
  unfold checkDotdot
  dsimp only
  split
  · split
    · exact .refl _
    · exact .push _ _ _ _ _ rfl
  · exact .push _ _ _ _ _ rfl

theorem checkFiletype_reports {dirIno : Nat} {entry : DirEntry}
    (h : checkFiletype fs dirIno entry f = .ok f') : OnlyReports f.report f'.report := by
  unfold checkFiletype at h
  split at h
  · cases h
    exact .refl _
  · obtain ⟨target, -, h⟩ := bind_ok h
    cases h
    exact .pushIf _ _ _ _ _ _ rfl

theorem countLink_reports {inum : Nat} (h : countLink inum f = .ok f') :
    OnlyReports f.report f'.report := by
  unfold countLink at h
  obtain ⟨_, -, h⟩ := bind_ok h
  cases h
  exact .refl _

theorem checkEntries_reports {dirIno : Nat} {seen : List (List UInt8)} {entries : List DirEntry}
    (h : checkEntries fs dirIno seen entries f = .ok f') : OnlyReports f.report f'.report := by
  induction entries generalizing f seen with
  | nil =>
    cases h
    exact .refl _
  | cons entry rest ih =>
    simp only [checkEntries] at h
    split at h
    · exact (OnlyReports.push _ _ _ _ _ rfl).trans (ih h)
    · split at h
      · exact ((OnlyReports.pushIf _ _ _ _ _ _ rfl).trans
          (.push _ _ _ _ _ rfl)).trans (ih h)
      · obtain ⟨f1, h1, h⟩ := bind_ok h
        obtain ⟨f2, h2, h⟩ := bind_ok h
        have hname := OnlyReports.pushIf f.report (entry.name ∈ seen) 2 .duplicateName .serious
          (s!"directory {dirIno} has more than one entry named '" ++ entry.nameString ++ "'") rfl
        exact ((hname.trans (checkFiletype_reports h1)).trans (countLink_reports h2)).trans (ih h)

theorem pass2Directory_reports {dirIno : Nat} (h : pass2Directory fs f dirIno = .ok f') :
    OnlyReports f.report f'.report := by
  unfold pass2Directory at h
  obtain ⟨dir, -, h⟩ := bind_ok h
  obtain ⟨_, -, h⟩ := bind_ok h
  obtain ⟨s, hs, h⟩ := bind_ok h
  have hscan := scanDir_reports hs
  split at h
  · cases h
    exact hscan
  · have hdots := (checkDot_reports dirIno s.entries { f with report := s.report }).trans
      (checkDotdot_reports dirIno s.entries _)
    exact (hscan.trans hdots).trans (checkEntries_reports h)

theorem pass3Connectivity_reports (f : Findings) :
    OnlyReports f.report (pass3Connectivity f).report := by
  unfold pass3Connectivity
  dsimp only
  split
  · exact .push _ _ _ _ _ rfl
  · refine OnlyReports.trans (OnlyReports.findings_foldl ?_ _ f)
      (OnlyReports.findings_foldl ?_ _ _)
    · exact fun _ _ => .pushIf _ _ _ _ _ _ rfl
    · intro f p
      split
      · exact .pushIf _ _ _ _ _ _ rfl
      · exact .refl _

theorem pass4Inode_reports {acc acc' : Findings × List LinkFix} {inum : Nat}
    (h : pass4Inode fs acc inum = .ok acc') : OnlyReports acc.1.report acc'.1.report := by
  unfold pass4Inode at h
  dsimp only at h
  split at h
  · cases h
    exact .refl _
  · obtain ⟨inode, -, h⟩ := bind_ok h
    split at h
    · cases h
      exact .push _ _ _ _ _ rfl
    · split at h
      · cases h
        exact .push _ _ _ _ _ rfl
      · cases h
        exact .refl _

theorem scan_reports {fixes : List LinkFix} (h : scan fs f = .ok (f', fixes)) :
    OnlyReports f.report f'.report := by
  unfold scan at h
  obtain ⟨f1, h1, h⟩ := bind_ok h
  obtain ⟨f2, h2, h⟩ := bind_ok h
  have hpass4 := foldlM_ok (fun _ (acc : Findings × List LinkFix) =>
    OnlyReports (pass3Connectivity f2).report acc.1.report)
    (fun _ _ _ _ hacc hstep => hacc.trans (pass4Inode_reports hstep)) (OnlyReports.refl _) h
  exact (((pass1Inodes_reports h1).trans
    (OnlyReports.findings_foldlM (fun _ _ _ => pass2Directory_reports) h2)).trans
    (pass3Connectivity_reports f2)).trans hpass4

/-! ## What is written before the passes -/

/-- What the journal stage writes that repairs nothing. -/
inductive JournalUpkeep (fuel : Nat) : Filesystem → Filesystem → Prop
  | nothing (fs : Filesystem) : JournalUpkeep fuel fs fs
  /-- The kernel aborted the journal: its error number goes, the error stays in `s_state`. -/
  | errno {fs fs' : Filesystem} {journal : Jbd2.Journal} :
      exec openJournal fs = (.ok (.ok journal), fs) → journal.header.errno ≠ 0 →
      exec (do
        setState (withBits State.errorFs)
        clearErrno journal
        flushSuperblock) fs = (.ok (), fs') → JournalUpkeep fuel fs fs'
  | recovered {fs fs' : Filesystem} {journal : Jbd2.Journal} {r r' : FsckReport} :
      exec openJournal fs = (.ok (.ok journal), fs) →
      exec (replayJournal fuel journal r) fs = (.ok r', fs') → JournalUpkeep fuel fs fs'

/-- What the orphan stage writes. -/
inductive OrphanUpkeep (now : Nat) : Filesystem → Filesystem → Prop
  | nothing (fs : Filesystem) : OrphanUpkeep now fs fs
  | released {fs fs' : Filesystem} {r r' : FsckReport} :
      Orphan.hasOrphans fs.superblock = true → exec (orphanStage now r) fs = (.ok r', fs') →
      OrphanUpkeep now fs fs'

/-- `fs'` is `fs` with `ERROR_FS` set and the superblock written. -/
def Marked (fs fs' : Filesystem) : Prop :=
  exec (do
    setState (withBits State.errorFs)
    flushSuperblock) fs = (.ok (), fs')

/-- A byte of the superblock on the device that is not what the superblock in memory says. -/
def Stale (fs : Filesystem) (p : Nat) : Prop :=
  superblockOffset ≤ p ∧ p < superblockOffset + superblockLen ∧
    (fs.superblock.encodeInto (window fs.device.bytes superblockOffset superblockLen)).getD
      (p - superblockOffset) 0 ≠ fs.device.bytes p

/-- Where `s_state` and the superblock's checksum lie on the device. -/
def FlagByte (p : Nat) : Prop :=
  (superblockOffset + 0x3a ≤ p ∧ p < superblockOffset + 0x3c) ∨
    (superblockOffset + 0x3fc ≤ p ∧ p < superblockOffset + 0x400)

/-- The superblock on the device encodes to itself, `s_state` and the checksum apart. -/
def Restated (fs : Filesystem) : Prop := ∀ p, Stale fs p → FlagByte p

/-- A byte of the marked superblock is the one the superblock encodes to. -/
theorem Marked.byte_eq {fs fs' : Filesystem} (h : Marked fs fs') {p : Nat}
    (hin : superblockOffset ≤ p ∧ p < superblockOffset + superblockLen) (hflag : ¬ FlagByte p) :
    fs'.device.bytes p =
      (fs.superblock.encodeInto (window fs.device.bytes superblockOffset superblockLen)).getD
        (p - superblockOffset) 0 := by
  obtain ⟨_, fs1, hset, hflush⟩ := exec_bind_ok h
  cases hset
  rw [flushSuperblock_ok hflush]
  simp only [withBytes]
  rw [overlay_of_mem _ _ 0 hin.1 (by rw [Superblock.length_encodeInto, length_window]; exact hin.2)]
  unfold FlagByte at hflag
  exact Superblock.encodeInto_state fs.superblock (withBits State.errorFs fs.superblock.state)
    (window fs.device.bytes superblockOffset superblockLen) (by rw [length_window]; omega)
    (by omega) (by omega)

theorem Marked.outside {fs fs' : Filesystem} (h : Marked fs fs') {p : Nat}
    (hout : ¬ (superblockOffset ≤ p ∧ p < superblockOffset + superblockLen)) :
    fs'.device.bytes p = fs.device.bytes p := by
  obtain ⟨_, fs1, hset, hflush⟩ := exec_bind_ok h
  cases hset
  rw [flushSuperblock_ok hflush]
  simp only [withBytes]
  rw [overlay_apply _ _ _ _ 0, Superblock.length_encodeInto, length_window, if_neg hout]

/-- Marking changes `s_state` and the checksum alone exactly when the rest of the superblock
    encodes to itself. -/
theorem Marked.flags_iff {fs fs' : Filesystem} (h : Marked fs fs') :
    (∀ p, fs'.device.bytes p ≠ fs.device.bytes p → FlagByte p) ↔ Restated fs := by
  constructor
  · rintro hbytes p ⟨hlo, hhi, hne⟩
    by_contra hflag
    exact hflag (hbytes p fun hsame => hne ((h.byte_eq ⟨hlo, hhi⟩ hflag).symm.trans hsame))
  · intro hrest p hne
    by_contra hflag
    have hin : superblockOffset ≤ p ∧ p < superblockOffset + superblockLen := by
      by_contra hout
      exact hne (h.outside hout)
    exact hflag (hrest p ⟨hin.1, hin.2, fun hsame => hne ((h.byte_eq hin hflag).trans hsame)⟩)

/-- A superblock that was just written encodes to itself. -/
theorem endsIn_flush : EndsIn Restated flushSuperblock := by
  rintro fs _ fs' hflush p ⟨hlo, hhi, hne⟩
  have hlen : (fs.superblock.encodeInto (window fs.device.bytes superblockOffset superblockLen)).length
      = superblockLen := by rw [Superblock.length_encodeInto, length_window]
  obtain rfl := flushSuperblock_ok hflush
  simp only [withBytes] at hne
  have hwindow := window_overlay fs.device.bytes superblockOffset
    (fs.superblock.encodeInto (window fs.device.bytes superblockOffset superblockLen))
  rw [hlen] at hwindow
  rw [hwindow, Superblock.encodeInto_encodeInto,
    overlay_of_mem _ _ 0 hlo (by rw [hlen]; exact hhi)] at hne
  exact absurd rfl hne

/-- The superblock sets `needs_recovery` on a filesystem that has no journal. -/
def RecoverWithoutJournal (sb : Superblock) : Prop :=
  sb.featureIncompat.contains IncompatFeatures.recover = true ∧
    sb.featureCompat.contains CompatFeatures.hasJournal = false

variable {fs' : Filesystem} {options : FsckOptions} {r r' : FsckReport}

/-! ## The journal stage of a preening check -/

theorem preenHalt_ok (h : exec (preenHalt r) fs = (.ok r', fs')) :
    r' = { r with preenHalted := true } ∧ Marked fs fs' := by
  obtain ⟨_, fs1, hset, hrest⟩ := exec_bind_ok h
  obtain ⟨_, fs2, hflush, hpure⟩ := exec_bind_ok hrest
  cases hset
  obtain ⟨rfl, rfl⟩ := exec_pure_ok hpure
  exact ⟨rfl, hflush⟩

/-- What the journal stage hands on: the report added to, and either the check goes on over the
    upkeep, or it stops, marked. -/
structure JournalOutcome (fuel : Nat) (fs : Filesystem) (r : FsckReport) (stop : Bool)
    (r' : FsckReport) (fs' : Filesystem) : Prop where
  goes : stop = false → OnlyReports r r' ∧ JournalUpkeep fuel fs fs'
  stops : stop = true → ∃ r1, OnlyReports r r1 ∧ r' = { r1 with preenHalted := true } ∧
    Marked fs fs'

theorem JournalOutcome.nothing (fuel : Nat) (fs : Filesystem) (r : FsckReport) :
    JournalOutcome fuel fs r false r fs :=
  ⟨fun _ => ⟨.refl r, .nothing fs⟩, nofun⟩

/-- The check stops here. -/
theorem JournalOutcome.halt {fuel : Nat} {fs fs' : Filesystem} {r r1 : FsckReport} {b : Bool}
    (hr : OnlyReports r r1)
    (h : exec (do return (true, ← preenHalt r1) : FsM (Bool × FsckReport)) fs = (.ok (b, r'), fs')) :
    JournalOutcome fuel fs r b r' fs' := by
  obtain ⟨r2, fs1, hhalt, hpure⟩ := exec_bind_ok h
  obtain ⟨heq, rfl⟩ := exec_pure_ok hpure
  obtain ⟨rfl, rfl⟩ := Prod.mk.inj heq
  obtain ⟨rfl, hmarked⟩ := preenHalt_ok hhalt
  exact ⟨nofun, fun _ => ⟨r1, hr, rfl, hmarked⟩⟩

/-- A replay is noted, and so are its errors. -/
theorem replayJournal_reports (fuel : Nat) (journal : Jbd2.Journal) (r : FsckReport) :
    Returns (OnlyReports r) (replayJournal fuel journal r) := by
  have hnote : ∀ (message : String) (errors : List String), OnlyReports r (errors.foldl
      (fun r e => r.push 0 .journalRecoveryError .info e)
      (r.pushFixed 0 .journalRecovered .info message true)) := fun message errors =>
    (OnlyReports.note r 0 .journalRecovered .info message (by decide) rfl).trans
      (OnlyReports.foldl (fun _ _ => .push _ _ _ _ _ rfl) errors _)
  unfold replayJournal
  refine returns_then fun result => ?_
  split
  · exact returns_throw _
  · refine returns_then fun _ => returns_then fun _ => ?_
    dsimp only
    split
    all_goals
      split
      all_goals
        repeat refine returns_then fun _ => ?_
        exact returns_pure (hnote _ _)

theorem openedJournal_ok (hpreen : options.preen = true) {fuel : Nat} {recover stop : Bool}
    {journal : Jbd2.Journal} (hopen : exec openJournal fs = (.ok (.ok journal), fs))
    (h : exec (openedJournal fuel options recover journal r) fs = (.ok (stop, r'), fs')) :
    JournalOutcome fuel fs r stop r' fs' := by
  have hwrites : options.writes = true := by simp [FsckOptions.writes, hpreen]
  unfold openedJournal at h
  simp only [hwrites, hpreen, Bool.not_true, Bool.and_false, Bool.false_eq_true, and_false,
    if_false, and_true, if_true] at h
  split at h
  · refine JournalOutcome.halt ?_ h
    exact .pushFixed _ _ _ _ _ (fun hno => absurd hno Bool.false_ne_true) rfl
  · split at h
    · split at h
      · next herrno =>
        obtain ⟨_, fs1, h1, h⟩ := exec_bind_ok h
        obtain ⟨_, fs2, h2, h⟩ := exec_bind_ok h
        obtain ⟨_, fs3, h3, h⟩ := exec_bind_ok h
        obtain ⟨heq, rfl⟩ := exec_pure_ok h
        obtain ⟨rfl, rfl⟩ := Prod.mk.inj heq
        refine ⟨fun _ => ⟨.refl _, .errno hopen herrno ?_⟩, (absurd · Bool.false_ne_true)⟩
        rw [exec_bind_of_ok h1, exec_bind_of_ok h2, h3]
      · obtain ⟨heq, rfl⟩ := exec_pure_ok h
        obtain ⟨rfl, rfl⟩ := Prod.mk.inj heq
        exact .nothing fuel fs' r'
    · obtain ⟨r1, fs1, h1, h⟩ := exec_bind_ok h
      obtain ⟨heq, rfl⟩ := exec_pure_ok h
      obtain ⟨rfl, rfl⟩ := Prod.mk.inj heq
      exact ⟨fun _ => ⟨replayJournal_reports _ _ _ _ _ _ h1, .recovered hopen h1⟩,
        (absurd · Bool.false_ne_true)⟩

/-- A replay writes the superblock last. -/
theorem replayJournal_endsIn {P : Filesystem → Prop} (hflush : EndsIn P flushSuperblock)
    (fuel : Nat) (journal : Jbd2.Journal) (r : FsckReport) :
    EndsIn P (replayJournal fuel journal r) := by
  unfold replayJournal
  refine endsIn_then fun result => ?_
  split
  · exact endsIn_throw _
  · refine endsIn_then fun _ => endsIn_then fun _ => ?_
    dsimp only
    split
    all_goals
      split
      all_goals
        repeat first
          | exact hflush.map _
          | refine endsIn_then fun _ => ?_

theorem openJournal_ok {opened : Except String Jbd2.Journal}
    (h : exec openJournal fs = (.ok opened, fs')) : fs' = fs := by
  have hkeep := openJournal_keeps fs
  rw [h] at hkeep
  exact hkeep

theorem journalStage_ok (hpreen : options.preen = true)
    (hflag : ¬ RecoverWithoutJournal fs.superblock) {fuel : Nat} {stop : Bool}
    (h : exec (journalStage fuel options r) fs = (.ok (stop, r'), fs')) :
    JournalOutcome fuel fs r stop r' fs' := by
  have hwrites : options.writes = true := by simp [FsckOptions.writes, hpreen]
  have hnothing : exec (pure (false, r) : FsM (Bool × FsckReport)) fs = (.ok (stop, r'), fs') →
      JournalOutcome fuel fs r stop r' fs' := by
    intro hpure
    obtain ⟨heq, rfl⟩ := exec_pure_ok hpure
    obtain ⟨rfl, rfl⟩ := Prod.mk.inj heq
    exact .nothing fuel fs' r'
  unfold journalStage at h
  obtain ⟨fs0, fs1, hget, h⟩ := exec_bind_ok h
  cases hget
  simp only [hwrites, hpreen, Bool.not_true, Bool.false_eq_true, if_false, if_true] at h
  split at h
  · next hjournal =>
    split at h
    · exact hnothing h
    · next hrecover => exact absurd ⟨by simpa using hrecover, by simpa using hjournal⟩ hflag
  · obtain ⟨opened, fs1, hopen, h⟩ := exec_bind_ok h
    obtain rfl := openJournal_ok hopen
    split at h
    · exact openedJournal_ok hpreen hopen h
    · split at h
      · exact hnothing h
      · exact JournalOutcome.halt (.push _ _ _ _ _ rfl) h

/-- Without a journal the flag is cleared on the device, and the problem is marked fixed. -/
theorem journalStage_flagged (hpreen : options.preen = true)
    (hflag : RecoverWithoutJournal fs.superblock) {fuel : Nat} {stop : Bool}
    (h : exec (journalStage fuel options r) fs = (.ok (stop, r'), fs')) :
    stop = false ∧ r'.preenHalted = r.preenHalted ∧
      ∃ p ∈ r'.problems, p.fixed = true ∧ p.isNote = false := by
  have hwrites : options.writes = true := by simp [FsckOptions.writes, hpreen]
  unfold journalStage at h
  obtain ⟨fs0, fs1, hget, h⟩ := exec_bind_ok h
  cases hget
  simp only [hwrites, hflag.1, hflag.2, Bool.not_true, Bool.not_false, Bool.false_eq_true,
    if_false, if_true] at h
  obtain ⟨_, fs1, -, h⟩ := exec_bind_ok h
  obtain ⟨_, fs2, -, h⟩ := exec_bind_ok h
  obtain ⟨heq, -⟩ := exec_pure_ok h
  obtain ⟨rfl, rfl⟩ := Prod.mk.inj heq
  exact ⟨rfl, rfl, _, List.mem_append_right _ (List.mem_singleton_self _), rfl, rfl⟩

/-! ### Which filesystems it writes to -/

/-- What a preening check does about the journal before the passes. -/
inductive JournalCare
  | none
  /-- It replays it, or clears its error number. -/
  | writes
  /-- It stops there. -/
  | halts

/-- The filesystem as it was opened tells. -/
def journalCare (fs : Filesystem) : JournalCare :=
  let recover := fs.superblock.featureIncompat.contains IncompatFeatures.recover
  if !fs.superblock.featureCompat.contains CompatFeatures.hasJournal then .none
  else match (exec openJournal fs).1 with
    | .ok (.ok journal) =>
      if recover then .writes
      else if journal.header.start ≠ 0 then .halts
      else if journal.header.errno ≠ 0 then .writes
      else .none
    | .ok (.error _) => if recover then .halts else .none
    | .error _ => .none

/-- The journal stage has done so. -/
def JournalCare.Done (fs : Filesystem) (r : FsckReport) (stop : Bool) (r' : FsckReport)
    (fs' : Filesystem) : JournalCare → Prop
  | .none => stop = false ∧ r' = r ∧ fs' = fs
  | .writes => stop = false ∧ Restated fs'
  | .halts => stop = true

theorem JournalCare.done_none {stop : Bool}
    (h : exec (pure (false, r) : FsM (Bool × FsckReport)) fs = (.ok (stop, r'), fs')) :
    Done fs r stop r' fs' .none := by
  obtain ⟨heq, rfl⟩ := exec_pure_ok h
  obtain ⟨rfl, rfl⟩ := Prod.mk.inj heq
  exact ⟨rfl, rfl, rfl⟩

theorem JournalCare.done_halts {stop : Bool} {r1 : FsckReport}
    (h : exec (do return (true, ← preenHalt r1) : FsM (Bool × FsckReport)) fs =
      (.ok (stop, r'), fs')) : Done fs r stop r' fs' .halts := by
  obtain ⟨r2, fs1, -, hpure⟩ := exec_bind_ok h
  exact (Prod.mk.inj (exec_pure_ok hpure).1).1

theorem openedJournal_care (hpreen : options.preen = true) {fuel : Nat} {stop : Bool}
    {journal : Jbd2.Journal} (hopen : exec openJournal fs = (.ok (.ok journal), fs))
    (hjournal : fs.superblock.featureCompat.contains CompatFeatures.hasJournal = true)
    (h : exec (openedJournal fuel options
      (fs.superblock.featureIncompat.contains IncompatFeatures.recover) journal r) fs =
        (.ok (stop, r'), fs')) : (journalCare fs).Done fs r stop r' fs' := by
  have hwrites : options.writes = true := by simp [FsckOptions.writes, hpreen]
  unfold journalCare
  simp only [hjournal, hopen, Bool.not_true, Bool.false_eq_true, if_false]
  unfold openedJournal at h
  simp only [hwrites, hpreen, Bool.not_true, Bool.and_false, Bool.false_eq_true, and_false,
    if_false, and_true, if_true] at h
  split at h
  · next hunflagged =>
    simp only [Bool.and_eq_true, Bool.not_eq_true', decide_eq_true_eq] at hunflagged
    rw [hunflagged.1, if_neg Bool.false_ne_true, if_pos hunflagged.2]
    exact JournalCare.done_halts h
  · next hflagged =>
    split at h
    · next hclean =>
      simp only [Bool.not_eq_true', decide_eq_false_iff_not, ne_eq, Decidable.not_not] at hclean
      rw [hclean.1, if_neg Bool.false_ne_true, if_neg (absurd hclean.2)]
      split at h
      · next herrno =>
        obtain ⟨_, fs1, h1, h⟩ := exec_bind_ok h
        obtain ⟨_, fs2, h2, h⟩ := exec_bind_ok h
        obtain ⟨_, fs3, h3, h⟩ := exec_bind_ok h
        obtain ⟨heq, rfl⟩ := exec_pure_ok h
        rw [if_pos herrno]
        exact ⟨(Prod.mk.inj heq).1, endsIn_flush _ _ _ h3⟩
      · next herrno =>
        rw [if_neg herrno]
        exact JournalCare.done_none h
    · next hdue =>
      obtain ⟨r1, fs1, h1, h⟩ := exec_bind_ok h
      obtain ⟨heq, rfl⟩ := exec_pure_ok h
      have hrecover :
          fs.superblock.featureIncompat.contains IncompatFeatures.recover = true := by
        by_contra hno
        rw [Bool.not_eq_true] at hno
        simp only [hno, Bool.not_false, Bool.true_and, decide_eq_true_eq, true_and,
          Bool.not_eq_true', decide_eq_false_iff_not] at hflagged hdue
        exact hdue hflagged
      rw [if_pos hrecover]
      exact ⟨(Prod.mk.inj heq).1, replayJournal_endsIn endsIn_flush _ _ _ _ _ _ h1⟩

theorem journalStage_care (hpreen : options.preen = true)
    (hflag : ¬ RecoverWithoutJournal fs.superblock) {fuel : Nat} {stop : Bool}
    (h : exec (journalStage fuel options r) fs = (.ok (stop, r'), fs')) :
    (journalCare fs).Done fs r stop r' fs' := by
  have hwrites : options.writes = true := by simp [FsckOptions.writes, hpreen]
  unfold journalStage at h
  obtain ⟨fs0, fs1, hget, h⟩ := exec_bind_ok h
  cases hget
  simp only [hwrites, hpreen, Bool.not_true, Bool.false_eq_true, if_false, if_true] at h
  split at h
  · next hjournal =>
    split at h
    · unfold journalCare
      rw [if_pos hjournal]
      exact JournalCare.done_none h
    · next hrecover => exact absurd ⟨by simpa using hrecover, by simpa using hjournal⟩ hflag
  · next hjournal =>
    obtain ⟨opened, fs1, hopen, h⟩ := exec_bind_ok h
    obtain rfl := openJournal_ok hopen
    split at h
    · exact openedJournal_care hpreen hopen (by simpa using hjournal) h
    · unfold journalCare
      rw [if_neg hjournal, hopen]
      dsimp only
      split at h
      · next hrecover =>
        rw [if_neg (by simpa using hrecover)]
        exact JournalCare.done_none h
      · next hrecover =>
        rw [if_pos (by simpa using hrecover)]
        exact JournalCare.done_halts h

/-! ## The orphans, and the passes -/

theorem orphanStage_reports (now : Nat) (r : FsckReport) :
    Returns (OnlyReports r) (orphanStage now r) := by
  unfold orphanStage
  refine returns_then fun released => ?_
  have hnotes := (OnlyReports.foldl (fun r (o : Orphan.Released) =>
    OnlyReports.note r 0 .orphanReleased .info o.message (by decide) rfl)
    released.released r).trans (.pushIf _ released.skippedForErrors 0 .orphanReleaseError .info
      "orphan list not processed: the filesystem records errors" rfl)
  dsimp only
  split
  · exact returns_pure hnotes
  · refine returns_then fun _ => returns_then fun _ => returns_pure ?_
    exact hnotes.trans (OnlyReports.foldl (fun _ _ => .push _ _ _ _ _ rfl) _ _)

theorem releaseAll_restates (now : Nat) (sb : Superblock) (orphanFile : Bool) :
    EndsIn Restated (Orphan.releaseAll now sb orphanFile) := by
  unfold Orphan.releaseAll
  dsimp only
  repeat first
    | exact endsIn_flush.map _
    | refine endsIn_then fun _ => ?_
    | split

/-- A release ends with the superblock written. -/
theorem releaseOrphans_restates (now : Nat) (horphans : Orphan.hasOrphans fs.superblock = true)
    {out : Orphan.OrphanRelease} (h : exec (Orphan.releaseOrphans now) fs = (.ok out, fs')) :
    Restated fs' := by
  unfold Orphan.releaseOrphans at h
  obtain ⟨fs0, fs1, hget, h⟩ := exec_bind_ok h
  cases hget
  simp only [horphans, Bool.not_true, Bool.false_eq_true, if_false] at h
  obtain ⟨_, fs2, -, h⟩ := exec_bind_ok h
  refine (?_ : EndsIn Restated _) fs2 out fs' h
  split
  · split
    all_goals exact endsIn_then fun _ => endsIn_then fun _ => endsIn_flush.map _
  · split
    · exact endsIn_flush.map _
    · exact releaseAll_restates _ _ _

theorem orphanStage_restates {now : Nat} (horphans : Orphan.hasOrphans fs.superblock = true)
    (h : exec (orphanStage now r) fs = (.ok r', fs')) : Restated fs' := by
  unfold orphanStage at h
  obtain ⟨out, fs1, hrelease, h⟩ := exec_bind_ok h
  have hrest := releaseOrphans_restates _ horphans hrelease
  dsimp only at h
  split at h
  · obtain ⟨-, rfl⟩ := exec_pure_ok h
    exact hrest
  · exact endsIn_then (fun _ => endsIn_flush.map _) _ _ _ h

/-- Orphans that a preening check releases before the passes: pass 0 finds nothing that is for
    a person to look at. -/
def OrphansDue (fs : Filesystem) : Prop :=
  Orphan.hasOrphans fs.superblock = true ∧ ∃ f,
    pass0Superblock fs
      { report := { inodesCount := fs.superblock.inodesCount,
                    blocksCount := fs.superblock.blocksCount }, state := .new fs } = .ok f ∧
      (f.report.problems.any fun p => p.severity = .serious) = false

/-- What a preening check writes before it can halt: the journal is replayed or its error number
    cleared, or the journal has nothing to be done and orphans are released. -/
def Tended (fs : Filesystem) : Prop :=
  journalCare fs = .writes ∨ (journalCare fs = .none ∧ OrphansDue fs)

/-- Skipping a filesystem halts nothing. -/
theorem skip_not_halted (now : Nat) (r : FsckReport) :
    Returns (fun r' => r'.preenHalted = r.preenHalted) (skip options now r) := by
  unfold skip
  split
  · refine returns_then fun fs => ?_
    dsimp only
    split
    all_goals
      repeat refine returns_then fun _ => ?_
      exact returns_pure rfl
  · exact returns_then fun fs => returns_pure rfl

/-- What `prepare` hands on to the passes, or ends the check with, after a journal stage that
    answered `stop` with the report `r1` and left `fs1`. -/
def PrepareOutcome (now : Nat) (stop : Bool) (r1 : FsckReport) (fs1 fs' : Filesystem) :
    Except FsckReport Findings → Prop
  | .ok f => stop = false ∧ OnlyReports r1 f.report ∧ OrphanUpkeep now fs1 fs'
  | .error r' =>
    (stop = true ∧ r'.problems = r1.problems ∧ r'.preenHalted = r1.preenHalted ∧ fs' = fs1) ∨
      (stop = false ∧ r'.preenHalted = r1.preenHalted)

theorem prepare_ok (hpreen : options.preen = true) {fuel now : Nat}
    {result : Except FsckReport Findings}
    (h : exec (prepare fuel options now) fs = (.ok result, fs')) :
    ∃ stop r1 fs1, exec (journalStage fuel options {}) fs = (.ok (stop, r1), fs1) ∧
      PrepareOutcome now stop r1 fs1 fs' result := by
  have hwrites : options.writes = true := by simp [FsckOptions.writes, hpreen]
  unfold prepare at h
  obtain ⟨⟨stop, r1⟩, fs1, hjournal, h⟩ := exec_bind_ok h
  refine ⟨stop, r1, fs1, hjournal, ?_⟩
  obtain ⟨fs2, fs3, hget, h⟩ := exec_bind_ok h
  cases hget
  cases stop with
  | true =>
    simp only [if_true] at h
    obtain ⟨rfl, rfl⟩ := exec_pure_ok h
    exact Or.inl ⟨rfl, rfl, rfl, rfl⟩
  | false =>
    simp only [Bool.false_eq_true, if_false] at h
    obtain ⟨f, fs4, hpass0, h⟩ := exec_bind_ok h
    obtain ⟨hpass0, rfl⟩ := reading_ok hpass0
    have hr1 : OnlyReports r1 f.report := by
      have hcounts : OnlyReports r1 { r1 with
          inodesCount := fs4.superblock.inodesCount
          blocksCount := fs4.superblock.blocksCount } := .of_eq rfl rfl
      exact hcounts.trans (pass0Superblock_reports hpass0)
    have hrest : ∀ r2 fs5, OnlyReports f.report r2 ∧ OrphanUpkeep now fs4 fs5 →
        exec (goOn options now f r2) fs5 = (.ok result, fs') →
        PrepareOutcome now false r1 fs4 fs' result := by
      rintro r2 fs5 ⟨hreports, hupkeep⟩ hrun
      unfold goOn at hrun
      split at hrun
      · obtain ⟨rfl, rfl⟩ := exec_pure_ok hrun
        exact ⟨rfl, hr1.trans hreports, hupkeep⟩
      · obtain ⟨due, fs6, hdue, hend⟩ := exec_bind_ok hrun
        obtain ⟨-, rfl⟩ := reading_ok hdue
        split at hend
        · obtain ⟨rfl, rfl⟩ := exec_pure_ok hend
          have hscope : ∀ reason, OnlyReports r2 { r2 with scope := .due reason } :=
            fun _ => .of_eq rfl rfl
          exact ⟨rfl, (hr1.trans hreports).trans (hscope _), hupkeep⟩
        · obtain ⟨r3, fs7, hskip, hpure⟩ := exec_bind_ok hend
          obtain ⟨rfl, rfl⟩ := exec_pure_ok hpure
          refine Or.inr ⟨rfl, ?_⟩
          rw [skip_not_halted now r2 _ _ _ hskip, hreports.halted, hr1.halted]
    split at h
    · next hdue =>
      obtain ⟨r2, fs5, horphan, h⟩ := exec_bind_ok h
      exact hrest r2 fs5 ⟨orphanStage_reports now _ _ _ _ horphan, .released hdue.2.2 horphan⟩ h
    · obtain ⟨r2, fs5, hnone, hrun⟩ := exec_bind_ok h
      obtain ⟨rfl, rfl⟩ := exec_pure_ok hnone
      exact hrest _ _ ⟨.refl _, .nothing _⟩ hrun

/-! ### The repairs halt nothing -/

theorem checkCount_goesOn (writes : Bool) {code : Code} (h : graded code .fixable)
    (message : String) (found counted : Nat) (r : FsckReport) :
    GoesOn r (checkCount writes code message found counted r) := by
  unfold checkCount
  split
  · exact .refl r
  · exact .pushFixed r _ code _ _ _ h

theorem fixBitmap_goesOn (writes : Bool) {code : Code} (h : graded code .fixable)
    (message : String) (block : Nat) (actual expected : List UInt8) (r : FsckReport) :
    Returns (GoesOn r) (fixBitmap writes code message block actual expected r) := by
  have hpush : GoesOn r (r.pushFixed 5 code .fixable message writes) := .pushFixed r _ code _ _ _ h
  unfold fixBitmap
  split
  · exact returns_pure (.refl r)
  · split
    · exact returns_then fun _ => returns_pure hpush
    · exact returns_pure hpush

theorem pass5Group_goesOn (writes : Bool) (state : ScanState) (t : Totals) (group : Nat) :
    Returns (fun t' => GoesOn t.report t'.report) (pass5Group writes state t group) := by
  unfold pass5Group
  refine returns_then fun fs => ?_
  refine returns_then fun actual => returns_then fun desc => ?_
  refine returns_bind (fixBitmap_goesOn _ rfl _ _ _ _ _) fun r1 h1 => ?_
  refine returns_then fun _ => returns_then fun actualInodes => ?_
  refine returns_bind (fixBitmap_goesOn _ rfl _ _ _ _ _) fun r2 h2 => ?_
  have hcounts : ∀ a b c : Nat,
      GoesOn t.report (checkDescCounts writes group desc a b c r2) := by
    intro a b c
    have hblocks := @checkCount_goesOn writes .groupFreeBlocksWrong rfl
    have hinodes := @checkCount_goesOn writes .groupFreeInodesWrong rfl
    have hdirs := @checkCount_goesOn writes .groupDirCountWrong rfl
    exact (((h1.trans h2).trans (hblocks _ _ _ _)).trans (hinodes _ _ _ _)).trans (hdirs _ _ _ _)
  split
  · refine returns_then fun _ => returns_then fun _ => returns_then fun _ => ?_
    exact returns_pure (hcounts _ _ _)
  · exact returns_pure (hcounts _ _ _)

theorem pass5Bitmaps_goesOn (writes : Bool) (f : Findings) :
    Returns (fun f' => GoesOn f.report f'.report) (pass5Bitmaps writes f) := by
  unfold pass5Bitmaps
  refine returns_then fun fs => ?_
  refine returns_bind (P := fun t => GoesOn f.report t.report)
    (returns_foldlM (fun t group ht => ?_) _ (.refl _)) fun t ht => ?_
  · intro s t' s' h
    exact ht.trans (pass5Group_goesOn _ _ _ _ s t' s' h)
  · have hcounts : ∀ (m n : String) (a b a' b' : Nat),
        GoesOn f.report (checkCount writes .superblockFreeInodesWrong n a' b'
          (checkCount writes .superblockFreeBlocksWrong m a b t.report)) := by
      intro m n a b a' b'
      exact (ht.trans (checkCount_goesOn _ rfl _ _ _ _)).trans
        (checkCount_goesOn _ rfl _ _ _ _)
    dsimp only
    split
    · exact returns_then fun _ => returns_pure (hcounts _ _ _ _ _ _)
    · exact returns_pure (hcounts _ _ _ _ _ _)

theorem fixLinks_goesOn (r : FsckReport) (fix : LinkFix) : Returns (GoesOn r) (fixLinks r fix) :=
  returns_then fun _ => returns_then fun _ => returns_pure (.markFixed r _)

theorem fixesLinks_goesOn (fixes : List LinkFix) (r : FsckReport) :
    Returns (GoesOn r) (fixes.foldlM fixLinks r) :=
  returns_foldlM (fun r1 fix h1 s r2 s' h => h1.trans (fixLinks_goesOn r1 fix s r2 s' h)) _ (.refl r)

theorem finish_halted (now : Nat) (r : FsckReport) :
    Returns (fun r' => r'.preenHalted = r.preenHalted) (finish now r) := by
  have hreport : ∀ b c : Bool, (if b = true then r else
      let report := if c = true then r else r.pushFixed 0 .markedClean .fixable
        "filesystem was not cleanly unmounted; marked clean" true
      { report with problems := report.problems.map fun p =>
          if p.code = .fsHasErrors then { p with fixed := true } else p }).preenHalted =
        r.preenHalted := by
    intro b c
    cases b <;> cases c <;> rfl
  have hend : ∀ r1 : FsckReport, r1.preenHalted = r.preenHalted →
      Returns (fun r' => r'.preenHalted = r.preenHalted) (do
        if r1.repairedAnything then flushGroupDescs
        return r1 : FsM FsckReport) := by
    intro r1 h1
    split
    · exact returns_then fun _ => returns_pure h1
    · exact returns_pure h1
  unfold finish
  exact returns_then fun fs => returns_then fun _ => returns_then fun _ => hend _ (hreport _ _)

theorem repairs_halted (now : Nat) (f : Findings) (fixes : List LinkFix) :
    Returns (fun r' => r'.preenHalted = f.report.preenHalted) (repairs options now f fixes) := by
  unfold repairs
  split
  · refine returns_bind (fixesLinks_goesOn fixes f.report) fun r hr => ?_
    refine returns_bind (pass5Bitmaps_goesOn _ _) fun f' hf' => ?_
    intro s r' s' h
    exact (finish_halted _ _ s r' s' h).trans (hr.trans hf').halted
  · exact returns_bind (pass5Bitmaps_goesOn _ _) fun f' hf' => returns_pure hf'.halted

/-- Before the passes write anything a preening check may halt, its report added to and the
    filesystem marked; once they write it does not. -/
theorem passes_ok {now : Nat} (h : exec (passes options now f) fs = (.ok r', fs')) :
    r'.preenHalted = f.report.preenHalted ∨
      ∃ r1, OnlyReports f.report r1 ∧ r' = { r1 with preenHalted := true } ∧ Marked fs fs' := by
  unfold passes at h
  obtain ⟨⟨f1, fixes⟩, fs1, hscan, hrest⟩ := exec_bind_ok h
  obtain ⟨hscan, rfl⟩ := reading_ok hscan
  have hcounts : OnlyReports f.report { f1.report with
      blocksUsed := f1.state.blocks.count
      inodesUsed := f1.state.inodesInUse.length
      directories := f1.state.directories.length } := by
    exact (scan_reports hscan).trans (.of_eq rfl rfl)
  dsimp only at hrest
  split at hrest
  · obtain ⟨rfl, hmarked⟩ := preenHalt_ok hrest
    exact Or.inr ⟨_, hcounts, rfl, hmarked⟩
  · exact Or.inl ((repairs_halted _ _ _ _ _ _ hrest).trans hcounts.halted)

/-! ## The whole check -/

/-- Where a check that halts finds the filesystem: as it was opened, or as the upkeep before the
    passes left it. -/
inductive HaltsAt (fuel : Nat) (options : FsckOptions) (now : Nat) (fs : Filesystem) :
    Filesystem → Prop
  | journal {r : FsckReport} {fs' : Filesystem} :
      exec (journalStage fuel options {}) fs = (.ok (true, r), fs') → HaltsAt fuel options now fs fs
  | passes {f : Findings} {found : Filesystem} :
      exec (prepare fuel options now) fs = (.ok (.ok f), found) → HaltsAt fuel options now fs found

/-- Nothing was repaired: no problem but a note is marked fixed, and the device is the one that
    the journal's recovery and the orphans' release left, with `ERROR_FS` set in its superblock:
    it differs in no byte but those of `s_state` and of the checksum. -/
structure NothingRepaired (fuel : Nat) (options : FsckOptions) (now : Nat) (fs : Filesystem)
    (r : FsckReport) (device : Device) : Prop where
  unfixed : ∀ p ∈ r.problems, p.fixed = true → p.isNote = true
  marked : ∃ fs1 found fs', JournalUpkeep fuel fs fs1 ∧ OrphanUpkeep now fs1 found ∧
    HaltsAt fuel options now fs found ∧ Marked found fs' ∧ device = fs'.device ∧
    ∀ p, device.bytes p ≠ found.device.bytes p → FlagByte p

theorem OnlyReports.mem (h : OnlyReports r r') {p : Problem} (hp : p ∈ r.problems) :
    p ∈ r'.problems := by
  obtain ⟨ps, hps, -⟩ := h.added
  rw [hps]
  exact List.mem_append_left _ hp

theorem OnlyReports.unfixed (h : OnlyReports {} r) :
    ∀ p ∈ r.problems, p.fixed = true → p.isNote = true := by
  obtain ⟨ps, hps, hfix⟩ := h.added
  rw [hps]
  simpa using hfix

theorem goOn_ok {now : Nat} (h : exec (goOn options now f r) fs = (.ok (.ok f'), fs')) :
    fs' = fs := by
  unfold goOn at h
  split at h
  · exact (exec_pure_ok h).2
  · obtain ⟨due, fs1, hdue, hend⟩ := exec_bind_ok h
    obtain ⟨-, rfl⟩ := reading_ok hdue
    split at hend
    · exact (exec_pure_ok hend).2
    · obtain ⟨r1, fs2, -, hpure⟩ := exec_bind_ok hend
      cases (exec_pure_ok hpure).1

/-- The upkeep before the passes left the filesystem alone, or wrote the superblock last: which,
    the filesystem as it was opened tells. -/
theorem prepare_found (hpreen : options.preen = true)
    (hflag : ¬ RecoverWithoutJournal fs.superblock) {fuel now : Nat} {found : Filesystem}
    (h : exec (prepare fuel options now) fs = (.ok (.ok f), found)) :
    (Tended fs → Restated found) ∧ (¬ Tended fs → found = fs) := by
  have hwrites : options.writes = true := by simp [FsckOptions.writes, hpreen]
  unfold prepare at h
  obtain ⟨⟨stop, r1⟩, fs1, hjournal, h⟩ := exec_bind_ok h
  have hdone := journalStage_care hpreen hflag hjournal
  obtain ⟨fs2, fs3, hget, h⟩ := exec_bind_ok h
  cases hget
  cases stop with
  | true =>
    simp only [if_true] at h
    cases (exec_pure_ok h).1
  | false =>
    simp only [Bool.false_eq_true, if_false] at h
    obtain ⟨f0, fs4, hpass0, h⟩ := exec_bind_ok h
    obtain ⟨hpass0, rfl⟩ := reading_ok hpass0
    -- What the orphan stage leaves is what is found.
    have horphans : (Restated found ∧ Orphan.hasOrphans fs4.superblock = true ∧
        (f0.report.problems.any fun p => p.severity = .serious) = false) ∨
        (found = fs4 ∧ ¬ (Orphan.hasOrphans fs4.superblock = true ∧
          (f0.report.problems.any fun p => p.severity = .serious) = false)) := by
      split at h
      · next hdue =>
        obtain ⟨r2, fs5, horphan, h⟩ := exec_bind_ok h
        obtain rfl := goOn_ok h
        exact Or.inl ⟨orphanStage_restates hdue.2.2 horphan, hdue.2.2, by simpa using hdue.2.1⟩
      · next hnot =>
        obtain ⟨r2, fs5, hnone, h⟩ := exec_bind_ok h
        obtain ⟨-, rfl⟩ := exec_pure_ok hnone
        refine Or.inr ⟨goOn_ok h, fun hboth => hnot ⟨hwrites, ?_, hboth.1⟩⟩
        rw [hboth.2]
        rfl
    unfold Tended
    cases hcare : journalCare fs with
    | halts => rw [hcare] at hdone; cases hdone
    | writes =>
      rw [hcare] at hdone
      refine ⟨fun _ => ?_, fun hno => absurd (Or.inl rfl) hno⟩
      rcases horphans with ⟨hrest, -⟩ | ⟨rfl, -⟩
      · exact hrest
      · exact hdone.2
    | none =>
      rw [hcare] at hdone
      obtain ⟨-, rfl, rfl⟩ := hdone
      constructor
      · rintro (hwritten | ⟨-, hhas, f1, hf1, hnone⟩)
        · cases hwritten
        · obtain rfl := Except.ok.inj (hf1.symm.trans hpass0)
          exact (horphans.resolve_right fun hsame => hsame.2 ⟨hhas, hnone⟩).1
      · intro hno
        refine (horphans.resolve_left ?_).1
        rintro ⟨-, hhas, hnone⟩
        exact hno (Or.inr ⟨rfl, hhas, f0, hpass0, hnone⟩)

/-- Where a preening check halts. -/
theorem HaltsAt.found (hpreen : options.preen = true)
    (hflag : ¬ RecoverWithoutJournal fs.superblock) {fuel now : Nat} {found : Filesystem}
    (h : HaltsAt fuel options now fs found) :
    (Tended fs → Restated found) ∧ (¬ Tended fs → found = fs) := by
  cases h with
  | journal hstop =>
    refine ⟨fun htended => ?_, fun _ => rfl⟩
    have hdone := journalStage_care hpreen hflag hstop
    rcases htended with hcare | ⟨hcare, -⟩
    all_goals
      rw [hcare] at hdone
      cases hdone.1
  | passes hrun => exact prepare_found hpreen hflag hrun

/-- A preening check that cleared no flag and halted: nothing was marked fixed, and what the
    upkeep left was marked. -/
theorem halted_marked {fuel now : Nat} (hpreen : options.preen = true)
    (hrun : exec (checkOpened fuel options now) fs = (.ok r, fs')) (hhalted : r.preenHalted = true)
    (hflag : ¬ RecoverWithoutJournal fs.superblock) :
    (∀ p ∈ r.problems, p.fixed = true → p.isNote = true) ∧
      ∃ fs1 found, JournalUpkeep fuel fs fs1 ∧ OrphanUpkeep now fs1 found ∧
        HaltsAt fuel options now fs found ∧ Marked found fs' := by
  unfold checkOpened at hrun
  obtain ⟨result, fs1, hprepare, hpasses⟩ := exec_bind_ok hrun
  obtain ⟨stop, r1, fs0, hjournal, hout⟩ := prepare_ok hpreen hprepare
  have houtcome := journalStage_ok hpreen hflag hjournal
  cases stop with
  | true =>
    -- Halted in the journal stage: nothing but the mark was written.
    obtain ⟨ra, hra, rfl, hmarked⟩ := houtcome.stops rfl
    cases result with
    | error r2 =>
      obtain ⟨rfl, rfl⟩ := exec_pure_ok hpasses
      rcases hout with ⟨-, hproblems, -, rfl⟩ | ⟨hstop, -⟩
      · refine ⟨?_, fs, fs, .nothing fs, .nothing fs, .journal hjournal, hmarked⟩
        rw [hproblems]
        exact hra.unfixed
      · cases hstop
    | ok f => cases hout.1
  | false =>
    obtain ⟨hr1, hupkeep⟩ := houtcome.goes rfl
    cases result with
    | error r2 =>
      obtain ⟨rfl, rfl⟩ := exec_pure_ok hpasses
      rcases hout with ⟨hstop, -⟩ | ⟨-, hsame⟩
      · cases hstop
      · rw [hsame, hr1.halted] at hhalted
        cases hhalted
    | ok f =>
      obtain ⟨-, hreports, horphans⟩ := hout
      rcases passes_ok hpasses with hsame | ⟨r2, hr2, rfl, hmarked⟩
      · rw [hsame, hreports.halted, hr1.halted] at hhalted
        cases hhalted
      · exact ⟨((hr1.trans hreports).trans hr2).unfixed, fs0, fs1, hupkeep, horphans,
          .passes hprepare, hmarked⟩

/-- One that cleared the flag says so: the problem fixed before the passes is still in the report
    at the end. -/
theorem halted_flagged {fuel now : Nat} (hpreen : options.preen = true)
    (hrun : exec (checkOpened fuel options now) fs = (.ok r, fs')) (hhalted : r.preenHalted = true)
    (hflag : RecoverWithoutJournal fs.superblock) :
    ∃ p ∈ r.problems, p.fixed = true ∧ p.isNote = false := by
  unfold checkOpened at hrun
  obtain ⟨result, fs1, hprepare, hpasses⟩ := exec_bind_ok hrun
  obtain ⟨stop, r1, fs0, hjournal, hout⟩ := prepare_ok hpreen hprepare
  obtain ⟨rfl, hfresh, p, hp, hfixed, hnote⟩ := journalStage_flagged hpreen hflag hjournal
  refine ⟨p, ?_, hfixed, hnote⟩
  cases result with
  | error r2 =>
    obtain ⟨rfl, rfl⟩ := exec_pure_ok hpasses
    rcases hout with ⟨hstop, -⟩ | ⟨-, hsame⟩
    · cases hstop
    · rw [hsame, hfresh] at hhalted
      cases hhalted
  | ok f =>
    obtain ⟨-, hreports, -⟩ := hout
    rcases passes_ok hpasses with hsame | ⟨r2, hr2, rfl, -⟩
    · rw [hsame, hreports.halted, hfresh] at hhalted
      cases hhalted
    · exact hr2.mem (hreports.mem hp)

/-- A preening check that halted repaired nothing, exactly when its superblock did not set
    `needs_recovery` on a filesystem without a journal, and either encodes to itself or is one
    that the upkeep writes anew before the halt. -/
theorem halted_keeps_iff {fuel now : Nat} {device device' : Device}
    (hopen : openOn device = .ok fs) (hpreen : options.preen = true)
    (hcheck : check fuel options now device = (.ok r, device')) (hhalted : r.preenHalted = true) :
    NothingRepaired fuel options now fs r device' ↔
      ¬ RecoverWithoutJournal fs.superblock ∧ (Restated fs ∨ Tended fs) := by
  have hrun : ∃ fs', exec (checkOpened fuel options now) fs = (.ok r, fs') ∧
      device' = fs'.device := by
    unfold check at hcheck
    simp only [hopen] at hcheck
    obtain ⟨hr, hd⟩ := Prod.mk.inj hcheck
    exact ⟨_, Prod.ext hr rfl, hd.symm⟩
  obtain ⟨fs', hrun, rfl⟩ := hrun
  constructor
  · rintro ⟨hunfixed, fs1, found, fs2, -, -, hfound, hmarked, hdevice, hbytes⟩
    have hflag : ¬ RecoverWithoutJournal fs.superblock := by
      intro hflag
      obtain ⟨p, hp, hfixed, hnote⟩ := halted_flagged hpreen hrun hhalted hflag
      rw [hunfixed p hp hfixed] at hnote
      cases hnote
    rw [hdevice] at hbytes
    have hrest := hmarked.flags_iff.mp hbytes
    refine ⟨hflag, or_iff_not_imp_right.mpr fun hno => ?_⟩
    rw [(hfound.found hpreen hflag).2 hno] at hrest
    exact hrest
  · rintro ⟨hflag, hrest⟩
    obtain ⟨hunfixed, fs1, found, hjournal, horphans, hfound, hmarked⟩ :=
      halted_marked hpreen hrun hhalted hflag
    refine ⟨hunfixed, fs1, found, fs', hjournal, horphans, hfound, hmarked, rfl,
      hmarked.flags_iff.mpr ?_⟩
    by_cases htended : Tended fs
    · exact (hfound.found hpreen hflag).1 htended
    · rw [(hfound.found hpreen hflag).2 htended]
      exact hrest.resolve_right htended

/-! ### Two images without a journal -/

/-- A superblock of a magic number, a revision and `incompat` features, over nothing. -/
def bareImage (rev incompat : Nat) : Device where
  size := 4096
  bytes := fun p =>
    if p = superblockOffset + 0x38 then 0x53
    else if p = superblockOffset + 0x39 then 0xef
    else if p = superblockOffset + 0x4c then UInt8.ofNat rev
    else if p = superblockOffset + 0x60 then UInt8.ofNat incompat
    else 0

/-- Whether preening it halts, and the problems with whether each was fixed. -/
def preened (rev incompat : Nat) : Bool × List (Code × Bool) :=
  match (check 0 { preen := true } 0 (bareImage rev incompat)).1 with
  | .ok r => (r.preenHalted, r.problems.map fun p => (p.code, p.fixed))
  | .error _ => (false, [])

theorem preened_run {rev incompat : Nat} {problems : List (Code × Bool)}
    (h : preened rev incompat = (true, problems)) : ∃ fs r device',
      openOn (bareImage rev incompat) = .ok fs ∧
      check 0 { preen := true } 0 (bareImage rev incompat) = (.ok r, device') ∧
      r.preenHalted = true ∧ r.problems.map (fun p => (p.code, p.fixed)) = problems := by
  unfold preened at h
  split at h
  · next r hr =>
    obtain ⟨hhalted, hproblems⟩ := Prod.mk.inj h
    cases hopen : openOn (bareImage rev incompat) with
    | ok fs => exact ⟨fs, r, _, rfl, Prod.ext hr rfl, hhalted, hproblems⟩
    | error e =>
      simp only [check, hopen] at hr
      cases hr
  · cases h

/-- What `preened` answers on the two images. The kernel runs it with the flush that does not
    measure what it writes. -/
theorem preened_eq :
    preened 1 0 = (true, [(.zeroGeometry, false), (.noRootDirectory, false)]) ∧
      preened 0 4 = (true, [(.recoverFlagWithoutJournal, true), (.zeroGeometry, false),
        (.noRootDirectory, false)]) := by
  suffices hrun : ∃ run : Nat → Nat → Bool × List (Code × Bool),
      (∀ rev incompat, preened rev incompat = run rev incompat) ∧
      run 1 0 = (true, [(.zeroGeometry, false), (.noRootDirectory, false)]) ∧
      run 0 4 = (true, [(.recoverFlagWithoutJournal, true), (.zeroGeometry, false),
        (.noRootDirectory, false)]) by
    obtain ⟨run, heq, h0, h4⟩ := hrun
    exact ⟨(heq 1 0).trans h0, (heq 0 4).trans h4⟩
  refine ⟨?run, fun rev incompat => ?eq, ?_, ?_⟩
  case eq =>
    unfold preened check checkOpened prepare passes journalStage preenHalt
    rw [flushSuperblock_eq]
  all_goals decide +kernel

/-- The superblock of the first encodes to the bytes it was decoded from. -/
theorem bare_restated {fs : Filesystem} (hopen : openOn (bareImage 1 0) = .ok fs) :
    fs.superblock.featureIncompat.contains IncompatFeatures.recover = false ∧ Restated fs := by
  obtain ⟨hdevice, hsb⟩ : fs.device = bareImage 1 0 ∧ Superblock.decode
      (window (bareImage 1 0).bytes superblockOffset superblockLen) = .ok fs.superblock :=
    ⟨(openOn_opened hopen).device, (openOn_opened hopen).superblock⟩
  have hlen := length_window (bareImage 1 0).bytes superblockOffset superblockLen
  obtain ⟨sb, hdec, hsame⟩ := Superblock.encodeInto_decode hlen (by decide +kernel)
    (by decide +kernel) (by decide +kernel) (by decide +kernel)
  obtain rfl := Except.ok.inj (hsb.symm.trans hdec)
  refine ⟨?_, ?_⟩
  · rw [(Superblock.decode_head hsb).2.2.2]
    decide +kernel
  · rintro p ⟨hlo, hhi, hne⟩
    rw [hdevice, hsame, getD_window _ _ _ _ _ (by omega), Nat.add_sub_cancel' hlo] at hne
    exact absurd rfl hne

/-- Preening an image with neither flag nor journal halts, and repairs nothing. -/
theorem preen_bare_halts : ∃ fs r device', openOn (bareImage 1 0) = .ok fs ∧
    check 0 { preen := true } 0 (bareImage 1 0) = (.ok r, device') ∧ r.preenHalted = true ∧
    NothingRepaired 0 { preen := true } 0 fs r device' := by
  obtain ⟨fs, r, device', hopen, hcheck, hhalted, -⟩ := preened_run preened_eq.1
  obtain ⟨hflag, hrest⟩ := bare_restated hopen
  refine ⟨fs, r, device', hopen, hcheck, hhalted,
    (halted_keeps_iff hopen rfl hcheck hhalted).mpr ⟨fun h => ?_, Or.inl hrest⟩⟩
  exact absurd (hflag.symm.trans h.1) Bool.false_ne_true

/-- With `needs_recovery` set, the check that halts has cleared it first. -/
theorem preen_halts_after_repair : ¬ ∀ (fuel now : Nat) (options : FsckOptions) (fs : Filesystem)
    (r : FsckReport) (device device' : Device), openOn device = .ok fs → options.preen = true →
    check fuel options now device = (.ok r, device') → r.preenHalted = true →
    NothingRepaired fuel options now fs r device' := by
  intro hclaim
  obtain ⟨fs, r, device', hopen, hcheck, hhalted, hproblems⟩ := preened_run preened_eq.2
  have hnotes := (hclaim 0 0 _ fs r _ device' hopen rfl hcheck hhalted).unfixed
  obtain ⟨p, hp, hpair⟩ := List.mem_map.mp (hproblems ▸ List.mem_cons_self)
  obtain ⟨hcode, hfixed⟩ := Prod.mk.inj hpair
  have hnote := hnotes p hp hfixed
  rw [Problem.isNote, hcode] at hnote
  exact absurd hnote (by decide)

end MkfsExt4.Fsck
