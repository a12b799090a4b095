/-
  Whether pass 3 sees a directory whose `..` is not the directory it is listed in.

  Pass 2 gathers the parents and the children alike from the `..` entries (`pass2_dotdots`), so
  the two never differ and pass 3 reports no mismatch (`no_mismatch`). `parents_iff`: it is right
  just where no directory but the root is listed in one that its `..` does not name.
-/
import MkfsExt4.Fsck.Connectivity

namespace MkfsExt4.Fsck

open Lib.Hoare Lib.Endian Filesystem

variable {fs : Filesystem} {f f' : Findings}

/-- What pass 3 reports of a directory that is listed in one its `..` does not name. -/
def parentMismatch (d claimed actual : Nat) : Problem where
  pass := 3
  code := .parentMismatch
  severity := .serious
  message := s!"directory {d} claims parent {claimed} but is listed in {actual}"
  fixed := false

/-- Pass 3 reports a mismatch for the directory `d`, among the problems it adds. -/
def ReportsMismatch (f : Findings) (d : Nat) : Prop :=
  ∃ claimed actual, parentMismatch d claimed actual ∈
    (pass3Connectivity f).report.problems.drop f.report.problems.length

/-! ## Where pass 2 takes the two from -/

/-- Parents and children as the `..` entries have them. -/
structure Dotdots (fs : Filesystem) (s : ScanState) : Prop where
  parents : ∀ p ∈ s.parents, DotdotNames fs p.2 p.1
  children : ∀ q ∈ s.children, ∀ d ∈ q.2, DotdotNames fs q.1 d

theorem Dotdots.of_same {s s' : ScanState} (h : Dotdots fs s) (hp : s'.parents = s.parents)
    (hc : s'.children = s.children) : Dotdots fs s' :=
  ⟨hp ▸ h.parents, hc ▸ h.children⟩

theorem DotdotNames.unique {p q d : Nat} (hp : DotdotNames fs p d) (hq : DotdotNames fs q d) :
    p = q := by
  obtain ⟨entries, e, hentries, he, -, rfl⟩ := hp
  obtain ⟨entries', e', hentries', he', -, rfl⟩ := hq
  obtain rfl := Option.some.inj (hentries.symm.trans hentries')
  rw [Option.some.inj (he.symm.trans he')]

theorem checkDotdot_dotdots {d : Nat} {entries : List DirEntry} (hf : Dotdots fs f.state)
    (hentries : entriesOf fs d = some entries) : Dotdots fs (checkDotdot d entries f).state := by
  unfold checkDotdot
  dsimp only
  split
  · next e he =>
    split
    · next hname =>
      have hnames : DotdotNames fs e.inode d := ⟨entries, e, hentries, he, hname, rfl⟩
      refine ⟨fun p hp => ?_, fun q hq c hc => ?_⟩
      · rcases Lib.SortedMap.mem_of_mem_insert hp with rfl | hp
        · exact hnames
        · exact hf.parents p hp
      · rcases Lib.SortedMap.mem_of_mem_insert hq with rfl | hq
        · rcases List.mem_append.mp hc with hc | hc
          · cases hlook : f.state.children.lookup e.inode with
            | none => simp [hlook] at hc
            | some siblings =>
              rw [hlook, Option.getD_some] at hc
              exact hf.children _ (Lib.SortedMap.mem_of_lookup hlook) c hc
          · rw [List.mem_singleton.mp hc]
            exact hnames
        · exact hf.children q hq c hc
    · exact hf
  · exact hf

theorem checkEntries_parents {d : Nat} {seen : List (List UInt8)} {entries : List DirEntry}
    (h : checkEntries fs d seen entries f = .ok f') : f'.state.parents = f.state.parents :=
  checkEntries_rule (R := fun s s' => s'.parents = s.parents) (fun _ => rfl)
    (fun h h' => h'.trans h) (fun h => (countLink_tree h).2.2) h

theorem pass2Directory_dotdots {d : Nat} (hf : Dotdots fs f.state)
    (h : pass2Directory fs f d = .ok f') : Dotdots fs f'.state := by
  unfold pass2Directory at h
  obtain ⟨dir, hread, h⟩ := bind_ok h
  obtain ⟨_, -, h⟩ := bind_ok h
  obtain ⟨s, hs, h⟩ := bind_ok h
  obtain ⟨t, ht, hentries, hfailed⟩ :=
    @scanDir_congr fs d dir _ { report := f.report } { report := {} } _ rfl rfl hs
  have hof : entriesOf fs d = if s.failed then none else some s.entries := by
    unfold entriesOf
    simp only [hread, ht, hentries, hfailed]
  split at h
  · cases h
    exact hf
  · next hfail =>
    rw [if_neg hfail] at hof
    refine Dotdots.of_same (checkDotdot_dotdots (f := checkDot d s.entries
      { f with report := s.report }) ?_ hof) (checkEntries_parents h) (checkEntries_tree h).1
    rw [checkDot_state]
    exact hf

theorem pass2_dotdots (hparents : f.state.parents = []) (hchildren : f.state.children = [])
    (h : pass2Directories fs f = .ok f') : Dotdots fs f'.state := by
  have hf : Dotdots fs f.state := by
    refine ⟨fun p hp => ?_, fun q hq => ?_⟩
    · rw [hparents] at hp
      cases hp
    · rw [hchildren] at hq
      cases hq
  exact foldlM_ok (fun _ g => Dotdots fs g.state)
    (fun _ _ _ _ hdone hstep => pass2Directory_dotdots hdone hstep) hf h

/-! ## What pass 3 makes of them -/

theorem foldl_same {α β : Type} {step : β → α → β} {xs : List α}
    (h : ∀ b, ∀ x ∈ xs, step b x = b) (b : β) : xs.foldl step b = b := by
  induction xs with
  | nil => rfl
  | cons x xs ih =>
    rw [List.foldl_cons, h b x List.mem_cons_self]
    exact ih fun b y hy => h b y (List.mem_cons_of_mem _ hy)

/-- Where the two are one, pass 3 reports no mismatch. -/
theorem no_mismatch (h : Dotdots fs f.state) (d : Nat) : ¬ ReportsMismatch f d := by
  rintro ⟨claimed, actual, hmem⟩
  unfold pass3Connectivity at hmem
  dsimp only at hmem
  by_cases hroot : Ino.root ∈ f.state.directories
  · rw [if_neg (not_not.mpr hroot)] at hmem
    have hlost := problems_foldl_pushIf (· ∉ reachable f.state.children) 3
      .disconnectedDirectory .serious
      (fun dir => s!"directory {dir} is not reachable from the root; it belongs in lost+found")
      f.state.directories f
    rw [@foldl_same _ _ _ f.state.parents, hlost, List.drop_left' rfl] at hmem
    · obtain ⟨e, -, heq⟩ := List.mem_map.mp hmem
      cases congrArg Problem.code heq
    · intro g p hp
      split
      · next actual kids hfind =>
        have hkid : p.1 ∈ kids := by simpa using List.find?_some hfind
        have hsame : actual = p.2 :=
          (h.children _ (List.mem_of_find?_eq_some hfind) p.1 hkid).unique (h.parents p hp)
        have hquiet : ¬ (p.1 ≠ Ino.root ∧ actual ≠ p.2) := fun hbad => hbad.2 hsame
        rw [Findings.pushIf, FsckReport.pushIf, if_neg hquiet]
      · rfl
  · rw [if_pos hroot] at hmem
    have hnew : (f.push 3 .noRootDirectory .serious
        "inode 2 is not a directory; the filesystem has no root").report.problems.drop
        f.report.problems.length = [⟨3, .noRootDirectory, .serious,
          "inode 2 is not a directory; the filesystem has no root", false⟩] :=
      List.drop_left' rfl
    rw [hnew, List.mem_singleton] at hmem
    cases congrArg Problem.code hmem

/-- What the parents and children are in a check that comes to pass 3. -/
theorem check_dotdots {options : FsckOptions} {fuel now : Nat} {fs0 : Filesystem}
    {f0 f1 f2 : Findings} (hprepare : exec (prepare fuel options now) fs0 = (.ok (.ok f0), fs))
    (h1 : pass1Inodes fs f0 = .ok f1) (h2 : pass2Directories fs f1 = .ok f2) :
    Dotdots fs f2.state := by
  obtain ⟨fs1, hfresh⟩ := prepare_onlyClaims hprepare
  have hnames := pass1_names h1
  exact pass2_dotdots (hnames.parents.trans hfresh.parents)
    (hnames.children.trans hfresh.children) h2

/-- In a check that comes to pass 3, of an image whose directories all parse and begin with `.`
    and `..`, the mismatches reported are those there are exactly when no directory but the root
    is listed in one that its `..` does not name. -/
theorem parents_iff {options : FsckOptions} {fuel now : Nat} {fs0 : Filesystem}
    {f0 f1 f2 : Findings} (hprepare : exec (prepare fuel options now) fs0 = (.ok (.ok f0), fs))
    (h1 : pass1Inodes fs f0 = .ok f1) (h2 : pass2Directories fs f1 = .ok f2)
    (hwell : ∀ d, InUseDirectory fs d → WellFormedDirectory fs d) :
    (∀ d, InUseDirectory fs d → d ≠ Ino.root →
      (ReportsMismatch f2 d ↔ ∃ p q, Names fs p d ∧ DotdotNames fs q d ∧ q ≠ p)) ↔
      ∀ d, InUseDirectory fs d → d ≠ Ino.root → ∀ p, Names fs p d → DotdotNames fs p d := by
  have hdotdots := check_dotdots hprepare h1 h2
  refine forall_congr' fun d => imp_congr_right fun hd => imp_congr_right fun _ => ?_
  constructor
  · intro hclaim p hlisted
    obtain ⟨dot, dotdot, rest, hentries, -, hname⟩ := hwell d hd
    have hq : DotdotNames fs dotdot.inode d := ⟨_, dotdot, hentries, rfl, hname, rfl⟩
    by_cases hqp : dotdot.inode = p
    · rwa [hqp] at hq
    · exact absurd (hclaim.mpr ⟨p, _, hlisted, hq, hqp⟩) (no_mismatch hdotdots d)
  · intro hgood
    refine ⟨fun hreport => absurd hreport (no_mismatch hdotdots d), ?_⟩
    rintro ⟨p, q, hlisted, hq, hqp⟩
    exact absurd (hq.unique (hgood p hlisted)) hqp

/-! ### A directory listed in the root whose `..` is another -/

/-- The entries of the root: the directories 12 and 13. -/
def crossRoot : List UInt8 :=
  toLe 4 2 ++ [12, 0, 1, 2, 0x2e, 0, 0, 0] ++ toLe 4 2 ++ [12, 0, 2, 2, 0x2e, 0x2e, 0, 0] ++
    toLe 4 12 ++ [12, 0, 1, 2, 0x61, 0, 0, 0] ++ toLe 4 13 ++ [0xdc, 3, 1, 2, 0x62, 0, 0, 0]

/-- 16 blocks, 16 inodes: the root lists 12 and 13, and the `..` of 12 is 13. -/
def crossImage : Device := .ofChunks 16384
  [(1024, toLe 4 16 ++ toLe 4 16), (1024 + 0x14, [1]), (1024 + 0x21, [0x20]), (1024 + 0x28, [16]),
    (1024 + 0x38, [0x53, 0xef]), (2048, [3, 0, 0, 0, 4, 0, 0, 0, 5]),
    (5 * 1024 + 128, dirInode 7), (6 * 1024 + 3 * 128, dirInode 8),
    (6 * 1024 + 4 * 128, dirInode 9), (7 * 1024, crossRoot), (8 * 1024, dirBlock 12 13),
    (9 * 1024, dirBlock 13 2)]

def crossEntries : List DirEntry :=
  [{ inode := 2, recLen := 12, fileType := 2, name := dotName },
    { inode := 2, recLen := 12, fileType := 2, name := dotdotName },
    { inode := 12, recLen := 12, fileType := 2, name := [0x61] },
    { inode := 13, recLen := 988, fileType := 2, name := [0x62] }]

/-- Its check up to pass 2: the directories, and the entries of each. -/
theorem crossImage_checked : (passTwo crossImage).map (fun ⟨⟨_, fs, _, f1⟩, _⟩ =>
    (f1.state.directories, [entriesOf fs 2, entriesOf fs 12, entriesOf fs 13])) =
      some ([2, 12, 13], [some crossEntries, some (dotEntries 12 13), some (dotEntries 13 2)]) := by
  decide +kernel

theorem cross_run : ∃ fs0 fs f0 f1 f2, openOn crossImage = .ok fs0 ∧
    exec (prepare 0 { force := true } 0) fs0 = (.ok (.ok f0), fs) ∧
    pass1Inodes fs f0 = .ok f1 ∧ pass2Directories fs f1 = .ok f2 ∧
    (∀ d, InUseDirectory fs d ↔ d ∈ [2, 12, 13]) ∧ entriesOf fs 2 = some crossEntries ∧
    entriesOf fs 12 = some (dotEntries 12 13) ∧ entriesOf fs 13 = some (dotEntries 13 2) := by
  obtain ⟨⟨⟨fs0, fs, f0, f1⟩, f2⟩, hrun, heq⟩ := Option.map_eq_some_iff.mp crossImage_checked
  obtain ⟨hopen, hprepare, h1, h2⟩ := passTwo_ok hrun
  obtain ⟨hdirs, hrest⟩ := Prod.mk.inj heq
  obtain ⟨hroot, hrest⟩ := List.cons.inj hrest
  obtain ⟨htwelve, hrest⟩ := List.cons.inj hrest
  obtain ⟨fs1, hfresh⟩ := prepare_onlyClaims hprepare
  have huse : ∀ d, InUseDirectory fs d ↔ d ∈ [2, 12, 13] := fun d => by
    rw [← pass1_tree hfresh.directories h1, hdirs]
  exact ⟨fs0, fs, f0, f1, f2, hopen, hprepare, h1, h2, huse, hroot, htwelve,
    (List.cons.inj hrest).1⟩

theorem cross_wellFormed {fs : Filesystem} (huse : ∀ d, InUseDirectory fs d ↔ d ∈ [2, 12, 13])
    (hroot : entriesOf fs 2 = some crossEntries) (h12 : entriesOf fs 12 = some (dotEntries 12 13))
    (h13 : entriesOf fs 13 = some (dotEntries 13 2)) :
    ∀ d, InUseDirectory fs d → WellFormedDirectory fs d := by
  intro d hd
  rw [huse] at hd
  simp only [List.mem_cons, List.not_mem_nil, or_false] at hd
  rcases hd with rfl | rfl | rfl
  · exact ⟨_, _, _, hroot, rfl, rfl⟩
  · exact ⟨_, _, [], h12, rfl, rfl⟩
  · exact ⟨_, _, [], h13, rfl, rfl⟩

theorem parents_cross : ∃ fs f2,
    (∀ d, InUseDirectory fs d → d ≠ Ino.root →
      (ReportsMismatch f2 d ↔ ∃ p q, Names fs p d ∧ DotdotNames fs q d ∧ q ≠ p)) ↔
      ∀ d, InUseDirectory fs d → d ≠ Ino.root → ∀ p, Names fs p d → DotdotNames fs p d := by
  obtain ⟨fs0, fs, f0, f1, f2, -, hprepare, h1, h2, huse, hroot, h12, h13⟩ := cross_run
  exact ⟨fs, f2, parents_iff hprepare h1 h2 (cross_wellFormed huse hroot h12 h13)⟩

/-- The root lists directory 12, whose `..` names 13, and pass 3 does not report it. -/
theorem cross_not_reported : ¬ ∀ (options : FsckOptions) (fuel now : Nat) (device : Device)
    (fs0 fs : Filesystem) (f0 f1 f2 : Findings), openOn device = .ok fs0 →
    exec (prepare fuel options now) fs0 = (.ok (.ok f0), fs) → pass1Inodes fs f0 = .ok f1 →
    pass2Directories fs f1 = .ok f2 → (∀ d, InUseDirectory fs d → WellFormedDirectory fs d) →
    ∀ d, InUseDirectory fs d → d ≠ Ino.root →
      (ReportsMismatch f2 d ↔ ∃ p q, Names fs p d ∧ DotdotNames fs q d ∧ q ≠ p) := by
  intro hclaim
  obtain ⟨fs0, fs, f0, f1, f2, hopen, hprepare, h1, h2, huse, hroot, h12, h13⟩ := cross_run
  have hused : InUseDirectory fs 12 := (huse 12).mpr (by decide)
  have hlisted : Names fs 2 12 :=
    ⟨(huse 2).mpr (by decide), _, hroot, ⟨12, 12, 2, [0x61]⟩, by decide, by decide, by decide, rfl⟩
  have hdotdot : DotdotNames fs 13 12 := ⟨_, _, h12, rfl, rfl, rfl⟩
  exact no_mismatch (check_dotdots hprepare h1 h2) 12 ((hclaim _ 0 0 crossImage fs0 fs f0 f1 f2 hopen
    hprepare h1 h2 (cross_wellFormed huse hroot h12 h13) 12 hused (by decide)).mpr
      ⟨2, 13, hlisted, hdotdot, by decide⟩)

end MkfsExt4.Fsck
