/-
  What passes 1 to 3 say of the directory tree.

  `NameReach fs d` says that following names from the root comes to `d`, `DotdotReach fs d`
  that following `..` from `d` comes to the root. Pass 2 gathers the `..` entries alone
  (`pass2_children`), and pass 3 reports a directory exactly when its `..` chain does not come
  to a root that is one (`reports_iff`). So connectivity is judged by names just where the two agree
  (`connectivity_iff`).
-/
import MkfsExt4.Fsck.Added
import MkfsExt4.Fsck.Claims
import MkfsExt4.Lib.Search

namespace MkfsExt4.Fsck

open Lib.Hoare Lib.Endian Filesystem Relation

variable {fs : Filesystem} {f f' : Findings}

/-! ## Directories and their entries -/

/-- A directory in use, among the inodes pass 1 reads: those in the part of a group's table
    that is in use. -/
def InUseDirectory (fs : Filesystem) (d : Nat) : Prop :=
  (∃ inode, InUse fs d inode ∧ inode.isDir = true) ∧ d ≤ fs.superblock.inodesCount ∧
    ∃ g < fs.groupCount, ∃ w < liveInodes fs g, d = g * fs.superblock.inodesPerGroup + w + 1

/-- The entries of a directory, when its blocks read and parse. -/
def entriesOf (fs : Filesystem) (d : Nat) : Option (List DirEntry) :=
  match fs.readInode d with
  | .error _ => none
  | .ok dir =>
    match scanDir fs d dir (List.range ((dir.size + fs.blockSize - 1) / fs.blockSize))
        { report := {} } with
    | .error _ => none
    | .ok s => if s.failed then none else some s.entries

def dotName : List UInt8 := [0x2e]

def dotdotName : List UInt8 := [0x2e, 0x2e]

/-- The blocks of the directory parse, and it begins with `.` and `..`. -/
def WellFormedDirectory (fs : Filesystem) (d : Nat) : Prop :=
  ∃ dot dotdot rest, entriesOf fs d = some (dot :: dotdot :: rest) ∧ dot.name = dotName ∧
    dotdot.name = dotdotName

/-- `c` is named in the directory `d`, by an entry other than `.` and `..`. -/
def Names (fs : Filesystem) (d c : Nat) : Prop :=
  InUseDirectory fs d ∧ ∃ entries, entriesOf fs d = some entries ∧
    ∃ e ∈ entries, e.name ≠ dotName ∧ e.name ≠ dotdotName ∧ e.inode = c

/-- Names lead from the root to `d`. -/
def NameReach (fs : Filesystem) (d : Nat) : Prop := ReflTransGen (Names fs) Ino.root d

/-- The second entry of `d` is `..`, and names `p`. -/
def DotdotNames (fs : Filesystem) (p d : Nat) : Prop :=
  ∃ entries e, entriesOf fs d = some entries ∧ entries[1]? = some e ∧ e.name = dotdotName ∧
    e.inode = p

/-- The `..` of directories in use lead from `d` to the root. -/
def DotdotReach (fs : Filesystem) (d : Nat) : Prop :=
  ReflTransGen (fun p d => InUseDirectory fs d ∧ DotdotNames fs p d) Ino.root d

/-! ## Pass 1 finds the directories -/

theorem checkInode_tree {raw : List UInt8} {inode : Inode} {inum : Nat}
    (h : checkInode fs raw inode inum f = .ok f') :
    ∀ d, d ∈ f'.state.directories ↔ d ∈ f.state.directories ∨ d = inum ∧ inode.isDir = true := by
  unfold checkInode at h
  obtain ⟨sound, -, h⟩ := bind_ok h
  cases h
  intro d
  simp only [state_pushIf]
  split
  · next hdir =>
    simp only [Lib.SortedMap.mem_insertKey, hdir, and_true]
    exact or_comm
  · next hdir => simp [hdir]

theorem pass1Inode_tree {inum : Nat} (h : pass1Inode fs inum f = .ok f') :
    ∀ d, d ∈ f'.state.directories ↔ d ∈ f.state.directories ∨
      d = inum ∧ ∃ inode, InUse fs inum inode ∧ inode.isDir = true := by
  unfold pass1Inode at h
  obtain ⟨raw, hraw, h⟩ := bind_ok h
  obtain ⟨inode, hdec, h⟩ := bind_ok h
  have hread : fs.readInode inum = .ok inode := by
    unfold Filesystem.readInode
    rw [hraw]
    exact hdec
  have honly : ∀ j, InUse fs inum j → j = inode := by
    intro j hj
    have := hj.1
    rw [hread] at this
    exact (Except.ok.inj this).symm
  split at h
  · next hfree =>
    cases h
    refine fun d => ⟨Or.inl, ?_⟩
    rintro (hd | ⟨-, j, hj, -⟩)
    · exact hd
    · rw [honly j hj] at hj
      exact absurd hj.2 hfree
  · next huse =>
    have hinuse : InUse fs inum inode := ⟨hread, not_not.mp huse⟩
    obtain ⟨f1, h1, h⟩ := bind_ok h
    have hf' : f'.state.directories = f1.state.directories := by
      split at h
      · cases h
        rfl
      · rw [claimInode_state h]
        exact (onlyClaims_visits _ _ _ _).directories
    intro d
    rw [hf', checkInode_tree h1]
    refine or_congr_right (and_congr_right fun _ => ⟨fun hdir => ⟨inode, hinuse, hdir⟩, ?_⟩)
    rintro ⟨j, hj, hdir⟩
    rwa [honly j hj] at hdir

theorem pass1Group_tree {g : Nat} {ws : List Nat} (hsorted : ws.Pairwise (· < ·))
    (h : pass1Group fs g ws f = .ok f') :
    ∀ d, d ∈ f'.state.directories ↔ d ∈ f.state.directories ∨ ∃ w ∈ ws,
      d = g * fs.superblock.inodesPerGroup + w + 1 ∧ d ≤ fs.superblock.inodesCount ∧
        ∃ inode, InUse fs d inode ∧ inode.isDir = true := by
  induction ws generalizing f with
  | nil =>
    cases h
    simp
  | cons w ws ih =>
    obtain ⟨hw, hsorted⟩ := List.pairwise_cons.mp hsorted
    simp only [pass1Group] at h
    obtain ⟨_, -, h⟩ := bind_ok h
    split at h
    · next hpast =>
      cases h
      refine fun d => ⟨Or.inl, ?_⟩
      rintro (hd | ⟨w', hw', rfl, hle, -⟩)
      · exact hd
      · rcases List.mem_cons.mp hw' with rfl | hw'
        · omega
        · have := hw w' hw'
          omega
    · next hin =>
      obtain ⟨f1, h1, h⟩ := bind_ok h
      intro d
      simp only [ih hsorted h, pass1Inode_tree h1, List.mem_cons, exists_eq_or_imp, or_assoc]
      refine or_congr_right (or_congr_left ?_)
      constructor
      · rintro ⟨rfl, hdir⟩
        exact ⟨rfl, by omega, hdir⟩
      · rintro ⟨rfl, -, hdir⟩
        exact ⟨rfl, hdir⟩

/-- After pass 1 the directories are those in use. -/
theorem pass1_tree (hempty : f.state.directories = []) (h : pass1Inodes fs f = .ok f') :
    ∀ d, d ∈ f'.state.directories ↔ InUseDirectory fs d := by
  unfold pass1Inodes at h
  obtain ⟨f1, h1, h⟩ := bind_ok h
  have hstate : f'.state = f1.state := by
    cases h
    apply state_foldl
    intro f x
    rfl
  have hd := foldlM_ok (fun done g =>
      ∀ d, d ∈ g.state.directories ↔ ∃ k ∈ done, ∃ w ∈ List.range (liveInodes fs k),
        d = k * fs.superblock.inodesPerGroup + w + 1 ∧ d ≤ fs.superblock.inodesCount ∧
          ∃ inode, InUse fs d inode ∧ inode.isDir = true)
    (by
      intro done k g g' hd hstep d
      simp only [pass1Group_tree List.pairwise_lt_range hstep, hd, List.mem_append,
        List.mem_singleton, or_and_right, exists_or, exists_eq_left])
    (fun d => by simp [hempty]) h1
  intro d
  rw [hstate, hd]
  simp only [List.mem_range, InUseDirectory]
  constructor
  · rintro ⟨g, hg, w, hw, hdw, hle, hdir⟩
    exact ⟨hdir, hle, g, hg, w, hw, hdw⟩
  · rintro ⟨hdir, hle, g, hg, w, hw, hdw⟩
    exact ⟨g, hg, w, hw, hdw, hle, hdir⟩

/-! ## Pass 2 gathers the `..` entries -/

/-- The entries a scan gathers do not depend on the report it adds to. -/
theorem scanDir_congr {d : Nat} {dir : Inode} {blocks : List Nat} {s t s' : DirScan}
    (he : s.entries = t.entries) (hf : s.failed = t.failed)
    (h : scanDir fs d dir blocks s = .ok s') :
    ∃ t', scanDir fs d dir blocks t = .ok t' ∧ s'.entries = t'.entries ∧ s'.failed = t'.failed := by
  induction blocks generalizing s t with
  | nil =>
    cases h
    exact ⟨t, rfl, he, hf⟩
  | cons logical rest ih =>
    have hblock : ∀ buf, (scanDirBlock fs d dir logical buf s).entries =
        (scanDirBlock fs d dir logical buf t).entries ∧
        (scanDirBlock fs d dir logical buf s).failed =
          (scanDirBlock fs d dir logical buf t).failed := by
      intro buf
      unfold scanDirBlock
      dsimp only
      split
      · exact ⟨by rw [he], hf⟩
      · exact ⟨he, rfl⟩
    simp only [scanDir] at h ⊢
    obtain ⟨mapped, hmap, h⟩ := bind_ok h
    rw [hmap]
    dsimp only [bind, Except.bind]
    cases mapped with
    | none => exact ih he hf h
    | some physical =>
      dsimp only at h ⊢
      cases hbuf : fs.readBlock physical with
      | ok buf =>
        rw [hbuf] at h
        exact ih (hblock buf).1 (hblock buf).2 h
      | error failure =>
        rw [hbuf] at h
        cases failure with
        | error e =>
          cases h
          exact ⟨_, rfl, he, rfl⟩
        | _ => cases h

/-- A counted link leaves the tree and the parents as they were. -/
theorem countLink_tree {inum : Nat} (h : countLink inum f = .ok f') :
    f'.state.children = f.state.children ∧ f'.state.directories = f.state.directories ∧
      f'.state.parents = f.state.parents := by
  unfold countLink at h
  obtain ⟨_, -, h⟩ := bind_ok h
  cases h
  exact ⟨rfl, rfl, rfl⟩

theorem checkEntries_tree {d : Nat} {seen : List (List UInt8)} {entries : List DirEntry}
    (h : checkEntries fs d seen entries f = .ok f') :
    f'.state.children = f.state.children ∧ f'.state.directories = f.state.directories :=
  checkEntries_rule (R := fun s s' => s'.children = s.children ∧ s'.directories = s.directories)
    (fun _ => ⟨rfl, rfl⟩) (fun h h' => ⟨h'.1.trans h.1, h'.2.trans h.2⟩)
    (fun h => ⟨(countLink_tree h).1, (countLink_tree h).2.1⟩) h

theorem checkDotdot_tree (d : Nat) (entries : List DirEntry) (f : Findings) :
    (checkDotdot d entries f).state.directories = f.state.directories ∧
      ∀ p c, c ∈ ((checkDotdot d entries f).state.children.lookup p).getD [] ↔
        c ∈ (f.state.children.lookup p).getD [] ∨
          c = d ∧ ∃ e, entries[1]? = some e ∧ e.name = dotdotName ∧ e.inode = p := by
  unfold checkDotdot
  dsimp only
  split
  · next e he =>
    split
    · next hname =>
      refine ⟨rfl, fun p c => ?_⟩
      simp only [Lib.SortedMap.lookup_insert, he, Option.some.injEq, exists_eq_left',
        show e.name = dotdotName from hname, true_and]
      by_cases hp : p = e.inode
      · rw [if_pos hp, Option.getD_some, List.mem_append, List.mem_singleton, hp]
        simp
      · rw [if_neg hp]
        simp [Ne.symm hp]
    · next hname =>
      refine ⟨rfl, fun p c => ?_⟩
      have hno : ¬ e.name = dotdotName := hname
      simp [he, hno]
  · next he =>
    refine ⟨rfl, fun p c => ?_⟩
    simp [he]

/-- A directory is scanned: its `..`, if it parses and has one, makes it a child. -/
theorem pass2Directory_tree {d : Nat} (h : pass2Directory fs f d = .ok f') :
    f'.state.directories = f.state.directories ∧
      ∀ p c, c ∈ (f'.state.children.lookup p).getD [] ↔
        c ∈ (f.state.children.lookup p).getD [] ∨ c = d ∧ DotdotNames fs p d := by
  unfold pass2Directory at h
  obtain ⟨dir, hread, h⟩ := bind_ok h
  obtain ⟨_, -, h⟩ := bind_ok h
  obtain ⟨s, hs, h⟩ := bind_ok h
  obtain ⟨t, ht, hentries, hfailed⟩ :=
    @scanDir_congr fs d dir _ { report := f.report } { report := {} } _ rfl rfl hs
  have hof : entriesOf fs d = if s.failed then none else some s.entries := by
    unfold entriesOf
    simp only [hread, ht, hentries, hfailed]
  split at h
  · next hfail =>
    cases h
    refine ⟨rfl, fun p c => ?_⟩
    rw [hfail] at hof
    simp [DotdotNames, hof]
  · next hfail =>
    obtain ⟨hc1, hd1⟩ := checkEntries_tree h
    obtain ⟨hd2, hc2⟩ := checkDotdot_tree d s.entries
      (checkDot d s.entries { f with report := s.report })
    rw [hc1, hd1, hd2]
    rw [checkDot_state] at *
    refine ⟨rfl, fun p c => ?_⟩
    rw [hc2]
    rw [if_neg hfail] at hof
    simp [DotdotNames, hof]

/-- After pass 2 the children of `p` are the directories whose `..` names `p`. -/
theorem pass2_children (hempty : f.state.children = []) (h : pass2Directories fs f = .ok f') :
    f'.state.directories = f.state.directories ∧
      ∀ p d, d ∈ (f'.state.children.lookup p).getD [] ↔
        d ∈ f.state.directories ∧ DotdotNames fs p d := by
  refine foldlM_ok (fun done g => g.state.directories = f.state.directories ∧
    ∀ p d, d ∈ (g.state.children.lookup p).getD [] ↔ d ∈ done ∧ DotdotNames fs p d) ?_
    ⟨rfl, by simp [hempty]⟩ h
  rintro done k g g' ⟨hd, hc⟩ hstep
  obtain ⟨hd', hc'⟩ := pass2Directory_tree hstep
  refine ⟨hd'.trans hd, fun p d => ?_⟩
  rw [hc', hc, List.mem_append, List.mem_singleton, or_and_right]
  refine or_congr_right (and_congr_right fun hdk => ?_)
  rw [hdk]

/-! ## Pass 3 searches them from the root -/

/-- The search of pass 3 is a breadth-first search over the children that are not their own
    parent. -/
theorem reachFrom_eq (children : List (Nat × List Nat)) (fuel : Nat) (queue reached : List Nat) :
    reachFrom children fuel queue reached =
      Lib.Search.search (fun d => ((children.lookup d).getD []).filter (· ≠ d))
        Lib.SortedMap.insertKey fuel queue reached := by
  induction fuel generalizing queue reached with
  | zero => rfl
  | succ fuel ih =>
    cases queue with
    | nil => rfl
    | cons d queue =>
      simp only [reachFrom, Lib.Search.search, List.foldl_filter]
      rw [ih]
      have hstep : (fun (acc : List Nat × List Nat) child =>
          if child ≠ d ∧ child ∉ acc.2 then
            (acc.1 ++ [child], Lib.SortedMap.insertKey child acc.2)
          else acc) = fun acc child => if decide (child ≠ d) = true then
            Lib.Search.visit Lib.SortedMap.insertKey acc child else acc := by
        funext acc child
        unfold Lib.Search.visit
        by_cases h1 : child = d <;> by_cases h2 : child ∈ acc.2 <;> simp [h1, h2]
      rw [hstep]

/-- Steps of a relation that stay where they are do not matter to what is reached. -/
theorem reflTransGen_ne {r : Nat → Nat → Prop} {a b : Nat} :
    ReflTransGen (fun x y => r x y ∧ y ≠ x) a b ↔ ReflTransGen r a b := by
  refine ⟨fun h => ReflTransGen.mono (fun _ _ hxy => hxy.1) a b h, fun h => ?_⟩
  induction h with
  | refl => exact .refl
  | @tail x y _ hxy ih =>
    by_cases heq : y = x
    · rwa [heq]
    · exact ih.tail ⟨hxy, heq⟩

/-- What pass 3 reaches, from the children pass 2 gathered. -/
theorem mem_reachable_iff (children : List (Nat × List Nat)) (d : Nat) :
    d ∈ reachable children ↔
      ReflTransGen (fun p d => d ∈ (children.lookup p).getD []) Ino.root d := by
  have hedge : (fun a b => b ∈ ((children.lookup a).getD []).filter (· ≠ a)) =
      fun a b => b ∈ (children.lookup a).getD [] ∧ b ≠ a := by
    funext a b
    simp
  unfold reachable
  rw [reachFrom_eq, Lib.Search.mem_search_iff (fun _ _ _ => Lib.SortedMap.mem_insertKey)
    (children.flatMap fun p => p.2).toFinset, hedge, reflTransGen_ne]
  · intro a b hb
    have hmem := (List.mem_filter.mp hb).1
    cases hl : children.lookup a with
    | none => simp [hl] at hmem
    | some kids =>
      rw [hl] at hmem
      rw [List.mem_toFinset, List.mem_flatMap]
      exact ⟨(a, kids), Lib.SortedMap.mem_of_lookup hl, hmem⟩
  · have hcard := List.toFinset_card_le (children.flatMap fun p => p.2)
    rw [List.length_flatMap] at hcard
    omega

/-- What pass 3 reports of a directory it did not reach. -/
def disconnected (d : Nat) : Problem where
  pass := 3
  code := .disconnectedDirectory
  severity := .serious
  message := s!"directory {d} is not reachable from the root; it belongs in lost+found"
  fixed := false

/-- Pass 3 reports the directory `d` as disconnected: the problem is among those it adds. -/
def ReportsDisconnected (f : Findings) (d : Nat) : Prop :=
  disconnected d ∈ (pass3Connectivity f).report.problems.drop f.report.problems.length

theorem disconnected_inj {d e : Nat} (h : disconnected d = disconnected e) : d = e := by
  have hmsg := congrArg Problem.message h
  simp only [disconnected, String.append_left_inj, String.append_right_inj] at hmsg
  exact toString_inj hmsg

/-- The problems a loop of `pushIf` adds: one for each element that is bad. -/
theorem problems_foldl_pushIf {α : Type} (bad : α → Prop) [DecidablePred bad] (pass : Nat)
    (code : Code) (severity : Severity) (message : α → String) (xs : List α) (f : Findings) :
    (xs.foldl (fun f x => f.pushIf (bad x) pass code severity (message x)) f).report.problems =
      f.report.problems ++ (xs.filter fun x => decide (bad x)).map fun x =>
        { pass, code, severity, message := message x, fixed := false } := by
  induction xs generalizing f with
  | nil => simp
  | cons x xs ih =>
    rw [List.foldl_cons, ih]
    by_cases hx : bad x
    · simp [Findings.pushIf, FsckReport.pushIf, FsckReport.push, FsckReport.pushFixed, hx]
    · simp [Findings.pushIf, FsckReport.pushIf, hx]

/-- A loop whose steps add only problems of other codes reports no directory. -/
theorem problems_foldl_other {α : Type} {g : Findings → α → Findings}
    (hg : ∀ f x, ∃ ps, (g f x).report.problems = f.report.problems ++ ps ∧
      ∀ p ∈ ps, p.code ≠ .disconnectedDirectory) (xs : List α) (f : Findings) :
    ∃ ps, (xs.foldl g f).report.problems = f.report.problems ++ ps ∧
      ∀ p ∈ ps, p.code ≠ .disconnectedDirectory := by
  induction xs generalizing f with
  | nil => exact ⟨[], by simp, by simp⟩
  | cons x xs ih =>
    obtain ⟨ps, hps, hcode⟩ := hg f x
    obtain ⟨qs, hqs, hcode'⟩ := ih (g f x)
    refine ⟨ps ++ qs, by rw [List.foldl_cons, hqs, hps, List.append_assoc], fun p hp => ?_⟩
    exact (List.mem_append.mp hp).elim (hcode p) (hcode' p)

/-- One turn of pass 3 over the parents: a directory listed elsewhere than it says. -/
def parentTurn (children : List (Nat × List Nat)) (f : Findings) (p : Nat × Nat) : Findings :=
  let (dir, claimed) := p
  match children.find? fun q => dir ∈ q.2 with
  | some (actual, _) =>
    f.pushIf (dir ≠ Ino.root ∧ actual ≠ claimed) 3 .parentMismatch .serious
      s!"directory {dir} claims parent {claimed} but is listed in {actual}"
  | none => f

theorem parentTurn_other (children : List (Nat × List Nat)) (g : Findings) (p : Nat × Nat) :
    ∃ ps, (parentTurn children g p).report.problems = g.report.problems ++ ps ∧
      ∀ p ∈ ps, p.code ≠ .disconnectedDirectory := by
  unfold parentTurn
  dsimp only
  split
  · simp only [Findings.pushIf, FsckReport.pushIf]
    split
    · exact ⟨_, rfl, by simp⟩
    · exact ⟨[], by simp, by simp⟩
  · exact ⟨[], by simp, by simp⟩

/-- Pass 3 reports exactly the directories it did not reach, on a filesystem whose root is a
    directory. -/
theorem reportsDisconnected_iff (f : Findings) (d : Nat) : ReportsDisconnected f d ↔
    Ino.root ∈ f.state.directories ∧ d ∈ f.state.directories ∧
      d ∉ reachable f.state.children := by
  unfold ReportsDisconnected pass3Connectivity
  dsimp only
  by_cases hroot : Ino.root ∈ f.state.directories
  · rw [if_neg (not_not.mpr hroot)]
    obtain ⟨ps, hps, hcode⟩ := problems_foldl_other (parentTurn_other f.state.children)
      f.state.parents
      (f.state.directories.foldl (fun g dir =>
        g.pushIf (dir ∉ reachable f.state.children) 3 .disconnectedDirectory .serious
          s!"directory {dir} is not reachable from the root; it belongs in lost+found") f)
    have hlost := problems_foldl_pushIf (· ∉ reachable f.state.children) 3
      .disconnectedDirectory .serious
      (fun dir => s!"directory {dir} is not reachable from the root; it belongs in lost+found")
      f.state.directories f
    rw [hlost, List.append_assoc] at hps
    have hdrop := congrArg (List.drop f.report.problems.length) hps
    rw [List.drop_left' rfl] at hdrop
    refine Iff.trans (iff_of_eq (congrArg (disconnected d ∈ ·) hdrop)) ?_
    rw [List.mem_append, List.mem_map]
    constructor
    · rintro (⟨e, he, heq⟩ | hother)
      · obtain rfl := disconnected_inj heq
        obtain ⟨hmem, hlost⟩ := List.mem_filter.mp he
        exact ⟨hroot, hmem, of_decide_eq_true hlost⟩
      · exact absurd rfl (hcode _ hother)
    · rintro ⟨-, hmem, hlost⟩
      exact Or.inl ⟨d, List.mem_filter.mpr ⟨hmem, decide_eq_true hlost⟩, rfl⟩
  · rw [if_pos hroot]
    have hnew : (f.push 3 .noRootDirectory .serious
        "inode 2 is not a directory; the filesystem has no root").report.problems.drop
        f.report.problems.length = [⟨3, .noRootDirectory, .serious,
          "inode 2 is not a directory; the filesystem has no root", false⟩] :=
      List.drop_left' rfl
    rw [hnew, List.mem_singleton]
    simp [hroot, disconnected]

/-! ## Connectivity -/

/-- In a check that comes to pass 3, the directories in use it reports as disconnected are those
    that names do not lead to, exactly when names lead to the directories whose `..` lead to the
    root, and the root is a directory unless none is. -/
theorem connectivity_iff {options : FsckOptions} {fuel now : Nat} {fs0 : Filesystem}
    {f0 f1 f2 : Findings} (hprepare : exec (prepare fuel options now) fs0 = (.ok (.ok f0), fs))
    (h1 : pass1Inodes fs f0 = .ok f1) (h2 : pass2Directories fs f1 = .ok f2) :
    (∀ d, InUseDirectory fs d → (ReportsDisconnected f2 d ↔ ¬ NameReach fs d)) ↔
      ∀ d, InUseDirectory fs d →
        ((¬ InUseDirectory fs Ino.root ∨ DotdotReach fs d) ↔ NameReach fs d) := by
  obtain ⟨fs', hfresh⟩ := prepare_onlyClaims hprepare
  have hdirs1 := pass1_tree hfresh.directories h1
  have hchildren1 := (pass1_names h1).children.trans hfresh.children
  obtain ⟨hdirs2, hchildren2⟩ := pass2_children hchildren1 h2
  have hreach : ∀ d, d ∈ reachable f2.state.children ↔ DotdotReach fs d := by
    intro d
    have hedge : (fun p d => d ∈ (f2.state.children.lookup p).getD []) =
        fun p d => InUseDirectory fs d ∧ DotdotNames fs p d := by
      funext p d
      rw [hchildren2, hdirs1]
    rw [mem_reachable_iff, hedge, DotdotReach]
  refine forall_congr' fun d => imp_congr_right fun hd => ?_
  rw [reportsDisconnected_iff, hdirs2, hdirs1, hdirs1, hreach]
  tauto

/-! ### A check of an image -/

/-- A forced check of `device` up to pass 1: the filesystem opened, the one that is walked, and
    the findings before and after. -/
def passOne (device : Device) : Option (Filesystem × Filesystem × Findings × Findings) :=
  match openOn device with
  | .error _ => none
  | .ok fs0 =>
    match exec (prepare 0 { force := true } 0) fs0 with
    | (.ok (.ok f0), fs) => (pass1Inodes fs f0).toOption.map fun f1 => (fs0, fs, f0, f1)
    | _ => none

theorem passOne_ok {device : Device} {fs0 fs : Filesystem} {f0 f1 : Findings}
    (h : passOne device = some (fs0, fs, f0, f1)) : openOn device = .ok fs0 ∧
      exec (prepare 0 { force := true } 0) fs0 = (.ok (.ok f0), fs) ∧
      pass1Inodes fs f0 = .ok f1 := by
  unfold passOne at h
  split at h
  · cases h
  · next opened hopen =>
    split at h
    · next before walked hprepare =>
      cases h1 : pass1Inodes walked before with
      | error e =>
        rw [h1] at h
        cases h
      | ok after =>
        rw [h1] at h
        cases h
        exact ⟨hopen, hprepare, h1⟩
    · cases h

/-- The check up to pass 2, with the findings after it. -/
def passTwo (device : Device) :
    Option ((Filesystem × Filesystem × Findings × Findings) × Findings) :=
  (passOne device).bind fun (fs0, fs, f0, f1) =>
    (pass2Directories fs f1).toOption.map fun f2 => ((fs0, fs, f0, f1), f2)

theorem passTwo_ok {device : Device} {fs0 fs : Filesystem} {f0 f1 f2 : Findings}
    (h : passTwo device = some ((fs0, fs, f0, f1), f2)) : openOn device = .ok fs0 ∧
      exec (prepare 0 { force := true } 0) fs0 = (.ok (.ok f0), fs) ∧
      pass1Inodes fs f0 = .ok f1 ∧ pass2Directories fs f1 = .ok f2 := by
  obtain ⟨⟨opened, walked, before, after⟩, hone, hrest⟩ := Option.bind_eq_some_iff.mp h
  obtain ⟨hopen, hprepare, h1⟩ := passOne_ok hone
  dsimp only at hrest
  cases h2 : pass2Directories walked after with
  | error e =>
    rw [h2] at hrest
    cases hrest
  | ok last =>
    rw [h2] at hrest
    cases hrest
    exact ⟨hopen, hprepare, h1, h2⟩

/-! ### A lost directory whose `..` is the root -/

/-- The start of a directory's inode, of one block. -/
def dirInode (block : Nat) : List UInt8 :=
  toLe 2 0x41ed ++ [0, 0] ++ toLe 4 1024 ++ List.replicate 18 0 ++ [2, 0] ++
    List.replicate 12 0 ++ toLe 4 block

/-- The block of a directory of `.` and `..` alone. -/
def dirBlock (dot dotdot : Nat) : List UInt8 :=
  toLe 4 dot ++ [12, 0, 1, 2, 0x2e, 0, 0, 0] ++ toLe 4 dotdot ++ [0xf4, 3, 2, 2, 0x2e, 0x2e]

/-- 16 blocks, 16 inodes: the root, empty, and directory 12, which nothing names. -/
def lostImage : Device := .ofChunks 16384
  [(1024, toLe 4 16 ++ toLe 4 16), (1024 + 0x14, [1]), (1024 + 0x21, [0x20]), (1024 + 0x28, [16]),
    (1024 + 0x38, [0x53, 0xef]), (2048, [3, 0, 0, 0, 4, 0, 0, 0, 5]),
    (5 * 1024 + 128, dirInode 7), (6 * 1024 + 3 * 128, dirInode 8),
    (7 * 1024, dirBlock 2 2), (8 * 1024, dirBlock 12 2)]

def dotEntries (dot dotdot : Nat) : List DirEntry :=
  [{ inode := dot, recLen := 12, fileType := 2, name := dotName },
    { inode := dotdot, recLen := 1012, fileType := 2, name := dotdotName }]

/-- Its check up to pass 2: the directories, the children, and the entries of the two. -/
theorem lostImage_checked : (passTwo lostImage).map (fun ⟨⟨_, fs, _, f1⟩, f2⟩ =>
    (f1.state.directories, f2.state.children, [entriesOf fs 2, entriesOf fs 12])) =
      some ([2, 12], [(2, [2, 12])], [some (dotEntries 2 2), some (dotEntries 12 2)]) := by
  decide +kernel

theorem lost_run : ∃ fs0 fs f0 f1 f2, openOn lostImage = .ok fs0 ∧
    exec (prepare 0 { force := true } 0) fs0 = (.ok (.ok f0), fs) ∧
    pass1Inodes fs f0 = .ok f1 ∧ pass2Directories fs f1 = .ok f2 ∧
    f1.state.directories = [2, 12] ∧ f2.state.children = [(2, [2, 12])] ∧
    entriesOf fs 2 = some (dotEntries 2 2) ∧ entriesOf fs 12 = some (dotEntries 12 2) := by
  obtain ⟨⟨⟨fs0, fs, f0, f1⟩, f2⟩, hrun, heq⟩ := Option.map_eq_some_iff.mp lostImage_checked
  obtain ⟨hopen, hprepare, h1, h2⟩ := passTwo_ok hrun
  obtain ⟨hdirs, hrest⟩ := Prod.mk.inj heq
  obtain ⟨hchildren, hentries⟩ := Prod.mk.inj hrest
  obtain ⟨hroot, hentries⟩ := List.cons.inj hentries
  exact ⟨fs0, fs, f0, f1, f2, hopen, hprepare, h1, h2, hdirs, hchildren, hroot,
    (List.cons.inj hentries).1⟩

theorem connectivity_lost : ∃ fs f2,
    (∀ d, InUseDirectory fs d → (ReportsDisconnected f2 d ↔ ¬ NameReach fs d)) ↔
      ∀ d, InUseDirectory fs d →
        ((¬ InUseDirectory fs Ino.root ∨ DotdotReach fs d) ↔ NameReach fs d) := by
  obtain ⟨fs0, fs, f0, f1, f2, -, hprepare, h1, h2, -⟩ := lost_run
  exact ⟨fs, f2, connectivity_iff hprepare h1 h2⟩

/-- No name leads to directory 12, and pass 3 does not report it. -/
theorem lost_not_reported : ¬ ∀ (options : FsckOptions) (fuel now : Nat) (device : Device)
    (fs0 fs : Filesystem) (f0 f1 f2 : Findings), openOn device = .ok fs0 →
    exec (prepare fuel options now) fs0 = (.ok (.ok f0), fs) → pass1Inodes fs f0 = .ok f1 →
    pass2Directories fs f1 = .ok f2 → (∀ d, InUseDirectory fs d → WellFormedDirectory fs d) →
    ∀ d, InUseDirectory fs d → (ReportsDisconnected f2 d ↔ ¬ NameReach fs d) := by
  intro hclaim
  obtain ⟨fs0, fs, f0, f1, f2, hopen, hprepare, h1, h2, hdirs, hchildren, hroot, hlost⟩ := lost_run
  obtain ⟨fs', hfresh⟩ := prepare_onlyClaims hprepare
  have hdirs1 := pass1_tree hfresh.directories h1
  have htwo : ∀ d, InUseDirectory fs d ↔ d = 2 ∨ d = 12 := by
    intro d
    rw [← hdirs1, hdirs]
    simp
  have hwell : ∀ d, InUseDirectory fs d → WellFormedDirectory fs d := by
    intro d hd
    rcases (htwo d).mp hd with rfl | rfl
    · exact ⟨_, _, [], hroot, rfl, rfl⟩
    · exact ⟨_, _, [], hlost, rfl, rfl⟩
  have hnone : ∀ d c, ¬ Names fs d c := by
    rintro d c ⟨hd, entries, hentries, e, he, hdot, hdotdot, -⟩
    have hof : ∃ a b, entries = dotEntries a b := by
      rcases (htwo d).mp hd with rfl | rfl
      · exact ⟨2, 2, Option.some.inj (hentries.symm.trans hroot)⟩
      · exact ⟨12, 2, Option.some.inj (hentries.symm.trans hlost)⟩
    obtain ⟨a, b, rfl⟩ := hof
    rcases List.mem_cons.mp he with rfl | he
    · exact hdot rfl
    · rw [List.mem_singleton.mp he] at hdotdot
      exact hdotdot rfl
  have hunnamed : ¬ NameReach fs 12 := by
    intro h
    rcases ReflTransGen.cases_tail h with heq | ⟨c, -, hc⟩
    · exact absurd heq (by decide)
    · exact hnone c 12 hc
  have hreported := (hclaim _ 0 0 lostImage fs0 fs f0 f1 f2 hopen hprepare h1 h2 hwell 12
    ((htwo 12).mpr (Or.inr rfl))).mpr hunnamed
  obtain ⟨-, -, hunreached⟩ := (reportsDisconnected_iff f2 12).mp hreported
  rw [hchildren] at hunreached
  exact hunreached (by decide)

end MkfsExt4.Fsck
