/-
  The link counts of pass 2 against the entries it accepts.

  `namesIn fs s ds i` is the number of entries that name the inode `i`, in the directories `ds`,
  inside the filesystem and in use. Pass 2 counts them exactly (`pass2_observed`) as long as its
  16-bit counters last, and comes through exactly when they do (`pass2_total`); the corrections of
  pass 4 are these numbers (`pass4_observed`). `links_iff` puts that together over every stretch
  of directories pass 2 comes to.
-/
import MkfsExt4.Fs.Descriptors
import MkfsExt4.Fsck.Connectivity
import MkfsExt4.Fsck.ReadOnly
import MkfsExt4.Structs.DirentCodec

namespace MkfsExt4.Fsck

open Lib.Hoare Lib.Endian Lib.Store Filesystem

variable {fs : Filesystem} {f f' : Findings}

/-! ## The names of an inode -/

/-- The inodes that entries name, of entries pass 2 accepts: inside the filesystem, in use. -/
def acceptedIn (fs : Filesystem) (inUse : List Nat) (entries : List DirEntry) : List Nat :=
  (entries.map DirEntry.inode).filter fun i =>
    i ≠ 0 && i ≤ fs.superblock.inodesCount && inUse.contains i

/-- The number of accepted entries of the directories `ds` that name an inode. -/
def namesIn (fs : Filesystem) (s : ScanState) (ds : List Nat) (i : Nat) : Nat :=
  (ds.flatMap fun d => acceptedIn fs s.inodesInUse ((entriesOf fs d).getD [])).count i

/-- The blocks of a directory can be gone through, to their end or to one that is damaged. -/
def Scans (fs : Filesystem) (d : Nat) : Prop :=
  fs.blockSize ≠ 0 ∧ ∃ dir s, fs.readInode d = .ok dir ∧
    scanDir fs d dir (List.range ((dir.size + fs.blockSize - 1) / fs.blockSize)) { report := {} } =
      .ok s

/-- What pass 4 compares with the link count of an inode. -/
def observed (f : Findings) (i : Nat) : Nat := (f.state.observedLinks.lookup i).getD 0

theorem acceptedIn_cons (inUse : List Nat) (entry : DirEntry) (entries : List DirEntry) :
    acceptedIn fs inUse (entry :: entries) =
      if entry.inode ≠ 0 ∧ entry.inode ≤ fs.superblock.inodesCount ∧ entry.inode ∈ inUse then
        entry.inode :: acceptedIn fs inUse entries
      else acceptedIn fs inUse entries := by
  simp only [acceptedIn, List.map_cons, List.filter_cons, Bool.and_eq_true, decide_eq_true_eq,
    List.contains_iff_mem, and_assoc]

/-! ## One directory -/

theorem countLink_ok {inum : Nat} (h : countLink inum f = .ok f') :
    (∀ i, observed f' i = observed f i + [inum].count i) ∧
      f'.state.inodesInUse = f.state.inodesInUse := by
  unfold countLink at h
  obtain ⟨_, -, h⟩ := bind_ok h
  cases h
  refine ⟨fun i => ?_, rfl⟩
  simp only [observed, Lib.SortedMap.lookup_insert, List.count_singleton, beq_iff_eq]
  by_cases hi : i = inum
  · rw [if_pos hi, if_pos hi.symm, Option.getD_some, hi]
  · rw [if_neg hi, if_neg (Ne.symm hi), Nat.add_zero]

theorem countLink_total {inum : Nat} (h : observed f inum + 1 < 2 ^ 16) :
    ∃ f', countLink inum f = .ok f' := by
  have hroom : ¬ 2 ^ 16 ≤ (f.state.observedLinks.lookup inum).getD 0 + 1 := Nat.not_le.mpr h
  unfold countLink panicIf
  dsimp only
  rw [if_neg hroom]
  exact ⟨_, rfl⟩

theorem checkEntries_observed {d : Nat} {seen : List (List UInt8)} {entries : List DirEntry}
    (h : checkEntries fs d seen entries f = .ok f') :
    (∀ i, observed f' i = observed f i + (acceptedIn fs f.state.inodesInUse entries).count i) ∧
      f'.state.inodesInUse = f.state.inodesInUse := by
  induction entries generalizing f seen with
  | nil =>
    cases h
    exact ⟨fun i => rfl, rfl⟩
  | cons entry rest ih =>
    rw [acceptedIn_cons]
    simp only [checkEntries] at h
    split at h
    · next hout =>
      rw [if_neg (by omega)]
      have hrest := ih h
      exact hrest
    · next hin =>
      split at h
      · next hfree =>
        rw [if_neg fun hacc => hfree hacc.2.2]
        have hrest := ih h
        exact hrest
      · next hused =>
        obtain ⟨f1, h1, h⟩ := bind_ok h
        obtain ⟨f2, h2, h⟩ := bind_ok h
        have hf1 := checkFiletype_state h1
        rw [state_pushIf] at hf1
        obtain ⟨hcount, huse⟩ := countLink_ok h2
        obtain ⟨hrest, huse'⟩ := ih h
        rw [huse, hf1] at huse' hrest
        rw [if_pos ⟨by omega, by omega, not_not.mp hused⟩]
        refine ⟨fun i => ?_, huse'⟩
        have hbase : observed f1 i = observed f i := by rw [observed, hf1, observed]
        rw [hrest, hcount, hbase, List.count_singleton, List.count_cons]
        omega

/-- Entries are gone through to the end when there is room to count them. -/
theorem checkEntries_total {d : Nat} {seen : List (List UInt8)} {entries : List DirEntry}
    (huse : ∀ i ∈ f.state.inodesInUse, ∃ inode, fs.readInode i = .ok inode)
    (hroom : ∀ i, observed f i + (acceptedIn fs f.state.inodesInUse entries).count i < 2 ^ 16) :
    ∃ f', checkEntries fs d seen entries f = .ok f' := by
  induction entries generalizing f seen with
  | nil => exact ⟨f, rfl⟩
  | cons entry rest ih =>
    rw [acceptedIn_cons] at hroom
    simp only [checkEntries]
    split
    · next hout =>
      rw [if_neg (by omega)] at hroom
      refine ih ?_ ?_
      · exact huse
      · exact hroom
    · next hin =>
      split
      · next hfree =>
        rw [if_neg fun hacc => hfree hacc.2.2] at hroom
        refine ih ?_ ?_
        · exact huse
        · exact hroom
      · next hused =>
        have hused := not_not.mp hused
        rw [if_pos ⟨by omega, by omega, hused⟩] at hroom
        obtain ⟨f1, h1⟩ : ∃ f1, checkFiletype fs d entry (f.pushIf (entry.name ∈ seen) 2
            .duplicateName .serious (s!"directory {d} has more than one entry named '" ++
              entry.nameString ++ "'")) = .ok f1 := by
          unfold checkFiletype
          split
          · exact ⟨_, rfl⟩
          · obtain ⟨target, htarget⟩ := huse _ hused
            rw [htarget]
            exact ⟨_, rfl⟩
        have hf1 := checkFiletype_state h1
        rw [state_pushIf] at hf1
        have hbase : ∀ i, observed f1 i = observed f i := fun i => by
          rw [observed, hf1, observed]
        have hself := hroom entry.inode
        rw [List.count_cons_self] at hself
        obtain ⟨f2, h2⟩ : ∃ f2, countLink entry.inode f1 = .ok f2 :=
          countLink_total (by rw [hbase]; omega)
        obtain ⟨hcount, huse2⟩ := countLink_ok h2
        rw [hf1] at huse2
        rw [h1]
        show ∃ f', (countLink entry.inode f1 >>= _) = Except.ok f'
        rw [h2]
        refine ih (f := f2) (by rwa [huse2]) fun i => ?_
        have hi := hroom i
        rw [List.count_cons] at hi
        rw [huse2, hcount, hbase, List.count_singleton]
        omega

theorem observed_checkDotdot (d : Nat) (entries : List DirEntry) (i : Nat) :
    observed (checkDotdot d entries (checkDot d entries f)) i = observed f i ∧
      (checkDotdot d entries (checkDot d entries f)).state.inodesInUse = f.state.inodesInUse := by
  have hdot := checkDot_state (f := f) d entries
  have hlinks : (checkDotdot d entries (checkDot d entries f)).state.observedLinks =
      (checkDot d entries f).state.observedLinks := by
    unfold checkDotdot
    dsimp only
    split
    · split <;> rfl
    · rfl
  rw [observed, hlinks, hdot, (checkDotdot_claims d entries).inodesInUse, hdot]
  exact ⟨rfl, rfl⟩

/-- What a directory's scan comes to, as pass 2 has it. -/
theorem pass2Directory_eq {d : Nat} (hscans : Scans fs d) : ∃ s : DirScan,
    (s.failed = true → entriesOf fs d = none) ∧ (s.failed = false → entriesOf fs d = some s.entries) ∧
    pass2Directory fs f d =
      if s.failed then .ok { f with report := s.report }
      else checkEntries fs d [] s.entries
        (checkDotdot d s.entries (checkDot d s.entries { f with report := s.report })) := by
  obtain ⟨hsize, dir, t, hread, hscan⟩ := hscans
  obtain ⟨s, hs, hentries, hfailed⟩ :=
    @scanDir_congr fs d dir _ { report := {} } { report := f.report } _ rfl rfl hscan
  have hof : entriesOf fs d = if s.failed then none else some s.entries := by
    unfold entriesOf
    simp only [hread, hscan, hentries, hfailed]
  refine ⟨s, fun hf => by rw [hof, if_pos hf], fun hf => ?_, ?_⟩
  · rw [hof, if_neg (by rw [hf]; decide)]
  · unfold pass2Directory
    rw [hread, panicIf, if_neg hsize]
    show ((scanDir fs d dir (List.range ((dir.size + fs.blockSize - 1) / fs.blockSize))
      { report := f.report }) >>= _) = _
    rw [hs]
    rfl

theorem pass2Directory_observed {d : Nat} (hscans : Scans fs d)
    (h : pass2Directory fs f d = .ok f') :
    (∀ i, observed f' i = observed f i +
      (acceptedIn fs f.state.inodesInUse ((entriesOf fs d).getD [])).count i) ∧
      f'.state.inodesInUse = f.state.inodesInUse := by
  obtain ⟨s, hnone, hsome, heq⟩ := pass2Directory_eq (f := f) hscans
  rw [heq] at h
  split at h
  · next hfailed =>
    cases h
    rw [hnone hfailed]
    exact ⟨fun i => rfl, rfl⟩
  · next hfailed =>
    obtain ⟨hcount, huse⟩ := checkEntries_observed h
    have hbase := observed_checkDotdot (f := { f with report := s.report }) d s.entries
    rw [(hbase 0).2] at hcount huse
    rw [hsome (Bool.eq_false_iff.mpr hfailed), Option.getD_some]
    refine ⟨fun i => ?_, huse⟩
    rw [hcount, (hbase i).1]
    rfl

theorem pass2Directory_total {d : Nat} (hscans : Scans fs d)
    (huse : ∀ i ∈ f.state.inodesInUse, ∃ inode, fs.readInode i = .ok inode)
    (hroom : ∀ i, observed f i +
      (acceptedIn fs f.state.inodesInUse ((entriesOf fs d).getD [])).count i < 2 ^ 16) :
    ∃ f', pass2Directory fs f d = .ok f' := by
  obtain ⟨s, -, hsome, heq⟩ := pass2Directory_eq (f := f) hscans
  rw [heq]
  split
  · exact ⟨_, rfl⟩
  · next hfailed =>
    have hbase := observed_checkDotdot (f := { f with report := s.report }) d s.entries
    rw [hsome (Bool.eq_false_iff.mpr hfailed), Option.getD_some] at hroom
    refine checkEntries_total (by rw [(hbase 0).2]; exact huse) fun i => ?_
    rw [(hbase i).1, (hbase 0).2]
    exact hroom i

/-! ## A stretch of directories -/

theorem namesIn_cons (s : ScanState) (d : Nat) (ds : List Nat) (i : Nat) :
    namesIn fs s (d :: ds) i =
      (acceptedIn fs s.inodesInUse ((entriesOf fs d).getD [])).count i + namesIn fs s ds i := by
  rw [namesIn, List.flatMap_cons, List.count_append, namesIn]

theorem namesIn_congr {s s' : ScanState} (h : s'.inodesInUse = s.inodesInUse) (ds : List Nat)
    (i : Nat) : namesIn fs s' ds i = namesIn fs s ds i := by
  rw [namesIn, h, namesIn]

/-- Pass 2 counts the names of the directories it gets through. -/
theorem pass2_observed {ds : List Nat} (hscans : ∀ d ∈ ds, Scans fs d)
    (h : ds.foldlM (pass2Directory fs) f = .ok f') :
    ∀ i, observed f' i = observed f i + namesIn fs f.state ds i := by
  induction ds generalizing f with
  | nil =>
    cases h
    exact fun i => rfl
  | cons d ds ih =>
    obtain ⟨hd, hscans⟩ := List.forall_mem_cons.mp hscans
    obtain ⟨f1, h1, h⟩ := bind_ok (List.foldlM_cons (m := Except Failure) ▸ h)
    obtain ⟨hcount, huse⟩ := pass2Directory_observed hd h1
    intro i
    rw [ih hscans h, hcount, namesIn_congr huse, namesIn_cons]
    omega

/-- Pass 2 gets through directories that can be gone through, as long as the counters last. -/
theorem pass2_total {ds : List Nat} (hscans : ∀ d ∈ ds, Scans fs d)
    (huse : ∀ i ∈ f.state.inodesInUse, ∃ inode, fs.readInode i = .ok inode)
    (hroom : ∀ i, observed f i + namesIn fs f.state ds i < 2 ^ 16) :
    ∃ f', ds.foldlM (pass2Directory fs) f = .ok f' := by
  induction ds generalizing f with
  | nil => exact ⟨f, rfl⟩
  | cons d ds ih =>
    obtain ⟨hd, hscans⟩ := List.forall_mem_cons.mp hscans
    obtain ⟨f1, h1⟩ := pass2Directory_total hd huse fun i => by
      have hi := hroom i
      rw [namesIn_cons] at hi
      omega
    obtain ⟨hcount, huse1⟩ := pass2Directory_observed hd h1
    obtain ⟨f2, h2⟩ := ih (f := f1) hscans (by rwa [huse1]) fun i => by
      have hi := hroom i
      rw [namesIn_cons] at hi
      rw [hcount, namesIn_congr huse1]
      omega
    refine ⟨f2, ?_⟩
    rw [List.foldlM_cons, h1]
    exact h2

/-! ## Pass 4 -/

/-- The corrections of pass 4 are what was counted. -/
theorem pass4_observed {fixes : List LinkFix} (h : pass4LinkCounts fs f = .ok (f', fixes)) :
    ∀ fix ∈ fixes, fix.observed = observed f fix.inum := by
  have hrun := foldlM_ok (fun _ (acc : Findings × List LinkFix) => acc.1.state = f.state ∧
    ∀ fix ∈ acc.2, fix.observed = observed f fix.inum) ?_ ⟨rfl, fun _ h => absurd h List.not_mem_nil⟩ h
  · exact hrun.2
  · intro done inum acc acc' hacc hstep
    obtain ⟨hstate, hfixes⟩ := hacc
    unfold pass4Inode at hstep
    dsimp only at hstep
    split at hstep
    · cases hstep
      exact ⟨hstate, hfixes⟩
    · obtain ⟨inode, -, hstep⟩ := bind_ok hstep
      split at hstep
      · cases hstep
        exact ⟨hstate, hfixes⟩
      · split at hstep
        · cases hstep
          refine ⟨hstate, fun fix hfix => ?_⟩
          rcases List.mem_append.mp hfix with hfix | hfix
          · exact hfixes fix hfix
          · rw [List.mem_singleton.mp hfix, observed, ← hstate]
        · cases hstep
          exact ⟨hstate, hfixes⟩

/-! ## The counts of a check -/

/-- Of every stretch of directories that pass 2 comes to, it gets to the end, having counted the
    accepted entries of each inode; and the corrections of pass 4 are these numbers. -/
def CountsNames (fs : Filesystem) (f : Findings) : Prop :=
  ∀ ds, ds <+: f.state.directories → (∀ d ∈ ds, Scans fs d) →
    ∃ f', ds.foldlM (pass2Directory fs) f = .ok f' ∧
      (∀ i, observed f' i = namesIn fs f.state ds i) ∧
      ∀ f3 fixes, pass4LinkCounts fs (pass3Connectivity f') = .ok (f3, fixes) →
        ∀ fix ∈ fixes, fix.observed = namesIn fs f.state ds fix.inum

theorem countsNames_iff (hlinks : f.state.observedLinks = [])
    (huse : ∀ i ∈ f.state.inodesInUse, ∃ inode, fs.readInode i = .ok inode) :
    CountsNames fs f ↔ ∀ ds, ds <+: f.state.directories → (∀ d ∈ ds, Scans fs d) →
      ∀ i, namesIn fs f.state ds i < 2 ^ 16 := by
  have hzero : ∀ i, observed f i = 0 := fun i => by rw [observed, hlinks]; rfl
  refine forall_congr' fun ds => imp_congr_right fun _ => imp_congr_right fun hscans => ?_
  constructor
  · rintro ⟨f', hrun, hcount, -⟩ i
    have hbound := (foldlM_ok (fun _ g => ClaimsNothing f.state g.state)
      (fun _ _ _ _ hdone hstep => hdone.trans (pass2Directory_claims hstep)) (.refl _) hrun).links
    rw [← hcount i, observed]
    cases hlook : f'.state.observedLinks.lookup i with
    | none => decide
    | some n =>
      refine hbound ?_ (i, n) (Lib.SortedMap.mem_of_lookup hlook)
      intro p hp
      rw [hlinks] at hp
      cases hp
  · intro hroom
    obtain ⟨f', hrun⟩ := pass2_total (f := f) hscans huse fun i => by
      rw [hzero, Nat.zero_add]
      exact hroom i
    have hcount : ∀ i, observed f' i = namesIn fs f.state ds i := fun i => by
      rw [pass2_observed hscans hrun, hzero, Nat.zero_add]
    refine ⟨f', hrun, hcount, fun f3 fixes h fix hfix => ?_⟩
    rw [pass4_observed h fix hfix, observed, pass3_state, ← hcount, observed]

/-- In a check that comes to pass 2, the link counts are the numbers of accepted entries exactly
    when no inode is named by more than 65535 of those pass 2 comes to. -/
theorem links_iff {options : FsckOptions} {fuel now : Nat} {fs0 : Filesystem} {f0 f1 : Findings}
    (hprepare : exec (prepare fuel options now) fs0 = (.ok (.ok f0), fs))
    (h1 : pass1Inodes fs f0 = .ok f1) :
    CountsNames fs f1 ↔ ∀ ds, ds <+: f1.state.directories → (∀ d ∈ ds, Scans fs d) →
      ∀ i, namesIn fs f1.state ds i < 2 ^ 16 := by
  obtain ⟨fs1, hfresh⟩ := prepare_onlyClaims hprepare
  refine countsNames_iff ((pass1_names h1).links.trans hfresh.links) fun i hi => ?_
  obtain ⟨inode, huse⟩ := check_inUse hprepare h1 i hi
  exact ⟨inode, huse.1⟩

/-! ### Seventy thousand names for the root -/

/-- An entry of nine bytes that names inode 2. -/
def crowdEntry : DirEntry := { inode := 2, recLen := 9, fileType := 0, name := [0x78] }

/-- A block of 455 of them. -/
def crowd : List UInt8 := (List.replicate 455 [2, 0, 0, 0, 9, 0, 1, 0, 0x78]).flatten ++ [0]

/-- The inode of a directory of twelve blocks, each of them block 3. -/
def crowdInode : List UInt8 :=
  toLe 2 0x41ed ++ [0, 0] ++ toLe 4 (12 * 4096) ++ List.replicate 18 0 ++ [2, 0] ++
    List.replicate 12 0 ++ (List.replicate 12 (toLe 4 3)).flatten ++ List.replicate 40 0

/-- Six blocks of 4096 bytes and 13 inodes, all of them that directory. -/
def crowdedImage : Device where
  size := 6 * 4096
  bytes := fun p =>
    if p < 2 * 4096 then
      (Device.ofChunks (2 * 4096)
        [(1024, toLe 4 13 ++ toLe 4 6), (1024 + 0x18, [2]), (1024 + 0x21, [0x20]),
          (1024 + 0x28, [16]), (1024 + 0x38, [0x53, 0xef]),
          (4096, [4, 0, 0, 0, 5, 0, 0, 0, 2])]).bytes p
    else if p < 3 * 4096 then crowdInode.getD (p % 128) 0
    else if p < 4 * 4096 then crowd.getD (p - 3 * 4096) 0
    else 0

/-- What the directories of the filesystem are: all of twelve blocks, which are block 3. -/
def allCrowded (fs : Filesystem) (ds : List Nat) : Bool :=
  ds.all fun d => match fs.readInode d with
    | .ok dir => dir.size = 12 * 4096 && (List.range 12).all fun l =>
        match fs.resolveBlock dir l with
        | .ok (some 3) => true
        | _ => false
    | .error _ => false

/-- Its check up to pass 1. -/
theorem crowdedImage_checked : (passOne crowdedImage).map (fun ⟨_, fs, _, f1⟩ =>
    (f1.state.directories, f1.state.inodesInUse.contains 2, fs.superblock.inodesCount,
      fs.superblock.blocksCount, fs.blockSize, allCrowded fs f1.state.directories)) =
    some (List.range' 1 13, true, 13, 6, 4096, true) := by
  decide +kernel

theorem parseBlock_crowd (n : Nat) :
    Dirent.parseBlock ((List.replicate n [2, 0, 0, 0, 9, 0, 1, 0, 0x78]).flatten ++ [0]) =
      .ok (List.replicate n crowdEntry) := by
  induction n with
  | zero => rfl
  | succ n ih =>
    have hstep := @Dirent.parseBlock_cons ([2, 0, 0, 0, 9, 0, 1, 0, 0x78] ++
      ((List.replicate n [2, 0, 0, 0, 9, 0, 1, 0, 0x78]).flatten ++ [0])) crowdEntry ?_
    · rw [List.replicate_succ, List.flatten_cons, List.append_assoc, hstep]
      show (Dirent.parseBlock ((List.replicate n [2, 0, 0, 0, 9, 0, 1, 0, 0x78]).flatten ++ [0])
        >>= _) = _
      rw [ih]
      rfl
    · unfold DirEntry.decode
      dsimp only
      rw [if_neg, if_neg, if_neg]
      · rfl
      · exact Nat.lt_irrefl 9
      · simp [Dirent.entryHeaderLen, getU16, slice, ofLe]
      · simp [Dirent.entryHeaderLen]

/-- A directory whose blocks are all full of one entry. -/
theorem scanDir_crowd {d n : Nat} {dir : Inode} {buf : List UInt8} {ls : List Nat} {s : DirScan}
    (hmap : ∀ l ∈ ls, fs.resolveBlock dir l = .ok (some 3)) (hread : fs.readBlock 3 = .ok buf)
    (hparse : Dirent.parseBlock buf = .ok (List.replicate n crowdEntry)) :
    ∃ s', scanDir fs d dir ls s = .ok s' ∧
      s'.entries = s.entries ++ List.replicate (ls.length * n) crowdEntry ∧
      s'.failed = s.failed := by
  induction ls generalizing s with
  | nil => exact ⟨s, rfl, by simp, rfl⟩
  | cons l ls ih =>
    obtain ⟨hl, hmap⟩ := List.forall_mem_cons.mp hmap
    obtain ⟨s', hs', hentries, hfailed⟩ := ih (s := scanDirBlock fs d dir l buf s) hmap
    have hblock : (scanDirBlock fs d dir l buf s).entries =
        s.entries ++ List.replicate n crowdEntry ∧
        (scanDirBlock fs d dir l buf s).failed = s.failed := by
      unfold scanDirBlock
      dsimp only
      rw [hparse]
      dsimp only
      rw [List.filter_replicate_of_pos (by decide)]
      exact ⟨rfl, rfl⟩
    refine ⟨s', ?_, ?_, hfailed.trans hblock.2⟩
    · simp only [scanDir]
      rw [hl]
      dsimp only [bind, Except.bind]
      rw [hread]
      exact hs'
    · rw [hentries, hblock.1, List.append_assoc, List.replicate_append_replicate, List.length_cons,
        Nat.add_mul, Nat.one_mul, Nat.add_comm]

theorem crowded_run : ∃ fs0 fs f0 f1, openOn crowdedImage = .ok fs0 ∧
    exec (prepare 0 { force := true } 0) fs0 = (.ok (.ok f0), fs) ∧
    pass1Inodes fs f0 = .ok f1 ∧ f1.state.directories = List.range' 1 13 ∧
    ∀ d ∈ List.range' 1 13, Scans fs d ∧
      acceptedIn fs f1.state.inodesInUse ((entriesOf fs d).getD []) = List.replicate 5460 2 := by
  obtain ⟨⟨fs0, fs, f0, f1⟩, hone, hrun⟩ := Option.map_eq_some_iff.mp crowdedImage_checked
  obtain ⟨hopen, hprepare, h1⟩ := passOne_ok hone
  simp only [Prod.mk.injEq] at hrun
  obtain ⟨hdirs, hused, hinodes, hblocks, hsize, hall⟩ := hrun
  refine ⟨fs0, fs, f0, f1, hopen, hprepare, h1, hdirs, fun d hd => ?_⟩
  have hdevice : fs.device = crowdedImage := by
    have hkeeps := @prepare_keeps { force := true } rfl 0 0 fs0
    rw [hprepare] at hkeeps
    exact hkeeps.trans (openOn_opened hopen).device
  have hread : fs.readBlock 3 = .ok crowd := by
    have hlen : crowd.length = 4096 := by
      rw [crowd, List.length_append, List.length_flatten, List.map_replicate,
        List.sum_replicate_nat]
      rfl
    rw [readBlock, hblocks, if_neg (by decide), readAtBlock_ok_iff, hsize, hdevice]
    refine ⟨⟨by decide, by decide⟩, ext_getD 0 (by rw [hlen, length_window]) fun i hi => ?_⟩
    rw [hlen] at hi
    rw [getD_window _ _ _ _ _ hi]
    simp only [crowdedImage]
    rw [if_neg (by omega), if_neg (by omega), if_pos (by omega), Nat.add_sub_cancel_left]
  have hdir := List.all_eq_true.mp hall d (hdirs ▸ hd)
  split at hdir
  · next dir hinode =>
    rw [Bool.and_eq_true, decide_eq_true_eq] at hdir
    obtain ⟨hlen, hmaps⟩ := hdir
    have hmap : ∀ l ∈ List.range 12, fs.resolveBlock dir l = .ok (some 3) := by
      intro l hl
      have h := List.all_eq_true.mp hmaps l hl
      split at h
      · assumption
      · cases h
    obtain ⟨s, hs, hentries, hfailed⟩ := scanDir_crowd (d := d) (s := { report := {} }) hmap
      hread (parseBlock_crowd 455)
    have hcount : (dir.size + fs.blockSize - 1) / fs.blockSize = 12 := by rw [hlen, hsize]
    rw [← hcount] at hs
    have hof : entriesOf fs d = some s.entries := by
      unfold entriesOf
      simp only [hinode, hs]
      rw [if_neg (by rw [hfailed]; decide)]
    refine ⟨⟨by rw [hsize]; decide, dir, s, hinode, hs⟩, ?_⟩
    rw [hof, hentries, Option.getD_some, List.nil_append, List.length_range, acceptedIn,
      List.map_replicate, List.filter_replicate_of_pos]
    · rfl
    · rw [hinodes]
      simpa [crowdEntry] using hused
  · cases hdir

/-- All the names of that image are the root's. -/
theorem namesIn_crowded {s : ScanState} {ds : List Nat}
    (h : ∀ d ∈ ds, acceptedIn fs s.inodesInUse ((entriesOf fs d).getD []) = List.replicate 5460 2) :
    namesIn fs s ds 2 = ds.length * 5460 := by
  induction ds with
  | nil => rfl
  | cons d ds ih =>
    obtain ⟨hd, h⟩ := List.forall_mem_cons.mp h
    rw [namesIn_cons, hd, List.count_replicate_self, ih h, List.length_cons, Nat.add_mul, Nat.one_mul,
      Nat.add_comm]

theorem links_crowded : ∃ fs f1, CountsNames fs f1 ↔ ∀ ds, ds <+: f1.state.directories →
    (∀ d ∈ ds, Scans fs d) → ∀ i, namesIn fs f1.state ds i < 2 ^ 16 := by
  obtain ⟨fs0, fs, f0, f1, -, hprepare, h1, -⟩ := crowded_run
  exact ⟨fs, f1, links_iff hprepare h1⟩

/-- Pass 2 does not get through the thirteen directories of that image. -/
theorem crowded_not_counted : ¬ ∀ (options : FsckOptions) (fuel now : Nat) (device : Device)
    (fs0 fs : Filesystem) (f0 f1 : Findings), openOn device = .ok fs0 →
    exec (prepare fuel options now) fs0 = (.ok (.ok f0), fs) → pass1Inodes fs f0 = .ok f1 →
    CountsNames fs f1 := by
  intro hclaim
  obtain ⟨fs0, fs, f0, f1, hopen, hprepare, h1, hdirs, hnames⟩ := crowded_run
  obtain ⟨fs1, hfresh⟩ := prepare_onlyClaims hprepare
  have huse : ∀ i ∈ f1.state.inodesInUse, ∃ inode, fs.readInode i = .ok inode := by
    intro i hi
    obtain ⟨inode, huse⟩ := check_inUse hprepare h1 i hi
    exact ⟨inode, huse.1⟩
  have hcounts := hclaim _ 0 0 crowdedImage fs0 fs f0 f1 hopen hprepare h1
  rw [countsNames_iff ((pass1_names h1).links.trans hfresh.links) huse] at hcounts
  rw [← hdirs] at hnames
  have hlt := hcounts f1.state.directories (List.prefix_refl _) (fun d hd => (hnames d hd).1) 2
  rw [namesIn_crowded fun d hd => (hnames d hd).2, hdirs] at hlt
  exact absurd hlt (by decide)

end MkfsExt4.Fsck
