/-
  When a comparison ends (`src/compare.rs`, `compare_directories`).

  The walk over two directory trees keeps no record of where it was. `subdirs` is the pairs of
  directories it goes on to from a pair, whatever it reports; the walk is the one of `Lib.Walk`
  over them (`compareDirectories_ends_iff`). Pairs of inode numbers are finitely many, so
  `compare` never ends exactly when the walk comes to a pair that it comes to again below itself,
  or to a directory that is never read to its end (`compare_ends_iff`).
-/
import MkfsExt4.Compare.Images
import MkfsExt4.Fsck.Connectivity
import MkfsExt4.Lib.Walk
import MkfsExt4.Read.Resolve

namespace MkfsExt4.Compare

open Lib.Hoare Lib.Loop Lib.Walk Lib.Endian Relation Filesystem

/-! ## The pairs a pair leads to -/

/-- The pair of directories that both entries of a name are, if they are. -/
def childPair (left right : Filesystem) (lEntries rEntries : List DirEntry) (name : String) :
    Except Failure (Option (Nat × Nat)) :=
  match lEntries.find? fun e => e.nameString == name, rEntries.find? fun e => e.nameString == name with
  | some lChild, some rChild => do
    let lTarget ← left.readInode lChild.inode
    let rTarget ← right.readInode rChild.inode
    return if lTarget.isDir && rTarget.isDir then some (lChild.inode, rChild.inode) else none
  | _, _ => return none

/-- The pairs of directories under the names that both directories of a pair have. -/
def subdirs (left right : Filesystem) (pair : Nat × Nat) : Except Failure (List (Nat × Nat)) := do
  let lInode ← left.readInode pair.1
  let rInode ← right.readInode pair.2
  if !lInode.isDir ∨ !rInode.isDir then return []
  let lEntries ← left.readDir lInode
  let rEntries ← right.readDir rInode
  let both := (dirNames lEntries).filter (dirNames rEntries).contains
  let found ← both.mapM (childPair left right lEntries rEntries)
  return found.filterMap id

/-- The inode numbers of a pair. -/
def Pair.key (pair : Pair) : Nat × Nat := (pair.left, pair.right)

section Walk

variable {left right : Filesystem} {options : CompareOptions}

variable (left right options) in
theorem descend_key (path : String) (lEntries rEntries : List DirEntry)
    (st : ComparisonReport × List Pair) (name : String) :
    (descend left right options path lEntries rEntries st name).map (·.2.map Pair.key) =
      (childPair left right lEntries rEntries name).map fun c =>
        st.2.map Pair.key ++ c.toList := by
  unfold descend childPair
  cases lEntries.find? fun e => e.nameString == name with
  | none => simp [pure, Except.pure, Except.map]
  | some lChild =>
    cases rEntries.find? fun e => e.nameString == name with
    | none => simp [pure, Except.pure, Except.map]
    | some rChild =>
      dsimp only
      cases left.readInode lChild.inode with
      | error e => rfl
      | ok lTarget =>
        cases right.readInode rChild.inode with
        | error e => rfl
        | ok rTarget =>
          cases hld : lTarget.isDir <;> cases hrd : rTarget.isDir <;>
            simp [hld, hrd, bind, Except.bind, pure, Except.pure, Except.map, Pair.key]

variable (left right options) in
theorem descendAll_key (path : String) (lEntries rEntries : List DirEntry) (names : List String)
    (st : ComparisonReport × List Pair) :
    (names.foldlM (descend left right options path lEntries rEntries) st).map
        (·.2.map Pair.key) =
      (names.mapM (childPair left right lEntries rEntries)).map fun found =>
        st.2.map Pair.key ++ found.filterMap id := by
  induction names generalizing st with
  | nil => simp [pure, Except.pure, Except.map]
  | cons name names ih =>
    have hone := descend_key left right options path lEntries rEntries st name
    rw [List.foldlM_cons, List.mapM_cons]
    cases hd : descend left right options path lEntries rEntries st name with
    | error e =>
      rw [hd] at hone
      cases hc : childPair left right lEntries rEntries name with
      | error e' =>
        rw [hc] at hone
        cases hone
        rfl
      | ok c =>
        rw [hc] at hone
        cases hone
    | ok st' =>
      rw [hd] at hone
      cases hc : childPair left right lEntries rEntries name with
      | error e' =>
        rw [hc] at hone
        cases hone
      | ok c =>
        rw [hc] at hone
        have hst' : st'.2.map Pair.key = _ := Except.ok.inj hone
        rw [bind_of_ok rfl, bind_of_ok rfl, ih st', hst']
        cases names.mapM (childPair left right lEntries rEntries) with
        | error e => rfl
        | ok found => cases c <;> simp [bind, Except.bind, pure, Except.pure, Except.map]

variable (options) in
/-- What `visit` adds to the queue depends on the inode numbers alone. -/
theorem visit_key (pair : Pair) (report : ComparisonReport) :
    (visit left right options pair report).map (·.2.map Pair.key) =
      subdirs left right pair.key := by
  show _ = subdirs left right (pair.left, pair.right)
  unfold visit subdirs
  dsimp only
  cases left.readInode pair.left with
  | error e => rfl
  | ok lInode =>
    cases right.readInode pair.right with
    | error e => rfl
    | ok rInode =>
      rw [bind_of_ok rfl, bind_of_ok rfl, bind_of_ok rfl, bind_of_ok rfl]
      split
      · rfl
      · cases left.readDir lInode with
        | error e => rfl
        | ok lEntries =>
          cases right.readDir rInode with
          | error e => rfl
          | ok rEntries =>
            have hall := descendAll_key left right options pair.path lEntries
              rEntries
            rw [bind_of_ok rfl, bind_of_ok rfl, bind_of_ok rfl, bind_of_ok rfl, hall]
            cases ((dirNames lEntries).filter (dirNames rEntries).contains).mapM
              (childPair left right lEntries rEntries) with
            | error e => rfl
            | ok found => rfl

/-- The walk over the queue is the walk over the inode numbers in it. -/
theorem walkTurn_key (state : List Pair × ComparisonReport) :
    turn (subdirs left right) (state.1.map Pair.key) =
      (walkTurn left right options state).map (fun state => state.1.map Pair.key)
        (fun result => result.map fun _ => ()) := by
  obtain ⟨queue, report⟩ := state
  cases queue with
  | nil => rfl
  | cons pair queue =>
    rw [List.map_cons, turn, ← visit_key options pair report, walkTurn]
    cases visit left right options pair report with
    | error e => rfl
    | ok st =>
      show Sum.inl ((st.2.map Pair.key).reverse ++ queue.map Pair.key) =
        Sum.inl ((st.2.reverse ++ queue).map Pair.key)
      rw [List.map_append, List.map_reverse]

/-- `compare_directories` ends as the walk over the pairs does. -/
theorem compareDirectories_ends_iff {report : ComparisonReport} {r : Except Failure Unit} :
    (∃ result, Ends (walkTurn left right options) ([rootPair], report) result ∧
        result.map (fun _ => ()) = r) ↔
      Ends (turn (subdirs left right)) [(Ino.root, Ino.root)] r :=
  (ends_map_iff (f := fun state : List Pair × ComparisonReport => state.1.map Pair.key)
    walkTurn_key).symm

end Walk

/-! ## Reading inodes -/

theorem panicIf_halts (bad : Prop) [Decidable bad] : panicIf bad ≠ .error .looping := by
  unfold panicIf
  split <;> nofun

theorem bind_halts {α β : Type} {x : Except Failure α} {f : α → Except Failure β}
    (hx : x ≠ .error .looping) (hf : ∀ a, f a ≠ .error .looping) : (x >>= f) ≠ .error .looping := by
  intro h
  rcases bind_error h with he | ⟨a, -, he⟩
  · exact hx he
  · exact hf a he

theorem inodeLocation_halts (fs : Filesystem) (inum : Nat) :
    fs.inodeLocation inum ≠ .error .looping := by
  unfold Filesystem.inodeLocation
  dsimp only
  split
  · intro h
    cases h
  · refine bind_halts (panicIf_halts _) fun _ => ?_
    split
    · intro h
      cases h
    · refine bind_halts (panicIf_halts _) fun _ h => ?_
      cases h

theorem readBlock_halts (fs : Filesystem) (block : Nat) : fs.readBlock block ≠ .error .looping := by
  by_cases hfar : fs.TooFar block
  · rw [readBlock_of_tooFar hfar]
    nofun
  · obtain ⟨r, hr⟩ := readBlock_returned hfar
    rw [hr]
    exact (returned_settles r).2

/-- An inode is read, or its reading ends without it. -/
theorem readInode_halts (fs : Filesystem) (inum : Nat) : fs.readInode inum ≠ .error .looping := by
  unfold Filesystem.readInode Filesystem.readInodeRaw
  refine bind_halts (bind_halts (inodeLocation_halts fs inum) fun _ => bind_halts
    (readBlock_halts fs _) fun _ => bind_halts (panicIf_halts _) fun _ => nofun) fun raw => ?_
  unfold Inode.decode
  dsimp only
  split_ifs <;> nofun

/-- What is read lies among the inodes of the filesystem. -/
theorem readInode_le {fs : Filesystem} {inum : Nat} {inode : Inode}
    (h : fs.readInode inum = .ok inode) : inum ≤ fs.superblock.inodesCount := by
  obtain ⟨raw, hraw, -⟩ := bind_ok h
  obtain ⟨loc, hloc, -⟩ := bind_ok hraw
  unfold Filesystem.inodeLocation at hloc
  dsimp only at hloc
  split at hloc
  · cases hloc
  · next hin => omega

/-! ## Reserved inodes -/

/-- The inodes that `compare` reads of both before it walks the trees. -/
def Reserved (left right : Filesystem) (inum : Nat) : Prop :=
  1 ≤ inum ∧ inum ≤ min left.superblock.firstIno right.superblock.firstIno ∧
    inum ≤ left.superblock.inodesCount ∧ inum ≤ right.superblock.inodesCount

/-- Both have the inode. -/
def Readable (left right : Filesystem) (inum : Nat) : Prop :=
  (left.readInode inum).toBool = true ∧ (right.readInode inum).toBool = true

section Reserved

variable {left right : Filesystem} {options : CompareOptions}

theorem compareInodes_ok_iff (s n : Nat) (report : ComparisonReport) :
    (∃ report', compareInodes left right options (List.range' s n) report = .ok report') ↔
      ∀ inum, s ≤ inum → inum < s + n → inum ≤ left.superblock.inodesCount →
        inum ≤ right.superblock.inodesCount → Readable left right inum := by
  induction n generalizing s report with
  | zero => exact ⟨fun _ inum h1 h2 => absurd h2 (by omega), fun _ => ⟨report, rfl⟩⟩
  | succ n ih =>
    rw [List.range'_succ, compareInodes]
    split
    · next hpast => exact ⟨fun _ inum h1 h2 h3 h4 => absurd hpast (by omega), fun _ => ⟨report, rfl⟩⟩
    · next hin =>
      simp only [bind_ok_iff]
      constructor
      · rintro ⟨report', l, hl, r, hr, hrest⟩ inum h1 h2 h3 h4
        rcases Nat.eq_or_lt_of_le h1 with rfl | hlt
        · exact ⟨toBool_iff.mpr ⟨l, hl⟩, toBool_iff.mpr ⟨r, hr⟩⟩
        · exact (ih (s + 1) _).mp ⟨report', hrest⟩ inum hlt (by omega) h3 h4
      · intro h
        obtain ⟨hl, hr⟩ := h s (Nat.le_refl s) (by omega) (by omega) (by omega)
        obtain ⟨l, hl⟩ := toBool_iff.mp hl
        obtain ⟨r, hr⟩ := toBool_iff.mp hr
        obtain ⟨report', hrest⟩ := (ih (s + 1) (compareInode s l r options report)).mpr
          fun inum h1 h2 => h inum (by omega) (by omega)
        exact ⟨report', l, hl, r, hr, hrest⟩

theorem compareInodes_halts (xs : List Nat) (report : ComparisonReport) :
    compareInodes left right options xs report ≠ .error .looping := by
  induction xs generalizing report with
  | nil => nofun
  | cons x xs ih =>
    rw [compareInodes]
    split
    · nofun
    · exact bind_halts (readInode_halts left x) fun l => bind_halts (readInode_halts right x)
        fun r => ih _

variable (left right options) in
/-- The comparison comes to the trees when both have every reserved inode. -/
theorem compareHead_ok_iff :
    (∃ report, compareHead left right options = .ok report) ↔
      ∀ inum, Reserved left right inum → Readable left right inum := by
  unfold compareHead compareReservedInodes
  dsimp only
  rw [compareInodes_ok_iff]
  refine forall_congr' fun inum => ⟨fun h hres => ?_, fun h h1 h2 h3 h4 => ?_⟩
  · exact h hres.1 (by have := hres.2.1; omega) hres.2.2.1 hres.2.2.2
  · exact h ⟨h1, by omega, h3, h4⟩

variable (left right options) in
theorem compareHead_halts : compareHead left right options ≠ .error .looping :=
  compareInodes_halts _ _

end Reserved

/-! ## When `compare` returns -/

/-- A pair of directories the walk never gets past: it comes to the pair again below it, or
    one of the two is never read to its end. -/
def Endless (left right : Filesystem) (pair : Nat × Nat) : Prop :=
  TransGen (Enters (subdirs left right)) pair pair ∨ subdirs left right pair = .error .looping

section Ends

variable {left right : Filesystem}

variable (left right) in
theorem subdirs_finite : {pair | (subdirs left right pair).toBool = true}.Finite := by
  refine Set.Finite.subset ((Set.finite_le_nat left.superblock.inodesCount).prod
    (Set.finite_le_nat right.superblock.inodesCount)) fun pair hpair => ?_
  obtain ⟨found, hfound⟩ := toBool_iff.mp hpair
  obtain ⟨lInode, hl, hrest⟩ := bind_ok hfound
  obtain ⟨rInode, hr, -⟩ := bind_ok hrest
  exact ⟨readInode_le hl, readInode_le hr⟩

/-- The walk over the trees returns unless it comes to a pair it never gets past. -/
theorem walk_returns_iff {a : Nat × Nat} :
    (∃ r, Ends (turn (subdirs left right)) [a] r ∧ r ≠ .error .looping) ↔
      ¬∃ pair, ReflTransGen (Enters (subdirs left right)) a pair ∧ Endless left right pair := by
  have hcycle := endless_iff_cycle (a := a) (subdirs_finite left right)
  constructor
  · rintro ⟨r, hends, hr⟩ ⟨pair, hreach, hpair | hloop⟩
    · refine hcycle.mpr ⟨pair, hreach, hpair⟩ ?_
      rcases ends_iff.mp hends with ⟨hfin, -⟩ | ⟨e, hfails, -⟩
      · exact .inl hfin
      · exact .inr ⟨e, hfails⟩
    · have hfails : Fails (subdirs left right) .looping a := fails_iff.mpr ⟨pair, hreach, hloop⟩
      exact hr (hends.unique (ends_iff.mpr (.inr ⟨_, hfails, rfl⟩)))
  · intro h
    have hdone : Done (subdirs left right) a := by
      by_contra hdone
      obtain ⟨pair, hreach, hpair⟩ := hcycle.mp hdone
      exact h ⟨pair, hreach, .inl hpair⟩
    rcases hdone with hfin | ⟨e, hfails⟩
    · exact ⟨.ok (), ends_iff.mpr (.inl ⟨hfin, rfl⟩), nofun⟩
    · refine ⟨.error e, ends_iff.mpr (.inr ⟨e, hfails, rfl⟩), fun he => ?_⟩
      cases he
      obtain ⟨pair, hreach, hpair⟩ := fails_iff.mp hfails
      exact h ⟨pair, hreach, .inr hpair⟩

/-- `compare` with `walk_directories` returns exactly when a reserved inode cannot be read or
    the walk comes to no pair of directories that it never gets past. -/
theorem compare_ends_iff (left right : Filesystem) (options : CompareOptions) :
    (∃ result, CompareEnds left right { options with walkDirectories := true } result ∧
        result ≠ .error .looping) ↔
      (∃ inum, Reserved left right inum ∧ ¬Readable left right inum) ∨
        ¬∃ pair, ReflTransGen (Enters (subdirs left right)) (Ino.root, Ino.root) pair ∧
          Endless left right pair := by
  have hhead := compareHead_ok_iff left right { options with walkDirectories := true }
  have hhalts := compareHead_halts left right { options with walkDirectories := true }
  unfold CompareEnds
  cases hc : compareHead left right { options with walkDirectories := true } with
  | error e =>
    rw [hc] at hhead hhalts
    refine ⟨fun _ => .inl ?_, fun _ => ⟨_, rfl, fun he => hhalts (by rw [he])⟩⟩
    by_contra hnone
    obtain ⟨report, hreport⟩ := hhead.mpr fun inum hres => by
      by_contra hread
      exact hnone ⟨inum, hres, hread⟩
    cases hreport
  | ok report =>
    rw [hc] at hhead
    have hall := hhead.mp ⟨report, rfl⟩
    have hnone : ¬∃ inum, Reserved left right inum ∧ ¬Readable left right inum := by
      rintro ⟨inum, hres, hread⟩
      exact hread (hall inum hres)
    rw [or_iff_right hnone, ← walk_returns_iff]
    simp only [if_true]
    constructor
    · rintro ⟨result, hends, hresult⟩
      refine ⟨_, compareDirectories_ends_iff.mp ⟨result, hends, rfl⟩, fun he => hresult ?_⟩
      cases result with
      | error e => exact congrArg _ (Except.error.inj he)
      | ok report' => cases he
    · rintro ⟨r, hends, hr⟩
      obtain ⟨result, hends', hmap⟩ := compareDirectories_ends_iff.mpr hends
      refine ⟨result, hends', fun he => hr ?_⟩
      rw [← hmap, he]
      rfl

end Ends

/-! ### An image whose root lists the root -/

/-- The entries of the root, one of which is the root under another name. -/
def loopRoot : List UInt8 :=
  toLe 4 2 ++ [12, 0, 1, 2, 0x2e, 0, 0, 0] ++ toLe 4 2 ++ [12, 0, 2, 2, 0x2e, 0x2e, 0, 0] ++
    toLe 4 2 ++ [0xe8, 3, 1, 2, 0x61, 0, 0, 0]

/-- 16 blocks, 16 inodes: the root and nothing else. -/
def loopImage : Device := .ofChunks 16384
  [(1024, toLe 4 16 ++ toLe 4 16), (1024 + 0x14, [1]), (1024 + 0x21, [0x20]), (1024 + 0x28, [16]),
    (1024 + 0x38, [0x53, 0xef]), (2048, [3, 0, 0, 0, 4, 0, 0, 0, 5]),
    (5 * 1024 + 128, Fsck.dirInode 7), (7 * 1024, loopRoot)]

theorem loopImage_run : ∃ fs, openOn loopImage = .ok fs ∧
    (∀ inum ∈ List.range' 1 11, (fs.readInode inum).toBool = true) ∧
    fs.superblock.firstIno = 11 ∧ subdirs fs fs (2, 2) = .ok [(2, 2)] := by
  have hruns : (openOn loopImage).toOption.any (fun fs =>
      (List.range' 1 11).all (fun inum => (fs.readInode inum).toBool) &&
        decide (fs.superblock.firstIno = 11 ∧ subdirs fs fs (2, 2) = .ok [(2, 2)])) = true := by
    decide +kernel
  cases hopen : openOn loopImage with
  | error e =>
    rw [hopen] at hruns
    cases hruns
  | ok fs =>
    rw [hopen] at hruns
    obtain ⟨hread, hrest⟩ := Bool.and_eq_true_iff.mp hruns
    exact ⟨fs, rfl, List.all_eq_true.mp hread, of_decide_eq_true hrest⟩

/-- Comparing the image with itself never ends. -/
theorem loopImage_endless : ∃ fs, openOn loopImage = .ok fs ∧
    ¬∃ result, CompareEnds fs fs { CompareOptions.everything with walkDirectories := true } result ∧
      result ≠ .error .looping := by
  obtain ⟨fs, hopen, hread, hfirst, hsub⟩ := loopImage_run
  refine ⟨fs, hopen, fun h => ?_⟩
  rcases (compare_ends_iff fs fs .everything).mp h with ⟨inum, hres, hnot⟩ | hnone
  · have hmem : inum ∈ List.range' 1 11 := by
      have := hres.1
      have := hres.2.1
      rw [hfirst] at this
      rw [List.mem_range'_1]
      omega
    exact hnot ⟨hread inum hmem, hread inum hmem⟩
  · exact hnone ⟨(2, 2), .refl, .inl (.single ⟨[], [], hsub, nofun⟩)⟩

end MkfsExt4.Compare
