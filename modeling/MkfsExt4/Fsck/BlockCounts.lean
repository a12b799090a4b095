/-
  `i_blocks`, as pass 1 judges it and as truncating an orphan leaves it.

  An inode owns the blocks its walk visits and its attribute block. `i_blocks` counts them, in
  blocks on a huge file and in 512-byte sectors otherwise. Pass 1 counts what the walk visits, and
  always in sectors: `iBlocks_iff` says for which inodes that comes to the same. Truncating an
  orphan takes the blocks it frees off in the inode's own unit, so a count that was right stays
  right (`truncated_counted`).
-/
import MkfsExt4.Fsck.Connectivity
import MkfsExt4.Fsck.ReadOnly
import MkfsExt4.Orphan.Pointers
import MkfsExt4.Orphan.Truncate

namespace MkfsExt4

open Lib.Hoare Lib.Endian Filesystem

/-! ## Truncating keeps the superblock -/

namespace Orphan

open Fsck (reading_keeps)

theorem writeBlock_keeps (block : Nat) (buf : List UInt8) :
    Keeps Filesystem.superblock (writeBlock block buf) := by
  unfold writeBlock
  refine keeps_bind (reading_keeps _ _) fun _ => keeps_bind (reading_keeps _ _) fun _ => ?_
  exact keeps_modify fun _ => rfl

theorem truncateEntry_keeps {inum generation cut : Nat}
    {descend : List UInt8 → FsM (List UInt8 × Nat × List Nat)}
    (hdescend : ∀ node, Keeps Filesystem.superblock (descend node)) (idx : ExtentIdx) (next : Nat) :
    Keeps Filesystem.superblock (truncateEntry inum generation cut descend idx next) := by
  unfold truncateEntry
  split
  · exact keeps_bind (reading_keeps _ _) fun _ => keeps_pure _
  split
  · exact keeps_pure _
  · refine keeps_bind (reading_keeps _ _) fun child => keeps_bind (hdescend _) fun _ => ?_
    dsimp only
    split
    · exact keeps_pure _
    · refine keeps_bind (reading_keeps _ _) fun _ => ?_
      exact keeps_bind (writeBlock_keeps _ _) fun _ => keeps_pure _

theorem truncateEntries_keeps {inum generation cut : Nat}
    {descend : List UInt8 → FsM (List UInt8 × Nat × List Nat)}
    (hdescend : ∀ node, Keeps Filesystem.superblock (descend node)) (node : List UInt8)
    (entries : Nat) (is : List Nat) :
    Keeps Filesystem.superblock (truncateEntries inum generation cut descend node entries is) := by
  induction is with
  | nil => exact keeps_pure _
  | cons i is ih =>
    unfold truncateEntries
    exact keeps_bind (truncateEntry_keeps hdescend _ _) fun _ => keeps_bind ih fun _ => keeps_pure _

theorem truncateNode_keeps (inum generation cut fuel : Nat) (isRoot : Bool) (node : List UInt8) :
    Keeps Filesystem.superblock (truncateNode inum generation cut fuel isRoot node) := by
  induction fuel generalizing isRoot node with
  | zero => exact keeps_throw _
  | succ fuel ih =>
    unfold truncateNode
    refine keeps_bind (reading_keeps _ _) fun header => ?_
    dsimp only
    generalize (if isRoot = true then Extent.inlineLen else node.length) = space
    split
    · exact keeps_bind (keeps_throw _) fun _ => by
        split
        · exact keeps_bind (keeps_pure _) fun _ => keeps_pure _
        · exact keeps_bind (truncateEntries_keeps (fun _ => ih _ _) _ _ _) fun _ => keeps_pure _
    split
    · exact keeps_bind (keeps_pure _) fun _ => keeps_pure _
    · exact keeps_bind (truncateEntries_keeps (fun _ => ih _ _) _ _ _) fun _ => keeps_pure _

theorem truncateChild_keeps {cut : Nat} {descend : (block base : Nat) → FsM (Bool × List Nat)}
    (hdescend : ∀ block base, Keeps Filesystem.superblock (descend block base))
    (depth entry childBase : Nat) :
    Keeps Filesystem.superblock (truncateChild cut depth descend entry childBase) := by
  unfold truncateChild
  split
  · exact keeps_pure _
  split
  · exact keeps_bind (reading_keeps _ _) fun _ => keeps_pure _
  · exact keeps_bind (hdescend _ _) fun _ => keeps_pure _

theorem truncateIndirectBlock_keeps (cut perBlock depth block base : Nat) :
    Keeps Filesystem.superblock (truncateIndirectBlock cut perBlock depth block base) := by
  induction depth generalizing block base with
  | zero => exact keeps_pure _
  | succ depth ih =>
    have hslot : ∀ t i, Keeps Filesystem.superblock (truncateSlot cut perBlock depth base
        (truncateIndirectBlock cut perBlock depth) t i) := by
      intro t i
      unfold truncateSlot
      dsimp only
      split
      · exact keeps_pure _
      · refine keeps_bind (truncateChild_keeps ih _ _ _) fun _ => ?_
        split <;> exact keeps_pure _
    unfold truncateIndirectBlock
    refine keeps_bind (reading_keeps _ _) fun buf => keeps_bind (keeps_foldlM hslot _ _) fun _ => ?_
    split
    · exact keeps_pure _
    split
    · exact keeps_bind (writeBlock_keeps _ _) fun _ => keeps_pure _
    · exact keeps_pure _

theorem truncateIndirect_keeps (inode : Inode) (cut : Nat) :
    Keeps Filesystem.superblock (truncateIndirect inode cut) := by
  have hroot : ∀ perBlock acc slot, Keeps Filesystem.superblock
      (truncateRoot cut perBlock acc slot) := by
    intro perBlock acc slot
    unfold truncateRoot
    refine keeps_bind (reading_keeps _ _) fun _ => ?_
    dsimp only
    split
    · exact keeps_pure _
    · refine keeps_bind (truncateIndirectBlock_keeps _ _ _ _ _) fun _ => ?_
      split <;> exact keeps_pure _
  unfold truncateIndirect
  refine keeps_bind (reading_keeps _ _) fun perBlock => ?_
  exact keeps_bind (keeps_foldlM (hroot perBlock) _ _) fun _ => keeps_pure _

theorem truncate_keeps (inode : Inode) (inum cut : Nat) :
    Keeps Filesystem.superblock (truncate inode inum cut) := by
  unfold truncate
  split
  · refine keeps_bind (reading_keeps _ _) fun fuel => ?_
    refine keeps_bind (truncateNode_keeps _ _ _ _ _ _) fun r => ?_
    dsimp only
    split
    · exact keeps_bind (reading_keeps _ _) fun _ => keeps_pure _
    · exact keeps_bind (keeps_pure _) fun _ => keeps_pure _
  · exact truncateIndirect_keeps _ _

/-! ## What an inode owns -/

/-- The blocks of an inode whose walk visits `refs`: those, and its attribute block. -/
def owned (inode : Inode) (refs : List BlockRef) : Nat :=
  refs.length + if inode.fileAcl = 0 then 0 else 1

/-- `i_blocks`, read in its unit, is the number of blocks the inode owns. -/
def Counted (fs : Filesystem) (inode : Inode) : Prop :=
  ∃ refs, fs.walkBlocks inode = (refs, .ok ()) ∧
    inode.blocks = owned inode refs * blockUnit fs inode

theorem counted_of_isOk {fs : Filesystem} {inode : Inode}
    (hended : (fs.walkBlocks inode).2.isOk = true)
    (hblocks : inode.blocks = owned inode (fs.walkBlocks inode).1 * blockUnit fs inode) :
    Counted fs inode := by
  rcases hwalk : fs.walkBlocks inode with ⟨refs, e | _⟩
  · rw [hwalk] at hended
    cases hended
  · rw [hwalk] at hblocks
    exact ⟨refs, hwalk, hblocks⟩

/-- A map that holds each of its blocks once. -/
def HoldsOnce (fs : Filesystem) (inum : Nat) (inode : Inode) : Prop :=
  inode.block.length = iBlockLen ∧
    if inode.usesExtents then ∃ depth lo hi held, hi < 2 ^ 64 ∧
      fs.ExtentTree inum inode.generation depth lo hi inode.block held ∧
        (held.map Held.cell).Nodup
    else ∀ refs, fs.walkIndirect inode = (refs, .ok ()) → (refs.map BlockRef.physical).Nodup

variable {fs fs' : Filesystem} {inum cut : Nat} {inode inode' : Inode} {freed : List Nat}
  {refs : List BlockRef}

/-- A command tried: an error of the filesystem is its answer. -/
theorem exec_attempt {α : Type} (m : FsM α) (fs : Filesystem) :
    exec (attempt m) fs = match exec m fs with
      | (.ok a, t) => (.ok (.ok a), t)
      | (.error (.error e), t) => (.ok (.error e), t)
      | (.error other, t) => (.error other, t) := by
  simp only [attempt, exec, tryCatch, tryCatchThe, MonadExceptOf.tryCatch, ExceptT.tryCatch,
    ExceptT.run, ExceptT.mk, bind, ExceptT.bind, StateT.bind]
  rcases m fs with ⟨(_ | _ | _) | _, _⟩ <;> rfl

/-- A command tried that ended well. -/
theorem attempt_ok {α : Type} {m : FsM α} {a : α} (h : exec (attempt m) fs = (.ok (.ok a), fs')) :
    exec m fs = (.ok a, fs') := by
  rw [exec_attempt] at h
  rcases hm : exec m fs with ⟨e | b, t⟩
  · rw [hm] at h
    cases e <;> cases h
  · rw [hm] at h
    cases h
    rfl

theorem walkBlocks_valid (hmap : hasValidBlocks inode = true) : fs.walkBlocks inode =
    if inode.usesExtents then fs.walkExtents inode else fs.walkIndirect inode := by
  simp only [hasValidBlocks, Bool.and_eq_true, Bool.not_eq_true'] at hmap
  unfold Filesystem.walkBlocks
  exact if_neg fun h => by simp [hmap.1, hmap.2] at h

/-- What the walk no longer visits was freed. -/
theorem truncate_counts (hmap : hasValidBlocks inode = true) (honce : HoldsOnce fs inum inode)
    (hwalk : fs.walkBlocks inode = (refs, .ok ()))
    (hrun : exec (truncate inode inum cut) fs = (.ok (inode', freed), fs')) :
    inode' = { inode with block := inode'.block } ∧ ∃ refs',
      fs'.walkBlocks inode' = (refs', .ok ()) ∧ freed.length + refs'.length = refs.length := by
  obtain ⟨hlen, honce⟩ := honce
  -- Only `i_block` changes, so the walk takes the same way again.
  have hwalks : ∀ block : List UInt8, fs'.walkBlocks { inode with block } =
      if inode.usesExtents then fs'.walkExtents { inode with block }
      else fs'.walkIndirect { inode with block } := fun _ => walkBlocks_valid hmap
  have hself := @walkBlocks_valid fs _ hmap
  rw [hwalk] at hself
  have htruncate := hrun
  unfold truncate at htruncate
  by_cases hext : inode.usesExtents = true
  · rw [if_pos hext] at honce hself
    obtain ⟨depth, lo, hi, held, hhi, htree, hnodup⟩ := honce
    obtain ⟨depth', held', hsame, -, hpruned, -, hwalk', -⟩ :=
      truncate_extents hext hlen htree hhi hnodup hrun
    obtain ⟨refs', hrefs', hperm'⟩ := hwalk' refs hself.symm
    obtain ⟨refs₀, hrefs₀, hperm⟩ := (walkExtents_tree hlen htree).1
      ((walkExtents_tree hlen htree).2 ⟨refs, hself.symm⟩)
    obtain rfl := (Prod.mk.inj (hself.trans hrefs₀)).1
    refine ⟨hsame, refs', ?_, ?_⟩
    · rw [hsame, hwalks, if_pos hext, ← hsame]
      exact hrefs'
    · have hcells := hpruned.cells.length_eq
      have := hperm.length_eq
      have := hperm'.length_eq
      simp only [List.length_append, List.length_map] at *
      omega
  · rw [if_neg hext] at honce hself htruncate
    obtain ⟨refs', hsame, hwalk', hpruned, -⟩ :=
      truncateIndirect_exact hlen hself.symm (honce refs hself.symm) htruncate
    refine ⟨hsame, refs', ?_, ?_⟩
    · rw [hsame, hwalks, if_neg hext, ← hsame]
      exact hwalk'
    · have hcells := hpruned.cells.length_eq
      simp only [List.length_append, List.length_map] at hcells
      omega

/-- An orphan whose `i_blocks` was right has it right when it is truncated. -/
theorem truncated_counted {stats stats' : AllocStats} (hlinks : 0 < inode.linksCount)
    (honce : HoldsOnce fs inum inode) (hcounted : Counted fs inode)
    (hrun : exec (freeOrphanBlocks stats inode inum) fs = (.ok (.ok (stats', inode', freed)), fs')) :
    Counted fs' inode' := by
  unfold freeOrphanBlocks at hrun
  obtain ⟨fs₀, fs₁, hget, hrun⟩ := exec_bind_ok hrun
  cases hget
  by_cases hmap : (!hasValidBlocks inode) = true
  · rw [if_pos hmap] at hrun
    cases hrun
    exact hcounted
  · rw [if_neg hmap, if_pos hlinks] at hrun
    obtain ⟨refs, hwalk, hblocks⟩ := hcounted
    obtain ⟨tried, fs₂, htried, hend⟩ := exec_bind_ok hrun
    rcases tried with e | ⟨inode₁, gone⟩
    · cases (exec_pure_ok hend).1
    · have htruncate := attempt_ok htried
      obtain ⟨heq, rfl⟩ := exec_pure_ok hend
      obtain ⟨rfl, rfl, rfl⟩ : stats' = stats ∧ _ ∧ _ := by simpa using heq
      obtain ⟨hsame, refs', hwalk', hcount⟩ :=
        truncate_counts (by simpa using hmap) honce hwalk htruncate
      have hsb : fs'.superblock = fs.superblock := by
        have hkeeps := truncate_keeps inode inum ((inode.size + fs.blockSize - 1) / fs.blockSize) fs
        rw [htruncate] at hkeeps
        exact hkeeps
      have hunit : ∀ fs : Filesystem, blockUnit fs inode₁ = blockUnit fs inode := fun fs => by
        rw [hsame]
        rfl
      have hunit' : blockUnit fs' inode = blockUnit fs inode := by
        simp only [blockUnit, blockSize, hsb]
      have howned : owned inode refs - freed.length = owned inode₁ refs' := by
        rw [hsame]
        simp only [owned]
        omega
      refine ⟨refs', hwalk', ?_⟩
      calc inode₁.blocks - freed.length * blockUnit fs inode₁
          = (owned inode refs - freed.length) * blockUnit fs inode := by
            rw [hunit, Nat.sub_mul, ← hblocks, hsame]
        _ = owned inode₁ refs' * blockUnit fs' inode₁ := by
            rw [howned, hunit fs', hunit']

end Orphan

/-! ## What pass 1 reports -/

namespace Fsck

open Orphan

variable {fs : Filesystem} {f g f' : Findings}

/-- What pass 1 reports of an inode whose `i_blocks` is not what it counted. -/
def iBlocksWrong (inum blocks counted expect : Nat) : Problem where
  pass := 1
  code := .iBlocksWrong
  severity := .fixable
  message := s!"inode {inum} i_blocks is {blocks}, but it owns {counted} blocks ({expect} sectors)"
  fixed := false

/-- Pass 1 reports the inode's `i_blocks`, among the problems it adds. -/
def ReportsBlocks (f f' : Findings) (inum : Nat) : Prop :=
  ∃ blocks counted expect, iBlocksWrong inum blocks counted expect ∈
    f'.report.problems.drop f.report.problems.length

/-- The finding of pass 1 for an inode it walks. -/
def blocksVerdict (fs : Filesystem) (p : Nat × Inode) : List Problem :=
  match (fs.walkBlocks p.2).2 with
  | .error _ => []
  | .ok () =>
    let counted := (fs.walkBlocks p.2).1.length
    let expect := counted * (fs.superblock.blockSize / 512)
    if p.1 ≠ Ino.resize ∧ p.2.blocks ≠ expect then
      [iBlocksWrong p.1 p.2.blocks counted expect]
    else []

theorem blocksVerdict_ok {p : Nat × Inode} (h : (fs.walkBlocks p.2).2 = .ok ()) :
    blocksVerdict fs p = if p.1 ≠ Ino.resize ∧
        p.2.blocks ≠ (fs.walkBlocks p.2).1.length * (fs.superblock.blockSize / 512) then
      [iBlocksWrong p.1 p.2.blocks (fs.walkBlocks p.2).1.length
        ((fs.walkBlocks p.2).1.length * (fs.superblock.blockSize / 512))] else [] := by
  unfold blocksVerdict
  rw [h]

theorem blocksVerdict_error {p : Nat × Inode} {e : Failure} (h : (fs.walkBlocks p.2).2 = .error e) :
    blocksVerdict fs p = [] := by
  unfold blocksVerdict
  rw [h]

/-- Problems were added, of which those about `i_blocks` are `found`. -/
def Adds (f : Findings) (found : List Problem) (f' : Findings) : Prop :=
  ∃ ps, f'.report.problems = f.report.problems ++ ps ∧
    ps.filter (fun p => decide (p.code = .iBlocksWrong)) = found

theorem checkInode_adds {raw : List UInt8} {inode : Inode} {inum : Nat}
    (h : checkInode fs raw inode inum f = .ok f') : Adds f [] f' := by
  unfold checkInode at h
  obtain ⟨sound, -, h⟩ := bind_ok h
  cases h
  refine @AddsOf.trans _ _ _ _ [] [] ?_ (.pushIf (by decide) _ _ _ _ _)
  have hsum := @AddsOf.pushIf .iBlocksWrong .inodeCsum (by decide) ((!sound) = true) _ f 1 .serious
    s!"inode {inum} checksum does not match its contents"
  dsimp only
  split
  · exact hsum
  · exact hsum

theorem checkExtentCsums_adds {inode : Inode} {inum : Nat}
    (h : checkExtentCsums fs inode inum f = .ok f') : Adds f [] f' := by
  unfold checkExtentCsums at h
  split at h
  · cases h
    exact AddsOf.foldl (fun f x => AddsOf.push (by decide) f _ _ _) _ f
  · cases h
    exact AddsOf.refl f
  · cases h

theorem claimInode_adds {inode : Inode} {inum : Nat} (h : claimInode fs inode inum f = .ok f') :
    Adds f (blocksVerdict fs (inum, inode)) f' := by
  unfold claimInode at h
  dsimp only at h
  split at h
  · next e hwalk =>
    cases h
    rw [blocksVerdict_error hwalk]
    exact AddsOf.push (by decide) _ _ _ _
  · cases h
  · next hwalk =>
    obtain ⟨f1, h1, h⟩ := bind_ok h
    cases h
    have hrange : Adds f [] f1 := by
      refine @AddsOf.trans _ _ _ _ [] [] ?_ (checkExtentCsums_adds h1)
      exact AddsOf.foldl (fun f x => AddsOf.push (by decide) f _ _ _) _ { f with state := _ }
    refine @AddsOf.trans _ _ _ _ [] (blocksVerdict fs (inum, inode)) hrange ?_
    rw [blocksVerdict_ok hwalk, Findings.pushIf, FsckReport.pushIf]
    split
    · exact ⟨[_], rfl, rfl⟩
    · exact AddsOf.refl f1

theorem pass1Inode_adds {inum : Nat} (h : pass1Inode fs inum f = .ok f') :
    Adds f ((walkedInode fs inum).toList.flatMap (blocksVerdict fs)) f' := by
  unfold pass1Inode at h
  obtain ⟨raw, hraw, h⟩ := bind_ok h
  obtain ⟨inode, hdec, h⟩ := bind_ok h
  have hread : fs.readInode inum = .ok inode := by
    unfold Filesystem.readInode
    rw [hraw]
    exact hdec
  simp only [walkedInode, hread]
  split at h
  · next hfree =>
    cases h
    rw [if_neg fun hwalk => hfree hwalk.1]
    exact AddsOf.refl f
  · next huse =>
    obtain ⟨f1, h1, h⟩ := bind_ok h
    have hf1 := checkInode_adds h1
    split at h
    · next hskip =>
      cases h
      rw [if_neg fun hwalk => by rw [hskip] at hwalk; exact absurd hwalk.2 (by decide)]
      exact hf1
    · next hskip =>
      have hwalk : (!skipsWalk fs.superblock inum) = true := by simpa using hskip
      rw [if_pos ⟨not_not.mp huse, hwalk⟩, Option.toList_some, List.flatMap_singleton]
      exact AddsOf.trans hf1 (claimInode_adds h)

/-- The findings of pass 1 about `i_blocks` are its verdicts on the inodes it walks. -/
theorem pass1_adds (h : pass1Inodes fs f = .ok f') :
    Adds f ((walkedInodes fs).flatMap (blocksVerdict fs)) f' := by
  obtain ⟨f1, hf1, rfl⟩ := pass1_walks
    (R := fun f xs f' => Adds f (xs.flatMap (blocksVerdict fs)) f')
    AddsOf.refl (fun h h' => by rw [List.flatMap_append]; exact AddsOf.trans h h') pass1Inode_adds h
  have hdups : ∀ (f : Findings) (block : Nat), Adds f [] (f.push 1 .duplicateBlock .serious
      s!"block {block} is claimed more than once") := fun f block => AddsOf.push (by decide) f _ _ _
  have hend := AddsOf.trans hf1 (AddsOf.foldl hdups (f1.state.duplicates.take 8) f1)
  rwa [List.append_nil] at hend

theorem iBlocksWrong_inj {m n blocks counted expect blocks' counted' expect' : Nat}
    (h : iBlocksWrong m blocks counted expect = iBlocksWrong n blocks' counted' expect') :
    m = n := by
  have hmsg : ∀ n blocks counted expect : Nat, (iBlocksWrong n blocks counted expect).message =
      "inode " ++ (toString n ++ (" " ++ ("i_blocks is " ++ (toString blocks ++
        (", but it owns " ++ (toString counted ++
          (" blocks (" ++ (toString expect ++ " sectors)")))))))) := by
    intro n blocks counted expect
    simp only [iBlocksWrong, String.append_assoc]
    rfl
  have hwords := congrArg Problem.message h
  rw [hmsg, hmsg] at hwords
  exact numbered_inj hwords

/-- Pass 1 reports exactly the inodes it walks that are not of as many sectors as it counts. -/
theorem reportsBlocks_iff (h : pass1Inodes fs f = .ok f') {inum : Nat} {inode : Inode}
    {refs : List BlockRef} (hwalked : Walked fs inum inode) (hresize : inum ≠ Ino.resize)
    (hwalk : fs.walkBlocks inode = (refs, .ok ())) :
    ReportsBlocks f f' inum ↔ inode.blocks ≠ refs.length * (fs.blockSize / 512) := by
  obtain ⟨ps, hps, hfound⟩ := pass1_adds h
  have hdrop : f'.report.problems.drop f.report.problems.length = ps := by
    rw [hps, List.drop_left]
  have hmem : ∀ blocks counted expect, iBlocksWrong inum blocks counted expect ∈ ps ↔
      ∃ p, Walked fs p.1 p.2 ∧ iBlocksWrong inum blocks counted expect ∈ blocksVerdict fs p := by
    intro blocks counted expect
    have hfilter := @List.mem_filter _ (fun p : Problem => decide (p.code = .iBlocksWrong)) ps
      (iBlocksWrong inum blocks counted expect)
    rw [hfound] at hfilter
    simp only [List.mem_flatMap, mem_walkedInodes, iBlocksWrong, decide_true, and_true] at hfilter
    exact hfilter.symm
  unfold ReportsBlocks
  simp only [hdrop, hmem]
  constructor
  · rintro ⟨blocks, counted, expect, p, hp, hverdict⟩
    cases hended : (fs.walkBlocks p.2).2 with
    | error e =>
      rw [blocksVerdict_error hended] at hverdict
      cases hverdict
    | ok _ =>
      rw [blocksVerdict_ok hended] at hverdict
      split at hverdict
      · next hbad =>
        obtain rfl := iBlocksWrong_inj (List.mem_singleton.mp hverdict)
        obtain rfl := Except.ok.inj (hwalked.1.1.symm.trans hp.1.1)
        rw [hwalk] at hbad
        exact hbad.2
      · cases hverdict
  · intro hne
    refine ⟨inode.blocks, refs.length, refs.length * (fs.blockSize / 512), (inum, inode), hwalked, ?_⟩
    rw [blocksVerdict_ok (congrArg Prod.snd hwalk)]
    simp only [hwalk]
    rw [if_pos ⟨hresize, hne⟩]
    exact List.mem_singleton_self _

/-! ## When the two agree -/

/-- Pass 1 reports exactly the inodes whose `i_blocks`, read in its unit, is not what they own,
    of those it walks to the end. -/
def JudgesBlocks (fs : Filesystem) (f f' : Findings) : Prop :=
  ∀ inum inode refs, Walked fs inum inode → inum ≠ Ino.resize →
    fs.walkBlocks inode = (refs, .ok ()) →
      (ReportsBlocks f f' inum ↔ inode.blocks ≠ owned inode refs * blockUnit fs inode)

/-- Pass 1 judges `i_blocks` rightly exactly when each inode owns as many of its units as there
    are sectors in what the walk visits, or has an `i_blocks` that is neither. An orphan whose
    `i_blocks` was right has it right when it is truncated. -/
theorem iBlocks_iff (h : pass1Inodes fs f = .ok f') :
    (JudgesBlocks fs f f' ↔ ∀ inum inode refs, Walked fs inum inode → inum ≠ Ino.resize →
      fs.walkBlocks inode = (refs, .ok ()) →
        (refs.length * (fs.blockSize / 512) = owned inode refs * blockUnit fs inode ∨
          (inode.blocks ≠ refs.length * (fs.blockSize / 512) ∧
            inode.blocks ≠ owned inode refs * blockUnit fs inode))) ∧
    ∀ {fs₀ fs₁ : Filesystem} {stats stats' : AllocStats} {inum : Nat} {inode inode' : Inode}
      {freed : List Nat}, 0 < inode.linksCount → HoldsOnce fs₀ inum inode → Counted fs₀ inode →
      exec (freeOrphanBlocks stats inode inum) fs₀ = (.ok (.ok (stats', inode', freed)), fs₁) →
      Counted fs₁ inode' := by
  refine ⟨?_, fun hlinks honce hcounted hrun => truncated_counted hlinks honce hcounted hrun⟩
  refine forall_congr' fun inum => forall_congr' fun inode => forall_congr' fun refs =>
    imp_congr_right fun hwalked => imp_congr_right fun hresize => imp_congr_right fun hwalk => ?_
  rw [reportsBlocks_iff h hwalked hresize hwalk]
  constructor
  · intro hsame
    by_cases hcount : inode.blocks = refs.length * (fs.blockSize / 512)
    · left
      rw [← hcount]
      exact not_ne_iff.mp fun hne => hsame.mpr hne hcount
    · exact Or.inr ⟨hcount, hsame.mp hcount⟩
  · rintro (heq | ⟨hcount, hown⟩)
    · rw [heq]
    · exact ⟨fun _ => hown, fun _ => hcount⟩

/-! ### A directory with an attribute block -/

/-- The start of a directory's inode, of one block and an attribute block. -/
def attributedInode (blocks block acl : Nat) : List UInt8 :=
  toLe 2 0x41ed ++ [0, 0] ++ toLe 4 1024 ++ List.replicate 18 0 ++ [2, 0] ++ toLe 4 blocks ++
    List.replicate 8 0 ++ toLe 4 block ++ List.replicate 60 0 ++ toLe 4 acl

/-- 16 blocks, 16 inodes: the root is block 7, its attributes are block 9, its `i_blocks` is 4. -/
def attributedImage : Device := .ofChunks 16384
  [(1024, toLe 4 16 ++ toLe 4 16), (1024 + 0x14, [1]), (1024 + 0x21, [0x20]), (1024 + 0x28, [16]),
    (1024 + 0x38, [0x53, 0xef]), (2048, [3, 0, 0, 0, 4, 0, 0, 0, 5]),
    (5 * 1024 + 128, attributedInode 4 7 9), (7 * 1024, dirBlock 2 2)]

/-- Its check up to pass 1: of each inode walked, `i_blocks`, the blocks visited, those owned
    and the unit. -/
theorem attributedImage_checked : (passOne attributedImage).map (fun ⟨_, fs, _, _⟩ =>
    (fs.blockSize, (walkedInodes fs).map fun p =>
      let (refs, ended) := fs.walkBlocks p.2
      (p.1, ended.isOk, [p.2.blocks, refs.length, owned p.2 refs, blockUnit fs p.2]))) =
    some (1024, [(2, true, [4, 1, 2, 2]), (7, true, [0, 0, 0, 2]), (8, true, [0, 0, 0, 2])]) := by
  decide +kernel

theorem attributed_run : ∃ fs0 fs f0 f1 inode refs, openOn attributedImage = .ok fs0 ∧
    exec (prepare 0 { force := true } 0) fs0 = (.ok (.ok f0), fs) ∧ pass1Inodes fs f0 = .ok f1 ∧
    fs.blockSize = 1024 ∧ Walked fs 2 inode ∧ fs.walkBlocks inode = (refs, .ok ()) ∧
    inode.blocks = 4 ∧ refs.length = 1 ∧ owned inode refs = 2 ∧ blockUnit fs inode = 2 := by
  obtain ⟨⟨fs0, fs, f0, f1⟩, hone, hrun⟩ := Option.map_eq_some_iff.mp attributedImage_checked
  obtain ⟨hopen, hprepare, hpass1⟩ := passOne_ok hone
  obtain ⟨hsize, hwalked⟩ := Prod.mk.inj hrun
  have hroot : (2, true, [4, 1, 2, 2]) ∈ (walkedInodes fs).map fun p =>
      (p.1, (fs.walkBlocks p.2).2.isOk, [p.2.blocks, (fs.walkBlocks p.2).1.length,
        owned p.2 (fs.walkBlocks p.2).1, blockUnit fs p.2]) := by
    rw [show _ = _ from hwalked]
    exact List.mem_cons_self
  obtain ⟨⟨inum, inode⟩, hp, heq⟩ := List.mem_map.mp hroot
  simp only [Prod.mk.injEq, List.cons.injEq, and_true] at heq
  obtain ⟨rfl, hended, hblocks, hlen, howned, hunit⟩ := heq
  refine ⟨fs0, fs, f0, f1, inode, _, hopen, hprepare, hpass1, hsize, mem_walkedInodes.mp hp,
    Prod.ext rfl ?_, hblocks, hlen, howned, hunit⟩
  cases hwalk : (fs.walkBlocks inode).2 with
  | ok _ => rfl
  | error e =>
    rw [hwalk] at hended
    cases hended

/-- A file of six blocks that is to be cut after logical block 5. -/
def cutInode : Inode := { treeInode with linksCount := 1, size := 5 * 1024, blocks := 12 }

theorem iBlocks_attributed : (∃ (fs : Filesystem) (f0 f1 : Findings),
    JudgesBlocks fs f0 f1 ↔ ∀ inum inode refs, Walked fs inum inode → inum ≠ Ino.resize →
      fs.walkBlocks inode = (refs, .ok ()) →
        (refs.length * (fs.blockSize / 512) = owned inode refs * blockUnit fs inode ∨
          (inode.blocks ≠ refs.length * (fs.blockSize / 512) ∧
            inode.blocks ≠ owned inode refs * blockUnit fs inode))) ∧
    ∃ stats inode' fs₁, exec (freeOrphanBlocks {} cutInode 12) treeFs =
      (.ok (.ok (stats, inode', [10, 12])), fs₁) ∧ Counted fs₁ inode' := by
  obtain ⟨fs0, fs, f0, f1, _, _, -, -, hpass1, -⟩ := attributed_run
  refine ⟨⟨fs, f0, f1, (iBlocks_iff hpass1).1⟩, ?_⟩
  have honce : HoldsOnce treeFs 12 cutInode :=
    ⟨by decide, if_pos (by decide : cutInode.usesExtents = true) ▸
      ⟨1, 0, 16, treeHeld, by decide, treeInode_tree, by decide⟩⟩
  have hwalk : (treeFs.walkBlocks cutInode).2.isOk = true ∧
      cutInode.blocks = owned cutInode (treeFs.walkBlocks cutInode).1 *
        blockUnit treeFs cutInode := by
    decide +kernel
  have hcounted : Counted treeFs cutInode := counted_of_isOk hwalk.1 hwalk.2
  have hruns : (exec (freeOrphanBlocks {} cutInode 12) treeFs).1.toOption.map
      (fun r => r.toOption.map fun t => t.2.2) = some (some [10, 12]) := by
    decide +kernel
  rcases hrun : exec (freeOrphanBlocks {} cutInode 12) treeFs with
    ⟨_ | _ | ⟨stats, inode', freed⟩, fs₁⟩
  · rw [hrun] at hruns
    cases hruns
  · rw [hrun] at hruns
    cases hruns
  · rw [hrun] at hruns
    obtain rfl : freed = [10, 12] := Option.some.inj (Option.some.inj hruns)
    exact ⟨stats, inode', fs₁, rfl, (iBlocks_iff hpass1).2 (by decide) honce hcounted hrun⟩

/-- The root owns two blocks, its `i_blocks` is their four sectors, and pass 1 reports it. -/
theorem attributed_reported : ¬ ∀ (options : FsckOptions) (fuel now : Nat) (device : Device)
    (fs0 fs : Filesystem) (f0 f1 : Findings), openOn device = .ok fs0 →
    exec (prepare fuel options now) fs0 = (.ok (.ok f0), fs) → pass1Inodes fs f0 = .ok f1 →
    JudgesBlocks fs f0 f1 := by
  intro hclaim
  obtain ⟨fs0, fs, f0, f1, inode, refs, hopen, hprepare, hpass1, hsize, hwalked, hwalk, hblocks,
    hlen, howned, hunit⟩ := attributed_run
  have hjudged := hclaim _ 0 0 attributedImage fs0 fs f0 f1 hopen hprepare hpass1 2 inode refs
    hwalked (by decide) hwalk
  rw [reportsBlocks_iff hpass1 hwalked (by decide) hwalk, hblocks, hlen, howned, hunit, hsize]
    at hjudged
  exact absurd hjudged (by decide)

end Fsck

end MkfsExt4
