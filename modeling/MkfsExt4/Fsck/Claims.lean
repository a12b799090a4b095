/-
  What the passes claim.

  Passes 0 and 1 claim blocks, passes 2 to 4 none. Pass 0 makes the claims of
  `structureClaims`, pass 1 those of the inodes it walks, in the order of `walkedInodes`
  (`pass0_claimed`, `pass1_claimed`). `Walked` is an inode whose blocks pass 1 walks; the inodes
  a check takes to be in use are in use (`check_inUse`).
-/
import MkfsExt4.Fsck.Check
import MkfsExt4.Fs.References

namespace MkfsExt4.Fsck

open Lib.Hoare BlockRuns Filesystem

/-! ## The inodes of an image -/

/-- An inode in use: it has links, or it is reserved. -/
def InUse (fs : Filesystem) (inum : Nat) (inode : Inode) : Prop :=
  fs.readInode inum = .ok inode ∧ (inum < fs.superblock.firstIno ∨ 0 < inode.linksCount)

/-- An inode whose blocks pass 1 walks: in use, not in the part of its group's table said to
    be unused, and of the reserved ones only the root, the journal and the resize inode. -/
def Walked (fs : Filesystem) (inum : Nat) (inode : Inode) : Prop :=
  InUse fs inum inode ∧ skipsWalk fs.superblock inum = false ∧ inum ≤ fs.superblock.inodesCount ∧
    ∃ g < fs.groupCount, ∃ w < liveInodes fs g, inum = g * fs.superblock.inodesPerGroup + w + 1

/-! ## Claims in their order -/

/-- A claim of `start..stop`, and whether the blocks it finds claimed are noted. -/
structure Claim where
  start : Nat
  stop : Nat
  noted : Bool := true

namespace Claim

def block (b : Nat) : Claim := { start := b, stop := b + 1 }

def covers (c : Claim) (b : Nat) : Bool := decide (c.start ≤ b ∧ b < c.stop)

/-- The blocks claimed and the duplicates, after a claim. -/
def enter (p : BlockRuns × List Nat) (c : Claim) : BlockRuns × List Nat :=
  let (blocks, overlaps) := p.1.insert c.start c.stop
  (blocks,
    if c.noted then overlaps.foldl (fun dups p =>
      (List.range' p.1 (p.2 - p.1)).foldl (fun dups b => Lib.SortedMap.insertKey b dups) dups) p.2
    else p.2)

end Claim

/-- The blocks claimed and the duplicates of a state. -/
def ScanState.claimed (s : ScanState) : BlockRuns × List Nat := (s.blocks, s.duplicates)

theorem claimed_claimRange (s : ScanState) (a z : Nat) :
    (s.claimRange a z).claimed = Claim.enter s.claimed { start := a, stop := z } := rfl

theorem claimed_claim (s : ScanState) (b : Nat) :
    (s.claim b).claimed = Claim.enter s.claimed (.block b) := rfl

/-! ## What claiming leaves alone -/

/-- Nothing more was gathered of the names. -/
structure SameNames (s s' : ScanState) : Prop where
  links : s'.observedLinks = s.observedLinks
  parents : s'.parents = s.parents
  children : s'.children = s.children

theorem SameNames.refl (s : ScanState) : SameNames s s := ⟨rfl, rfl, rfl⟩

theorem SameNames.trans {s1 s2 s3 : ScanState} (h : SameNames s1 s2) (h' : SameNames s2 s3) :
    SameNames s1 s3 :=
  ⟨h'.links.trans h.links, h'.parents.trans h.parents, h'.children.trans h.children⟩

/-- Blocks were claimed, and nothing else happened. -/
structure OnlyClaims (s s' : ScanState) : Prop extends SameNames s s' where
  inodesInUse : s'.inodesInUse = s.inodesInUse
  directories : s'.directories = s.directories

theorem OnlyClaims.refl (s : ScanState) : OnlyClaims s s := ⟨.refl s, rfl, rfl⟩

theorem OnlyClaims.trans {s1 s2 s3 : ScanState} (h : OnlyClaims s1 s2) (h' : OnlyClaims s2 s3) :
    OnlyClaims s1 s3 :=
  ⟨h.toSameNames.trans h'.toSameNames, h'.inodesInUse.trans h.inodesInUse,
    h'.directories.trans h.directories⟩

theorem onlyClaims_claimRange (s : ScanState) (a z : Nat) : OnlyClaims s (s.claimRange a z) :=
  ⟨⟨rfl, rfl, rfl⟩, rfl, rfl⟩

theorem onlyClaims_visitBlock (sb : Superblock) (isResize : Bool) (s : ScanState) (r : BlockRef) :
    OnlyClaims s (visitBlock sb isResize s r) := by
  unfold visitBlock
  split
  · exact .refl s
  · split
    · exact ⟨⟨rfl, rfl, rfl⟩, rfl, rfl⟩
    · exact onlyClaims_claimRange s _ _

theorem onlyClaims_visits (sb : Superblock) (isResize : Bool) (refs : List BlockRef)
    (s : ScanState) : OnlyClaims s (refs.foldl (visitBlock sb isResize) s) := by
  induction refs generalizing s with
  | nil => exact .refl s
  | cons r refs ih => exact (onlyClaims_visitBlock sb isResize s r).trans (ih _)

/-! ## Recording a problem keeps the state -/

variable (f : Findings)

@[simp] theorem state_push (pass : Nat) (code : Code) (severity : Severity) (message : String) :
    (f.push pass code severity message).state = f.state := rfl

@[simp] theorem state_pushIf (bad : Prop) [Decidable bad] (pass : Nat) (code : Code)
    (severity : Severity) (message : String) :
    (f.pushIf bad pass code severity message).state = f.state := rfl

@[simp] theorem state_claimRange (a z : Nat) :
    (f.claimRange a z).state = f.state.claimRange a z := rfl

@[simp] theorem state_claim (a : Nat) : (f.claim a).state = f.state.claim a := rfl

theorem state_foldl {α : Type} {g : Findings → α → Findings} (hg : ∀ f x, (g f x).state = f.state)
    (xs : List α) : (xs.foldl g f).state = f.state := by
  induction xs generalizing f with
  | nil => rfl
  | cons x xs ih => rw [List.foldl_cons, ih, hg]

variable {f} {f' : Findings} {fs : Filesystem}

/-! ## Pass 0 -/

/-- The claims pass 0 makes for a group, in its order. -/
def groupClaims (fs : Filesystem) (g : Nat) : List Claim :=
  { start := fs.groupFirstBlock g, stop := fs.groupFirstBlock g + fs.superOverhead g } ::
    match fs.groupDescs[g]? with
    | none => []
    | some desc => [.block desc.blockBitmap, .block desc.inodeBitmap,
        { start := desc.inodeTable, stop := desc.inodeTable + fs.superblock.itableBlocksPerGroup }]

/-- Those for block 0 of a 1 KiB filesystem and the multiple-mount-protection block. -/
def looseClaims (sb : Superblock) : List Claim :=
  { start := 0, stop := sb.firstDataBlock } ::
    if sb.featureIncompat.contains IncompatFeatures.mmp ∧ sb.firstDataBlock ≤ sb.mmpBlock ∧
      sb.mmpBlock < sb.blocksCount then [.block sb.mmpBlock] else []

/-- The claims of pass 0, in its order. -/
def structureClaims (fs : Filesystem) : List Claim :=
  if fs.superblock.blocksPerGroup = 0 ∨ fs.superblock.inodesPerGroup = 0 then []
  else (List.range fs.superblock.groupCount).flatMap (groupClaims fs) ++ looseClaims fs.superblock

theorem pass0Group_claimed {g : Nat} (h : pass0Group fs f g = .ok f') :
    f'.state.claimed = (groupClaims fs g).foldl Claim.enter f.state.claimed := by
  unfold pass0Group at h
  obtain ⟨_, -, h⟩ := bind_ok h
  unfold groupClaims
  cases hdesc : fs.groupDescs[g]? with
  | none =>
    rw [hdesc] at h
    cases h
    rfl
  | some desc =>
    rw [hdesc] at h
    obtain ⟨_, -, h⟩ := bind_ok h
    cases h
    have hptr : ∀ (f : Findings) (p : String × Nat),
        (checkPointer fs.superblock g f p).state = f.state := fun _ _ => rfl
    simp only [checkDescCsum, state_pushIf, state_claimRange, state_claim, claimed_claimRange,
      claimed_claim, state_foldl _ hptr]
    simp only [List.foldl_cons, List.foldl_nil]

theorem checkSuperblock_state (h : checkSuperblock fs f = .ok f') : f'.state = f.state := by
  unfold checkSuperblock at h
  dsimp only at h
  split at h
  · cases h
    rfl
  · obtain ⟨_, -, h⟩ := bind_ok h
    cases h
    rfl

theorem claimLoose_claimed (sb : Superblock) (f : Findings) : (claimLoose sb f).state.claimed =
    (looseClaims sb).foldl Claim.enter f.state.claimed := by
  unfold claimLoose looseClaims
  dsimp only
  split
  · rfl
  · rfl

/-- Pass 0 makes its claims in their order. -/
theorem pass0_claimed (h : pass0Superblock fs f = .ok f') :
    f'.state.claimed = (structureClaims fs).foldl Claim.enter f.state.claimed := by
  unfold pass0Superblock at h
  unfold structureClaims
  dsimp only at h
  split at h
  · next hzero =>
    cases h
    rw [if_pos hzero]
    rfl
  · next hzero =>
    obtain ⟨f1, h1, h⟩ := bind_ok h
    obtain ⟨f2, h2, h⟩ := bind_ok h
    cases h
    have hf1 : f1.state = f.state := by rw [checkSuperblock_state h1, state_pushIf]
    have hf2 : f2.state.claimed = ((List.range fs.superblock.groupCount).flatMap
        (groupClaims fs)).foldl Claim.enter f.state.claimed := by
      refine foldlM_ok (fun done g => g.state.claimed =
        (done.flatMap (groupClaims fs)).foldl Claim.enter f.state.claimed) ?_ (by rw [hf1]; rfl) h2
      intro done g f f' hdone hstep
      rw [pass0Group_claimed hstep, hdone, List.flatMap_append, List.foldl_append,
        List.flatMap_singleton]
    rw [if_neg hzero, claimLoose_claimed, hf2, List.foldl_append]

/-! ## Pass 1 -/

/-- The claims the walk of an inode makes, in its order. Blocks outside the filesystem are not
    claimed, and those of the resize inode are not noted. -/
def refClaims (fs : Filesystem) (inum : Nat) (inode : Inode) : List Claim :=
  ((fs.walkBlocks inode).1.filter fun r =>
      ¬ (r.physical = 0 ∨ fs.superblock.blocksCount ≤ r.physical)).map fun r =>
    { start := r.physical, stop := r.physical + 1, noted := !decide (inum = Ino.resize) }

theorem visits_claimed (sb : Superblock) (isResize : Bool) (refs : List BlockRef) (s : ScanState) :
    (refs.foldl (visitBlock sb isResize) s).claimed =
      ((refs.filter fun r => ¬ (r.physical = 0 ∨ sb.blocksCount ≤ r.physical)).map fun r =>
        { start := r.physical, stop := r.physical + 1, noted := !isResize : Claim }).foldl
        Claim.enter s.claimed := by
  induction refs generalizing s with
  | nil => rfl
  | cons r refs ih =>
    rw [List.foldl_cons, ih, List.filter_cons]
    by_cases hout : r.physical = 0 ∨ sb.blocksCount ≤ r.physical
    · rw [if_neg (by simpa only [decide_eq_true_eq, not_not] using hout), visitBlock, if_pos hout]
    · rw [if_pos (decide_eq_true hout), visitBlock, if_neg hout, List.map_cons, List.foldl_cons]
      cases isResize <;> rfl

theorem checkExtentCsums_state {inode : Inode} {inum : Nat}
    (h : checkExtentCsums fs inode inum f = .ok f') : f'.state = f.state := by
  unfold checkExtentCsums at h
  split at h
  · cases h
    apply state_foldl
    intro f x
    rfl
  · cases h
    rfl
  · cases h

/-- Walking an inode claims what the walk visits, whether or not the walk ends well. -/
theorem claimInode_state {inode : Inode} {inum : Nat} (h : claimInode fs inode inum f = .ok f') :
    f'.state = (fs.walkBlocks inode).1.foldl
      (visitBlock fs.superblock (decide (inum = Ino.resize))) f.state := by
  unfold claimInode at h
  dsimp only at h
  split at h
  · cases h
    rfl
  · cases h
  · obtain ⟨f1, h1, h⟩ := bind_ok h
    cases h
    rw [state_pushIf, checkExtentCsums_state h1]
    apply state_foldl
    intro f x
    rfl

theorem checkInode_state {raw : List UInt8} {inode : Inode} {inum : Nat}
    (h : checkInode fs raw inode inum f = .ok f') :
    f'.state.inodesInUse = Lib.SortedMap.insertKey inum f.state.inodesInUse ∧
      SameNames f.state f'.state := by
  unfold checkInode at h
  obtain ⟨sound, -, h⟩ := bind_ok h
  cases h
  simp only [state_pushIf]
  split <;> exact ⟨rfl, rfl, rfl, rfl⟩

theorem checkInode_claimed {raw : List UInt8} {inode : Inode} {inum : Nat}
    (h : checkInode fs raw inode inum f = .ok f') : f'.state.claimed = f.state.claimed := by
  unfold checkInode at h
  obtain ⟨sound, -, h⟩ := bind_ok h
  cases h
  simp only [state_pushIf]
  split <;> rfl

/-! ### The inodes walked -/

/-- An inode, if it is one that pass 1 walks. -/
def walkedInode (fs : Filesystem) (inum : Nat) : Option (Nat × Inode) :=
  match fs.readInode inum with
  | .error _ => none
  | .ok inode =>
    if (inum < fs.superblock.firstIno ∨ 0 < inode.linksCount) ∧ !skipsWalk fs.superblock inum then
      some (inum, inode)
    else none

/-- The inodes of a group that are walked, of those at the places `ws` of its table. -/
def walkedOf (fs : Filesystem) (g : Nat) (ws : List Nat) : List (Nat × Inode) :=
  ((ws.map fun w => g * fs.superblock.inodesPerGroup + w + 1).filter fun inum =>
    inum ≤ fs.superblock.inodesCount).filterMap (walkedInode fs)

/-- The inodes pass 1 walks, in its order. -/
def walkedInodes (fs : Filesystem) : List (Nat × Inode) :=
  (List.range fs.groupCount).flatMap fun g => walkedOf fs g (List.range (liveInodes fs g))

/-- The claims of some inodes, in their order. -/
def inodeClaims (fs : Filesystem) (order : List (Nat × Inode)) : List Claim :=
  order.flatMap fun p => refClaims fs p.1 p.2

theorem walkedInode_eq_some {inum : Nat} {p : Nat × Inode} : walkedInode fs inum = some p ↔
    p.1 = inum ∧ InUse fs inum p.2 ∧ skipsWalk fs.superblock inum = false := by
  obtain ⟨i, inode⟩ := p
  simp only [walkedInode, InUse]
  cases hread : fs.readInode inum with
  | error e => simp
  | ok j =>
    simp only [Option.ite_none_right_eq_some, Option.some.injEq, Prod.mk.injEq, Except.ok.injEq,
      Bool.not_eq_true']
    constructor
    · rintro ⟨⟨huse, hwalk⟩, rfl, rfl⟩
      exact ⟨rfl, ⟨rfl, huse⟩, hwalk⟩
    · rintro ⟨rfl, ⟨rfl, huse⟩, hwalk⟩
      exact ⟨⟨huse, hwalk⟩, rfl, rfl⟩

theorem mem_walkedInodes {p : Nat × Inode} : p ∈ walkedInodes fs ↔ Walked fs p.1 p.2 := by
  simp only [walkedInodes, walkedOf, List.mem_flatMap, List.mem_range, List.mem_filterMap,
    List.mem_filter, List.mem_map, walkedInode_eq_some, decide_eq_true_eq, Walked]
  constructor
  · rintro ⟨g, hg, inum, ⟨⟨w, hw, rfl⟩, hle⟩, hp, huse, hwalk⟩
    rw [hp]
    exact ⟨huse, hwalk, hle, g, hg, w, hw, rfl⟩
  · rintro ⟨huse, hwalk, hle, g, hg, w, hw, hp⟩
    exact ⟨g, hg, p.1, ⟨⟨w, hw, hp.symm⟩, hle⟩, rfl, huse, hwalk⟩

/-- One inode of pass 1: read, and if it is to be walked, its blocks are claimed. -/
theorem pass1Inode_claimed {inum : Nat} (h : pass1Inode fs inum f = .ok f') :
    f'.state.claimed =
      (inodeClaims fs (walkedInode fs inum).toList).foldl Claim.enter f.state.claimed := by
  unfold pass1Inode at h
  obtain ⟨raw, hraw, h⟩ := bind_ok h
  obtain ⟨inode, hdec, h⟩ := bind_ok h
  have hread : fs.readInode inum = .ok inode := by
    unfold Filesystem.readInode
    rw [hraw]
    exact hdec
  simp only [walkedInode, hread]
  split at h
  · next hfree =>
    cases h
    rw [if_neg fun hwalk => hfree hwalk.1]
    rfl
  · next huse =>
    obtain ⟨f1, h1, h⟩ := bind_ok h
    have hf1 := checkInode_claimed h1
    split at h
    · next hskip =>
      cases h
      rw [if_neg fun hwalk => by rw [hskip] at hwalk; exact absurd hwalk.2 (by decide), hf1]
      rfl
    · next hskip =>
      have hwalk : (!skipsWalk fs.superblock inum) = true := by simpa using hskip
      rw [claimInode_state h, visits_claimed, hf1, if_pos ⟨not_not.mp huse, hwalk⟩]
      simp only [inodeClaims, Option.toList_some, List.flatMap_singleton, refClaims]

/-! ### The inodes of pass 1, one after another -/

section Walks

variable {R : Findings → List (Nat × Inode) → Findings → Prop} (hrefl : ∀ f, R f [] f)
  (htrans : ∀ {f g h xs ys}, R f xs g → R g ys h → R f (xs ++ ys) h)
  (hstep : ∀ {inum f f'}, pass1Inode fs inum f = .ok f' → R f (walkedInode fs inum).toList f')

include hrefl htrans hstep

/-- What relates an inode walked to what pass 1 does with it, over those of a group: all up to
    the last of the filesystem. -/
theorem pass1Group_walks {g : Nat} {ws : List Nat} (hsorted : ws.Pairwise (· < ·))
    (h : pass1Group fs g ws f = .ok f') : R f (walkedOf fs g ws) f' := by
  induction ws generalizing f with
  | nil =>
    cases h
    exact hrefl _
  | cons w ws ih =>
    obtain ⟨hw, hsorted⟩ := List.pairwise_cons.mp hsorted
    simp only [pass1Group] at h
    obtain ⟨_, -, h⟩ := bind_ok h
    split at h
    · next hpast =>
      cases h
      -- The places after `w` are past the last inode too.
      have hnone : walkedOf fs g (w :: ws) = [] := by
        rw [walkedOf, List.filter_eq_nil_iff.mpr, List.filterMap_nil]
        intro inum hinum
        obtain ⟨w', hw', rfl⟩ := List.mem_map.mp hinum
        simp only [decide_eq_true_eq]
        rcases List.mem_cons.mp hw' with rfl | hw'
        · omega
        · have := hw w' hw'
          omega
      rw [hnone]
      exact hrefl _
    · next hin =>
      obtain ⟨f1, h1, h⟩ := bind_ok h
      have hcons : walkedOf fs g (w :: ws) = (walkedInode fs
          (g * fs.superblock.inodesPerGroup + w + 1)).toList ++ walkedOf fs g ws := by
        rw [walkedOf, List.map_cons, List.filter_cons, if_pos (by simpa using hin),
          List.filterMap_cons]
        cases walkedInode fs (g * fs.superblock.inodesPerGroup + w + 1) <;> rfl
      rw [hcons]
      exact htrans (hstep h1) (ih hsorted h)

/-- The same over all of pass 1, up to its report of the duplicates. -/
theorem pass1_walks (h : pass1Inodes fs f = .ok f') : ∃ f1, R f (walkedInodes fs) f1 ∧
    f' = (f1.state.duplicates.take 8).foldl (fun f block =>
      f.push 1 .duplicateBlock .serious s!"block {block} is claimed more than once") f1 := by
  unfold pass1Inodes at h
  obtain ⟨f1, h1, h⟩ := bind_ok h
  cases h
  refine ⟨f1, ?_, rfl⟩
  refine foldlM_ok (fun done g => R f
    (done.flatMap fun g => walkedOf fs g (List.range (liveInodes fs g))) g) ?_ (hrefl _) h1
  intro done g f f' hdone hgroup
  rw [List.flatMap_append, List.flatMap_singleton]
  exact htrans hdone (pass1Group_walks hrefl htrans hstep List.pairwise_lt_range hgroup)

end Walks

/-- Pass 1 makes the claims of the inodes it walks, in their order. -/
theorem pass1_claimed (h : pass1Inodes fs f = .ok f') : f'.state.claimed =
    (inodeClaims fs (walkedInodes fs)).foldl Claim.enter f.state.claimed := by
  obtain ⟨f1, hf1, rfl⟩ := pass1_walks
    (R := fun f xs f' => f'.state.claimed = (inodeClaims fs xs).foldl Claim.enter f.state.claimed)
    (fun _ => rfl)
    (fun h h' => by rw [h', h, inodeClaims, inodeClaims, inodeClaims, List.flatMap_append,
      List.foldl_append])
    pass1Inode_claimed h
  rw [state_foldl]
  · exact hf1
  · intro f x
    rfl

/-! ### What the state says of the inodes -/

theorem pass1Inode_names {inum : Nat} (h : pass1Inode fs inum f = .ok f') :
    SameNames f.state f'.state := by
  unfold pass1Inode at h
  obtain ⟨raw, -, h⟩ := bind_ok h
  obtain ⟨inode, -, h⟩ := bind_ok h
  split at h
  · cases h
    exact .refl _
  · obtain ⟨f1, h1, h⟩ := bind_ok h
    have hf1 := (checkInode_state h1).2
    split at h
    · cases h
      exact hf1
    · rw [claimInode_state h]
      exact hf1.trans (onlyClaims_visits _ _ _ _).toSameNames

/-- What every inode of pass 1 preserves, the pass preserves. -/
theorem pass1_preserves {P : ScanState → Prop}
    (hstep : ∀ inum g g', P g.state → pass1Inode fs inum g = .ok g' → P g'.state)
    (hf : P f.state) (h : pass1Inodes fs f = .ok f') : P f'.state := by
  have hgroup : ∀ (ws : List Nat) (g : Nat) (f f' : Findings), P f.state →
      pass1Group fs g ws f = .ok f' → P f'.state := by
    intro ws g
    induction ws with
    | nil =>
      intro f f' hf h
      cases h
      exact hf
    | cons w ws ih =>
      intro f f' hf h
      rw [pass1Group] at h
      obtain ⟨_, -, h⟩ := bind_ok h
      split at h
      · cases h
        exact hf
      · obtain ⟨f1, h1, h⟩ := bind_ok h
        exact ih f1 f' (hstep _ _ _ hf h1) h
  unfold pass1Inodes at h
  obtain ⟨f1, h1, h⟩ := bind_ok h
  have hstate : f'.state = f1.state := by
    cases h
    apply state_foldl
    intro f x
    rfl
  rw [hstate]
  exact foldlM_ok (fun _ g => P g.state) (fun _ g _ _ hdone hstep => hgroup _ g _ _ hdone hstep) hf h1

/-- Pass 1 gathers nothing of the names. -/
theorem pass1_names (h : pass1Inodes fs f = .ok f') : SameNames f.state f'.state :=
  pass1_preserves (fun _ _ _ hg hstep => hg.trans (pass1Inode_names hstep)) (.refl _) h

/-- The inodes pass 1 takes to be in use are. -/
theorem pass1_inUse (hf : ∀ i ∈ f.state.inodesInUse, ∃ inode, InUse fs i inode)
    (h : pass1Inodes fs f = .ok f') : ∀ i ∈ f'.state.inodesInUse, ∃ inode, InUse fs i inode := by
  refine pass1_preserves (P := fun s => ∀ i ∈ s.inodesInUse, ∃ inode, InUse fs i inode) ?_ hf h
  intro inum g g' hg hstep
  unfold pass1Inode at hstep
  obtain ⟨raw, hraw, hstep⟩ := bind_ok hstep
  obtain ⟨inode, hdec, hstep⟩ := bind_ok hstep
  have hread : fs.readInode inum = .ok inode := by
    unfold Filesystem.readInode
    rw [hraw]
    exact hdec
  split at hstep
  · cases hstep
    exact hg
  · next huse =>
    obtain ⟨f1, h1, hstep⟩ := bind_ok hstep
    have hf1 := (checkInode_state h1).1
    have hsame : g'.state.inodesInUse = f1.state.inodesInUse := by
      split at hstep
      · cases hstep
        rfl
      · rw [claimInode_state hstep]
        exact (onlyClaims_visits _ _ _ _).inodesInUse
    intro i hi
    rw [hsame, hf1, Lib.SortedMap.mem_insertKey] at hi
    rcases hi with rfl | hi
    · exact ⟨inode, hread, not_not.mp huse⟩
    · exact hg i hi

/-! ## Passes 2 and 3 claim nothing -/

/-- What passes 2 and 3 leave of a state: its blocks and inodes, and bounded link counters. -/
structure ClaimsNothing (s s' : ScanState) : Prop where
  blocks : s'.blocks = s.blocks
  inodesInUse : s'.inodesInUse = s.inodesInUse
  links : (∀ p ∈ s.observedLinks, p.2 < 2 ^ 16) → ∀ p ∈ s'.observedLinks, p.2 < 2 ^ 16

theorem ClaimsNothing.refl (s : ScanState) : ClaimsNothing s s := ⟨rfl, rfl, id⟩

theorem ClaimsNothing.trans {s1 s2 s3 : ScanState} (h : ClaimsNothing s1 s2)
    (h' : ClaimsNothing s2 s3) : ClaimsNothing s1 s3 :=
  ⟨h'.blocks.trans h.blocks, h'.inodesInUse.trans h.inodesInUse, fun hp => h'.links (h.links hp)⟩

theorem checkDot_state (dirIno : Nat) (entries : List DirEntry) :
    (checkDot dirIno entries f).state = f.state := by
  unfold checkDot
  split
  · split <;> rfl
  · rfl

theorem checkDotdot_claims (dirIno : Nat) (entries : List DirEntry) :
    ClaimsNothing f.state (checkDotdot dirIno entries f).state := by
  unfold checkDotdot
  dsimp only
  split
  · split <;> exact ⟨rfl, rfl, id⟩
  · exact ⟨rfl, rfl, id⟩

theorem checkFiletype_state {dirIno : Nat} {entry : DirEntry}
    (h : checkFiletype fs dirIno entry f = .ok f') : f'.state = f.state := by
  unfold checkFiletype at h
  split at h
  · cases h
    rfl
  · obtain ⟨target, -, h⟩ := bind_ok h
    cases h
    rfl

theorem countLink_claims {inum : Nat} (h : countLink inum f = .ok f') :
    ClaimsNothing f.state f'.state := by
  unfold countLink at h
  obtain ⟨_, hbound, h⟩ := bind_ok h
  cases h
  refine ⟨rfl, rfl, fun hp p hp' => ?_⟩
  rcases Lib.SortedMap.mem_of_mem_insert hp' with rfl | hp'
  · exact Nat.lt_of_not_le (panicIf_ok hbound)
  · exact hp p hp'

/-- What holds between the states before and after each counted link holds between those before
    and after the entries: nothing else of the state is touched. -/
theorem checkEntries_rule {R : ScanState → ScanState → Prop} (hrefl : ∀ s, R s s)
    (htrans : ∀ {s1 s2 s3 : ScanState}, R s1 s2 → R s2 s3 → R s1 s3)
    (hlink : ∀ {inum : Nat} {g g' : Findings}, countLink inum g = .ok g' → R g.state g'.state)
    {dirIno : Nat} {seen : List (List UInt8)} {entries : List DirEntry}
    (h : checkEntries fs dirIno seen entries f = .ok f') : R f.state f'.state := by
  induction entries generalizing f seen with
  | nil =>
    cases h
    exact hrefl _
  | cons entry rest ih =>
    simp only [checkEntries] at h
    split at h
    · have hrest := ih h
      exact hrest
    · split at h
      · have hrest := ih h
        exact hrest
      · obtain ⟨f1, h1, h⟩ := bind_ok h
        obtain ⟨f2, h2, h⟩ := bind_ok h
        have hf1 := checkFiletype_state h1
        rw [state_pushIf] at hf1
        exact htrans (hf1 ▸ hlink h2) (ih h)

theorem checkEntries_claims {dirIno : Nat} {seen : List (List UInt8)} {entries : List DirEntry}
    (h : checkEntries fs dirIno seen entries f = .ok f') : ClaimsNothing f.state f'.state :=
  checkEntries_rule .refl .trans countLink_claims h

theorem pass2Directory_claims {dirIno : Nat} (h : pass2Directory fs f dirIno = .ok f') :
    ClaimsNothing f.state f'.state := by
  unfold pass2Directory at h
  obtain ⟨dir, -, h⟩ := bind_ok h
  obtain ⟨_, -, h⟩ := bind_ok h
  obtain ⟨s, -, h⟩ := bind_ok h
  split at h
  · cases h
    exact ⟨rfl, rfl, id⟩
  · have h1 := checkEntries_claims h
    have h2 := checkDotdot_claims (f := checkDot dirIno s.entries { f with report := s.report })
      dirIno s.entries
    rw [checkDot_state] at h2
    exact h2.trans h1

theorem pass3_state : (pass3Connectivity f).state = f.state := by
  unfold pass3Connectivity
  dsimp only
  split
  · rfl
  · rw [state_foldl]
    · apply state_foldl
      intro f x
      rfl
    · intro f p
      split <;> rfl

/-! ## Everything before pass 1 -/

theorem pass0_onlyClaims (h : pass0Superblock fs f = .ok f') : OnlyClaims f.state f'.state := by
  unfold pass0Superblock at h
  dsimp only at h
  split at h
  · cases h
    exact .refl _
  · obtain ⟨f1, h1, h⟩ := bind_ok h
    obtain ⟨f2, h2, h⟩ := bind_ok h
    cases h
    have hf1 := checkSuperblock_state h1
    rw [state_pushIf] at hf1
    have hf2 : OnlyClaims f.state f2.state := by
      rw [← hf1]
      refine foldlM_ok (fun _ g => OnlyClaims f1.state g.state) ?_ (.refl _) h2
      intro done g f f' hdone hstep
      unfold pass0Group at hstep
      obtain ⟨_, -, hstep⟩ := bind_ok hstep
      split at hstep
      · cases hstep
        exact hdone.trans (onlyClaims_claimRange _ _ _)
      · obtain ⟨_, -, hstep⟩ := bind_ok hstep
        cases hstep
        have hptr : ∀ (f : Findings) (p : String × Nat),
            (checkPointer fs.superblock g f p).state = f.state := fun _ _ => rfl
        simp only [checkDescCsum, state_pushIf, state_claimRange, state_claim, state_foldl _ hptr]
        exact (((hdone.trans (onlyClaims_claimRange _ _ _)).trans
          (onlyClaims_claimRange _ _ _)).trans (onlyClaims_claimRange _ _ _)).trans
          (onlyClaims_claimRange _ _ _)
    unfold claimLoose
    dsimp only
    have hfirst := hf2.trans (onlyClaims_claimRange f2.state 0 fs.superblock.firstDataBlock)
    split
    · exact hfirst.trans (onlyClaims_claimRange _ _ _)
    · exact hfirst

/-- The passes go on with what pass 0 gathered, of the filesystem the journal left. -/
theorem prepare_state {options : FsckOptions} {fuel now : Nat} {fs0 : Filesystem}
    (h : exec (prepare fuel options now) fs0 = (.ok (.ok f), fs)) :
    ∃ journal seen report g, exec (journalStage fuel options {}) fs0 = (.ok journal, seen) ∧
      pass0Superblock seen { report, state := .new seen } = .ok g ∧ f.state = g.state := by
  unfold prepare at h
  obtain ⟨⟨stop, r1⟩, fs1, hjournal, h⟩ := exec_bind_ok h
  obtain ⟨fs2, fs3, hget, h⟩ := exec_bind_ok h
  cases hget
  dsimp only at h
  split at h
  · cases h
  · obtain ⟨g, fs4, hpass0, h⟩ := exec_bind_ok h
    obtain ⟨hpass0, -⟩ := reading_ok hpass0
    refine ⟨_, _, _, g, hjournal, hpass0, ?_⟩
    have hrest : ∀ (r2 : FsckReport) (fs5 : Filesystem),
        exec (goOn options now g r2) fs5 = (.ok (.ok f), fs) → f.state = g.state := by
      intro r2 fs5 hrun
      unfold goOn at hrun
      split at hrun
      · cases (exec_pure_ok hrun).1
        rfl
      · obtain ⟨due, fs6, -, hend⟩ := exec_bind_ok hrun
        split at hend
        · cases (exec_pure_ok hend).1
          rfl
        · obtain ⟨r3, fs7, -, hpure⟩ := exec_bind_ok hend
          cases (exec_pure_ok hpure).1
    split at h
    · obtain ⟨r2, fs5, -, hrun⟩ := exec_bind_ok h
      exact hrest r2 fs5 hrun
    · obtain ⟨r2, fs5, -, hrun⟩ := exec_bind_ok h
      exact hrest r2 fs5 hrun

/-- The passes start with no directory, no inode in use and no name. -/
theorem prepare_onlyClaims {options : FsckOptions} {fuel now : Nat} {fs0 : Filesystem}
    (h : exec (prepare fuel options now) fs0 = (.ok (.ok f), fs)) :
    ∃ fs1, OnlyClaims (ScanState.new fs1) f.state := by
  obtain ⟨_, fs1, _, g, -, hpass0, hstate⟩ := prepare_state h
  exact ⟨fs1, hstate ▸ pass0_onlyClaims hpass0⟩

/-- The inodes a check takes to be in use are. -/
theorem check_inUse {options : FsckOptions} {fuel now : Nat} {fs0 : Filesystem}
    (hprepare : exec (prepare fuel options now) fs0 = (.ok (.ok f), fs))
    (hpass1 : pass1Inodes fs f = .ok f') :
    ∀ i ∈ f'.state.inodesInUse, ∃ inode, InUse fs i inode := by
  obtain ⟨fs1, hfresh⟩ := prepare_onlyClaims hprepare
  refine pass1_inUse (fun i hi => ?_) hpass1
  rw [hfresh.inodesInUse] at hi
  exact absurd hi List.not_mem_nil

end MkfsExt4.Fsck
