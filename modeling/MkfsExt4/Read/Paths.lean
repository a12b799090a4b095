/-
  Paths on two images, one with its hash indexes and one without some of them (`resolve_path` of
  `src/fs.rs`).

  `ClearsIndex` relates an image to the one that differs in the INDEX flags of directories. A name
  other than "." and ".." is found alike on both where the index is valid; those two are in no
  leaf, and a search by hash says they are absent (`resolvePath_agree_iff`).
-/
import MkfsExt4.Read.Lookup

namespace MkfsExt4

open Lib.Hoare

/-- An inode without its INDEX flag. -/
def Inode.clearIndex (inode : Inode) : Inode :=
  { inode with flags := inode.flags ^^^ IFlags.index }

namespace Filesystem

/-- The INDEX flag is still there, or a directory's is gone. -/
def Clears (inode inode' : Inode) : Prop :=
  inode' = inode ∨ (inode.isDir = true ∧ Claims inode ∧ inode' = inode.clearIndex)

/-- The second image differs from the first in the INDEX flags of some directories. Checksums are
    no part of a decoded inode. -/
structure ClearsIndex (fs fs' : Filesystem) : Prop where
  superblock : fs'.superblock = fs.superblock
  inodes : ∀ inum, (∃ e, fs.readInode inum = .error e ∧ fs'.readInode inum = .error e) ∨
    ∃ inode inode', fs.readInode inum = .ok inode ∧ fs'.readInode inum = .ok inode' ∧
      Clears inode inode'
  resolves : ∀ inum dir, fs.readInode inum = .ok dir → dir.isDir = true ∨ Claims dir →
    ∀ k, fs'.resolveBlock dir k = fs.resolveBlock dir k
  reads : ∀ inum dir, fs.readInode inum = .ok dir → dir.isDir = true ∨ Claims dir →
    ∀ k physical, fs.resolveBlock dir k = .ok (some physical) →
      fs'.readBlock physical = fs.readBlock physical

/-- The path looks "." or ".." up in a directory that lost its index. -/
inductive LosesDots (fs fs' : Filesystem) : (inum : Nat) → List (List UInt8) → Prop
  | here {inum : Nat} {dir dir' : Inode} {name : List UInt8} {rest : List (List UInt8)}
      (hdir : fs.readInode inum = .ok dir) (hdir' : fs'.readInode inum = .ok dir')
      (hflag : Claims dir) (hgone : ¬ Claims dir') (hdots : name ∈ dots) :
      LosesDots fs fs' inum (name :: rest)
  | later {inum next : Nat} {dir : Inode} {name : List UInt8} {rest : List (List UInt8)}
      (hdir : fs.readInode inum = .ok dir) (hnext : fs.lookup dir name = .ok (some next))
      (h : LosesDots fs fs' next rest) : LosesDots fs fs' inum (name :: rest)

/-- The path comes to a name that is not there. -/
inductive Vanishes (fs : Filesystem) : (inum : Nat) → List (List UInt8) → Prop
  | here {inum : Nat} {dir : Inode} {name : List UInt8} {rest : List (List UInt8)}
      (hdir : fs.readInode inum = .ok dir) (habsent : fs.lookup dir name = .ok none) :
      Vanishes fs inum (name :: rest)
  | later {inum next : Nat} {dir : Inode} {name : List UInt8} {rest : List (List UInt8)}
      (hdir : fs.readInode inum = .ok dir) (hnext : fs.lookup dir name = .ok (some next))
      (h : Vanishes fs next rest) : Vanishes fs inum (name :: rest)

/-! ## One directory -/

theorem claims_clearIndex {dir : Inode} (h : Claims dir) : ¬ Claims dir.clearIndex := by
  unfold Claims Inode.clearIndex at *
  have hpow : IFlags.index = 2 ^ 12 := rfl
  dsimp only
  rw [hpow, Nat.and_two_pow] at h ⊢
  cases hbit : dir.flags.testBit 12 with
  | false =>
    rw [hbit] at h
    exact absurd rfl h
  | true =>
    rw [Nat.testBit_xor, hbit, Nat.testBit_two_pow_self]
    exact not_not.mpr rfl

theorem usesExtents_clearIndex (dir : Inode) : dir.clearIndex.usesExtents = dir.usesExtents := by
  have hother : IFlags.index &&& IFlags.extents = 0 := rfl
  rw [Inode.usesExtents, Inode.clearIndex, Nat.and_xor_distrib_right, hother, Nat.xor_zero,
    Inode.usesExtents]

/-- The block map does not depend on the INDEX flag. -/
theorem resolveBlock_clearIndex (fs : Filesystem) (dir : Inode) (k : Nat) :
    fs.resolveBlock dir.clearIndex k = fs.resolveBlock dir k := by
  rw [resolveBlock, resolveBlock, usesExtents_clearIndex]
  rfl

section Congr

variable {fs fs' : Filesystem} {dir dir' : Inode} (hsb : fs'.superblock = fs.superblock)
  (hresolve : ∀ k, fs'.resolveBlock dir' k = fs.resolveBlock dir k)
  (hread : ∀ k physical, fs.resolveBlock dir k = .ok (some physical) →
    fs'.readBlock physical = fs.readBlock physical)

include hresolve hread

theorem dirBlock_congr (k : Nat) : fs'.dirBlock dir' k = fs.dirBlock dir k := by
  rw [dirBlock, dirBlock, hresolve]
  cases hres : fs.resolveBlock dir k with
  | error e => rfl
  | ok found =>
    cases found with
    | none => rfl
    | some physical =>
      dsimp only [bind, Except.bind]
      rw [hread k physical hres]

theorem followLeaves_congr (name node : List UInt8) (offset : Nat) : ∀ fuel i,
    fs'.followLeaves dir' name node offset fuel i = fs.followLeaves dir name node offset fuel i
  | 0, i => rfl
  | fuel + 1, i => by
    rw [followLeaves_succ, followLeaves_succ]
    simp only [dirBlock_congr hresolve hread, followLeaves_congr name node offset fuel]

theorem searchNode_congr (name node : List UInt8) (offset hash : Nat) :
    fs'.searchNode dir' name node offset hash = fs.searchNode dir name node offset hash := by
  rw [searchNode, searchNode]
  refine congrArg _ (funext fun i => ?_)
  exact followLeaves_congr hresolve hread name node offset _ i

include hsb

theorem readDir_congr (hdir : dir'.isDir = dir.isDir) (hsize : dir'.size = dir.size) :
    fs'.readDir dir' = fs.readDir dir := by
  have hbs : fs'.blockSize = fs.blockSize := by rw [blockSize, blockSize, hsb]
  unfold readDir
  rw [hdir, hsize, hbs]
  split
  · rfl
  · refine congrArg _ (funext fun _ => congrArg (· >>= _) ?_)
    refine congrArg (fun f => List.mapM f _) (funext fun k => ?_)
    rw [hresolve]
    cases hres : fs.resolveBlock dir k with
    | error e => rfl
    | ok found =>
      cases found with
      | none => rfl
      | some physical =>
        dsimp only [bind, Except.bind]
        rw [hread k physical hres]

theorem lookupIndexed_congr (name : List UInt8) :
    fs'.lookupIndexed dir' name = fs.lookupIndexed dir name := by
  have hbs : fs'.blockSize = fs.blockSize := by rw [blockSize, blockSize, hsb]
  have hhash : ∀ root, fs'.hashIn root name = fs.hashIn root name := by
    intro root
    rw [hashIn, hashIn, hsb]
  rw [lookupIndexed, lookupIndexed, hresolve, hbs]
  cases hres : fs.resolveBlock dir 0 with
  | error e => rfl
  | ok found =>
    obtain _ | physical := found
    · rfl
    dsimp only [bind, Except.bind]
    rw [hread 0 physical hres]
    cases fs.readBlock physical with
    | error e => rfl
    | ok root =>
      dsimp only
      simp only [hhash, searchNode_congr hresolve hread]
      split
      · rfl
      · split
        · cases Htree.find root Htree.rootCountOffset (fs.hashIn root name) with
          | error e => rfl
          | ok chosen =>
            dsimp only
            cases Htree.entry root Htree.rootCountOffset chosen with
            | error e => rfl
            | ok x =>
              obtain ⟨-, child⟩ := x
              dsimp only
              rw [hresolve]
              cases hchild : fs.resolveBlock dir child with
              | error e => rfl
              | ok found =>
                cases found with
                | none => rfl
                | some physical =>
                  dsimp only
                  rw [hread child physical hchild]
        · rfl

end Congr

/-! ## Whole paths -/

section Paths

variable {fs fs' : Filesystem} (h : ClearsIndex fs fs')
  (hvalid : ∀ inum dir, fs.readInode inum = .ok dir → dir.isDir = true → Claims dir →
    ∃ root, fs.OneLevel dir root)

theorem vanishes_iff (fs : Filesystem) : ∀ (path : List (List UInt8)) (inum : Nat),
    fs.resolveFrom inum path = .ok none ↔ fs.Vanishes inum path
  | [], inum => ⟨nofun, nofun⟩
  | name :: rest, inum => by
    rw [resolveFrom]
    constructor
    · intro hnone
      obtain ⟨dir, hdir, hnone⟩ := bind_ok_iff.mp hnone
      obtain ⟨answer, hlookup, hnone⟩ := bind_ok_iff.mp hnone
      cases answer with
      | none => exact .here hdir hlookup
      | some next => exact .later hdir hlookup ((vanishes_iff fs rest next).mp hnone)
    · intro hvanish
      cases hvanish with
      | here hdir habsent =>
        rw [hdir]
        dsimp only [bind, Except.bind]
        rw [habsent]
        rfl
      | later hdir hnext hrest =>
        rw [hdir]
        dsimp only [bind, Except.bind]
        rw [hnext]
        exact (vanishes_iff fs rest _).mpr hrest

include h hvalid

/-- Where the flag went, a name outside the root is found alike. -/
theorem lookup_cleared {inum : Nat} {dir : Inode} (hdir : fs.readInode inum = .ok dir)
    (hisDir : dir.isDir = true) (hflag : Claims dir) {name : List UInt8} (hname : name ∉ dots) :
    fs'.lookup dir.clearIndex name = fs.lookup dir name := by
  obtain ⟨root, hone⟩ := hvalid inum dir hdir hisDir hflag
  have hread : fs'.readDir dir.clearIndex = fs.readDir dir :=
    readDir_congr h.superblock
      (fun k => (resolveBlock_clearIndex fs' dir k).trans (h.resolves inum dir hdir (Or.inl hisDir) k))
      (h.reads inum dir hdir (Or.inl hisDir)) rfl rfl
  rw [lookup_of_not_claims (claims_clearIndex hflag), lookupLinear, hread,
    readDir_listed hone.indexed.listed, lookup_of_claims hflag (hone.lookupIndexed_name hname)]
  rfl

omit hvalid in
/-- Where it did not, every name is. -/
theorem lookup_kept {inum : Nat} {dir : Inode} (hdir : fs.readInode inum = .ok dir)
    (name : List UInt8) : fs'.lookup dir name = fs.lookup dir name := by
  have hlinear : fs'.lookupLinear dir name = fs.lookupLinear dir name := by
    rw [lookupLinear, lookupLinear]
    by_cases hisDir : dir.isDir = true
    · rw [readDir_congr h.superblock (h.resolves inum dir hdir (Or.inl hisDir))
        (h.reads inum dir hdir (Or.inl hisDir)) rfl rfl]
    · rw [readDir, readDir, Bool.eq_false_iff.mpr hisDir]
      rfl
  rw [lookup, lookup, hlinear]
  split
  · next hflag =>
    rw [lookupIndexed_congr h.superblock (h.resolves inum dir hdir (Or.inr hflag))
      (h.reads inum dir hdir (Or.inr hflag))]
  · rfl

/-- A path that does not look dots up in a directory that lost its index. -/
theorem resolveFrom_agree : ∀ (path : List (List UInt8)) (inum : Nat),
    ¬ LosesDots fs fs' inum path → fs'.resolveFrom inum path = fs.resolveFrom inum path
  | [], inum, _ => rfl
  | name :: rest, inum, hnot => by
    rw [resolveFrom, resolveFrom]
    rcases h.inodes inum with ⟨e, hdir, hdir'⟩ | ⟨dir, dir', hdir, hdir', hclears⟩
    · rw [hdir, hdir']
      rfl
    · have hlookup : fs'.lookup dir' name = fs.lookup dir name := by
        rcases hclears with rfl | ⟨hisDir, hflag, rfl⟩
        · exact lookup_kept h hdir name
        · refine lookup_cleared h hvalid hdir hisDir hflag fun hdots => hnot ?_
          exact .here hdir hdir' hflag (claims_clearIndex hflag) hdots
      rw [hdir, hdir']
      dsimp only [bind, Except.bind]
      rw [hlookup]
      match hnext : fs.lookup dir name with
      | .error e => rfl
      | .ok none => rfl
      | .ok (some next) =>
        exact resolveFrom_agree rest next fun hloses => hnot (.later hdir hnext hloses)

/-- One that does ends there, as if the name were absent. -/
theorem resolveFrom_losesDots {inum : Nat} {path : List (List UInt8)}
    (hloses : LosesDots fs fs' inum path) : fs.resolveFrom inum path = .ok none := by
  induction hloses with
  | @here inum dir dir' name rest hdir hdir' hflag hgone hdots =>
    rcases h.inodes inum with ⟨e, herror, -⟩ | ⟨dir₁, dir₁', hdir₁, hdir₁', hclears⟩
    · exact nomatch hdir.symm.trans herror
    · obtain rfl := Except.ok.inj (hdir.symm.trans hdir₁)
      obtain rfl := Except.ok.inj (hdir'.symm.trans hdir₁')
      rcases hclears with rfl | ⟨hisDir, -, -⟩
      · exact absurd hflag hgone
      · obtain ⟨root, hone⟩ := hvalid inum dir hdir hisDir hflag
        rw [resolveFrom, hdir]
        dsimp only [bind, Except.bind]
        rw [lookup_of_claims hflag (hone.lookupIndexed_dots hdots)]
        rfl
  | later hdir hnext _ ih =>
    rw [resolveFrom, hdir]
    dsimp only [bind, Except.bind]
    rw [hnext]
    exact ih

/-- A path resolves alike on an image whose indexed directories carry valid one-level indexes and
    on the image without some of their INDEX flags exactly when it does not look ".." up in a
    directory that lost its flag, or comes to an absent name on the second image anyway. -/
theorem resolvePath_agree_iff (path : String) :
    fs'.resolvePath path = fs.resolvePath path ↔
      ¬ LosesDots fs fs' Ino.root (components path) ∨
        fs'.Vanishes Ino.root (components path) := by
  rw [resolvePath, resolvePath, ← vanishes_iff]
  constructor
  · intro heq
    by_cases hloses : LosesDots fs fs' Ino.root (components path)
    · exact Or.inr (heq.trans (resolveFrom_losesDots h hvalid hloses))
    · exact Or.inl hloses
  · intro hcond
    by_cases hloses : LosesDots fs fs' Ino.root (components path)
    · rw [resolveFrom_losesDots h hvalid hloses]
      exact hcond.resolve_left (not_not.mpr hloses)
    · exact resolveFrom_agree h hvalid _ _ hloses

end Paths

/-! ### Up from an indexed directory -/

/-- The image with the flag of inode 2, its root directory, and without. -/
def withIndex : Filesystem := indexFs [0, 0x10]

def withoutIndex : Filesystem := indexFs []

theorem readInode_past {fs : Filesystem} {inum : Nat} (h : fs.superblock.inodesCount < inum) :
    fs.readInode inum = .error (.error (.corrupt "inode number"
      s!"inode {inum} is outside 1..={fs.superblock.inodesCount}")) := by
  rw [readInode, readInodeRaw, inodeLocation]
  dsimp only
  rw [if_pos (Or.inr h)]
  rfl

/-- What the two images answer. -/
theorem indexed_answers : withIndex.readInode 2 = .ok indexDir ∧
    withoutIndex.readInode 2 = .ok indexDir.clearIndex ∧
    (∀ inum < 3, inum ≠ 2 → withoutIndex.readInode inum = withIndex.readInode inum ∧
      (withIndex.readInode inum).toOption.all (fun dir => !dir.isDir && dir.flags == 0) = true) ∧
    withIndex.resolvePath "/.." = .ok none ∧ withoutIndex.resolvePath "/.." = .ok (some 2) := by
  decide +kernel

theorem readInode_same {inum : Nat} (hne : inum ≠ 2) :
    withoutIndex.readInode inum = withIndex.readInode inum := by
  by_cases hlt : inum < 3
  · exact (indexed_answers.2.2.1 inum hlt hne).1
  · have hpast : withIndex.superblock.inodesCount < inum := by
      show 2 < inum
      omega
    rw [readInode_past hpast]
    exact readInode_past hpast

/-- Inode 2 is the only directory. -/
theorem withIndex_dir {inum : Nat} {dir : Inode} (hread : withIndex.readInode inum = .ok dir)
    (hdir : dir.isDir = true ∨ Claims dir) : dir = indexDir := by
  by_cases htwo : inum = 2
  · subst htwo
    exact (Except.ok.inj (indexed_answers.1.symm.trans hread)).symm
  · by_cases hlt : inum < 3
    · have hother := (indexed_answers.2.2.1 inum hlt htwo).2
      rw [hread] at hother
      have hother : dir.isDir = false ∧ dir.flags = 0 := by
        simpa [Except.toOption] using hother
      rcases hdir with hdir | hdir
      · exact absurd (hdir.symm.trans hother.1) (by decide)
      · rw [Claims, hother.2] at hdir
        exact absurd rfl hdir
    · have hpast : withIndex.superblock.inodesCount < inum := by
        show 2 < inum
        omega
      rw [readInode_past hpast] at hread
      cases hread

/-- The directory has its three blocks and no indirect ones, whatever the filesystem. -/
theorem resolveBlock_indexDir {fs : Filesystem} (hfits : SpansFit fs.perBlock) (k : Nat) :
    fs.resolveBlock indexDir k = .ok (if k < 3 then some (5 + k) else none) := by
  have hext : indexDir.usesExtents = false := by decide
  have hmap : indexDir.hasBlockMap = true := by decide
  rw [resolveBlock, hmap, hext]
  simp only [Bool.not_true, Bool.false_eq_true, if_false]
  have hdirect : ∀ k < ndirBlocks, (if indexDir.blockPointers.getD k 0 = 0 then none
      else some (indexDir.blockPointers.getD k 0)) = if k < 3 then some (5 + k) else none := by
    decide
  split
  · next hk => exact congrArg Except.ok (hdirect k hk)
  · next hk =>
    have hnot : ¬ k < 3 := by
      have : ndirBlocks = 12 := rfl
      omega
    rw [if_neg hnot]
    exact resolveSlots_empty hfits (by decide)

/-- The blocks past the inode table do not depend on the flags. -/
theorem indexFs_readBlock {flags : List UInt8} (hlen : flags.length ≤ 2) {block : Nat}
    (hpast : 5 ≤ block) (hlt : block < 16) : (indexFs flags).readBlock block =
      .ok (Lib.Store.window (indexImage []).bytes (block * 1024) 1024) := by
  have hbytes : ∀ p, 5 * 1024 ≤ p → (indexImage flags).bytes p = (indexImage []).bytes p := by
    intro p hp
    have hflags : (decide (4 * 1024 + 128 + 0x20 ≤ p) &&
        decide (p < 4 * 1024 + 128 + 0x20 + flags.length)) = false := by
      rw [Bool.and_eq_false_iff, decide_eq_false_iff_not, decide_eq_false_iff_not]
      omega
    have hnone : (decide (4 * 1024 + 128 + 0x20 ≤ p) &&
        decide (p < 4 * 1024 + 128 + 0x20 + ([] : List UInt8).length)) = false := by
      rw [Bool.and_eq_false_iff, decide_eq_false_iff_not, decide_eq_false_iff_not, List.length_nil]
      omega
    simp only [indexImage, Device.ofChunks, List.find?_cons, hflags, hnone]
  have hsize : (indexFs flags).blockSize = 1024 := rfl
  have hdev : (indexFs flags).device = indexImage flags := rfl
  have hdevSize : (indexImage flags).size = 16384 := rfl
  refine readBlock_ok_iff.mpr ⟨hlt, ?_, ?_, ?_⟩
  · rw [hsize]
    omega
  · rw [hsize, hdev, hdevSize]
    omega
  · rw [hsize, hdev]
    refine Lib.Store.window_congr fun p hp _ => (hbytes p ?_).symm
    exact Nat.le_trans (Nat.mul_le_mul_right 1024 hpast) hp

theorem withIndex_clears : ClearsIndex withIndex withoutIndex where
  superblock := rfl
  inodes := by
    intro inum
    by_cases htwo : inum = 2
    · subst htwo
      exact Or.inr ⟨_, _, indexed_answers.1, indexed_answers.2.1,
        Or.inr ⟨by decide, by decide, rfl⟩⟩
    · rw [readInode_same htwo]
      cases withIndex.readInode inum with
      | error e => exact Or.inl ⟨e, rfl, rfl⟩
      | ok inode => exact Or.inr ⟨inode, inode, rfl, rfl, Or.inl rfl⟩
  resolves := by
    intro inum dir hread hdir k
    rw [withIndex_dir hread hdir, resolveBlock_indexDir (by decide),
      resolveBlock_indexDir (by decide)]
  reads := by
    intro inum dir hread hdir k physical hres
    rw [withIndex_dir hread hdir, resolveBlock_indexDir (by decide)] at hres
    split at hres
    · next hk =>
      obtain rfl := Option.some.inj (Except.ok.inj hres)
      have hlt : 5 + k < 16 := by omega
      rw [withoutIndex, withIndex, indexFs_readBlock (by decide) (Nat.le_add_right 5 k) hlt,
        indexFs_readBlock (by decide) (Nat.le_add_right 5 k) hlt]
    · cases hres

theorem withIndex_valid (inum : Nat) (dir : Inode) (hread : withIndex.readInode inum = .ok dir)
    (hdir : dir.isDir = true) (_ : Claims dir) : ∃ root, withIndex.OneLevel dir root := by
  rw [withIndex_dir hread (Or.inl hdir)]
  exact ⟨_, indexDir_oneLevel⟩

/-- A name of the directory is found on both images. -/
theorem resolvePath_name_agree :
    withoutIndex.resolvePath "/bw9" = withIndex.resolvePath "/bw9" := by
  refine (resolvePath_agree_iff withIndex_clears withIndex_valid "/bw9").mpr (Or.inl ?_)
  have hpath : components "/bw9" = [[0x62, 0x77, 0x39]] := by decide
  rw [hpath]
  intro hloses
  cases hloses with
  | here _ _ _ _ hdots => exact absurd hdots (by decide)
  | later _ _ hrest => cases hrest

/-- The root directory's own parent is found only without the index. -/
theorem resolvePath_disagree : ¬ ∀ (fs fs' : Filesystem), ClearsIndex fs fs' →
    (∀ inum dir, fs.readInode inum = .ok dir → dir.isDir = true → Claims dir →
      ∃ root, fs.OneLevel dir root) →
    ∀ path, fs'.resolvePath path = fs.resolvePath path := by
  intro hall
  have heq := hall withIndex withoutIndex withIndex_clears withIndex_valid "/.."
  obtain ⟨-, -, -, hlost, hfound⟩ := indexed_answers
  rw [hfound, hlost] at heq
  cases heq

end Filesystem

end MkfsExt4
