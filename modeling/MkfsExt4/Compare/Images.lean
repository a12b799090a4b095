/-
  Comparing two opened filesystems (`src/compare.rs`): the group descriptors, the reserved
  inodes, and the directory trees.

  The walk over the trees is a loop with a queue that takes from its end: `visit` is one turn's
  work, `walkTurn` the turn. It keeps no record of the directories it was in, so `CompareEnds` is
  a relation: `compare` may have no end.
-/
import MkfsExt4.Compare.Superblock
import MkfsExt4.Fs.BlockMap
import MkfsExt4.Lib.Loop

namespace MkfsExt4.Compare

open Lib.Utf8 Lib.Loop

/-! ## Group descriptors -/

/-- A field of a descriptor. -/
structure DescField where
  name : String
  significance : Significance
  get : GroupDesc → Nat
  render : Nat → String := toString

def descFields : List DescField :=
  [{ name := "block_bitmap", significance := .structural, get := GroupDesc.blockBitmap },
   { name := "inode_bitmap", significance := .structural, get := GroupDesc.inodeBitmap },
   { name := "inode_table", significance := .structural, get := GroupDesc.inodeTable },
   { name := "flags", significance := .structural, get := GroupDesc.flags, render := hex 4 },
   { name := "used_dirs_count", significance := .incidental, get := GroupDesc.usedDirsCount },
   { name := "free_blocks_count", significance := .incidental, get := GroupDesc.freeBlocksCount },
   { name := "free_inodes_count", significance := .incidental, get := GroupDesc.freeInodesCount },
   { name := "itable_unused", significance := .incidental, get := GroupDesc.itableUnused },
   { name := "checksum", significance := .identity, get := GroupDesc.checksum, render := hex 4 }]

def compareGroupDesc (group : Nat) (l r : GroupDesc) (options : CompareOptions)
    (report : ComparisonReport) : ComparisonReport :=
  descFields.foldl (fun report field =>
    report.pushIf options (field.get l != field.get r)
      ⟨.groupDesc group, field.name, field.render (field.get l), field.render (field.get r),
        field.significance⟩) report

/-- Group descriptors, group by group. -/
def compareGroupDescs (left right : Filesystem) (options : CompareOptions)
    (report : ComparisonReport) : ComparisonReport :=
  let ld := left.groupDescs
  let rd := right.groupDescs
  let report := report.pushIf options (ld.length != rd.length)
    ⟨.superblock, "group count", toString ld.length, toString rd.length, .structural⟩
  let groups := min ld.length rd.length
  let limit := if options.allGroups then groups else min groups 8
  ((ld.zip rd).take limit).zipIdx.foldl
    (fun report pair => compareGroupDesc pair.2 pair.1.1 pair.1.2 options report) report

/-! ## Reserved inodes -/

/-- `{n:o}` -/
def octal (n : Nat) : String := String.ofList (Nat.toDigits 8 n)

/-- One inode, field by field. -/
def compareInode (inum : Nat) (l r : Inode) (options : CompareOptions)
    (report : ComparisonReport) : ComparisonReport :=
  let differ (report : ComparisonReport) (name : String) (get : Inode → Nat)
      (render : Nat → String) : ComparisonReport :=
    report.pushIf options (get l != get r)
      ⟨.inode inum, name, render (get l), render (get r), .structural⟩
  let report := differ report "mode" Inode.mode octal
  let report := differ report "links_count" Inode.linksCount toString
  let report := differ report "size" Inode.size toString
  let report := differ report "blocks" Inode.blocks toString
  let report := differ report "flags" Inode.flags (hex 8)
  let report := differ report "uid" Inode.uid toString
  let report := differ report "gid" Inode.gid toString
  let report := report.pushIf options (l.block != r.block)
    ⟨.inode inum, "i_block", "…", "…", .structural⟩
  report.pushIf options (l.mtime != r.mtime || l.ctime != r.ctime || l.crtime != r.crtime)
    ⟨.inode inum, "timestamps", toString l.mtime, toString r.mtime, .identity⟩

/-- The loop over the reserved inodes. -/
def compareInodes (left right : Filesystem) (options : CompareOptions) :
    List Nat → ComparisonReport → Except Failure ComparisonReport
  | [], report => .ok report
  | inum :: rest, report =>
    if left.superblock.inodesCount < inum ∨ right.superblock.inodesCount < inum then .ok report
    else do
      let l ← left.readInode inum
      let r ← right.readInode inum
      compareInodes left right options rest (compareInode inum l r options report)

/-- The reserved inodes, which describe the filesystem rather than its contents. -/
def compareReservedInodes (left right : Filesystem) (options : CompareOptions)
    (report : ComparisonReport) : Except Failure ComparisonReport :=
  let last := min left.superblock.firstIno right.superblock.firstIno
  compareInodes left right options (List.range' 1 last) report

/-! ## Directories -/

/-- The names of a directory, without the two every directory has. -/
def dirNames (entries : List DirEntry) : List String :=
  (entries.map DirEntry.nameString).filter fun n => n ≠ "." ∧ n ≠ ".."

/-- A pair of directories to compare, and their path. -/
structure Pair where
  path : String
  left : Nat
  right : Nat

/-- The entries both have under `name`: one is a directory and the other is not, or both are
    and join the queue. -/
def descend (left right : Filesystem) (options : CompareOptions) (path : String)
    (lEntries rEntries : List DirEntry) (st : ComparisonReport × List Pair) (name : String) :
    Except Failure (ComparisonReport × List Pair) :=
  match lEntries.find? fun e => e.nameString == name, rEntries.find? fun e => e.nameString == name with
  | some lChild, some rChild => do
    let childPath := if path = "/" then "/" ++ name else path ++ "/" ++ name
    let lTarget ← left.readInode lChild.inode
    let rTarget ← right.readInode rChild.inode
    let kind (target : Inode) : String := if target.isDir then "directory" else "file"
    if lTarget.isDir ≠ rTarget.isDir then
      return (st.1.push options
        ⟨.directory path, name, kind lTarget, kind rTarget, .structural⟩, st.2)
    else if lTarget.isDir then return (st.1, st.2 ++ [⟨childPath, lChild.inode, rChild.inode⟩])
    else return st
  | _, _ => return st

/-- What a turn does for one pair, and the pairs it adds to the queue. -/
def visit (left right : Filesystem) (options : CompareOptions) (pair : Pair)
    (report : ComparisonReport) : Except Failure (ComparisonReport × List Pair) := do
  let lInode ← left.readInode pair.left
  let rInode ← right.readInode pair.right
  if !lInode.isDir ∨ !rInode.isDir then return (report, [])
  let lEntries ← left.readDir lInode
  let rEntries ← right.readDir rInode
  let lNames := dirNames lEntries
  let rNames := dirNames rEntries
  let area := Area.directory pair.path
  let report := report.pushMissing options area lNames rNames "present" "missing"
  let report := report.pushMissing options area rNames lNames "missing" "present"
  (lNames.filter rNames.contains).foldlM
    (descend left right options pair.path lEntries rEntries) (report, [])

/-- One turn of `compare_directories`. The end of the queue comes first here. -/
def walkTurn (left right : Filesystem) (options : CompareOptions) :
    List Pair × ComparisonReport →
      (List Pair × ComparisonReport) ⊕ Except Failure ComparisonReport
  | ([], report) => .inr (.ok report)
  | (pair :: queue, report) =>
    match visit left right options pair report with
    | .error e => .inr (.error e)
    | .ok (report, added) => .inl (added.reverse ++ queue, report)

def rootPair : Pair := ⟨"/", Ino.root, Ino.root⟩

/-! ## The whole comparison -/

/-- What `compare` does before the directories. -/
def compareHead (left right : Filesystem) (options : CompareOptions) :
    Except Failure ComparisonReport :=
  let report := compareFeatures left.superblock right.superblock options {}
  let report := compareSuperblock left.superblock right.superblock options report
  let report := compareGroupDescs left right options report
  compareReservedInodes left right options report

/-- `compare` returns `result`. -/
def CompareEnds (left right : Filesystem) (options : CompareOptions)
    (result : Except Failure ComparisonReport) : Prop :=
  match compareHead left right options with
  | .error e => result = .error e
  | .ok report =>
    if options.walkDirectories then
      Ends (walkTurn left right options) ([rootPair], report) result
    else result = .ok report

end MkfsExt4.Compare
