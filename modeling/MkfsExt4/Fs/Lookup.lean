/-
  Names in a directory (`lookup`, `lookup_indexed` and `resolve_path` of `src/fs.rs`).
-/
import MkfsExt4.Fs.BlockMap
import MkfsExt4.Structs.Htree

namespace MkfsExt4

namespace Filesystem

variable (fs : Filesystem)

/-- The leaf of each entry of the index block from `i` on, while they continue it, until one
    holds the name. An unmapped leaf makes the index unusable. -/
def followLeaves (dir : Inode) (name node : List UInt8) (offset : Nat) : (fuel i : Nat) →
    Except Failure (Option (Option Nat))
  | 0, _ => .ok (some none)
  | fuel + 1, i => do
    let (_, leaf) ← Htree.entry node offset i
    match ← fs.resolveBlock dir leaf with
    | none => return none
    | some physical =>
      let buf ← fs.readBlock physical
      let entries ← returned (Dirent.parseBlock buf)
      match entries.find? fun e => e.inode != 0 && e.name == name with
      | some entry => return some (some entry.inode)
      | none =>
        if Htree.count node offset ≤ i + 1 then return some none
        else
          let (next, _) ← Htree.entry node offset (i + 1)
          if next % 2 = 0 then return some none
          else followLeaves dir name node offset fuel (i + 1)

/-- The search of the index block that covers a hash. Each turn of its loop goes one entry on, so
    that their count is fuel enough. -/
def searchNode (dir : Inode) (name node : List UInt8) (offset hash : Nat) :
    Except Failure (Option (Option Nat)) := do
  let count := Htree.count node offset
  let i ← Htree.find node offset hash
  fs.followLeaves dir name node offset count i

/-- The hash of a name in a directory with this index root. -/
def hashIn (root name : List UInt8) : Nat :=
  let version := Htree.versionFor (Htree.rootHashVersion root) fs.superblock.flags
  (Htree.dirhash version name fs.superblock.hashSeed).1

/-- Look a name up through a directory's hash index: `none` if the index could not be used. -/
def lookupIndexed (dir : Inode) (name : List UInt8) : Except Failure (Option (Option Nat)) := do
  match ← fs.resolveBlock dir 0 with
  | none => return none
  | some rootBlock =>
    let root ← fs.readBlock rootBlock
    if Htree.countOffset root fs.blockSize ≠ some Htree.rootCountOffset then return none
    else
      let hash := fs.hashIn root name
      if 0 < Htree.indirectLevels root then
        let chosen ← Htree.find root Htree.rootCountOffset hash
        let (_, child) ← Htree.entry root Htree.rootCountOffset chosen
        match ← fs.resolveBlock dir child with
        | none => return none
        | some physical =>
          let node ← fs.readBlock physical
          match Htree.countOffset node fs.blockSize with
          | some found => fs.searchNode dir name node found hash
          | none => return none
      else fs.searchNode dir name root Htree.rootCountOffset hash

/-- The linear search: the first entry of this name. -/
def lookupLinear (dir : Inode) (name : List UInt8) : Except Failure (Option Nat) := do
  let entries ← fs.readDir dir
  return (entries.find? fun e => e.name == name).map DirEntry.inode

/-- Look a name up in a directory. -/
def lookup (dir : Inode) (name : List UInt8) : Except Failure (Option Nat) := do
  if dir.flags &&& IFlags.index ≠ 0 then
    match ← fs.lookupIndexed dir name with
    | some answer => return answer
    | none => fs.lookupLinear dir name
  else fs.lookupLinear dir name

/-- The names a path goes through, in UTF-8. -/
def components (path : String) : List (List UInt8) :=
  ((path.toList.splitOn '/').filter fun c => c ≠ [] ∧ c ≠ ['.']).map fun c =>
    c.flatMap String.utf8EncodeChar

/-- Resolve the names one after another, from an inode on. -/
def resolveFrom : (inum : Nat) → List (List UInt8) → Except Failure (Option Nat)
  | inum, [] => .ok (some inum)
  | inum, component :: rest => do
    let dir ← fs.readInode inum
    match ← fs.lookup dir component with
    | some next => resolveFrom next rest
    | none => return none

/-- Resolve an absolute path to an inode number. -/
def resolvePath (path : String) : Except Failure (Option Nat) :=
  fs.resolveFrom Ino.root (components path)

end Filesystem

end MkfsExt4
