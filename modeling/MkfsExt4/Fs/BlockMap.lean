/-
  Block maps (`src/fs.rs`): walking every block an inode owns, checking the checksums of
  its extent nodes, resolving one logical block, and reading a file.

  A walk calls a visitor on each block it comes to; here it returns the blocks it came to,
  in that order, with how it ended, so that a caller's visitor is a fold over the list.
  What a walk visited before it failed is part of its answer.
-/
import MkfsExt4.Fs.Filesystem
import MkfsExt4.Structs.Dirent
import MkfsExt4.Structs.Extent

namespace MkfsExt4

open Lib.Store

/-- What a block in a file's block map is for. -/
inductive BlockKind where
  /-- A block of the file's contents. -/
  | data
  /-- A block of the map itself: an extent tree node or an indirect block. -/
  | metadata
deriving DecidableEq, Repr

/-- One block belonging to an inode. -/
structure BlockRef where
  /-- Logical block within the file, for data blocks. -/
  logical : Option Nat
  /-- Physical block on the device. -/
  physical : Nat
  kind : BlockKind
deriving DecidableEq, Repr

/-- The blocks a walk visits, and how it ends. -/
abbrev Walk (α : Type) := List BlockRef × Except Failure α

namespace Walk

variable {α β : Type}

def done (a : α) : Walk α := ([], .ok a)

def visit (refs : List BlockRef) : Walk Unit := (refs, .ok ())

def reading (x : Except Failure α) : Walk α := ([], x)

/-- One walk after another: the second runs only if the first ended well. -/
def andThen (w : Walk α) (f : α → Walk β) : Walk β :=
  match w.2 with
  | .ok a => (w.1 ++ (f a).1, (f a).2)
  | .error e => (w.1, .error e)

end Walk

def corruptExtent {α : Type} (what detail : String) : Except Failure α :=
  .error (.error (.corrupt what detail))

/-- The guard of the walks over an extent tree. -/
def walkGuard : Nat := 1000000

namespace Filesystem

variable (fs : Filesystem)

/-! ## Extent trees -/

/-- The data blocks of a leaf extent. -/
def extentRefs (ext : Extent) : List BlockRef :=
  (List.range ext.effectiveLen).map fun k =>
    { logical := some (ext.block + k), physical := ext.start + k, kind := .data }

def mapRef (block : Nat) : BlockRef := { logical := none, physical := block, kind := .metadata }

/-- The header of a node of `space` bytes, if it claims no more entries than fit. -/
def nodeHeader (node : List UInt8) (space : Nat) : Except Failure ExtentHeader := do
  let header ← returned (ExtentHeader.decode node)
  let entries := header.entries
  let max := ExtentHeader.maxEntries space false
  if max < entries then corruptExtent "extent header" s!"{entries} entries claimed, only {max} fit"
  else return header

/-- The entries `is` of a node: extents are visited, the nodes under indices are visited and
    read. The nodes read come back in order. -/
def walkEntries (header : ExtentHeader) (node : List UInt8) : List Nat → Walk (List (List UInt8))
  | [] => .done []
  | i :: is =>
    if header.depth = 0 then
      (Walk.visit (extentRefs (Extent.decode (Extent.entry node i)))).andThen fun _ =>
        walkEntries header node is
    else
      let idx := ExtentIdx.decode (Extent.entry node i)
      (Walk.visit [mapRef idx.leaf]).andThen fun _ =>
        (Walk.reading (fs.readBlock idx.leaf)).andThen fun child =>
          (walkEntries header node is).andThen fun children => .done (child :: children)

/-- The walk's loop over its stack of nodes and their space, the top first. -/
def walkNodes : (guard : Nat) → List (List UInt8 × Nat) → Walk Unit
  | _, [] => .done ()
  | 0, _ :: _ =>
    .reading (corruptExtent "extent tree" "walk did not terminate; the tree is probably cyclic")
  | guard + 1, (node, space) :: stack =>
    (Walk.reading (nodeHeader node space)).andThen fun header =>
      (fs.walkEntries header node (List.range header.entries)).andThen fun children =>
        walkNodes guard (children.reverse.map (·, fs.blockSize) ++ stack)

def walkExtents (inode : Inode) : Walk Unit :=
  fs.walkNodes walkGuard [(inode.block, Extent.inlineLen)]

/-! ## Indirect blocks -/

/-- Pointers per indirect block. -/
def perBlock : Nat := fs.blockSize / 4

/-- The logical blocks of an indirect map are numbers of 64 bits: blocks below 16 MiB. -/
def SpansFit (perBlock : Nat) : Prop :=
  ndirBlocks + perBlock + perBlock ^ 2 + perBlock ^ 3 < 2 ^ 64

instance (perBlock : Nat) : Decidable (SpansFit perBlock) := inferInstanceAs (Decidable (_ < _))

/-- The pointers of an indirect block that are not holes, with their index. -/
def pointersOf (perBlock : Nat) (buf : List UInt8) : List (Nat × Nat) :=
  ((List.range perBlock).map fun i => (i, getU32 buf (i * 4))).filter fun p => p.2 ≠ 0

/-- Expand the indirect block `block`, `depth` levels above the data: its own pointers, then
    the blocks under it, the last first, as they come off the source's stack. -/
def walkIndirectLevel : (depth block base : Nat) → Walk Unit
  | 0, _, _ => .done ()
  | depth + 1, block, base =>
    (Walk.reading (fs.readBlock block)).andThen fun buf =>
      let span := fs.perBlock ^ depth
      let entries := pointersOf fs.perBlock buf
      -- The entries' logical blocks, and the one after them, are taken in 64 bits.
      (Walk.reading (panicIf (2 ^ 64 ≤ base + fs.perBlock * span))).andThen fun _ =>
      if depth = 0 then
        Walk.visit (entries.map fun p =>
          { logical := some (base + p.1 * span), physical := p.2, kind := .data })
      else
        (Walk.visit (entries.map fun p => mapRef p.2)).andThen fun _ =>
          (entries.reverse.map fun p => walkIndirectLevel depth p.2 (base + p.1 * span)).foldl
            (fun w next => w.andThen fun _ => next) (.done ())

/-- The tree under pointer `slot` of `i_block`, which covers the logical blocks from `base`. -/
def walkIndirectSlot (pointers : List Nat) (slot depth base : Nat) : Walk Unit :=
  let root := pointers.getD slot 0
  if root = 0 then .reading (panicIf (2 ^ 64 ≤ base + fs.perBlock ^ depth))
  else (Walk.visit [mapRef root]).andThen fun _ => fs.walkIndirectLevel depth root base

def walkIndirect (inode : Inode) : Walk Unit :=
  let pointers := inode.blockPointers
  let direct := ((List.range ndirBlocks).map fun i => (i, pointers.getD i 0)).filter
    fun p => p.2 ≠ 0
  let n := fs.perBlock
  (Walk.visit (direct.map fun p => { logical := some p.1, physical := p.2, kind := .data })).andThen
    fun _ => (fs.walkIndirectSlot pointers ndirBlocks 1 ndirBlocks).andThen
    fun _ => (fs.walkIndirectSlot pointers (ndirBlocks + 1) 2 (ndirBlocks + n)).andThen
    fun _ => fs.walkIndirectSlot pointers (ndirBlocks + 2) 3 (ndirBlocks + n + n ^ 2)

/-- Walk every block an inode owns, contents and map structure alike. -/
def walkBlocks (inode : Inode) : Walk Unit :=
  if inode.inlineData ∨ !inode.hasBlockMap then .done ()
  else if inode.usesExtents then fs.walkExtents inode
  else fs.walkIndirect inode

/-! ## The checksums of extent nodes -/

/-- Whether the tail of the node in a block of its own does not match its contents. -/
def badTail (inode : Inode) (inum : Nat) (header : ExtentHeader) (node : List UInt8) : Bool :=
  let tail := Extent.tailOffset header.max
  if node.length < tail + Extent.tailLen then true
  else getU32 node tail ≠ Csum.extentBlockCsum fs.csumSeed inum inode.generation (node.take tail)

/-- The loop over the stack of nodes, each with the block it came from. -/
def badNodes (inode : Inode) (inum : Nat) : (guard : Nat) → List (List UInt8 × Option Nat) →
    List Nat → Except Failure (List Nat)
  | _, [], bad => .ok bad
  | 0, _ :: _, _ =>
    corruptExtent "extent tree" "walk did not terminate; the tree is probably cyclic"
  | guard + 1, (node, origin) :: stack, bad => do
    let header ← returned (ExtentHeader.decode node)
    let bad := match origin with
      | some block => if fs.badTail inode inum header node then bad ++ [block] else bad
      | none => bad
    if header.depth = 0 then badNodes inode inum guard stack bad
    else
      let _ ← nodeHeader node (if origin.isNone then Extent.inlineLen else fs.blockSize)
      let children ← (List.range header.entries).mapM fun i => do
        let idx := ExtentIdx.decode (Extent.entry node i)
        return (← fs.readBlock idx.leaf, some idx.leaf)
      badNodes inode inum guard (children.reverse ++ stack) bad

/-- Every extent-tree node this inode keeps in a block of its own whose checksum does not
    match its contents. -/
def badExtentChecksums (inode : Inode) (inum : Nat) : Except Failure (List Nat) :=
  if !fs.hasMetadataCsum ∨ !inode.usesExtents ∨ !inode.hasBlockMap ∨ inode.inlineData then .ok []
  else fs.badNodes inode inum walkGuard [(inode.block, none)] []

/-! ## One logical block -/

/-- Walk down from `block`, one index per level. -/
def resolveIndirect (remaining : Nat) : (level block : Nat) → Except Failure (Option Nat)
  | 0, block => .ok (some block)
  | level + 1, block => do
    let index := remaining / fs.perBlock ^ level % fs.perBlock
    let buf ← fs.readBlock block
    let next := getU32 buf (index * 4)
    if next = 0 then return none else resolveIndirect remaining level next

/-- The tree of `depth` levels that `remaining` falls in. What it spans is a power taken in 64
    bits. -/
def resolveSlots (pointers : List Nat) : List (Nat × Nat) → Nat → Except Failure (Option Nat)
  | [], _ => .ok none
  | (slot, depth) :: rest, remaining => do
    let span := fs.perBlock ^ depth
    panicIf (2 ^ 64 ≤ span)
    if remaining < span then
      let root := pointers.getD slot 0
      if root = 0 then .ok none else fs.resolveIndirect remaining depth root
    else resolveSlots pointers rest (remaining - span)

/-- An entry of a node, an index past the node's end being a panic. -/
def nodeEntry (node : List UInt8) (i : Nat) : Except Failure (List UInt8) := do
  panicIf (node.length < Extent.headerLen + i * Extent.entryLen + Extent.entryLen)
  return Extent.entry node i

/-- The extents of a leaf from entry `i` on, `count` of them. -/
def findExtent (node : List UInt8) (logical : Nat) : (count i : Nat) →
    Except Failure (Option Nat)
  | 0, _ => .ok none
  | count + 1, i => do
    let ext := Extent.decode (← nodeEntry node i)
    if ext.block ≤ logical ∧ logical < ext.block + ext.effectiveLen then
      return some (ext.start + (logical - ext.block))
    else findExtent node logical count (i + 1)

/-- The last index, from entry `i` on, whose first block is at or below the one wanted. -/
def findIndex (node : List UInt8) (logical : Nat) : (count i : Nat) → Option Nat →
    Except Failure (Option Nat)
  | 0, _, next => .ok next
  | count + 1, i, next => do
    let idx := ExtentIdx.decode (← nodeEntry node i)
    if idx.block ≤ logical then findIndex node logical count (i + 1) (some idx.leaf)
    else return next

/-- The descent of `resolve_extent` from `node`. A descent that reads more blocks than the
    filesystem has comes to one of them twice, and so never ends. -/
def resolveNode (logical : Nat) : (fuel : Nat) → List UInt8 → Except Failure (Option Nat)
  | 0, _ => .error .looping
  | fuel + 1, node => do
    let header ← returned (ExtentHeader.decode node)
    if header.depth = 0 then findExtent node logical header.entries 0
    else
      match ← findIndex node logical header.entries 0 none with
      | none => return none
      | some child => resolveNode logical fuel (← fs.readBlock child)

def resolveExtent (inode : Inode) (logical : Nat) : Except Failure (Option Nat) :=
  fs.resolveNode logical (fs.superblock.blocksCount + 2) inode.block

/-- Resolve a file's logical block to its physical block, if mapped. -/
def resolveBlock (inode : Inode) (logical : Nat) : Except Failure (Option Nat) :=
  if !inode.hasBlockMap then .ok none
  else if inode.usesExtents then fs.resolveExtent inode logical
  else
    let pointers := inode.blockPointers
    if logical < ndirBlocks then
      let p := pointers.getD logical 0
      .ok (if p = 0 then none else some p)
    else
      fs.resolveSlots pointers [(ndirBlocks, 1), (ndirBlocks + 1, 2), (ndirBlocks + 2, 3)]
        (logical - ndirBlocks)

/-- Read a whole file. A hole reads as zeroes. -/
def readFile (inode : Inode) : Except Failure (List UInt8) := do
  panicIf (fs.blockSize = 0)
  let blocks := (inode.size + fs.blockSize - 1) / fs.blockSize
  let parts ← (List.range blocks).mapM fun logical => do
    match ← fs.resolveBlock inode logical with
    | none => return List.replicate fs.blockSize 0
    | some physical => fs.readBlock physical
  return parts.flatten.take inode.size

/-- Read a directory's entries, block by block. A hole has none. -/
def readDir (inode : Inode) : Except Failure (List DirEntry) := do
  if !inode.isDir then throw (.error (.corrupt "inode" "not a directory"))
  panicIf (fs.blockSize = 0)
  let blocks := (inode.size + fs.blockSize - 1) / fs.blockSize
  let parts ← (List.range blocks).mapM fun logical => do
    match ← fs.resolveBlock inode logical with
    | none => return []
    | some physical =>
      let buf ← fs.readBlock physical
      let entries ← returned (Dirent.parseBlock buf)
      return entries.filter DirEntry.isName
  return parts.flatten

end Filesystem

end MkfsExt4
