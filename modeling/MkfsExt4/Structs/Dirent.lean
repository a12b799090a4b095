/-
  Directory blocks: the entries of a block and how one is built (`src/structs/dirent.rs`), its
  checksum tail, and the checksum of an htree node (`src/structs/htree.rs`).
-/
import MkfsExt4.Bytes
import MkfsExt4.Csum
import MkfsExt4.Error
import MkfsExt4.Lib.Utf8

namespace MkfsExt4

open Lib.Store Lib.Endian

namespace Dirent

def entryHeaderLen : Nat := 8

/-- Length of the fake entry that holds a block's checksum. -/
def tailLen : Nat := 12

/-- The impossible name length that marks the tail. -/
def nameLenCsum : Nat := 0xDE00

def nameLenMax : Nat := 255

/-- The space an entry with a name of this length occupies. -/
def recLen (nameLen : Nat) : Nat := (nameLen + entryHeaderLen + 3) / 4 * 4

end Dirent

/-! File types stored in an entry when the `filetype` feature is on. -/

namespace FileType

def unknown : Nat := 0
def regFile : Nat := 1
def dir : Nat := 2
def chrdev : Nat := 3
def blkdev : Nat := 4
def fifo : Nat := 5
def sock : Nat := 6
def symlink : Nat := 7

end FileType

/-- One directory entry. -/
structure DirEntry where
  /-- Zero marks the entry unused. -/
  inode : Nat
  recLen : Nat
  fileType : Nat
  name : List UInt8
deriving DecidableEq, Repr

namespace DirEntry

/-- Decode the entry at the start of `buf`. -/
def decode (buf : List UInt8) : Except Error DirEntry :=
  let len := buf.length
  let recLen := getU16 buf 4
  let nameLen := getU8 buf 6
  if len < Dirent.entryHeaderLen then .error (.corrupt "dir entry" "truncated header")
  else if recLen < Dirent.entryHeaderLen ∨ len < recLen then
    .error (.corrupt "dir entry" s!"rec_len {recLen} does not fit in {len} bytes")
  else if recLen < Dirent.entryHeaderLen + nameLen then
    .error (.corrupt "dir entry" s!"name of {nameLen} bytes overflows rec_len {recLen}")
  else
    .ok { inode := getU32 buf 0, recLen, fileType := getU8 buf 7,
          name := slice buf Dirent.entryHeaderLen nameLen }

/-- A new entry occupying exactly the space its name needs. -/
def new (inode : Nat) (name : List UInt8) (fileType : Nat) : Except Error DirEntry :=
  let len := name.length
  if Dirent.nameLenMax < len then
    .error (.invalidParams
      s!"directory name is {len} bytes; the maximum is {Dirent.nameLenMax}")
  else .ok { inode, recLen := Dirent.recLen len, fileType, name }

/-- The name as a string, for display. -/
def nameString (e : DirEntry) : String := String.ofList (Lib.Utf8.fromUtf8Lossy e.name)

/-- Whether this is the fake entry carrying the block's checksum. -/
def isTail (e : DirEntry) : Bool := e.inode == 0 && e.recLen == Dirent.tailLen && e.name.isEmpty

/-- Whether an entry names something: neither a hole nor the tail. -/
def isName (e : DirEntry) : Bool := e.inode != 0 && !e.isTail && !e.name.isEmpty

end DirEntry

namespace Dirent

/-- The loop of `parse_block`, from `buf` on. Every entry takes at least its header, so the
length of the block is fuel enough. -/
def parseFrom : (fuel : Nat) → List UInt8 → Except Error (List DirEntry)
  | 0, _ => .ok []
  | fuel + 1, buf =>
    if buf.length < entryHeaderLen then .ok []
    else do
      let entry ← DirEntry.decode buf
      let rest ← parseFrom fuel (buf.drop entry.recLen)
      return entry :: rest

/-- The entries of a directory block, holes included. -/
def parseBlock (block : List UInt8) : Except Error (List DirEntry) :=
  parseFrom block.length block

/-- Whether the `rec_len` chain from `off` lands exactly on `at`. -/
def chainEndsAt (block : List UInt8) (stop : Nat) : (fuel : Nat) → (off : Nat) → Bool
  | 0, off => off == stop
  | fuel + 1, off =>
    if off < stop then
      let recLen := getU16 block (off + 4)
      if recLen < 8 ∨ recLen % 4 ≠ 0 then false else chainEndsAt block stop fuel (off + recLen)
    else off == stop

/-! ## Building -/

/-- An entry at `off` of a block, its padding zero. -/
def putEntry (block : List UInt8) (off : Nat) (e : DirEntry) : List UInt8 :=
  let block := putU32 block off e.inode
  let block := putU16 block (off + 4) e.recLen
  let block := putU8 block (off + 6) e.name.length
  let block := putU8 block (off + 7) e.fileType
  let used := entryHeaderLen + e.name.length
  splice block (off + entryHeaderLen) (e.name ++ List.replicate (e.recLen - used) 0)

/-- The header of the fake tail entry at `off`, its checksum zero. -/
def writeTailHeader (block : List UInt8) (off : Nat) : List UInt8 :=
  let block := putU32 block off 0
  let block := putU16 block (off + 4) tailLen
  let block := putU16 block (off + 6) nameLenCsum
  putU32 block (off + 8) 0

/-- Stamp the checksum into a directory block's tail. -/
def setBlockCsum (block : List UInt8) (csum : Nat) : List UInt8 :=
  putU32 block (block.length - tailLen + 8) csum

/-- The entries one after another from `off` on; the last owns the rest of the block. -/
def putEntries (limit : Nat) : (entries : List DirEntry) → (block : List UInt8) → (off : Nat) →
    List UInt8
  | [], block, _ => block
  | [e], block, off => putEntry block off { e with recLen := (limit - off) % 2 ^ 16 }
  | e :: entries, block, off =>
    let recLen := recLen e.name.length
    putEntries limit entries (putEntry block off { e with recLen }) (off + recLen)

/-- A directory block that holds `entries`, with room for the checksum tail if it has one. -/
def buildBlock (entries : List DirEntry) (blockSize : Nat) (withTail : Bool) :
    Except Error (List UInt8) :=
  let limit := blockSize - if withTail then tailLen else 0
  let needed := (entries.map fun e => recLen e.name.length).sum
  if limit < needed then
    .error (.invalidParams s!"directory entries need {needed} bytes; the block has {limit}")
  else
    let block := putEntries limit entries (List.replicate blockSize 0) 0
    .ok (if withTail then writeTailHeader block limit else block)

@[simp] theorem length_putEntry (block : List UInt8) (off : Nat) (e : DirEntry) :
    (putEntry block off e).length = block.length := by
  simp [putEntry]

@[simp] theorem length_putEntries (limit : Nat) (entries : List DirEntry) (block : List UInt8)
    (off : Nat) : (putEntries limit entries block off).length = block.length := by
  induction entries generalizing block off with
  | nil => rfl
  | cons e entries ih =>
    cases entries with
    | nil => exact length_putEntry block off _
    | cons e' entries =>
      rw [putEntries, ih, length_putEntry]
      exact fun h => nomatch h

@[simp] theorem length_writeTailHeader (block : List UInt8) (off : Nat) :
    (writeTailHeader block off).length = block.length := by
  simp [writeTailHeader]

@[simp] theorem length_setBlockCsum (block : List UInt8) (csum : Nat) :
    (setBlockCsum block csum).length = block.length := length_putU32 _ _ _

/-- A directory block is as long as it was asked to be. -/
theorem length_buildBlock {entries : List DirEntry} {blockSize : Nat} {withTail : Bool}
    {block : List UInt8} (h : buildBlock entries blockSize withTail = .ok block) :
    block.length = blockSize := by
  unfold buildBlock at h
  extract_lets limit needed at h
  split at h
  · cases h
  · have hlen : (putEntries limit entries (List.replicate blockSize 0) 0).length = blockSize := by
      rw [length_putEntries, List.length_replicate]
    rw [← Except.ok.inj h]
    split
    · rw [length_writeTailHeader, hlen]
    · exact hlen

/-- The checksum of a directory block's tail, if it has one. -/
def blockCsum (block : List UInt8) : Option Nat :=
  if block.length < tailLen then none
  else
    let stop := block.length - tailLen
    if !chainEndsAt block stop block.length 0 then none
    else if getU32 block stop = 0 ∧ getU16 block (stop + 4) = tailLen ∧
        getU16 block (stop + 6) = nameLenCsum then
      some (getU32 block (stop + 8))
    else none

end Dirent

namespace Htree

def nodeCountOffset : Nat := 8
def rootInfoOffset : Nat := 24
def rootInfoLen : Nat := 8
def rootCountOffset : Nat := 32
def entryLen : Nat := 8
def tailLen : Nat := 8

/-- Where a block's count and limit sit, if it is an htree root or node. -/
def countOffset (block : List UInt8) (blockSize : Nat) : Option Nat :=
  if block.length < rootCountOffset + 4 then none
  else
    let recLen := getU16 block 4
    if recLen = blockSize ∧ getU8 block 6 = 0 then some nodeCountOffset
    else if recLen = 12 then
      if getU16 block 16 ≠ blockSize - 12 then none
      else if getU32 block rootInfoOffset ≠ 0 ∨
          getU8 block (rootInfoOffset + 5) ≠ rootInfoLen then none
      else some rootCountOffset
    else none

/-- An index node's stored and computed checksums, where it has room for a `dx_tail` and
claims no more entries than its limit. -/
def csum (block : List UInt8) (blockSize : Nat) (seed : UInt32)
    (inum generation countOffset : Nat) : Option (Nat × Nat) :=
  let limit := getU16 block countOffset
  let entries := getU16 block (countOffset + 2)
  let tailAt := countOffset + limit * entryLen
  if blockSize < tailAt + tailLen ∨ block.length < blockSize ∨ limit < entries then none
  else
    let used := countOffset + entries * entryLen
    let crc := Csum.crc32c (Csum.crc32c seed (toLe 4 inum)) (toLe 4 generation)
    let crc := Csum.crc32c crc (block.take used)
    let crc := Csum.crc32c crc (slice block tailAt 4)
    let crc := Csum.crc32c crc [0, 0, 0, 0]
    some (getU32 block (tailAt + 4), crc.toNat)

end Htree

end MkfsExt4
