/-
  Extent trees (`src/structs/extent.rs`): a header and 12-byte entries, in the 60 bytes of
  `i_block` or in a block of its own.
-/
import MkfsExt4.Bytes
import MkfsExt4.Error
import MkfsExt4.Structs.Superblock

namespace MkfsExt4

open Lib.Store

def extentMagic : Nat := 0xf30a

namespace Extent

def headerLen : Nat := 12
def entryLen : Nat := 12
def tailLen : Nat := 4

/-- The longest initialised extent. -/
def initMaxLen : Nat := 2 ^ 15

/-- The bytes of `i_block` available for an inline tree. -/
def inlineLen : Nat := 60

end Extent

/-- Header at the start of every extent node. -/
structure ExtentHeader where
  entries : Nat
  max : Nat
  /-- Zero when the entries are extents rather than indices. -/
  depth : Nat
  generation : Nat
deriving DecidableEq, Repr

namespace ExtentHeader

def decode (buf : List UInt8) : Except Error ExtentHeader :=
  let magic := getU16 buf 0
  if magic ≠ extentMagic then
    .error (.corrupt "extent header"
      ("magic " ++ hex 4 magic ++ ", expected " ++ hex 4 extentMagic))
  else
    .ok { entries := getU16 buf 2, max := getU16 buf 4, depth := getU16 buf 6,
          generation := getU32 buf 8 }

def encodeInto (h : ExtentHeader) (buf : List UInt8) : List UInt8 :=
  let buf := putU16 buf 0 extentMagic
  let buf := putU16 buf 2 h.entries
  let buf := putU16 buf 4 h.max
  let buf := putU16 buf 6 h.depth
  putU32 buf 8 h.generation

/-- How many entries fit in a node of `space` bytes. -/
def maxEntries (space : Nat) (withTail : Bool) : Nat :=
  (space - Extent.headerLen - (if withTail then Extent.tailLen else 0)) / Extent.entryLen % 2 ^ 16

end ExtentHeader

/-- Where a node's checksum tail sits: after the last entry `max` accounts for. -/
def Extent.tailOffset (max : Nat) : Nat := Extent.headerLen + max * Extent.entryLen

/-- A leaf extent: a run of contiguous physical blocks. -/
structure Extent where
  block : Nat
  /-- Above `initMaxLen` for blocks preallocated and never written. -/
  len : Nat
  start : Nat
deriving DecidableEq, Repr

namespace Extent

def decode (buf : List UInt8) : Extent where
  block := getU32 buf 0
  len := getU16 buf 4
  start := join 32 (getU32 buf 8) (getU16 buf 6)

def encode (e : Extent) : List UInt8 :=
  let buf := List.replicate entryLen 0
  let buf := putU32 buf 0 e.block
  let buf := putU16 buf 4 e.len
  let buf := putU16 buf 6 (e.start / 2 ^ 32)
  putU32 buf 8 e.start

/-- Blocks actually mapped, with the uninitialised flag removed. -/
def effectiveLen (e : Extent) : Nat := if initMaxLen < e.len then e.len - initMaxLen else e.len

def isUninit (e : Extent) : Bool := initMaxLen < e.len

end Extent

/-- An interior index entry pointing at a lower node. -/
structure ExtentIdx where
  block : Nat
  leaf : Nat
deriving DecidableEq, Repr

def ExtentIdx.decode (buf : List UInt8) : ExtentIdx where
  block := getU32 buf 0
  leaf := join 32 (getU32 buf 4) (getU16 buf 8)

def ExtentIdx.encode (idx : ExtentIdx) : List UInt8 :=
  let buf := List.replicate Extent.entryLen 0
  let buf := putU32 buf 0 idx.block
  let buf := putU32 buf 4 idx.leaf
  let buf := putU16 buf 8 (idx.leaf / 2 ^ 32)
  putU16 buf 10 0

/-- A node of `len` bytes: a header, then extents one after another. -/
def Extent.buildNode (len : Nat) (header : ExtentHeader) (extents : List Extent) : List UInt8 :=
  extents.zipIdx.foldl (fun buf (e, i) => splice buf (headerLen + i * entryLen) e.encode)
    (header.encodeInto (List.replicate len 0))

@[simp] theorem Extent.length_buildNode (len : Nat) (header : ExtentHeader)
    (extents : List Extent) : (Extent.buildNode len header extents).length = len := by
  have hfold : ∀ (entries : List (Extent × Nat)) (buf : List UInt8),
      (entries.foldl (fun buf (e, i) => splice buf (headerLen + i * entryLen) e.encode)
        buf).length = buf.length := by
    intro entries
    induction entries with
    | nil => exact fun _ => rfl
    | cons e entries ih =>
      intro buf
      rw [List.foldl_cons, ih, length_splice]
  rw [buildNode, hfold]
  simp [ExtentHeader.encodeInto]

/-- An inline tree that holds `extents`. -/
def Extent.buildInline (extents : List Extent) : Except Error (List UInt8) :=
  let max := ExtentHeader.maxEntries inlineLen false
  let count := extents.length
  if max < count then
    .error (.invalidParams s!"{count} extents do not fit inline; at most {max} do")
  else .ok (buildNode inlineLen { entries := count, max, depth := 0, generation := 0 } extents)

/-- The bytes of the `i`-th entry of a node. -/
def Extent.entry (node : List UInt8) (i : Nat) : List UInt8 :=
  slice node (headerLen + i * entryLen) entryLen

end MkfsExt4
