/-
  Extended attributes (`src/structs/xattr.rs`): their names, the area they are laid out in, and
  the two places such an area lives, the spare end of an inode and a block of its own.

  A name is its characters. An area has its entries at the front and its values at the back; the
  writers give up before the two meet, so nothing here is written past the end of a buffer.
-/
import Mathlib.Data.List.Lex
import Mathlib.Data.List.Nodup
import Mathlib.Data.Prod.Lex
import MkfsExt4.Bytes
import MkfsExt4.Error
import MkfsExt4.Lib.Hoare
import MkfsExt4.Lib.Utf8

namespace MkfsExt4

open Lib.Store Lib.Endian Lib.Hoare Lib.Utf8

/-- One extended attribute. -/
structure Xattr where
  /-- The full name, such as `security.selinux`. -/
  name : List Char
  value : List UInt8
deriving DecidableEq, Repr

namespace Xattr

/-- `EXT2_EXT_ATTR_MAGIC` -/
def xattrMagic : Nat := 0xEA020000

/-- Size of one entry header, before the name. -/
def entryLen : Nat := 16

namespace Off

def eNameLen : Nat := 0x0
def eNameIndex : Nat := 0x1
def eValueOffs : Nat := 0x2
def eValueInum : Nat := 0x4
def eValueSize : Nat := 0x8
def eHash : Nat := 0xc

end Off

/-- Entries and values are padded to four bytes. -/
def roundUp (n : Nat) : Nat := (n + 3) / 4 * 4

/-! ## Names -/

/-- The name prefixes ext4 stores as a single byte instead of as text, the more specific first. -/
def prefixes : List (Nat × List Char) :=
  [(10, "gnu.".toList), (3, "system.posix_acl_default".toList),
    (2, "system.posix_acl_access".toList), (8, "system.richacl".toList),
    (6, "security.".toList), (4, "trusted.".toList), (7, "system.".toList), (1, "user.".toList)]

/-- The ACL names are whole names, not prefixes: nothing follows. -/
def isWhole (index : Nat) : Bool := index = 2 || index = 3 || index = 8

def splitFrom : List (Nat × List Char) → List Char → Nat × List Char
  | [], name => (0, name)
  | (index, pre) :: more, name =>
    match name.dropPrefix? pre with
    | none => splitFrom more name
    | some rest => if isWhole index && !rest.isEmpty then splitFrom more name else (index, rest)

/-- Split a full attribute name into its prefix index and remainder. -/
def splitName (name : List Char) : Nat × List Char := splitFrom prefixes name

/-- Rebuild a full name from its prefix index and remainder. -/
def joinName (index : Nat) (rest : List Char) : List Char :=
  match prefixes.find? fun p => p.1 = index with
  | some (_, pre) => pre ++ rest
  | none => rest

/-- The prefix index an attribute is stored under. -/
def index (a : Xattr) : Nat := (splitName a.name).1

/-- The part of its name that is stored as text. -/
def rest (a : Xattr) : List UInt8 := utf8 (splitName a.name).2

/-- Bytes of its entry: the header and the padded name. -/
def entrySize (a : Xattr) : Nat := roundUp (entryLen + a.rest.length)

/-- Bytes of its padded value. -/
def valueSize (a : Xattr) : Nat := roundUp a.value.length

/-- Bytes an attribute occupies: its entry, padded name, and padded value. -/
def storedLen (a : Xattr) : Nat := a.entrySize + a.valueSize

/-- What attributes are sorted by: prefix index, then length of the remainder, then the
    remainder itself. -/
def key (a : Xattr) : Nat ×ₗ Nat ×ₗ List Nat :=
  toLex (a.index, toLex (a.rest.length, a.rest.map UInt8.toNat))

def sorted (attrs : List Xattr) : List Xattr := attrs.mergeSort fun a b => a.key ≤ b.key

/-! ## Reading an area -/

/-- The value of an entry. `valueBase` is what its offset is measured from, relative to the start
    of the area. -/
def parseValue (area : List UInt8) (valueBase valueOffs valueSize : Nat) :
    Except Error (List UInt8) :=
  if valueSize = 0 then .ok []
  else if valueOffs < valueBase then .error (.corrupt "xattr entry" "value offset before the area")
  else if area.length < valueOffs - valueBase + valueSize then
    .error (.corrupt "xattr entry" "value runs past the area")
  else .ok (slice area (valueOffs - valueBase) valueSize)

/-- The walk over the entries from `pos` on. Every entry takes at least its header, so the length
    of the area is fuel enough. -/
def parseFrom (area : List UInt8) (valueBase : Nat) : (fuel : Nat) → (pos : Nat) →
    Except Error (List Xattr)
  | 0, _ => .ok []
  | fuel + 1, pos =>
    let nameLen := getU8 area (pos + Off.eNameLen)
    let nameIndex := getU8 area (pos + Off.eNameIndex)
    let valueOffs := getU16 area (pos + Off.eValueOffs)
    let valueSize := getU32 area (pos + Off.eValueSize)
    if area.length < pos + 4 then .ok []
    -- A zero word terminates the list.
    else if getU32 area pos = 0 then .ok []
    else if area.length < pos + entryLen then
      .error (.corrupt "xattr entry" "truncated entry header")
    else if getU32 area (pos + Off.eValueInum) ≠ 0 then
      .error (.unsupportedFeature "an attribute whose value lives in its own inode (ea_inode)")
    else if area.length < pos + entryLen + nameLen then
      .error (.corrupt "xattr entry" "name runs past the area")
    else do
      let name := joinName nameIndex (fromUtf8Lossy (slice area (pos + entryLen) nameLen))
      let value ← parseValue area valueBase valueOffs valueSize
      let rest ← parseFrom area valueBase fuel (pos + roundUp (entryLen + nameLen))
      return { name, value } :: rest

def parseEntries (area : List UInt8) (valueBase : Nat) : Except Error (List Xattr) :=
  parseFrom area valueBase area.length 0

/-! ## Writing an area -/

/-- One attribute: its entry at `entryAt`, its value at `valueAt`. Offsets are measured with
    `valueBase` added; numbers are cut to their fields. -/
def putAttr (valueBase : Nat) (hash : List UInt8 → List UInt8 → UInt32) (a : Xattr)
    (area : List UInt8) (entryAt valueAt : Nat) : List UInt8 :=
  let area := putU8 area (entryAt + Off.eNameLen) a.rest.length
  let area := putU8 area (entryAt + Off.eNameIndex) a.index
  let area := putU16 area (entryAt + Off.eValueOffs) (if a.value = [] then 0 else valueAt + valueBase)
  let area := putU32 area (entryAt + Off.eValueInum) 0
  let area := putU32 area (entryAt + Off.eValueSize) a.value.length
  let area := putU32 area (entryAt + Off.eHash) (hash a.rest a.value).toNat
  let area := splice area (entryAt + entryLen) a.rest
  if a.value = [] then area else splice area valueAt a.value

/-- Entries grow from the start of the area and values from the end. -/
def putAttrs (valueBase : Nat) (hash : List UInt8 → List UInt8 → UInt32) : List Xattr →
    (area : List UInt8) → (entryAt valueEnd : Nat) → List UInt8
  | [], area, _, _ => area
  | a :: attrs, area, entryAt, valueEnd =>
    let valueAt := valueEnd - a.valueSize
    putAttrs valueBase hash attrs (putAttr valueBase hash a area entryAt valueAt)
      (entryAt + a.entrySize) valueAt

/-- Bytes a list of attributes occupies, without the terminating zero word. -/
def needed (attrs : List Xattr) : Nat := (attrs.map storedLen).sum

/-! ## In an inode -/

/-- Where an inode's attribute area starts, and how long it is; `none` when the inode is too
    small to carry any. Four bytes of magic stand before it. -/
def inodeArea (inodeSize extraIsize : Nat) : Option (Nat × Nat) :=
  let base := 128 + extraIsize
  if inodeSize ≤ base + 4 then none else some (base + 4, inodeSize - base - 4)

/-- Read the attributes stored inside an inode. One with no attribute magic simply has none. -/
def readInodeXattrs (raw : List UInt8) (inodeSize extraIsize : Nat) : Except Error (List Xattr) :=
  match inodeArea inodeSize extraIsize with
  | none => .ok []
  | some (start, len) =>
    if raw.length < start + len then .ok []
    else if getU32 raw (128 + extraIsize) ≠ xattrMagic then .ok []
    else parseEntries (slice raw start len) 0

/-- Write attributes into an inode's spare space: a command over its bytes. The hash is only
    meaningful for attributes in a block. -/
def writeInodeXattrs (inodeSize extraIsize : Nat) (attrs : List Xattr) :
    Cmd Failure (List UInt8) Unit :=
  match inodeArea inodeSize extraIsize with
  | none =>
    if attrs = [] then return ()
    else throw (.error (.invalidParams
      "this inode has no room for extended attributes; a larger inode size is needed"))
  | some (start, len) => do
    let base := 128 + extraIsize
    let raw ← get
    if raw.length < inodeSize then throw .panicked
    -- The whole area is cleared, magic included, so removing the last attribute really removes it.
    set (splice raw base (List.replicate (inodeSize - base) 0))
    if attrs = [] then return ()
    let total := needed attrs + 4
    if len < total then
      throw (.error (.invalidParams
        (s!"{total} bytes of extended attributes do not fit in the {len} bytes an inode of " ++
          s!"{inodeSize} bytes has spare; a larger inode size or an attribute block is needed")))
    modify fun raw => putU32 raw base xattrMagic
    modify fun raw =>
      splice raw start (putAttrs 0 (fun _ _ => 0) (sorted attrs) (slice raw start len) 0 len)

/-! ## In a block -/

/-- The word at chunk `i` of a value padded out with zeroes. -/
def hashWord (value : List UInt8) (i : Nat) : UInt32 :=
  UInt32.ofNat (ofLe ((List.range 4).map fun k => value.getD (i * 4 + k) 0))

/-- The hash an attribute stored in a block carries. -/
def hashEntry (name value : List UInt8) : UInt32 :=
  let hash := name.foldl (fun (h : UInt32) b => (h <<< 5) ^^^ (h >>> 27) ^^^ b.toUInt32) 0
  (List.range (roundUp value.length / 4)).foldl
    (fun h i => (h <<< 16) ^^^ (h >>> 16) ^^^ hashWord value i) hash

def blockHeaderLen : Nat := 32

namespace BlockOff

def hMagic : Nat := 0x00
def hRefcount : Nat := 0x04
def hBlocks : Nat := 0x08
end BlockOff

/-- Read the attributes stored in a dedicated block. Offsets of values are measured from the start
    of the block there. -/
def readBlockXattrs (block : List UInt8) : Except Error (List Xattr) :=
  let magic := getU32 block BlockOff.hMagic
  if block.length < blockHeaderLen then .error (.corrupt "xattr block" "shorter than its header")
  else if magic ≠ xattrMagic then
    .error (.corrupt "xattr block" ("magic " ++ hex 8 magic ++ ", expected " ++ hex 8 xattrMagic))
  else parseEntries (block.drop blockHeaderLen) blockHeaderLen

/-- The header of an attribute block, the rest of it zero. -/
def blockHeader (blockSize : Nat) : List UInt8 :=
  let block := putU32 (List.replicate blockSize 0) BlockOff.hMagic xattrMagic
  let block := putU32 block BlockOff.hRefcount 1
  putU32 block BlockOff.hBlocks 1

/-- Build an attribute block. Its checksum covers its own number and is stamped later. -/
def writeBlockXattrs (blockSize : Nat) (attrs : List Xattr) : Except Failure (List UInt8) := do
  panicIf (blockSize < blockHeaderLen)
  let len := blockSize - blockHeaderLen
  let total := needed attrs + 4
  if len < total then
    throw (.error (.invalidParams
      s!"{total} bytes of extended attributes do not fit in a {blockSize}-byte block"))
  let block := blockHeader blockSize
  return splice block blockHeaderLen
    (putAttrs blockHeaderLen hashEntry (sorted attrs) (block.drop blockHeaderLen) 0 len)

/-! ## What a name is split into -/

theorem splitFrom_join {table : List (Nat × List Char)} {name : List Char}
    (htable : ∀ p ∈ table, ∀ rest, joinName p.1 rest = p.2 ++ rest) :
    joinName (splitFrom table name).1 (splitFrom table name).2 = name := by
  induction table with
  | nil => rfl
  | cons p table ih =>
    obtain ⟨index, pre⟩ := p
    have ih := ih fun q hq => htable q (List.mem_cons_of_mem _ hq)
    simp only [splitFrom]
    split
    · exact ih
    · next rest hdrop =>
      split
      · exact ih
      · obtain ⟨pre', hname, hpre⟩ := List.dropPrefix?_eq_some_iff.mp hdrop
        rw [htable _ List.mem_cons_self, hname, eq_of_beq hpre]

theorem joinName_of_mem : ∀ p ∈ prefixes, ∀ rest, joinName p.1 rest = p.2 ++ rest := by
  simp only [prefixes, List.forall_mem_cons]
  exact ⟨fun _ => rfl, fun _ => rfl, fun _ => rfl, fun _ => rfl, fun _ => rfl, fun _ => rfl,
    fun _ => rfl, fun _ => rfl, nofun⟩

/-- A split name joins to the name. -/
theorem joinName_splitName (name : List Char) :
    joinName (splitName name).1 (splitName name).2 = name := splitFrom_join joinName_of_mem

theorem joinName_cancel {index : Nat} {rest rest' : List Char}
    (h : joinName index rest = joinName index rest') : rest = rest' := by
  unfold joinName at h
  split at h
  · exact List.append_cancel_left h
  · exact h

theorem splitFrom_index_le (table : List (Nat × List Char)) (name : List Char) {n : Nat}
    (h : ∀ p ∈ table, p.1 ≤ n) : (splitFrom table name).1 ≤ n := by
  induction table with
  | nil => exact Nat.zero_le n
  | cons p table ih =>
    obtain ⟨index, pre⟩ := p
    have ih := ih fun q hq => h q (List.mem_cons_of_mem _ hq)
    simp only [splitFrom]
    split
    · exact ih
    · split
      · exact ih
      · exact h (index, pre) List.mem_cons_self

theorem index_le (a : Xattr) : a.index ≤ 10 := splitFrom_index_le prefixes a.name (by decide)

/-- A name without a prefix is its remainder. -/
theorem rest_ne_nil {a : Xattr} (hname : a.name ≠ []) (hindex : a.index = 0) : a.rest ≠ [] := by
  intro hrest
  have hsplit := joinName_splitName a.name
  rw [show (splitName a.name).1 = 0 from hindex, utf8_eq_nil_iff.mp hrest] at hsplit
  exact hname hsplit.symm

/-- Attributes with one key have one name. -/
theorem name_eq_of_key {a b : Xattr} (h : a.key = b.key) : a.name = b.name := by
  obtain ⟨hindex, h⟩ := Prod.mk.inj h
  obtain ⟨-, hbytes⟩ := Prod.mk.inj h
  have hrest : a.rest = b.rest := (List.map_injective_iff.mpr fun _ _ => UInt8.toNat_inj.mp) hbytes
  rw [← joinName_splitName a.name, ← joinName_splitName b.name, utf8_injective hrest,
    show (splitName a.name).1 = (splitName b.name).1 from hindex]

/-! ## The order attributes are stored in -/

theorem sorted_perm (attrs : List Xattr) : (sorted attrs).Perm attrs := List.mergeSort_perm _ _

theorem sorted_pairwise (attrs : List Xattr) :
    (sorted attrs).Pairwise fun a b => a.key ≤ b.key := by
  have h := @List.pairwise_mergeSort Xattr (fun a b => decide (a.key ≤ b.key))
    (fun a b c hab hbc => decide_eq_true (le_trans (of_decide_eq_true hab) (of_decide_eq_true hbc)))
    (fun a b => by simpa using le_total a.key b.key) attrs
  exact h.imp of_decide_eq_true

/-- No two attributes of a list have one name. -/
def Distinct (attrs : List Xattr) : Prop := (attrs.map name).Nodup

instance (attrs : List Xattr) : Decidable (Distinct attrs) :=
  inferInstanceAs (Decidable (attrs.map name).Nodup)

theorem Distinct.eq_of_name {attrs : List Xattr} (h : Distinct attrs) {a b : Xattr} (ha : a ∈ attrs)
    (hb : b ∈ attrs) (hname : a.name = b.name) : a = b :=
  List.inj_on_of_nodup_map h ha hb hname

/-- The order decides the list: two sortings of one set of names are the same. -/
theorem eq_of_sorted {attrs xs ys : List Xattr} (h : Distinct attrs) (hx : xs.Perm attrs)
    (hy : ys.Perm attrs) (hxs : xs.Pairwise fun a b => a.key ≤ b.key)
    (hys : ys.Pairwise fun a b => a.key ≤ b.key) : xs = ys := by
  refine List.Perm.eq_of_pairwise (fun a b ha hb hab hba => ?_) hxs hys (hx.trans hy.symm)
  exact h.eq_of_name (hx.mem_iff.mp ha) (hy.mem_iff.mp hb)
    (name_eq_of_key (le_antisymm hab hba))

theorem sorted_eq_of_perm {attrs attrs' : List Xattr} (h : Distinct attrs)
    (hperm : attrs.Perm attrs') : sorted attrs = sorted attrs' :=
  eq_of_sorted h (sorted_perm attrs) ((sorted_perm attrs').trans hperm.symm)
    (sorted_pairwise attrs) (sorted_pairwise attrs')

end Xattr

end MkfsExt4
