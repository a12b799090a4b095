/-
  What the two readers return for a file mapped by extents: `read_inode_data` of `src/read.rs`
  and `read_file` of `src/fs.rs`.

  One collects the extents of the tree and copies their ranges, the other descends the tree for
  every block. `Tree` says what a well-formed tree is and which extents it holds, `contents` what
  the file should read as. On a well-formed tree `Ext4` returns `contents` up to its five levels
  (`readInodeData_eq`, `readInodeData_deep`); `Filesystem` returns `rawContents`, which differs
  from it in the extents that were never written (`readFile_eq`). `read_file_agree_iff` puts the
  two together.
-/
import MkfsExt4.Lib.Intervals
import MkfsExt4.Read.Inodes
import Mathlib.Data.List.Perm.Subperm

namespace MkfsExt4

open Lib.Store Lib.Hoare Lib.Intervals

/-! ## Well-formed trees -/

/-- The extents of a leaf of `n` entries. -/
def extentsIn (node : List UInt8) (n : Nat) : List Extent :=
  (List.range n).map fun i => Extent.decode (Extent.entry node i)

/-- The indices of an inner node of `n` entries. -/
def indicesIn (node : List UInt8) (n : Nat) : List ExtentIdx :=
  (List.range n).map fun i => ExtentIdx.decode (Extent.entry node i)

/-- The bytes of a node whose header gives its depth and no more entries than it has room for. -/
structure IsNode (node : List UInt8) (depth : Nat) (header : ExtentHeader) : Prop where
  decode : ExtentHeader.decode node = .ok header
  depth : header.depth = depth
  room : Extent.headerLen + header.entries * Extent.entryLen ≤ node.length

namespace Filesystem

variable (fs : Filesystem)

/-- A block of the filesystem, all of it on the device. -/
structure OnDisk (block : Nat) : Prop where
  count : block < fs.superblock.blocksCount
  offset : block * fs.blockSize < 2 ^ 64
  inside : block * fs.blockSize + fs.blockSize ≤ fs.device.size

def bytesOf (block : Nat) : List UInt8 :=
  window fs.device.bytes (block * fs.blockSize) fs.blockSize

/-- `node` is the root of a well-formed tree over the logical blocks `lo..hi` whose extents are
    `exts`: in order, none empty, every block of theirs and of the tree on the device. -/
def Tree : (depth lo hi : Nat) → List UInt8 → List Extent → Prop
  | 0, lo, hi, node, exts => ∃ header, IsNode node 0 header ∧
      exts = extentsIn node header.entries ∧
      Ordered Extent.block Extent.effectiveLen lo hi exts ∧
      ∀ ext ∈ exts, ∀ k < ext.effectiveLen, fs.OnDisk (ext.start + k)
  | depth + 1, lo, hi, node, exts => ∃ header, IsNode node (depth + 1) header ∧
      0 < header.entries ∧
      Branches ExtentIdx.block
        (fun lo hi idx exts => fs.OnDisk idx.leaf ∧ Tree depth lo hi (fs.bytesOf idx.leaf) exts)
        lo hi (indicesIn node header.entries) exts

variable {fs}

theorem readBlock_onDisk {block : Nat} (h : fs.OnDisk block) :
    fs.readBlock block = .ok (fs.bytesOf block) :=
  readBlock_ok_iff.mpr ⟨h.count, h.offset, h.inside, rfl⟩

namespace Tree

theorem ordered {depth lo hi : Nat} {node : List UInt8} {exts : List Extent}
    (h : fs.Tree depth lo hi node exts) : Ordered Extent.block Extent.effectiveLen lo hi exts := by
  induction depth generalizing lo hi node exts with
  | zero =>
    obtain ⟨_, _, _, hord, _⟩ := h
    exact hord
  | succ depth ih =>
    obtain ⟨_, _, _, hbranches⟩ := h
    exact hbranches.ordered fun hchild => ih hchild.2

theorem onDisk {depth lo hi : Nat} {node : List UInt8} {exts : List Extent}
    (h : fs.Tree depth lo hi node exts) {ext : Extent} (hext : ext ∈ exts) {k : Nat}
    (hk : k < ext.effectiveLen) : fs.OnDisk (ext.start + k) := by
  induction depth generalizing lo hi node exts with
  | zero =>
    obtain ⟨_, _, _, _, hdisk⟩ := h
    exact hdisk ext hext k hk
  | succ depth ih =>
    obtain ⟨_, _, _, hbranches⟩ := h
    obtain ⟨_, _, _, _, hchild, hmem⟩ := hbranches.mem hext
    exact ih hchild.2 hmem

end Tree

/-! ## The descent of the opened filesystem -/

/-- An entry the node has room for. -/
theorem nodeEntry_ok {node : List UInt8} {i n : Nat}
    (hroom : Extent.headerLen + n * Extent.entryLen ≤ node.length) (hi : i < n) :
    nodeEntry node i = .ok (Extent.entry node i) := by
  have hmul : (i + 1) * Extent.entryLen ≤ n * Extent.entryLen := Nat.mul_le_mul_right _ hi
  rw [Nat.add_mul, Nat.one_mul] at hmul
  exact panicIf_bind_ok_iff.mpr ⟨by omega, rfl⟩

/-- Where an extent puts a logical block. -/
def physicalOf (logical : Nat) (ext : Extent) : Nat := ext.start + (logical - ext.block)

theorem findExtent_eq {node : List UInt8} {logical count i n : Nat}
    (hroom : Extent.headerLen + n * Extent.entryLen ≤ node.length) (hn : i + count ≤ n) :
    findExtent node logical count i =
      .ok ((((List.range' i count).map fun i => Extent.decode (Extent.entry node i)).find?
        (covers Extent.block Extent.effectiveLen logical)).map (physicalOf logical)) := by
  induction count generalizing i with
  | zero => rfl
  | succ count ih =>
    rw [findExtent, nodeEntry_ok hroom (by omega), List.range'_succ, List.map_cons,
      List.find?_cons]
    show (if _ then _ else _) = _
    by_cases hin : covers Extent.block Extent.effectiveLen logical
        (Extent.decode (Extent.entry node i)) = true
    · rw [hin, if_pos (of_decide_eq_true hin)]
      rfl
    · rw [Bool.not_eq_true] at hin
      rw [hin, if_neg (of_decide_eq_false hin)]
      exact ih (by omega)

theorem SpansFit.pow_lt {n depth : Nat} (h : SpansFit n) (hdepth : depth ≤ 3) :
    n ^ depth < 2 ^ 64 := by
  unfold SpansFit at h
  obtain rfl | rfl | rfl | rfl : depth = 0 ∨ depth = 1 ∨ depth = 2 ∨ depth = 3 := by omega
  · exact Nat.one_lt_two_pow (by decide)
  · rw [pow_one]
    omega
  all_goals omega

/-- Blocks of 8 MiB are small enough. -/
theorem spansFit_of_le {blockSize : Nat} (h : blockSize ≤ 2 ^ 23) : SpansFit (blockSize / 4) := by
  have hper : blockSize / 4 ≤ 2 ^ 21 := by omega
  have htwo : (blockSize / 4) ^ 2 ≤ (2 ^ 21) ^ 2 := Nat.pow_le_pow_left hper 2
  have hthree : (blockSize / 4) ^ 3 ≤ (2 ^ 21) ^ 3 := Nat.pow_le_pow_left hper 3
  have hdirect : ndirBlocks = 12 := rfl
  unfold SpansFit
  omega

/-- A tree of indirect blocks whose span 64 bits count is searched for what lies in it. -/
theorem resolveSlots_of_fits {pointers : List Nat} {slot depth : Nat} {slots : List (Nat × Nat)}
    (h : fs.perBlock ^ depth < 2 ^ 64) (remaining : Nat) :
    fs.resolveSlots pointers ((slot, depth) :: slots) remaining =
      if remaining < fs.perBlock ^ depth then
        if pointers.getD slot 0 = 0 then .ok none
        else fs.resolveIndirect remaining depth (pointers.getD slot 0)
      else fs.resolveSlots pointers slots (remaining - fs.perBlock ^ depth) := by
  rw [resolveSlots]
  dsimp only
  rw [panicIf, if_neg (Nat.not_le.mpr h)]
  rfl

/-- Trees that are not there hold nothing. -/
theorem resolveSlots_empty (hfits : SpansFit fs.perBlock) {pointers : List Nat} :
    ∀ {slots : List (Nat × Nat)} {remaining : Nat},
      (∀ s ∈ slots, s.2 ≤ 3 ∧ pointers.getD s.1 0 = 0) →
      fs.resolveSlots pointers slots remaining = .ok none
  | [], _, _ => rfl
  | (slot, depth) :: rest, remaining, h => by
    obtain ⟨hdepth, hzero⟩ := h _ List.mem_cons_self
    rw [resolveSlots_of_fits (hfits.pow_lt hdepth), if_pos hzero]
    split
    · rfl
    · exact resolveSlots_empty hfits fun s hs => h s (List.mem_cons_of_mem _ hs)

theorem findIndex_eq {node : List UInt8} {logical count i n : Nat} {next : Option Nat}
    (hroom : Extent.headerLen + n * Extent.entryLen ≤ node.length) (hn : i + count ≤ n) :
    findIndex node logical count i next =
      .ok ((((((List.range' i count).map fun i => ExtentIdx.decode (Extent.entry node i)).takeWhile
        fun idx => decide (idx.block ≤ logical)).getLast?).map ExtentIdx.leaf).or next) := by
  induction count generalizing i next with
  | zero => rfl
  | succ count ih =>
    rw [findIndex, nodeEntry_ok hroom (by omega), List.range'_succ, List.map_cons]
    show (if _ then _ else _) = _
    by_cases hle : (ExtentIdx.decode (Extent.entry node i)).block ≤ logical
    · rw [if_pos hle, ih (by omega), List.takeWhile_cons_of_pos (by simpa using hle),
        List.getLast?_cons]
      generalize (List.takeWhile _ _).getLast? = last
      cases last <;> rfl
    · rw [if_neg hle, List.takeWhile_cons_of_neg (by simpa using hle)]
      rfl

/-! ### The trees it needs -/

/-- The depth a block's header gives. -/
def depthOf (fs : Filesystem) (block : Nat) : Option Nat :=
  (ExtentHeader.decode (fs.bytesOf block)).toOption.map ExtentHeader.depth

/-- `node` is the root of a tree over the logical blocks `lo..hi` whose extents are `exts`, in
order, and whose nodes can be read. -/
def SortedTree (fs : Filesystem) : (depth lo hi : Nat) → List UInt8 → List Extent → Prop
  | 0, lo, hi, node, exts => ∃ header, IsNode node 0 header ∧
      exts = extentsIn node header.entries ∧
      Ordered Extent.block Extent.effectiveLen lo hi exts
  | depth + 1, lo, hi, node, exts => ∃ header, IsNode node (depth + 1) header ∧
      Branches ExtentIdx.block
        (fun lo hi idx exts => ∃ child, fs.readBlock idx.leaf = .ok child ∧
          SortedTree fs depth lo hi child exts)
        lo hi (indicesIn node header.entries) exts

/-- A well-formed tree is one of these. -/
theorem Tree.sortedTree {depth lo hi : Nat} {node : List UInt8} {exts : List Extent}
    (h : fs.Tree depth lo hi node exts) : fs.SortedTree depth lo hi node exts := by
  induction depth generalizing lo hi node exts with
  | zero =>
    obtain ⟨header, hnode, hexts, hord, -⟩ := h
    exact ⟨header, hnode, hexts, hord⟩
  | succ depth ih =>
    obtain ⟨header, hnode, -, hbranches⟩ := h
    exact ⟨header, hnode, hbranches.imp fun ⟨hdisk, hchild⟩ =>
      ⟨_, readBlock_onDisk hdisk, ih hchild⟩⟩

namespace SortedTree

theorem ordered {depth lo hi : Nat} {node : List UInt8} {exts : List Extent}
    (h : fs.SortedTree depth lo hi node exts) :
    Ordered Extent.block Extent.effectiveLen lo hi exts := by
  induction depth generalizing lo hi node exts with
  | zero =>
    obtain ⟨_, _, _, hord⟩ := h
    exact hord
  | succ depth ih =>
    obtain ⟨_, _, hbranches⟩ := h
    exact hbranches.ordered fun ⟨_, _, hchild⟩ => ih hchild

theorem exists_header {depth lo hi : Nat} {node : List UInt8} {exts : List Extent}
    (h : fs.SortedTree depth lo hi node exts) : ∃ header, IsNode node depth header := by
  cases depth with
  | zero => exact ⟨h.choose, h.choose_spec.1⟩
  | succ depth => exact ⟨h.choose, h.choose_spec.1⟩

theorem depthOf_eq {depth lo hi block : Nat} {node : List UInt8} {exts : List Extent}
    (h : fs.SortedTree depth lo hi node exts) (hread : fs.readBlock block = .ok node) :
    fs.depthOf block = some depth := by
  obtain ⟨header, hnode⟩ := h.exists_header
  obtain ⟨-, -, -, rfl⟩ := readBlock_ok_iff.mp hread
  rw [depthOf, bytesOf, hnode.decode, ← hnode.depth]
  rfl

/-- No more distinct numbers below `n` than `n`. -/
theorem length_seen_le {seen : List Nat} {n : Nat} (hnodup : seen.Nodup) (h : ∀ b ∈ seen, b < n) :
    seen.length ≤ n := by
  have hsub : seen ⊆ List.range n := fun b hb => List.mem_range.mpr (h b hb)
  simpa using (List.subperm_of_subset hnodup hsub).length_le

/-- The descent finds what the extents of the tree say. `seen` are the blocks it came through:
no two are the same, for each is less deep than the ones before, so the fuel lasts. -/
theorem resolveNode_seen {depth lo hi fuel : Nat} {node : List UInt8} {exts : List Extent}
    (h : fs.SortedTree depth lo hi node exts) (logical : Nat) (seen : List Nat)
    (hnodup : seen.Nodup)
    (hseen : ∀ b ∈ seen, b < fs.superblock.blocksCount ∧ ∃ k ≥ depth, fs.depthOf b = some k)
    (hfuel : fs.superblock.blocksCount < fuel + seen.length) :
    fs.resolveNode logical fuel node =
      .ok ((exts.find? (covers Extent.block Extent.effectiveLen logical)).map
        (physicalOf logical)) := by
  induction depth generalizing lo hi fuel node exts seen with
  | zero =>
    have hlen := length_seen_le hnodup fun b hb => (hseen b hb).1
    obtain ⟨fuel, rfl⟩ : ∃ k, fuel = k + 1 := ⟨fuel - 1, by omega⟩
    obtain ⟨header, hnode, rfl, -⟩ := h
    rw [resolveNode, hnode.decode, extentsIn, List.range_eq_range']
    show (if _ then _ else _) = _
    rw [if_pos hnode.depth]
    exact findExtent_eq hnode.room (by omega)
  | succ depth ih =>
    have hlen := length_seen_le hnodup fun b hb => (hseen b hb).1
    obtain ⟨fuel, rfl⟩ : ∃ k, fuel = k + 1 := ⟨fuel - 1, by omega⟩
    obtain ⟨header, hnode, hbranches⟩ := h
    have hfind := hbranches.find (fun ⟨_, _, hchild⟩ => hchild.ordered) logical
    rw [resolveNode, hnode.decode]
    show (if _ then _ else _) = _
    rw [if_neg (by rw [hnode.depth]; omega), findIndex_eq hnode.room (by omega),
      ← List.range_eq_range', Option.or_none]
    rw [indicesIn] at hfind
    generalize (List.takeWhile _ _).getLast? = last at hfind ⊢
    cases last with
    | none =>
      simp only at hfind
      rw [hfind]
      rfl
    | some idx =>
      obtain ⟨mid, bs, ⟨child, hread, hchild⟩, hfind⟩ := hfind
      rw [hfind]
      show (fs.readBlock idx.leaf >>= fun child => fs.resolveNode logical fuel child) = _
      rw [hread]
      show fs.resolveNode logical fuel child = _
      have hdepth := hchild.depthOf_eq hread
      have hnew : idx.leaf ∉ seen := by
        intro hmem
        obtain ⟨-, k, hk, hk'⟩ := hseen _ hmem
        rw [hdepth] at hk'
        have := Option.some.inj hk'
        omega
      refine ih hchild (idx.leaf :: seen) (List.nodup_cons.mpr ⟨hnew, hnodup⟩) ?_ ?_
      · intro b hb
        rcases List.mem_cons.mp hb with rfl | hb
        · exact ⟨(readBlock_ok_iff.mp hread).1, depth, Nat.le_refl _, hdepth⟩
        · obtain ⟨hcount, k, hk, hk'⟩ := hseen b hb
          exact ⟨hcount, k, by omega, hk'⟩
      · rw [List.length_cons]
        omega

theorem resolveExtent_eq {depth lo hi : Nat} {inode : Inode} {exts : List Extent}
    (h : fs.SortedTree depth lo hi inode.block exts) (logical : Nat) :
    fs.resolveExtent inode logical =
      .ok ((exts.find? (covers Extent.block Extent.effectiveLen logical)).map
        (physicalOf logical)) :=
  h.resolveNode_seen logical [] List.nodup_nil nofun (by rw [List.length_nil]; omega)

end SortedTree

/-! ## What a file reads as -/

/-- The extent that maps the byte `p` of a file. -/
def extentAt (fs : Filesystem) (exts : List Extent) (p : Nat) : Option Extent :=
  exts.find? (covers Extent.block Extent.effectiveLen (p / fs.blockSize))

/-- The byte of the device where an extent puts the byte `p` of a file. -/
def byteAt (fs : Filesystem) (p : Nat) (ext : Extent) : UInt8 :=
  fs.device.bytes (physicalOf (p / fs.blockSize) ext * fs.blockSize + p % fs.blockSize)

/-- What a file of `size` bytes reads as: zeroes where nothing is mapped, and where the extent
    was never written. -/
def contents (fs : Filesystem) (size : Nat) (exts : List Extent) : List UInt8 :=
  (List.range size).map fun p =>
    match fs.extentAt exts p with
    | some ext => if ext.isUninit then 0 else fs.byteAt p ext
    | none => 0

/-- The same with what the device holds in the extents that were never written. -/
def rawContents (fs : Filesystem) (size : Nat) (exts : List Extent) : List UInt8 :=
  (List.range size).map fun p =>
    match fs.extentAt exts p with
    | some ext => fs.byteAt p ext
    | none => 0

theorem physicalOf_onDisk {depth lo hi logical : Nat} {node : List UInt8} {exts : List Extent}
    (h : fs.Tree depth lo hi node exts) {ext : Extent}
    (hfind : exts.find? (covers Extent.block Extent.effectiveLen logical) = some ext) :
    fs.OnDisk (physicalOf logical ext) := by
  have hcov := List.find?_some hfind
  rw [covers, decide_eq_true_iff] at hcov
  exact h.onDisk (List.mem_of_find?_eq_some hfind) (by omega)

/-- The block the reader appends for a logical block. -/
def blockFor (fs : Filesystem) (exts : List Extent) (logical : Nat) : List UInt8 :=
  match exts.find? (covers Extent.block Extent.effectiveLen logical) with
  | some ext => fs.bytesOf (physicalOf logical ext)
  | none => List.replicate fs.blockSize 0

theorem length_blockFor (fs : Filesystem) (exts : List Extent) (logical : Nat) :
    (fs.blockFor exts logical).length = fs.blockSize := by
  unfold blockFor
  split
  · exact length_window _ _ _
  · exact List.length_replicate

/-- The blocks of a file up to its size are `rawContents`. -/
theorem take_blocks_eq (hbs : fs.blockSize ≠ 0) (size : Nat) (exts : List Extent) :
    ((List.range ((size + fs.blockSize - 1) / fs.blockSize)).map
      (fs.blockFor exts)).flatten.take size = fs.rawContents size exts := by
  have hpos := Nat.pos_of_ne_zero hbs
  rw [take_flatten_blocks 0 hpos (fs.length_blockFor exts), rawContents]
  refine List.map_congr_left fun p _ => ?_
  have hlt : p % fs.blockSize < fs.blockSize := Nat.mod_lt _ hpos
  rw [blockFor, extentAt]
  split
  · exact getD_window _ _ _ _ _ hlt
  · rw [List.getD_eq_getElem?_getD, List.getElem?_replicate_of_lt hlt, Option.getD_some]

/-- `read_file` on a well-formed tree: every mapped block as the device holds it. -/
theorem readFile_eq (hbs : fs.blockSize ≠ 0) {inode : Inode} (hext : inode.usesExtents = true)
    (hmap : inode.hasBlockMap = true) {depth hi : Nat} {exts : List Extent}
    (h : fs.Tree depth 0 hi inode.block exts) :
    fs.readFile inode = .ok (fs.rawContents inode.size exts) := by
  have hresolve : ∀ logical, fs.resolveBlock inode logical =
      .ok ((exts.find? (covers Extent.block Extent.effectiveLen logical)).map
        (physicalOf logical)) := fun logical => by
    rw [resolveBlock, hmap, hext]
    exact h.sortedTree.resolveExtent_eq logical
  unfold readFile
  refine panicIf_bind_ok_iff.mpr ⟨hbs, ?_⟩
  refine bind_ok_iff.mpr ⟨_, mapM_ok (g := fs.blockFor exts) fun logical _ => ?_, ?_⟩
  · rw [hresolve, blockFor]
    cases hfind : exts.find? (covers Extent.block Extent.effectiveLen logical) with
    | none => rfl
    | some ext => exact readBlock_onDisk (physicalOf_onDisk h hfind)
  · exact congrArg _ (take_blocks_eq hbs inode.size exts)

end Filesystem

/-! ## The walk of the synchronous reader -/

namespace Ext4

open Filesystem

variable {e : Ext4} {dev : Device} {fs : Filesystem}

theorem entryOf_ok {what : String} {node : List UInt8} {i n : Nat}
    (hroom : Extent.headerLen + n * Extent.entryLen ≤ node.length) (hi : i < n) :
    entryOf what node i = .ok (Extent.entry node i) := by
  have hmul : (i + 1) * Extent.entryLen ≤ n * Extent.entryLen := Nat.mul_le_mul_right _ hi
  rw [Nat.add_mul, Nat.one_mul] at hmul
  rw [entryOf, if_neg (by omega)]

/-- The walk below one index. -/
def walkBelow (e : Ext4) (dev : Device) (levels : Nat) (idx : ExtentIdx) :
    Except Failure (List Extent) := do
  let child ← readExact dev (← e.blockOffset idx.leaf) e.blockSize
  e.walkExtents dev levels child

theorem walkExtents_leaf {levels : Nat} {node : List UInt8} {header : ExtentHeader}
    (h : IsNode node 0 header) :
    e.walkExtents dev (levels + 1) node = .ok (extentsIn node header.entries) := by
  rw [walkExtents, h.decode]
  show (if _ then _ else _) = _
  rw [if_pos h.depth]
  refine mapM_ok fun i hi => ?_
  rw [entryOf_ok h.room (List.mem_range.mp hi)]
  rfl

theorem walkExtents_index {levels depth : Nat} {node : List UInt8} {header : ExtentHeader}
    (h : IsNode node (depth + 1) header) :
    e.walkExtents dev (levels + 1) node =
      (indicesIn node header.entries).mapM (e.walkBelow dev levels) >>=
        fun parts => .ok parts.flatten := by
  rw [walkExtents, h.decode]
  show (if _ then _ else _) = _
  rw [if_neg (by rw [h.depth]; omega), indicesIn, List.mapM_map]
  refine congrArg (· >>= _) (mapM_congr fun i hi => ?_)
  rw [entryOf_ok h.room (List.mem_range.mp hi)]
  rfl

variable (hbs : e.blockSize = fs.blockSize) (hdev : fs.device = dev)

include hbs hdev

theorem walkBelow_onDisk {levels : Nat} {idx : ExtentIdx} (h : fs.OnDisk idx.leaf) :
    e.walkBelow dev levels idx = e.walkExtents dev levels (fs.bytesOf idx.leaf) := by
  have hoff : e.blockOffset idx.leaf = .ok (idx.leaf * fs.blockSize) := by
    refine panicIf_bind_ok_iff.mpr ⟨?_, by rw [hbs]; rfl⟩
    rw [hbs]
    exact Nat.not_le.mpr h.offset
  have hread : readExact dev (idx.leaf * fs.blockSize) e.blockSize = .ok (fs.bytesOf idx.leaf) := by
    rw [hbs]
    exact readExact_ok_iff.mpr ⟨hdev ▸ h.inside, by rw [bytesOf, hdev]⟩
  rw [walkBelow, hoff]
  show (readExact dev (idx.leaf * fs.blockSize) e.blockSize >>= _) = _
  rw [hread]
  rfl

/-- Within its levels the walk returns the extents of the tree. -/
theorem walkExtents_eq {depth lo hi levels : Nat} {node : List UInt8} {exts : List Extent}
    (h : fs.Tree depth lo hi node exts) (hlevels : depth < levels) :
    e.walkExtents dev levels node = .ok exts := by
  induction depth generalizing lo hi levels node exts with
  | zero =>
    obtain ⟨levels, rfl⟩ : ∃ k, levels = k + 1 := ⟨levels - 1, by omega⟩
    obtain ⟨header, hnode, rfl, -, -⟩ := h
    exact walkExtents_leaf hnode
  | succ depth ih =>
    obtain ⟨levels, rfl⟩ : ∃ k, levels = k + 1 := ⟨levels - 1, by omega⟩
    obtain ⟨header, hnode, -, hbranches⟩ := h
    rw [walkExtents_index hnode]
    generalize indicesIn node header.entries = idxs at hbranches
    have hparts : ∃ parts, idxs.mapM (e.walkBelow dev levels) = .ok parts ∧
        parts.flatten = exts := by
      clear hnode
      induction hbranches with
      | nil _ => exact ⟨[], rfl, rfl⟩
      | @cons _ _ _ idx rest as bs _ hchild _ ihrest =>
        obtain ⟨parts, hparts, hflat⟩ := ihrest
        refine ⟨as :: parts, ?_, by rw [List.flatten_cons, hflat]⟩
        rw [List.mapM_cons, walkBelow_onDisk hbs hdev hchild.1, ih hchild.2 (by omega), hparts]
        rfl
    obtain ⟨parts, hparts, rfl⟩ := hparts
    rw [hparts]
    rfl

/-- Past them it fails. -/
theorem walkExtents_deep {depth lo hi levels : Nat} {node : List UInt8} {exts : List Extent}
    (h : fs.Tree depth lo hi node exts) (hlevels : levels ≤ depth) :
    ∃ err, e.walkExtents dev levels node = .error err := by
  induction levels generalizing depth lo hi node exts with
  | zero => exact ⟨_, rfl⟩
  | succ levels ih =>
    obtain ⟨depth, rfl⟩ : ∃ k, depth = k + 1 := ⟨depth - 1, by omega⟩
    obtain ⟨header, hnode, hpos, hbranches⟩ := h
    rw [walkExtents_index hnode]
    have hlen : (indicesIn node header.entries).length = header.entries := by
      rw [indicesIn, List.length_map, List.length_range]
    generalize indicesIn node header.entries = idxs at hbranches hlen
    cases hbranches with
    | nil => exact absurd hlen (Nat.ne_of_lt hpos)
    | @cons _ _ _ idx rest _ _ _ hchild _ =>
      obtain ⟨err, herr⟩ := ih hchild.2 (by omega)
      refine ⟨err, ?_⟩
      rw [List.mapM_cons, walkBelow_onDisk hbs hdev hchild.1, herr]
      rfl

/-! ### Copying the ranges -/

omit hbs hdev in
theorem blockOffset_ok {block : Nat} (h : block * e.blockSize < 2 ^ 64) :
    e.blockOffset block = .ok (block * e.blockSize) :=
  panicIf_bind_ok_iff.mpr ⟨Nat.not_le.mpr h, rfl⟩

omit hdev in
/-- The byte `p` of a file lies in the blocks of an extent exactly when `covers` says so. -/
theorem covers_iff (hpos : fs.blockSize ≠ 0) (ext : Extent) (p : Nat) :
    covers Extent.block Extent.effectiveLen (p / fs.blockSize) ext = true ↔
      ext.block * e.blockSize ≤ p ∧
        p < ext.block * e.blockSize + ext.effectiveLen * e.blockSize := by
  have hpos := Nat.pos_of_ne_zero hpos
  rw [covers, decide_eq_true_iff, Nat.le_div_iff_mul_le hpos, Nat.div_lt_iff_lt_mul hpos, hbs,
    Nat.add_mul]

/-- One extent of the tree: its bytes go where it maps them, unless it was never written. -/
theorem readExtent_ok (hpos : fs.blockSize ≠ 0) (hsmall : fs.blockSize < 2 ^ 32) {size : Nat}
    {out : List UInt8} (hout : out.length = size) {ext : Extent}
    (hlen : 0 < ext.effectiveLen) (hhi : ext.block + ext.effectiveLen ≤ 2 ^ 32)
    (hdisk : ∀ k, k < ext.effectiveLen → fs.OnDisk (ext.start + k)) :
    ∃ out', e.readExtent dev size out ext = .ok out' ∧ out'.length = size ∧
      ∀ p, p < size → out'.getD p 0 =
        if covers Extent.block Extent.effectiveLen (p / fs.blockSize) ext ∧ ext.isUninit = false
        then fs.byteAt p ext else out.getD p 0 := by
  have hmul : ∀ n, n ≤ 2 ^ 32 → n * e.blockSize < 2 ^ 64 := fun n hn => by
    rw [hbs]
    exact Nat.lt_of_le_of_lt (Nat.mul_le_mul_right _ hn)
      (Nat.mul_lt_mul_of_pos_left hsmall (by decide))
  have hcov := fun p => covers_iff (p := p) hbs hpos ext
  have hstart := @blockOffset_ok e ext.block (hmul ext.block (by omega))
  by_cases hskip : size ≤ ext.block * e.blockSize ∨ ext.isUninit
  · have hrun : e.readExtent dev size out ext = .ok out := by
      rw [readExtent, hstart]
      show (if _ then _ else _) = _
      rw [if_pos hskip]
      rfl
    refine ⟨out, hrun, hout, fun p hp => (if_neg ?_).symm⟩
    intro ⟨hc, hu⟩
    rw [hcov] at hc
    rcases hskip with hs | hs
    · omega
    · rw [hu] at hs
      exact Bool.noConfusion hs
  · have hfirst := hdisk 0 hlen
    rw [Nat.add_zero] at hfirst
    have hlast := (hdisk (ext.effectiveLen - 1) (by omega)).inside
    have hinside : ext.start * e.blockSize + ext.effectiveLen * e.blockSize ≤ dev.size := by
      rw [← hdev, hbs, ← Nat.add_mul]
      rw [← Nat.succ_mul] at hlast
      exact (by omega : (ext.start + (ext.effectiveLen - 1)).succ =
        ext.start + ext.effectiveLen) ▸ hlast
    have hrun : e.readExtent dev size out ext =
        .ok (splice out (ext.block * e.blockSize) (window dev.bytes (ext.start * e.blockSize)
          (min (ext.effectiveLen * e.blockSize) (size - ext.block * e.blockSize)))) := by
      rw [readExtent, hstart]
      show (if _ then _ else _) = _
      rw [if_neg hskip, blockOffset_ok (hmul ext.effectiveLen (by omega)),
        blockOffset_ok (by rw [hbs]; exact hfirst.offset)]
      show (readExact dev _ _ >>= _) = _
      rw [readExact_ok_iff.mpr ⟨by omega, rfl⟩]
      rfl
    rw [not_or] at hskip
    refine ⟨_, hrun, by rw [length_splice, hout], fun p hp => ?_⟩
    rw [getD_splice _ _ (by omega), length_window]
    by_cases hin : covers Extent.block Extent.effectiveLen (p / fs.blockSize) ext = true
    · have hrange := (hcov p).mp hin
      rw [if_pos (by omega), if_pos ⟨hin, by simpa using hskip.2⟩, getD_window _ _ _ _ _ (by omega),
        byteAt, hdev]
      congr 1
      have hdiv := Nat.div_add_mod' p fs.blockSize
      have hge : ext.block ≤ p / fs.blockSize := by
        rw [covers, decide_eq_true_iff] at hin
        exact hin.1
      have hsub := Nat.sub_mul (p / fs.blockSize) ext.block fs.blockSize
      have hle := Nat.mul_le_mul_right fs.blockSize hge
      rw [physicalOf, Nat.add_mul, hsub, hbs]
      omega
    · rw [if_neg (fun h => hin ((hcov p).mpr (by omega))), if_neg (fun h => hin h.1)]

/-- The extents in order, each where it belongs. -/
theorem foldlM_readExtent (hpos : fs.blockSize ≠ 0) (hsmall : fs.blockSize < 2 ^ 32) {size lo : Nat}
    {exts : List Extent} (hord : Ordered Extent.block Extent.effectiveLen lo (2 ^ 32) exts)
    (hdisk : ∀ ext ∈ exts, ∀ k, k < ext.effectiveLen → fs.OnDisk (ext.start + k))
    {out : List UInt8} (hout : out.length = size) :
    ∃ out', exts.foldlM (e.readExtent dev size) out = .ok out' ∧ out'.length = size ∧
      ∀ p, p < size → out'.getD p 0 =
        match fs.extentAt exts p with
        | some ext => if ext.isUninit then out.getD p 0 else fs.byteAt p ext
        | none => out.getD p 0 := by
  induction exts generalizing lo out with
  | nil => exact ⟨out, rfl, hout, fun _ _ => rfl⟩
  | cons ext exts ih =>
    obtain ⟨hhead, hlen, htail⟩ := hord
    obtain ⟨out1, h1, hlen1, hbytes1⟩ := readExtent_ok hbs hdev hpos hsmall hout hlen htail.le
      (hdisk ext List.mem_cons_self)
    obtain ⟨out2, h2, hlen2, hbytes2⟩ := ih htail
      (fun x hx => hdisk x (List.mem_cons_of_mem ext hx)) hlen1
    refine ⟨out2, by rw [List.foldlM_cons, h1]; exact h2, hlen2, fun p hp => ?_⟩
    rw [hbytes2 p hp, extentAt, extentAt, List.find?_cons]
    cases hcov : covers Extent.block Extent.effectiveLen (p / fs.blockSize) ext with
    | true =>
      -- what this extent maps no later one does
      have hin := of_decide_eq_true hcov
      rw [htail.find_none (Or.inl hin.2)]
      rw [hbytes1 p hp, hcov]
      cases hu : ext.isUninit <;> simp [hu]
    | false =>
      have hskip : out1.getD p 0 = out.getD p 0 := by
        rw [hbytes1 p hp, hcov, if_neg (by simp)]
      rw [hskip]

/-- `read_inode_data` on a well-formed tree of at most five levels. -/
theorem readInodeData_eq (hpos : fs.blockSize ≠ 0) (hsmall : fs.blockSize < 2 ^ 32) {inode : Inode}
    (hext : inode.usesExtents = true) {depth : Nat} {exts : List Extent}
    (h : fs.Tree depth 0 (2 ^ 32) inode.block exts) (hdepth : depth ≤ 5) :
    e.readInodeData dev inode = .ok (fs.contents inode.size exts) := by
  have hsort : exts.mergeSort (fun a b => decide (a.block ≤ b.block)) = exts :=
    List.mergeSort_of_pairwise (h.ordered.pairwise.imp fun hab => by simpa using hab)
  have hextents : e.extentsOf dev inode = .ok exts := by
    rw [extentsOf, hext, walkExtents_eq hbs hdev h (by omega : depth < 6)]
    exact congrArg Except.ok hsort
  have hzeroes : (List.replicate inode.size (0 : UInt8)).length = inode.size :=
    List.length_replicate
  obtain ⟨out, hfold, hlen, hbytes⟩ := foldlM_readExtent hbs hdev hpos hsmall h.ordered
    (fun ext hmem k hk => h.onDisk hmem hk) hzeroes
  rw [readInodeData, hextents]
  refine Eq.trans hfold (congrArg _ (ext_getD 0 ?_ fun p hp => ?_))
  · rw [hlen, contents, List.length_map, List.length_range]
  · rw [hlen] at hp
    rw [hbytes p hp, contents, getD_map_range _ 0 hp, List.getD_eq_getElem?_getD,
      List.getElem?_replicate_of_lt hp, Option.getD_some]

/-- A deeper tree is refused. -/
theorem readInodeData_deep {inode : Inode} (hext : inode.usesExtents = true) {depth hi : Nat}
    {exts : List Extent} (h : fs.Tree depth 0 hi inode.block exts) (hdepth : 5 < depth) :
    ∃ err, e.readInodeData dev inode = .error err := by
  obtain ⟨err, herr⟩ := walkExtents_deep hbs hdev h (by omega : 6 ≤ depth)
  refine ⟨err, ?_⟩
  rw [readInodeData, extentsOf, hext, herr]
  rfl

end Ext4

/-! ## The two against each other -/

open Filesystem

/-- The bytes of the file in extents that were never written are zero on the device. -/
def ClearUnwritten (fs : Filesystem) (size : Nat) (exts : List Extent) : Prop :=
  ∀ p < size, ∀ ext, fs.extentAt exts p = some ext → ext.isUninit = true → fs.byteAt p ext = 0

theorem rawContents_eq_iff (fs : Filesystem) (size : Nat) (exts : List Extent) :
    fs.rawContents size exts = fs.contents size exts ↔ ClearUnwritten fs size exts := by
  unfold rawContents contents ClearUnwritten
  rw [List.map_inj_left]
  constructor
  · intro h p hp ext hext hu
    have hbyte := h p (List.mem_range.mpr hp)
    rw [hext] at hbyte
    simpa only [hu, if_true] using hbyte
  · intro h p hp
    cases hext : fs.extentAt exts p with
    | none => rfl
    | some ext =>
      cases hu : ext.isUninit with
      | false => simp [hu]
      | true => simpa [hu] using h p (List.mem_range.mp hp) ext hext hu

/-- For every image both readers open and every extent-mapped inode with a well-formed tree, the
    two return the same bytes, zero in holes and in extents that were never written, exactly when
    the tree has at most five levels and those extents are zero on the device. -/
theorem read_file_agree_iff {dev : Device} {e : Ext4} {fs : Filesystem}
    (he : Ext4.openOn dev = .ok e) (hf : Filesystem.openOn dev = .ok fs) {inode : Inode}
    (hext : inode.usesExtents = true) (hmap : inode.hasBlockMap = true) {depth : Nat}
    {exts : List Extent} (h : fs.Tree depth 0 (2 ^ 32) inode.block exts) :
    (e.readInodeData dev inode = .ok (fs.contents inode.size exts) ∧
        fs.readFile inode = .ok (fs.contents inode.size exts)) ↔
      depth ≤ 5 ∧ ClearUnwritten fs inode.size exts := by
  have hopened := openOn_opened hf
  obtain ⟨-, hbs⟩ := opened_pair (Ext4.openOn_opened he) hopened
  have hpos := hopened.blockSize_ne_zero
  have hsmall : fs.blockSize < 2 ^ 32 := by
    obtain ⟨hlog, hpow, -⟩ := hopened.blockSize_eq
    rw [hpow]
    exact Nat.pow_lt_pow_right (by decide) hlog
  have hfile := readFile_eq hpos hext hmap h
  rw [hfile, ← rawContents_eq_iff]
  constructor
  · intro ⟨hdata, hraw⟩
    refine ⟨?_, Except.ok.inj hraw⟩
    by_contra hdeep
    obtain ⟨err, herr⟩ := Ext4.readInodeData_deep hbs hopened.device hext h (by omega)
    rw [herr] at hdata
    cases hdata
  · intro ⟨hdepth, hraw⟩
    exact ⟨Ext4.readInodeData_eq hbs hopened.device hpos hsmall hext h hdepth,
      congrArg _ hraw⟩

/-! ### A block that was never written -/

/-- 16 blocks, `held` at the start of block 6. -/
def heldImage (held : UInt8) : Device := .ofChunks 16384
  [(1024, [16, 0, 0, 0, 16]), (1024 + 0x14, [1]), (1024 + 0x21, [0x20]), (1024 + 0x28, [16]),
    (1024 + 0x38, [0x53, 0xef]), (2048, [3, 0, 0, 0, 4, 0, 0, 0, 7]), (5 * 1024, [0x68, 0x69]),
    (6 * 1024, [held])]

/-- Block 0 is written, in block 5; block 1 is a hole; block 2 is allocated and never written,
    in block 6. -/
def heldInode : Inode where
  mode := 0x81a4
  flags := IFlags.extents
  size := 2600
  block := [0x0a, 0xf3, 2, 0, 4, 0, 0, 0, 0, 0, 0, 0] ++ [0, 0, 0, 0, 1, 0, 0, 0, 5, 0, 0, 0] ++
    [2, 0, 0, 0, 1, 0x80, 0, 0, 6, 0, 0, 0] ++ List.replicate 24 0

def heldExtents : List Extent :=
  [{ block := 0, len := 1, start := 5 }, { block := 2, len := 0x8001, start := 6 }]

/-- What the two readers make of the geometry of an image. -/
def geometryOf (dev : Device) : Option (Nat × Nat) :=
  match Ext4.openOn dev, openOn dev with
  | .ok _, .ok fs => some (fs.superblock.blocksCount, fs.blockSize)
  | _, _ => none

theorem geometryOf_some {dev : Device} {count size : Nat} (h : geometryOf dev = some (count, size)) :
    ∃ e fs, Ext4.openOn dev = .ok e ∧ openOn dev = .ok fs ∧ fs.superblock.blocksCount = count ∧
      fs.blockSize = size := by
  unfold geometryOf at h
  split at h
  · next e fs he hf =>
    obtain ⟨hcount, hsize⟩ := Prod.mk.inj (Option.some.inj h)
    exact ⟨e, fs, he, hf, hcount, hsize⟩
  · cases h

theorem geometryOf_held : geometryOf (heldImage 0) = some (16, 1024) ∧
    geometryOf (heldImage 0x41) = some (16, 1024) := by decide +kernel

theorem held_onDisk {held : UInt8} {fs : Filesystem} (hdev : fs.device = heldImage held)
    (hcount : fs.superblock.blocksCount = 16) (hsize : fs.blockSize = 1024) {block : Nat}
    (h : block < 16) : fs.OnDisk block := by
  refine ⟨by omega, by rw [hsize]; omega, ?_⟩
  rw [hsize, hdev]
  show block * 1024 + 1024 ≤ 16384
  omega

theorem held_tree {held : UInt8} {fs : Filesystem} (hdev : fs.device = heldImage held)
    (hcount : fs.superblock.blocksCount = 16) (hsize : fs.blockSize = 1024) :
    fs.Tree 0 0 (2 ^ 32) heldInode.block heldExtents := by
  refine ⟨{ entries := 2, max := 4, depth := 0, generation := 0 }, ⟨rfl, rfl, by decide⟩, rfl,
    by decide, fun ext hext k hk => held_onDisk hdev hcount hsize ?_⟩
  have hsmall : ∀ ext ∈ heldExtents, ext.start + ext.effectiveLen ≤ 16 := by decide
  have := hsmall ext hext
  omega

theorem held_clear {fs : Filesystem} (hdev : fs.device = heldImage 0) (hsize : fs.blockSize = 1024) :
    ClearUnwritten fs heldInode.size heldExtents := by
  intro p _ ext hext hu
  have hcov := List.find?_some hext
  rw [covers, decide_eq_true_iff] at hcov
  have honly : ∀ ext ∈ heldExtents, ext.isUninit = true →
      ext.block = 2 ∧ ext.start = 6 ∧ ext.effectiveLen = 1 := by decide
  obtain ⟨hblock, hstart, hlen⟩ := honly ext (List.mem_of_find?_eq_some hext) hu
  have hzero : ∀ q < 1024, (heldImage 0).bytes (6 * 1024 + q) = 0 := by decide +kernel
  have hphysical : physicalOf (p / fs.blockSize) ext = 6 := by
    rw [physicalOf]
    omega
  rw [byteAt, hphysical, hdev, hsize]
  exact hzero _ (Nat.mod_lt _ (by decide))

theorem read_file_agree_held : ∃ e fs, Ext4.openOn (heldImage 0) = .ok e ∧
    openOn (heldImage 0) = .ok fs ∧ e.readInodeData (heldImage 0) heldInode = fs.readFile heldInode := by
  obtain ⟨e, fs, he, hf, hcount, hsize⟩ := geometryOf_some geometryOf_held.1
  have hdev := (openOn_opened hf).device
  have hboth := (read_file_agree_iff he hf (by decide) (by decide)
    (held_tree hdev hcount hsize)).mpr ⟨by decide, held_clear hdev hsize⟩
  exact ⟨e, fs, he, hf, hboth.1.trans hboth.2.symm⟩

/-- The two readers do not return the same bytes for every well-formed tree: the opened
    filesystem returns what the device held in an extent that was never written. -/
theorem read_file_disagree : ¬ ∀ (dev : Device) (e : Ext4) (fs : Filesystem) (inode : Inode)
    (depth : Nat) (exts : List Extent), Ext4.openOn dev = .ok e → openOn dev = .ok fs →
    inode.usesExtents = true → inode.hasBlockMap = true →
    fs.Tree depth 0 (2 ^ 32) inode.block exts →
    e.readInodeData dev inode = .ok (fs.contents inode.size exts) ∧
      fs.readFile inode = .ok (fs.contents inode.size exts) := by
  intro hall
  obtain ⟨e, fs, he, hf, hcount, hsize⟩ := geometryOf_some geometryOf_held.2
  have hdev := (openOn_opened hf).device
  have htree := held_tree hdev hcount hsize
  have hboth := hall _ e fs heldInode 0 heldExtents he hf (by decide) (by decide) htree
  have hfile := readFile_eq (openOn_opened hf).blockSize_ne_zero (by decide) (by decide) htree
  have hclear := (rawContents_eq_iff fs heldInode.size heldExtents).mp
    (Except.ok.inj (hfile.symm.trans hboth.2))
  have hbyte := hclear 2048 (by decide) { block := 2, len := 0x8001, start := 6 }
    (by rw [extentAt, hsize]; decide) (by decide)
  rw [byteAt, hsize, hdev] at hbyte
  exact absurd hbyte (by decide)

end MkfsExt4
