/-
  Extent leaves in blocks of their own (`write_journal`, `write_orphan_file` of `src/format.rs`)
  against the check of their checksums (`bad_extent_checksums` of `src/fs.rs`).

  The journal's leaf is written with its checksum, the orphan file's without one. Both stand in
  the end unless group 0's inode table lies over them.
-/
import MkfsExt4.Format.Allocations
import MkfsExt4.Format.Mounted
import MkfsExt4.Structs.ExtentCodec

namespace MkfsExt4

open Lib.Store Lib.Hoare

namespace Filesystem

variable {fs : Filesystem} {inode : Inode} {inum guard block : Nat} {node : List UInt8}

/-- A leaf on top of the stack is checked and done with. -/
theorem badNodes_leaf {header : ExtentHeader} (h : ExtentHeader.decode node = .ok header)
    (hdepth : header.depth = 0) :
    fs.badNodes inode inum (guard + 1) [(node, some block)] [] =
      .ok (if fs.badTail inode inum header node then [block] else []) := by
  rw [badNodes, bind_of_ok (returned_ok_iff.mpr h)]
  dsimp only
  rw [if_pos hdepth]
  cases guard <;> split <;> rfl

theorem badTail_of_room {header : ExtentHeader}
    (h : Extent.tailOffset header.max + Extent.tailLen ≤ node.length) :
    fs.badTail inode inum header node =
      decide (getU32 node (Extent.tailOffset header.max) ≠ Csum.extentBlockCsum fs.csumSeed inum
        inode.generation (node.take (Extent.tailOffset header.max))) :=
  if_neg (Nat.not_lt.mpr h)

/-- What is no node at all ends the check. -/
theorem badNodes_error {e : Error} (h : ExtentHeader.decode node = .error e)
    (stack : List (List UInt8 × Option Nat)) (origin : Option Nat) (bad : List Nat) :
    fs.badNodes inode inum (guard + 1) ((node, origin) :: stack) bad ≠ .ok [] := by
  rw [badNodes, h]
  exact nofun

/-- From a root with one index the check goes to the node that it names. -/
theorem badNodes_index {header : ExtentHeader} (h : ExtentHeader.decode node = .ok header)
    (hentries : header.entries = 1) (hdepth : header.depth ≠ 0) {buf : List UInt8}
    (hread : fs.readBlock (ExtentIdx.decode (Extent.entry node 0)).leaf = .ok buf) :
    fs.badNodes inode inum (guard + 1) [(node, none)] [] = fs.badNodes inode inum guard
      [(buf, some (ExtentIdx.decode (Extent.entry node 0)).leaf)] [] := by
  have hheader : nodeHeader node Extent.inlineLen = .ok header := by
    rw [nodeHeader, bind_of_ok (returned_ok_iff.mpr h)]
    dsimp only
    rw [hentries]
    exact if_neg (by decide)
  rw [badNodes, bind_of_ok (returned_ok_iff.mpr h)]
  dsimp only
  rw [if_neg hdepth, Option.isNone_none, if_pos rfl, bind_of_ok hheader, hentries]
  simp only [List.range_one, List.mapM_cons, List.mapM_nil, hread]
  rfl

end Filesystem

namespace Format

open Lib.Trace Layout Filesystem

/-! ## The inode over a leaf -/

/-- An inode as the formatter makes it for a file whose extents are in a leaf. -/
structure OverLeaf (made : Inode) (leaf : Nat) : Prop where
  mode : made.mode = Mode.ifreg ||| 0o600
  flags : made.flags = IFlags.extents
  generation : made.generation = 0
  block : journalInodeIBlock [] (some leaf) = .ok made.block

/-- The header of the index in an inode. -/
def indexHeader : ExtentHeader where
  entries := 1
  max := ExtentHeader.maxEntries Extent.inlineLen false
  depth := 1
  generation := 0

theorem entry_indexBlock {leaf : Nat} {iblock : List UInt8}
    (h : journalInodeIBlock [] (some leaf) = .ok iblock) :
    Extent.entry iblock 0 = ({ block := 0, leaf } : ExtentIdx).encode := by
  obtain rfl := Except.ok.inj h
  rw [Extent.entry, Nat.zero_mul, Nat.add_zero]
  refine slice_splice (by simp [ExtentIdx.encode]) ?_
  rw [ExtentHeader.length_encodeInto, List.length_replicate]
  decide

theorem decode_indexBlock {leaf : Nat} {iblock : List UInt8}
    (h : journalInodeIBlock [] (some leaf) = .ok iblock) :
    iblock.length = iBlockLen ∧ ExtentHeader.decode iblock = .ok indexHeader ∧
      (ExtentIdx.decode (Extent.entry iblock 0)).leaf = leaf % 2 ^ 48 := by
  rw [entry_indexBlock h]
  obtain rfl := Except.ok.inj h
  have hlen : (indexHeader.encodeInto (List.replicate iBlockLen 0)).length = iBlockLen := by
    rw [ExtentHeader.length_encodeInto, List.length_replicate]
  refine ⟨(length_splice _ _ _).trans hlen, ?_, ExtentIdx.decode_encode _⟩
  rw [ExtentHeader.decode_congr (slice_splice_disjoint (Or.inl (by decide)))]
  exact ExtentHeader.decode_encodeInto ⟨by decide, by decide, by decide, by decide⟩ (by decide)

/-- The check of a file with a leaf is the check of that leaf. -/
theorem badExtentChecksums_overLeaf {fs : Filesystem} {made inode : Inode} {leaf inum : Nat}
    {buf : List UInt8} (hmade : OverLeaf made leaf) (hsame : SameMap made inode)
    (hcsum : fs.csumScheme = .crc32c) (hleaf : leaf < 2 ^ 48) (hread : fs.readBlock leaf = .ok buf) :
    fs.badExtentChecksums inode inum =
      fs.badNodes inode inum (walkGuard - 1) [(buf, some leaf)] [] := by
  have hmode : inode.mode = 0o100600 := by
    rw [hsame.mode, hmade.mode]
    rfl
  have hflags : inode.flags = IFlags.extents := by
    rw [hsame.flags, hmade.flags]
    rfl
  have hmap : inode.hasBlockMap = true := by
    rw [Inode.hasBlockMap, Inode.fileType, hmode]
    rfl
  have hext : inode.usesExtents = true := by
    rw [Inode.usesExtents, hflags]
    rfl
  have hinline : inode.inlineData = false := by
    rw [Inode.inlineData, hflags]
    rfl
  obtain ⟨-, hheader, hindex⟩ := decode_indexBlock hmade.block
  rw [Nat.mod_eq_of_lt hleaf] at hindex
  rw [← hindex] at hread
  have hnext := @badNodes_index fs inode inum (walkGuard - 1) _ _ hheader rfl (by decide) _ hread
  rw [hindex] at hnext
  rw [badExtentChecksums, if_neg (by simp [hasMetadataCsum, hcsum, hext, hmap, hinline]),
    hsame.block]
  exact hnext

/-! ## The leaves as they are written -/

/-- The header of a leaf with all of a file's extents. -/
def leafHeader (extents : List Extent) (blockSize : Nat) (tail : Bool) : ExtentHeader where
  entries := extents.length
  max := ExtentHeader.maxEntries blockSize tail
  depth := 0
  generation := 0

/-- Whether or not room is left for the tail, there is room for it past the last entry. -/
theorem tail_fits {blockSize : Nat} (h : ∃ k, blockSize = 2 ^ k ∧ 10 ≤ k ∧ k ≤ 16) (tail : Bool) :
    Extent.tailOffset (ExtentHeader.maxEntries blockSize tail) + Extent.tailLen ≤ blockSize ∧
      blockSize < Extent.tailOffset (ExtentHeader.maxEntries blockSize tail + 1) := by
  obtain ⟨k, rfl, hlow, hhigh⟩ := h
  have hk : k = 10 ∨ k = 11 ∨ k = 12 ∨ k = 13 ∨ k = 14 ∨ k = 15 ∨ k = 16 := by omega
  rcases hk with rfl | rfl | rfl | rfl | rfl | rfl | rfl <;> cases tail <;> decide

theorem extentLeafBlock_ok {extents : List Extent} {blockSize : Nat} {tail : Bool}
    {buf : List UInt8} (h : extentLeafBlock extents blockSize tail = .ok buf) :
    Extent.headerLen + extents.length * Extent.entryLen ≤ blockSize ∧
      buf = Extent.buildNode blockSize (leafHeader extents blockSize tail) extents := by
  obtain ⟨_, hpanic, h⟩ := Lib.Hoare.bind_ok h
  exact ⟨Nat.not_lt.mp (panicIf_ok hpanic), (Except.ok.inj h).symm⟩

section Written

variable {extents : List Extent} {blockSize : Nat} {tail : Bool} {buf : List UInt8}
  (hsize : ∃ k, blockSize = 2 ^ k ∧ 10 ≤ k ∧ k ≤ 16)
  (h : extentLeafBlock extents blockSize tail = .ok buf)

include hsize h

theorem decode_extentLeafBlock :
    ExtentHeader.decode buf = .ok (leafHeader extents blockSize tail) := by
  obtain ⟨hroom, rfl⟩ := extentLeafBlock_ok h
  obtain ⟨k, hk, hlow, hhigh⟩ := hsize
  have hle : blockSize ≤ 2 ^ 16 := hk ▸ Nat.pow_le_pow_right Nat.two_pos hhigh
  simp only [Extent.headerLen, Extent.entryLen] at hroom
  refine Extent.decode_buildNode ⟨?_, ExtentHeader.maxEntries_lt _ _, Nat.two_pow_pos 16,
    Nat.two_pow_pos 32⟩ ?_
  · dsimp only [leafHeader]
    omega
  · rw [Extent.headerLen]
    omega

/-- No entry reaches the tail. -/
theorem getU32_tail : getU32 buf (Extent.tailOffset (ExtentHeader.maxEntries blockSize tail)) = 0 := by
  obtain ⟨hroom, rfl⟩ := extentLeafBlock_ok h
  obtain ⟨-, hmax⟩ := tail_fits hsize tail
  have hfit := (tail_fits hsize tail).1
  simp only [Extent.headerLen, Extent.entryLen, Extent.tailOffset, Extent.tailLen] at hroom hmax hfit
  rw [getU32, Extent.slice_buildNode (Or.inr (by
    simp only [Extent.headerLen, Extent.entryLen, Extent.tailOffset]
    omega))]
  rw [ExtentHeader.encodeInto]
  simp only [Extent.tailOffset, Extent.headerLen, Extent.entryLen]
  rw [slice_putU32_disjoint (by omega), slice_putU16_disjoint (by omega),
    slice_putU16_disjoint (by omega), slice_putU16_disjoint (by omega),
    slice_putU16_disjoint (by omega), slice, List.drop_replicate, List.take_replicate,
    Nat.min_eq_left (by omega)]
  rfl

end Written

/-- The checksum the orphan file's leaf ought to carry. -/
def orphanLeafSum (plan : Plan) (inum : Nat) : Nat :=
  let extents := orphanExtentsOf 0 plan.orphanRuns
  let header := leafHeader extents plan.geom.blockSize false
  Csum.extentBlockCsum plan.csumSeed inum 0
    ((Extent.buildNode plan.geom.blockSize header extents).take (Extent.tailOffset header.max))

section Tails

variable {plan : Plan} {fs : Filesystem} {inode : Inode} {buf : List UInt8}
  (hsize : ∃ k, plan.geom.blockSize = 2 ^ k ∧ 10 ≤ k ∧ k ≤ 16)
  (hseed : fs.csumSeed = plan.csumSeed) (hgeneration : inode.generation = 0)

include hsize hseed hgeneration

/-- The journal's leaf is written with the checksum a reader looks for. -/
theorem journalLeaf_tail (hcsum : plan.csumScheme = .crc32c)
    (h : journalLeafBlock plan = .ok buf) :
    ∃ header, ExtentHeader.decode buf = .ok header ∧ header.depth = 0 ∧
      fs.badTail inode Ino.journal header buf = false := by
  obtain ⟨node, hnode, h⟩ := Lib.Hoare.bind_ok h
  have htail : plan.csumScheme ≠ .none := by
    rw [hcsum]
    exact nofun
  rw [decide_eq_true htail] at hnode
  rw [if_pos htail] at h
  obtain rfl := Except.ok.inj h
  have hlen := length_extentLeafBlock hnode
  have hdecode := decode_extentLeafBlock hsize hnode
  obtain ⟨hfit, -⟩ := tail_fits hsize true
  have hfit4 : Extent.tailOffset (ExtentHeader.maxEntries plan.geom.blockSize true) + 4 ≤
      node.length := by
    rw [hlen]
    exact hfit
  refine ⟨_, (ExtentHeader.decode_congr (slice_putU32_disjoint (Or.inl ?_))).trans hdecode, rfl, ?_⟩
  · exact Nat.le_add_right _ _
  · rw [badTail_of_room (by rw [length_putU32]; exact hfit4), hseed, hgeneration]
    refine decide_eq_false (not_not.mpr ?_)
    dsimp only [leafHeader]
    rw [getU32_putU32 hfit4 (Csum.extentBlockCsum_lt _ _ _ _), putU32, take_splice (by omega)]

/-- The orphan file's leaf is written with zeroes where its checksum ought to be. -/
theorem orphanLeaf_tail (inum : Nat) (h : extentLeafBlock (orphanExtentsOf 0 plan.orphanRuns)
      plan.geom.blockSize false = .ok buf) :
    ∃ header, ExtentHeader.decode buf = .ok header ∧ header.depth = 0 ∧
      fs.badTail inode inum header buf = decide (orphanLeafSum plan inum ≠ 0) := by
  have hlen := length_extentLeafBlock h
  obtain ⟨hfit, -⟩ := tail_fits hsize false
  refine ⟨_, decode_extentLeafBlock hsize h, rfl, ?_⟩
  rw [badTail_of_room (by rw [hlen]; exact hfit), hseed, hgeneration]
  have hzero := getU32_tail hsize h
  refine decide_eq_decide.mpr ?_
  dsimp only [leafHeader]
  rw [hzero, (extentLeafBlock_ok h).2]
  exact ne_comm

end Tails

/-! ## A table over a leaf -/

theorem setRun_mode {made inode : Inode} {start len : Nat} {extents : Bool}
    (h : setRun made start len extents = .ok inode) : inode.mode = made.mode := by
  unfold setRun at h
  split at h
  · obtain ⟨block, -, h⟩ := Lib.Hoare.bind_ok h
    obtain rfl := Except.ok.inj h
    rfl
  · split at h
    · cases h
    · obtain rfl := Except.ok.inj h
      rfl

theorem setSingleBlock_mode (inode : Inode) (block : Nat) (extents : Bool) :
    (setSingleBlock inode block extents).mode = inode.mode := by
  unfold setSingleBlock
  split
  · next h => exact setRun_mode h
  · rfl

/-- The modes of the reserved inodes: unused ones, directories, and files. -/
theorem reservedInodes_modes {plan : Plan} {inodes : List (Nat × Inode)}
    (h : reservedInodes plan = .ok inodes) :
    ∀ e ∈ inodes, e.2.mode ∈ [0, Mode.ifdir ||| 0o755, Mode.ifdir ||| 0o700, Mode.ifreg ||| 0o600] := by
  obtain ⟨lostFound, hlost, h⟩ := Lib.Hoare.bind_ok h
  obtain rfl := Except.ok.inj h
  have hlost := setRun_mode hlost
  have hroot : (rootInode plan).mode = Mode.ifdir ||| 0o755 := setSingleBlock_mode _ _ _
  have hresize : (resizeInode plan).mode = Mode.ifreg ||| 0o600 := by
    unfold resizeInode
    dsimp only
    split <;> rfl
  have hjournal : (journalInode plan).mode = 0 ∨ (journalInode plan).mode = Mode.ifreg ||| 0o600 := by
    unfold journalInode
    dsimp only
    split
    · exact Or.inl rfl
    · exact Or.inr rfl
  have horphan : (orphanInode plan).mode = Mode.ifreg ||| 0o600 := by
    unfold orphanInode
    dsimp only
    split <;> rfl
  intro e he
  simp only [List.mem_append, List.mem_cons, List.not_mem_nil, or_false, List.mem_map] at he
  rcases he with (((rfl | rfl) | ⟨inum, -, rfl⟩) | rfl | rfl | rfl) | ⟨inum, -, rfl⟩
  · exact List.mem_cons_self
  · simp [hroot]
  · exact List.mem_cons_self
  · simp [hresize]
  · rcases hjournal with hjournal | hjournal <;> simp [hjournal]
  · dsimp only
    rw [hlost]
    simp [stampTimes]
  · simp [horphan]

/-- A block of the table begins with the mode of an inode, or with zeroes: never as a node. -/
theorem withInode_keeps {plan : Plan} {inodes : List (Nat × Inode)}
    (hsize : ∃ k, plan.geom.blockSize = 2 ^ k ∧ 10 ≤ k ∧ k ≤ 16)
    (hinode : ∃ k, plan.geom.inodeSize = 2 ^ k ∧ 7 ≤ k)
    (hle : plan.geom.inodeSize ≤ plan.geom.blockSize) (h : reservedInodes plan = .ok inodes) :
    ∀ e ∈ inodes, ∀ buf : List UInt8,
      buf.length = plan.geom.blockSize ∧ getU16 buf 0 ≠ extentMagic →
        (withInode plan e buf).length = plan.geom.blockSize ∧
          getU16 (withInode plan e buf) 0 ≠ extentMagic := by
  intro e he buf ⟨hlen, hword⟩
  refine ⟨(length_splice _ _ _).trans hlen, ?_⟩
  obtain ⟨ki, hki, hi7⟩ := hinode
  obtain ⟨kb, hkb, hb10, -⟩ := hsize
  have hold : goodOldInodeSize ≤ plan.geom.inodeSize := hki ▸ Nat.pow_le_pow_right Nat.two_pos hi7
  have hat : (e.1 - 1) * plan.geom.inodeSize % plan.geom.blockSize % 2 = 0 := by
    have hi2 : 2 ∣ plan.geom.inodeSize := hki ▸ dvd_pow_self 2 (by omega)
    have hb2 : 2 ∣ plan.geom.blockSize := hkb ▸ dvd_pow_self 2 (by omega)
    rw [Nat.mod_mod_of_dvd _ hb2]
    exact Nat.mod_eq_zero_of_dvd (Dvd.dvd.mul_left hi2 _)
  rw [withInode]
  generalize (e.1 - 1) * plan.geom.inodeSize % plan.geom.blockSize = at' at hat
  rcases Nat.eq_zero_or_pos at' with rfl | hpos
  · -- An inode begins the block.
    have hmode := @Inode.read_encodeWithCsum e.2 _ (plan.csumScheme = .crc32c) plan.csumSeed e.1
      hold 0 0x00 2 _ rfl (by decide)
    have hwhole := @slice_splice _ buf _ 0 _ (Inode.length_encodeWithCsum e.2 plan.geom.inodeSize
      (plan.csumScheme = .crc32c) plan.csumSeed e.1) (by rw [Nat.zero_add, hlen]; exact hle)
    have hfront := @slice_slice _ (splice buf 0 (e.2.encodeWithCsum plan.geom.inodeSize
      (plan.csumScheme = .crc32c) plan.csumSeed e.1)) 0 2 0 plan.geom.inodeSize
      (Nat.le_trans (by decide) hold)
    rw [hwhole, Nat.zero_add] at hfront
    rw [getU16, ← hfront, hmode]
    have hall : ∀ m ∈ [0, Mode.ifdir ||| 0o755, Mode.ifdir ||| 0o700, Mode.ifreg ||| 0o600],
        m % 256 ^ 2 ≠ extentMagic := by
      decide
    exact hall _ (reservedInodes_modes h e he)
  · rwa [getU16, slice_splice_disjoint (Or.inl (by omega))]

/-! ## What is left of a leaf -/

section Left

variable {plan : Plan} (h : plan.Sound)

include h

/-- Under the inodes a block holds no node in the end. -/
theorem Plan.Sound.leaves_no_node {block : Nat}
    (hinode : ∃ k, plan.geom.inodeSize = 2 ^ k ∧ 7 ≤ k)
    (hle : plan.geom.inodeSize ≤ plan.geom.blockSize) (hunder : HoldsInodes plan block) :
    Leaves plan.geom.blockSize block (fun buf => getU16 buf 0 ≠ extentMagic) (writeFiles plan) := by
  refine leaves_last fun _ _ => leaves_last fun _ _ => leaves_last fun _ _ => leaves_last fun _ _ =>
    leaves_last fun _ _ => ?_
  refine Leaves.mono (leaves_writeReservedInodes hunder (fun buf hbuf => hbuf.1) ?_
    (fun inodes hinodes => withInode_keeps h.blockSize hinode hle hinodes) h.blockSize_pos)
    fun _ hbuf => hbuf.2
  refine ⟨List.length_replicate .., ?_⟩
  have hge := h.blockSize_ge
  rw [getU16, slice, List.drop_zero, List.take_replicate, Nat.min_eq_left (by omega)]
  decide

end Left

section Placed

variable {plan : Plan} {params : Params} {journal orphan : FilePlan}
  (hmade : plan.Made plan.geom params journal orphan)

include hmade

/-- With extents nothing is mapped by indirect blocks. -/
theorem Plan.Made.no_maps (hext : usesExtents plan.geom = true) :
    plan.journalIndirect.blocks = [] ∧ plan.orphanIndirect.blocks = [] := by
  have hjournal := hmade.journalPlanned
  obtain ⟨a, horphan⟩ := hmade.orphanPlanned
  rw [hext] at hjournal horphan
  rw [hmade.journalIndirect, hmade.orphanIndirect]
  exact ⟨(planJournal_extends hjournal).2, (planOrphan_extends horphan).2⟩

/-- A journal with a leaf has extents, so it has blocks. -/
theorem Plan.Made.journal_of_leaf {leaf : Nat} (hleaf : leaf ∈ plan.journalExtentLeaf) :
    usesExtents plan.geom = true ∧ blocksOf plan.journalRuns ≠ [] ∧
      journalInodeIBlock [] (some leaf) = .ok plan.journalIBlock := by
  have hsome := hmade.journalLeaf
  rw [hleaf, Option.isSome_some] at hsome
  obtain ⟨hext, hmany⟩ := Bool.and_eq_true_iff.mp hsome.symm
  have hplanned := hmade.journalPlanned
  rw [hext, planJournal] at hplanned
  split at hplanned
  · obtain ⟨rfl, -⟩ := exec_pure_ok hplanned
    cases hmany
  · next hblocks =>
    rw [if_pos rfl] at hplanned
    obtain ⟨a0, a1, hget, hrest⟩ := exec_bind_ok hplanned
    cases hget
    obtain ⟨runs, a2, hruns, hrest⟩ := exec_bind_ok hrest
    obtain ⟨hjournal, -⟩ := exec_pure_ok hrest
    have hne : blocksOf plan.journalRuns ≠ [] := by
      rw [hmade.journalRuns, hjournal]
      intro hnil
      apply hblocks
      rw [← (allocRuns_ok hruns).2.2, ← length_blocksOf, hnil]
      rfl
    have hiblock := hmade.journalIBlock fun hnil => hne (by rw [hmade.journalRuns, hnil]; rfl)
    rw [if_pos hext, hleaf] at hiblock
    exact ⟨hext, hne, hiblock⟩

theorem Plan.Made.orphan_of_leaf {leaf : Nat} (hleaf : leaf ∈ plan.orphanExtentLeaf) :
    usesExtents plan.geom = true ∧ journalInodeIBlock [] (some leaf) = .ok plan.orphanIBlock := by
  have hsome := hmade.orphanLeaf
  rw [hleaf, Option.isSome_some] at hsome
  obtain ⟨hext, hmany⟩ := Bool.and_eq_true_iff.mp hsome.symm
  obtain ⟨a, hplanned⟩ := hmade.orphanPlanned
  rw [hext, planOrphan] at hplanned
  split at hplanned
  · obtain ⟨rfl, -⟩ := exec_pure_ok hplanned
    cases hmany
  · next hblocks =>
    obtain ⟨runs, a1, hruns, hrest⟩ := exec_bind_ok hplanned
    rw [if_pos rfl] at hrest
    obtain ⟨rfl, -⟩ := exec_pure_ok hrest
    have hiblock := hmade.orphanIBlock fun hnil => hblocks (by
      have htotal := (allocRuns_ok hruns).2.2
      dsimp only at hnil
      rw [hnil] at htotal
      exact htotal.symm)
    rw [if_pos hext, hleaf] at hiblock
    exact ⟨hext, hiblock⟩

/-- The leaves come last of what is handed out. -/
theorem Plan.Made.leaves_apart (hnodup : (blocksOf plan.runs).Nodup)
    (hext : usesExtents plan.geom = true) :
    (∀ leaf ∈ plan.journalExtentLeaf, leaf ∉ plan.resizeDind ∧ leaf ∉ blocksOf plan.orphanRuns ∧
      leaf ∉ plan.mmpBlock ∧ leaf ∉ plan.orphanExtentLeaf) ∧
    ∀ leaf ∈ plan.orphanExtentLeaf, leaf ∉ plan.mmpBlock := by
  rw [hmade.order hext] at hnodup
  obtain ⟨hbefore, -, horphan⟩ := List.nodup_append.mp hnodup
  obtain ⟨-, -, hjournal⟩ := List.nodup_append.mp hbefore
  refine ⟨fun leaf hleaf => ⟨fun hin => ?_, fun hin => ?_, fun hin => ?_, fun hin => ?_⟩,
    fun leaf hleaf hin => ?_⟩
  · exact hjournal leaf (by simp [Option.mem_toList.mpr hin]) leaf (Option.mem_toList.mpr hleaf) rfl
  · exact hjournal leaf (by simp [hin]) leaf (Option.mem_toList.mpr hleaf) rfl
  · exact hjournal leaf (by simp [Option.mem_toList.mpr hin]) leaf (Option.mem_toList.mpr hleaf) rfl
  · exact horphan leaf (by simp [Option.mem_toList.mpr hleaf]) leaf (Option.mem_toList.mpr hin) rfl
  · exact horphan leaf (by simp [Option.mem_toList.mpr hin]) leaf (Option.mem_toList.mpr hleaf) rfl

variable (h : plan.Sound)

include h

theorem Plan.Made.leaves_journalLeaf {leaf : Nat} (hleaf : leaf ∈ plan.journalExtentLeaf)
    (hfree : ¬HoldsInodes plan leaf) : Leaves plan.geom.blockSize leaf
      (fun buf => journalLeafBlock plan = .ok buf) (writeFiles plan) := by
  obtain ⟨hext, hruns, -⟩ := hmade.journal_of_leaf hleaf
  obtain ⟨hmap, hmap'⟩ := hmade.no_maps hext
  have hstart : plan.journalStart = some ((blocksOf plan.journalRuns).head hruns) := by
    rw [h.laid.journalStart, List.head?_eq_some_head hruns]
  obtain ⟨happart, -⟩ := hmade.leaves_apart h.laid.nodup hext
  obtain ⟨hdind, hruns, hmmp, horphan⟩ := happart leaf hleaf
  have hplace := h.free (h.laid.journalExtentLeaf leaf hleaf)
  refine leaves_last fun _ _ => leaves_first h.blockSize_pos (leaves_forSome hstart ?_) fun _ _ => ?_
  · refine leaves_last fun _ _ => leaves_last fun _ _ => leaves_first h.blockSize_pos
      (leaves_forSome hleaf (leaves_last fun buf hbuf => ?_)) fun _ _ => ?_
    · exact leaves_writeBlock (length_journalLeafBlock plan hbuf) hbuf
    · refine skips_writeIndirect ?_
      rw [hmap]
      exact nofun
  · refine issues_then (issues_forSome fun dind hsome => ?_) (issues_then
      (issues_forSome fun inum _ => ?_) (issues_then (issues_forSome fun block hsome => ?_)
        (skips_writeReservedInodes hfree)))
    · refine skips_writeResizeInodeBlocks ?_ fun off hoff => h.free_ne_reserved hplace hoff
      rintro rfl
      exact hdind hsome
    · refine skips_writeOrphanFile hruns ?_ ?_
      · rintro other hother rfl
        exact horphan hother
      · rw [hmap']
        exact nofun
    · refine skips_writeBlock (length_mmpContents plan) ?_
      rintro rfl
      exact hmmp hsome

theorem Plan.Made.leaves_orphanLeaf {leaf inum : Nat} (hleaf : leaf ∈ plan.orphanExtentLeaf)
    (hinum : inum ∈ plan.orphanInode) (hfree : ¬HoldsInodes plan leaf) :
    Leaves plan.geom.blockSize leaf (fun buf => extentLeafBlock (orphanExtentsOf 0 plan.orphanRuns)
      plan.geom.blockSize false = .ok buf) (writeFiles plan) := by
  obtain ⟨hext, -⟩ := hmade.orphan_of_leaf hleaf
  obtain ⟨-, hmap⟩ := hmade.no_maps hext
  have hmmp := (hmade.leaves_apart h.laid.nodup hext).2 leaf hleaf
  refine leaves_last fun _ _ => leaves_last fun _ _ => leaves_last fun _ _ =>
    leaves_first h.blockSize_pos (leaves_forSome hinum ?_) fun _ _ => ?_
  · refine leaves_last fun _ _ => leaves_first h.blockSize_pos
      (leaves_forSome hleaf (leaves_last fun buf hbuf => ?_)) fun _ _ => ?_
    · exact leaves_writeBlock (length_extentLeafBlock hbuf) hbuf
    · refine skips_writeIndirect ?_
      rw [hmap]
      exact nofun
  · refine issues_then (issues_forSome fun block hsome => ?_) (skips_writeReservedInodes hfree)
    refine skips_writeBlock (length_mmpContents plan) ?_
    rintro rfl
    exact hmmp hsome

theorem Plan.Made.journal_overLeaf {leaf : Nat} (hleaf : leaf ∈ plan.journalExtentLeaf) :
    OverLeaf (journalInode plan) leaf := by
  obtain ⟨hext, hruns, hiblock⟩ := hmade.journal_of_leaf hleaf
  have hstart : plan.journalStart = some ((blocksOf plan.journalRuns).head hruns) := by
    rw [h.laid.journalStart, List.head?_eq_some_head hruns]
  have hon : extentsOn plan = true := hext
  unfold journalInode
  dsimp only
  rw [hstart]
  exact ⟨rfl, by dsimp only; rw [if_pos hon]; exact Nat.zero_or _, rfl, hiblock⟩

omit h in
theorem Plan.Made.orphan_overLeaf {leaf : Nat} (hleaf : leaf ∈ plan.orphanExtentLeaf) :
    OverLeaf (Format.orphanInode plan) leaf := by
  obtain ⟨hext, hiblock⟩ := hmade.orphan_of_leaf hleaf
  have hon : extentsOn plan = true := hext
  unfold Format.orphanInode
  dsimp only
  rw [if_pos hon]
  exact ⟨rfl, Nat.zero_or _, rfl, hiblock⟩

end Placed

/-! ## The check of a formatted image -/

/-- The check finds no bad node in a file whose extents were written to a leaf, inode and all
read back. -/
structure LeavesChecked (fs : Filesystem) (plan : Plan) : Prop where
  journal : plan.journalExtentLeaf.isSome = true → ∀ inode,
    readBack plan Ino.journal (journalInode plan) = .ok inode →
      fs.badExtentChecksums inode Ino.journal = .ok []
  orphan : plan.orphanExtentLeaf.isSome = true → ∀ inum ∈ plan.orphanInode, ∀ inode,
    readBack plan inum (orphanInode plan) = .ok inode → fs.badExtentChecksums inode inum = .ok []

/-- No leaf lies under the inodes, and the checksum the orphan file's leaf goes without is
zero. -/
structure LeavesSummed (plan : Plan) : Prop where
  journal : ∀ leaf ∈ plan.journalExtentLeaf, ¬HoldsInodes plan leaf
  orphan : ∀ leaf ∈ plan.orphanExtentLeaf, ∀ inum ∈ plan.orphanInode,
    ¬HoldsInodes plan leaf ∧ orphanLeafSum plan inum = 0

/-- An index has 48 bits for the leaf it names. -/
def LeavesNamed (plan : Plan) : Prop :=
  ∀ leaf, leaf ∈ plan.journalExtentLeaf ∨ leaf ∈ plan.orphanExtentLeaf → leaf < 2 ^ 48

/-- A plan and the image a format of it left. -/
structure Formatted (plan : Plan) (chunkBlocks : Nat) (schedule : Nat → List Nat)
    (dev : Device) (report : Report) (dev' : Device) (fs : Filesystem) : Prop where
  sound : plan.Sound
  inodeSize : ∃ k, plan.geom.inodeSize = 2 ^ k ∧ 7 ≤ k
  inode_le : plan.geom.inodeSize ≤ plan.geom.blockSize
  covers : plan.geom.blocksCount * plan.geom.blockSize ≤ dev.size
  size : dev.size < 2 ^ 64
  csumScheme : plan.csumScheme = .crc32c
  written : writePlan plan chunkBlocks schedule dev = (.ok report, dev')
  mounted : Mounts plan dev' fs

section Checked

variable {plan : Plan} {chunkBlocks : Nat} {schedule : Nat → List Nat} {dev dev' : Device}
  {report : Report} {fs : Filesystem} (h : Formatted plan chunkBlocks schedule dev report dev' fs)

include h

/-- A block that was handed out and is left with `Q` by the files is read back with it. -/
theorem Formatted.read {block : Nat} {Q : List UInt8 → Prop} (hblock : block ∈ blocksOf plan.runs)
    (hfiles : Leaves plan.geom.blockSize block Q (writeFiles plan)) :
    ∃ buf, fs.readBlock block = .ok buf ∧ Q buf := by
  obtain ⟨buf, hread, -, hQ⟩ := h.mounted.read h.written h.covers h.size h.sound.blockSize_pos
    (h.sound.laid.free block hblock).2 (h.sound.leaves_of_files
      (fun _ hg hsuper => h.sound.free_ne_front (h.sound.free hblock) hg hsuper) hfiles)
  exact ⟨buf, hread, hQ⟩

/-- The check fails at a leaf under the inodes. -/
theorem Formatted.not_checked {made inode : Inode} {leaf inum : Nat} (hmade : OverLeaf made leaf)
    (hsame : SameMap made inode) (hleaf : leaf < 2 ^ 48) (hblock : leaf ∈ blocksOf plan.runs)
    (hunder : HoldsInodes plan leaf) : fs.badExtentChecksums inode inum ≠ .ok [] := by
  obtain ⟨buf, hread, hword⟩ := h.read hblock
    (h.sound.leaves_no_node h.inodeSize h.inode_le hunder)
  rw [badExtentChecksums_overLeaf hmade hsame (h.mounted.csumScheme.trans h.csumScheme) hleaf hread]
  exact badNodes_error (if_pos hword) _ _ _

theorem Formatted.sameMap {made inode : Inode} {leaf inum : Nat} (hmade : OverLeaf made leaf)
    (hback : readBack plan inum made = .ok inode) : SameMap made inode := by
  obtain ⟨k, hk, hlow⟩ := h.inodeSize
  obtain ⟨inode', hok, hsame⟩ := readBack_ok plan inum
    (hk ▸ Inode.encodable_two_pow hlow : Inode.Encodable plan.geom.inodeSize)
    (decode_indexBlock hmade.block).1
  obtain rfl : inode = inode' := Except.ok.inj (hback.symm.trans hok)
  exact hsame

/-- The check of a leaf that is read back as it was written. -/
theorem Formatted.checked_iff {made inode : Inode} {leaf inum : Nat} (hmade : OverLeaf made leaf)
    (hback : readBack plan inum made = .ok inode) (hname : leaf < 2 ^ 48) {buf : List UInt8}
    (hread : fs.readBlock leaf = .ok buf) {header : ExtentHeader}
    (hdecode : ExtentHeader.decode buf = .ok header) (hdepth : header.depth = 0) :
    fs.badExtentChecksums inode inum = .ok [] ↔ fs.badTail inode inum header buf = false := by
  rw [badExtentChecksums_overLeaf hmade (h.sameMap hmade hback)
    (h.mounted.csumScheme.trans h.csumScheme) hname hread]
  rw [show walkGuard - 1 = 999998 + 1 from rfl, badNodes_leaf hdecode hdepth]
  cases fs.badTail inode inum header buf with
  | true => exact ⟨nofun, nofun⟩
  | false => exact ⟨fun _ => rfl, fun _ => rfl⟩

variable {params : Params} {journal orphan : FilePlan}
  (hmade : plan.Made plan.geom params journal orphan) {inode : Inode} {leaf inum : Nat}

include hmade

theorem Formatted.journal_checked_iff (hleaf : leaf ∈ plan.journalExtentLeaf)
    (hname : leaf < 2 ^ 48) (hback : readBack plan Ino.journal (journalInode plan) = .ok inode) :
    fs.badExtentChecksums inode Ino.journal = .ok [] ↔ ¬HoldsInodes plan leaf := by
  have hover := hmade.journal_overLeaf h.sound hleaf
  have hsame := h.sameMap hover hback
  have hblock := h.sound.laid.journalExtentLeaf leaf hleaf
  refine ⟨fun hgood hunder => h.not_checked hover hsame hname hblock hunder hgood, fun hfree => ?_⟩
  obtain ⟨buf, hread, hbuf⟩ := h.read hblock (hmade.leaves_journalLeaf h.sound hleaf hfree)
  obtain ⟨header, hdecode, hdepth, htail⟩ := journalLeaf_tail h.sound.blockSize
    (h.mounted.csumSeed h.csumScheme) (hsame.generation.trans (by rw [hover.generation, Nat.zero_mod]))
    h.csumScheme hbuf
  exact (h.checked_iff hover hback hname hread hdecode hdepth).mpr htail

theorem Formatted.orphan_checked_iff (hleaf : leaf ∈ plan.orphanExtentLeaf)
    (hinum : inum ∈ plan.orphanInode) (hname : leaf < 2 ^ 48)
    (hback : readBack plan inum (orphanInode plan) = .ok inode) :
    fs.badExtentChecksums inode inum = .ok [] ↔
      ¬HoldsInodes plan leaf ∧ orphanLeafSum plan inum = 0 := by
  have hover := hmade.orphan_overLeaf hleaf
  have hsame := h.sameMap hover hback
  have hblock := h.sound.laid.orphanExtentLeaf leaf hleaf
  by_cases hunder : HoldsInodes plan leaf
  · exact ⟨fun hgood => absurd hgood (h.not_checked hover hsame hname hblock hunder),
      fun hfree => absurd hunder hfree.1⟩
  · obtain ⟨buf, hread, hbuf⟩ := h.read hblock (hmade.leaves_orphanLeaf h.sound hleaf hinum hunder)
    obtain ⟨header, hdecode, hdepth, htail⟩ := orphanLeaf_tail h.sound.blockSize
      (h.mounted.csumSeed h.csumScheme) (hsame.generation.trans (by rw [hover.generation, Nat.zero_mod])) inum hbuf
    rw [h.checked_iff hover hback hname hread hdecode hdepth, htail]
    simp [hunder]

end Checked

/-- What the format of a plan made for the device gives a reader. -/
theorem formatted_of_plan {dev dev' : Device} {params : Params} {ambient : Ambient} {p : Plan}
    (htyped : params.Typed) (hplan : plan dev.size params ambient = .ok p)
    (hsize : dev.size < 2 ^ 64) (hcsum : p.csumScheme = .crc32c) {chunkBlocks : Nat}
    {schedule : Nat → List Nat} {report : Report} {fs : Filesystem}
    (hrun : writePlan p chunkBlocks schedule dev = (.ok report, dev')) (hfs : Mounts p dev' fs) :
    Formatted p chunkBlocks schedule dev report dev' fs := by
  obtain ⟨hgeom, -⟩ := plan_made hplan
  obtain ⟨req, start, descSize, s, grp, -, hfrom⟩ := compute_from hgeom
  obtain ⟨descSize, hmade, hfin⟩ := hfrom.made
  refine ⟨plan_sound htyped hplan, ?_, ?_, hfrom.blocks_le, hsize, hcsum, hrun, hfs⟩
  · rw [hfin.inodeSize]
    exact hmade.inode_pow
  · rw [hfin.inodeSize, hfin.blockSize]
    exact hmade.inode_le

/-- On a filesystem with metadata checksums the check finds no bad leaf, exactly when none lies
under group 0's inodes and the orphan file has no leaf whose checksum is not zero. A leaf past
the 48 bits of an index takes a device of more than 2^58 bytes. -/
theorem leavesChecked_iff {dev : Device} {params : Params} {ambient : Ambient} {p : Plan}
    (htyped : params.Typed) (hsector : dev.logicalSectorSize < 2 ^ 32) (hsize : dev.size < 2 ^ 64)
    (hplan : plan dev.size (onDevice params dev) ambient = .ok p)
    (hcsum : p.csumScheme = .crc32c) :
    (∀ dev' fs freeBlocks freeInodes,
      withSuperblock dev' (buildSuperblock p freeBlocks freeInodes) = .ok fs → Mounts p dev' fs) ∧
    (dev.size ≤ 2 ^ 58 → LeavesNamed p) ∧
    (LeavesNamed p → ∀ chunkBlocks schedule report dev' fs,
      writePlan p chunkBlocks schedule dev = (.ok report, dev') → Mounts p dev' fs →
        (LeavesChecked fs p ↔ LeavesSummed p)) := by
  have htyped := onDevice_typed htyped hsector
  obtain ⟨hgeom, journal, orphan, hmade⟩ := plan_made hplan
  have hsound := plan_sound htyped hplan
  refine ⟨fun _ _ _ _ hfs => mounts_of_superblock hplan hfs, fun hsmall leaf hleaf => ?_,
    fun hname chunkBlocks schedule report dev' fs hrun hfs => ?_⟩
  · obtain ⟨req, start, descSize, s, grp, -, hfrom⟩ := compute_from hgeom
    have hblock : leaf ∈ blocksOf p.runs :=
      hleaf.elim (hsound.laid.journalExtentLeaf leaf) (hsound.laid.orphanExtentLeaf leaf)
    have hcount := (hsound.laid.free leaf hblock).2
    have hbytes := Nat.mul_le_mul_left p.geom.blocksCount hsound.blockSize_ge
    have hfits := hfrom.blocks_le
    omega
  have h := formatted_of_plan htyped hplan hsize hcsum hrun hfs
  have hback : ∀ {made : Inode} {leaf inum : Nat}, OverLeaf made leaf →
      ∃ inode, readBack p inum made = .ok inode := by
    intro made leaf inum hover
    obtain ⟨k, hk, hlow⟩ := h.inodeSize
    obtain ⟨inode, hok, -⟩ := readBack_ok p inum
      (hk ▸ Inode.encodable_two_pow hlow : Inode.Encodable p.geom.inodeSize)
      (decode_indexBlock hover.block).1
    exact ⟨inode, hok⟩
  constructor
  · intro hgood
    refine ⟨fun leaf hleaf => ?_, fun leaf hleaf inum hinum => ?_⟩
    · obtain ⟨inode, hok⟩ := hback (hmade.journal_overLeaf hsound hleaf)
      exact (h.journal_checked_iff hmade hleaf (hname leaf (Or.inl hleaf)) hok).mp
        (hgood.journal (Option.isSome_of_mem hleaf) inode hok)
    · obtain ⟨inode, hok⟩ := hback (hmade.orphan_overLeaf hleaf)
      exact (h.orphan_checked_iff hmade hleaf hinum (hname leaf (Or.inr hleaf)) hok).mp
        (hgood.orphan (Option.isSome_of_mem hleaf) inum hinum inode hok)
  · intro hsum
    refine ⟨fun hsome inode hok => ?_, fun hsome inum hinum inode hok => ?_⟩
    · obtain ⟨leaf, hleaf⟩ := Option.isSome_iff_exists.mp hsome
      exact (h.journal_checked_iff hmade hleaf (hname leaf (Or.inl hleaf)) hok).mpr
        (hsum.journal leaf hleaf)
    · obtain ⟨leaf, hleaf⟩ := Option.isSome_iff_exists.mp hsome
      exact (h.orphan_checked_iff hmade hleaf hinum (hname leaf (Or.inr hleaf)) hok).mpr
        (hsum.orphan leaf hleaf inum hinum)

/-- Groups too small for an orphan file in one piece. -/
def splinteredParams : Params :=
  { blockSize := some 1024, blocksPerGroup := some 16, flexBgSize := some 2,
    inodesCount := some 128, inodeSize := some 128, journal := .blocks 8 }

theorem splinteredParams_typed : splinteredParams.Typed :=
  { Params.typed_default with
    blockSize := fun n hn => by cases hn; decide
    blocksPerGroup := fun n hn => by cases hn; decide
    flexBgSize := fun n hn => by cases hn; decide
    inodesCount := fun n hn => by cases hn; decide
    inodeSize := fun n hn => by cases hn; decide
    journal := fun n hn => by cases hn; decide }

def splinteredDevice : Device := .ofChunks (129 * 1024) []

def splintered : Geometry where
  blockSize := 1024
  logBlockSize := 0
  blocksCount := 129
  firstDataBlock := 1
  blocksPerGroup := 16
  rBlocksCount := 6
  inodesCount := 128
  inodesPerGroup := 16
  inodeSize := 128
  itableBlocksPerGroup := 2
  groupCount := 8
  descSize := 64
  descBlocks := 1
  reservedGdtBlocks := 0
  logGroupsPerFlex := 1
  metaBg := true
  firstMetaBg := 0
  features := { compat := 0x102c, incompat := 0x22d2, roCompat := 0x46b }

theorem splintered_computed :
    compute splinteredDevice.size (onDevice splinteredParams splinteredDevice) = .ok splintered := by
  decide +kernel

theorem splintered_placed :
    ∀ g < 8, (splintered.placeFlex (splintered.flexFirstGroup g)).isOk = true := by
  decide +kernel

/-- The orphan file comes in six runs, and its leaf ought to carry a checksum. -/
theorem splintered_planned :
    (Format.plan splinteredDevice.size (onDevice splinteredParams splinteredDevice) {}).toOption.any
      (fun plan => (writeFront plan).result.isOk && (writeFiles plan).result.isOk &&
        decide (plan.csumScheme = .crc32c) && decide (plan.orphanExtentLeaf = some 84) &&
        decide (plan.orphanInode = some 12) && decide (orphanLeafSum plan 12 ≠ 0)) = true := by
  decide +kernel

/-- A format of the device with small groups runs to its end, and what it leaves opens. -/
theorem splintered_written : ∃ plan report dev' fs,
    Format.plan splinteredDevice.size (onDevice splinteredParams splinteredDevice) {} = .ok plan ∧
      plan.csumScheme = .crc32c ∧ plan.orphanExtentLeaf = some 84 ∧ plan.orphanInode = some 12 ∧
      writePlan plan gdtChunkBlocks (fun _ => []) splinteredDevice = (.ok report, dev') ∧
      withSuperblock dev' (buildSuperblock plan report.freeBlocksCount report.freeInodesCount) =
        .ok fs := by
  have htyped : (onDevice splinteredParams splinteredDevice).Typed :=
    onDevice_typed splinteredParams_typed (by decide)
  have hok := splintered_planned
  cases hplan : Format.plan splinteredDevice.size (onDevice splinteredParams splinteredDevice) {} with
  | error e =>
    rw [hplan] at hok
    cases hok
  | ok plan =>
    rw [hplan] at hok
    simp only [Except.toOption, Option.any_some, Bool.and_eq_true, decide_eq_true_eq] at hok
    obtain ⟨⟨⟨⟨⟨hfront, hfiles⟩, hcsum⟩, hleaf⟩, hinum⟩, -⟩ := hok
    obtain ⟨geom, hgeom, -, hfor⟩ := plan_ok hplan
    obtain rfl : splintered = geom := Except.ok.inj (splintered_computed.symm.trans hgeom)
    have hgeom := hfor.geom
    have hfit : CopiesFit plan (max gdtChunkBlocks 1) := by
      intro copy hcopy
      have hnone : classicCopies plan.geom = [] := by
        rw [hgeom]
        decide +kernel
      rw [hnone] at hcopy
      exact absurd hcopy List.not_mem_nil
    obtain ⟨report, dev', fs, hrun, hfs⟩ := written_of_plan htyped hplan (by decide)
      (by rw [hgeom]; decide) (by rw [hgeom]; decide) (by rw [hgeom]; exact splintered_placed) hfit
      hfront hfiles
    exact ⟨plan, report, dev', fs, rfl, hcsum, hleaf, hinum, hrun, hfs⟩

/-- The check finds the orphan file's leaf bad on an image that was just formatted. -/
theorem splintered_unsummed : ∃ plan report dev' fs inode,
    Format.plan splinteredDevice.size (onDevice splinteredParams splinteredDevice) {} = .ok plan ∧
      plan.csumScheme = .crc32c ∧ plan.orphanExtentLeaf.isSome = true ∧
      writePlan plan gdtChunkBlocks (fun _ => []) splinteredDevice = (.ok report, dev') ∧
      withSuperblock dev' (buildSuperblock plan report.freeBlocksCount report.freeInodesCount) =
        .ok fs ∧
      readBack plan 12 (orphanInode plan) = .ok inode ∧
      fs.badExtentChecksums inode 12 ≠ .ok [] := by
  obtain ⟨plan, report, dev', fs, hplan, hcsum, hleaf, hinum, hrun, hfs⟩ := splintered_written
  have htyped : (onDevice splinteredParams splinteredDevice).Typed :=
    onDevice_typed splinteredParams_typed (by decide)
  obtain ⟨hgeom, journal, orphan, hmade⟩ := plan_made hplan
  have h := formatted_of_plan htyped hplan (by decide) hcsum hrun (mounts_of_superblock hplan hfs)
  have hover := hmade.orphan_overLeaf hleaf
  obtain ⟨k, hk, hlow⟩ := h.inodeSize
  obtain ⟨inode, hok, -⟩ := readBack_ok plan 12
    (hk ▸ Inode.encodable_two_pow hlow : Inode.Encodable plan.geom.inodeSize)
    (decode_indexBlock hover.block).1
  have hsum := splintered_planned
  rw [hplan] at hsum
  have hsum : decide (orphanLeafSum plan 12 ≠ 0) = true := (Bool.and_eq_true_iff.mp hsum).2
  refine ⟨plan, report, dev', fs, inode, hplan, hcsum, by rw [hleaf]; rfl, hrun, hfs, hok,
    fun hgood => ?_⟩
  have hzero := ((h.orphan_checked_iff hmade hleaf hinum (by decide) hok).mp hgood).2
  exact of_decide_eq_true hsum hzero

theorem leavesChecked_iff_splintered : ∃ plan report dev' fs,
    Format.plan splinteredDevice.size (onDevice splinteredParams splinteredDevice) {} = .ok plan ∧
      writePlan plan gdtChunkBlocks (fun _ => []) splinteredDevice = (.ok report, dev') ∧
      Mounts plan dev' fs ∧ (LeavesChecked fs plan ↔ LeavesSummed plan) := by
  obtain ⟨plan, report, dev', fs, hplan, hcsum, -, -, hrun, hfs⟩ := splintered_written
  obtain ⟨hmounts, hnamed, hiff⟩ :=
    leavesChecked_iff splinteredParams_typed (by decide) (by decide) hplan hcsum
  have hmounts := hmounts _ _ _ _ hfs
  exact ⟨plan, report, dev', fs, hplan, hrun, hmounts,
    hiff (hnamed (by decide)) _ _ _ _ _ hrun hmounts⟩

end Format

end MkfsExt4
