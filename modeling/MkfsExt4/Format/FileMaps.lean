/-
  The maps of the formatter's files (`src/format.rs` against `resolve_block` of `src/fs.rs`): the
  root directory, `lost+found`, the journal and the orphan file.

  A file is mapped by extents, in its inode or in a leaf that its inode names, or by pointers and
  indirect blocks. Either way each of its logical blocks resolves to the block that was handed out
  for it, and no other logical block is mapped.
-/
import MkfsExt4.Format.Extents
import MkfsExt4.Format.InodeTable
import MkfsExt4.Format.Leaves
import MkfsExt4.Format.Mapped
import MkfsExt4.Structs.ExtentNode

namespace MkfsExt4.Format

open Lib.Hoare Lib.Store Lib.Trace Layout Filesystem

/-! ## What extents map -/

theorem mem_runExtents {fuel logical start len : Nat} {e : Extent}
    (he : e ∈ runExtents fuel logical start len) : logical ≤ e.block ∧
      e.block + e.len ≤ logical + len ∧ start ≤ e.start ∧ e.start + e.len ≤ start + len ∧
      0 < e.len ∧ e.len < Extent.initMaxLen := by
  induction fuel generalizing logical start len with
  | zero => exact absurd he List.not_mem_nil
  | succ fuel ih =>
    rw [runExtents] at he
    split at he
    · exact absurd he List.not_mem_nil
    · have hmax : Extent.initMaxLen = 32768 := rfl
      rcases List.mem_cons.mp he with rfl | he
      · dsimp only
        omega
      · have hrest := ih he
        omega

theorem mapped_runExtents {fuel logical start len : Nat} (h : len ≤ fuel) (k : Nat) :
    Extent.mapped (runExtents fuel logical start len) k =
      if logical ≤ k ∧ k < logical + len then some (start + (k - logical)) else none := by
  induction fuel generalizing logical start len with
  | zero =>
    rw [if_neg (by omega)]
    rfl
  | succ fuel ih =>
    rw [runExtents]
    split
    · next h0 =>
      rw [if_neg (by omega)]
      rfl
    · have hmax : Extent.initMaxLen = 32768 := rfl
      generalize hchunk : min len (Extent.initMaxLen - 1) = chunk
      have heffective : ({ block := logical, len := chunk, start } : Extent).effectiveLen = chunk :=
        if_neg (by dsimp only; omega)
      by_cases hin : logical ≤ k ∧ k < logical + chunk
      · have hholds : Extent.holds k { block := logical, len := chunk, start } = true :=
          decide_eq_true (by rw [heffective]; exact hin)
        rw [Extent.mapped, List.find?_cons_of_pos hholds, if_pos (by omega)]
        rfl
      · have hholds : ¬Extent.holds k { block := logical, len := chunk, start } = true := fun h =>
          hin (by rw [← heffective]; exact of_decide_eq_true h)
        rw [Extent.mapped, List.find?_cons_of_neg hholds]
        refine (ih (by omega)).trans ?_
        split
        · rw [if_pos (by omega)]
          congr 1
          omega
        · rw [if_neg (by omega)]

/-- Extents over runs map the blocks of the runs in order. -/
theorem mapped_journalExtentsOf {logical : Nat} {runs : List Run} {k : Nat} (hlow : logical ≤ k) :
    Extent.mapped (journalExtentsOf logical runs) k = (blocksOf runs)[k - logical]? := by
  induction runs generalizing logical with
  | nil => rfl
  | cons r runs ih =>
    have hlen : r.blocks.length = r.len := List.length_range'
    rw [journalExtentsOf, Extent.mapped_append, mapped_runExtents (Nat.le_refl _), blocksOf_cons]
    by_cases hin : k < logical + r.len
    · rw [if_pos ⟨hlow, hin⟩, List.getElem?_append_left (by omega), Run.blocks,
        List.getElem?_range' (by omega), Nat.one_mul]
      rfl
    · rw [if_neg fun h => hin h.2, List.getElem?_append_right (by omega), hlen, ih (by omega),
        Option.none_or]
      congr 1
      omega

theorem typed_journalExtentsOf {logical : Nat} {runs : List Run}
    (hshort : logical + total runs < 2 ^ 32) (hnear : ∀ b ∈ blocksOf runs, b < 2 ^ 48) :
    ∀ e ∈ journalExtentsOf logical runs, e.Typed := by
  induction runs generalizing logical with
  | nil => exact fun e he => absurd he List.not_mem_nil
  | cons r runs ih =>
    have htotal : total (r :: runs) = r.len + total runs := rfl
    have hmax : Extent.initMaxLen = 32768 := rfl
    intro e he
    rcases List.mem_append.mp he with he | he
    · obtain ⟨-, hblock, hlow, hstart, hpos, hlen⟩ := mem_runExtents he
      refine ⟨by omega, by omega, hnear e.start ?_⟩
      rw [blocksOf_cons]
      exact List.mem_append_left _ (Run.mem_blocks.mpr ⟨hlow, by omega⟩)
    · refine ih (by omega) (fun b hb => hnear b ?_) e he
      rw [blocksOf_cons]
      exact List.mem_append_right _ hb

/-- The orphan file's runs are too short to be split, so it has the extents a journal would. -/
theorem orphanExtentsOf_eq {logical : Nat} {runs : List Run} (hpos : ∀ r ∈ runs, 0 < r.len)
    (hshort : total runs ≤ 512) : orphanExtentsOf logical runs = journalExtentsOf logical runs := by
  induction runs generalizing logical with
  | nil => rfl
  | cons r runs ih =>
    have htotal : total (r :: runs) = r.len + total runs := rfl
    have hmax : Extent.initMaxLen = 32768 := rfl
    have hfirst := hpos r List.mem_cons_self
    obtain ⟨n, hn⟩ : ∃ n, r.len = n + 1 := ⟨r.len - 1, by omega⟩
    have hone : runExtents r.len logical r.start r.len =
        [{ block := logical, len := r.len % 2 ^ 16, start := r.start }] := by
      rw [hn, runExtents, if_neg (Nat.succ_ne_zero n), Nat.min_eq_left (by omega)]
      dsimp only
      rw [Nat.sub_self, Nat.mod_eq_of_lt (by omega)]
      cases n <;> rfl
    rw [orphanExtentsOf, journalExtentsOf, hone,
      ih (fun s hs => hpos s (List.mem_cons_of_mem r hs)) (by omega)]
    rfl

/-! ## Inodes of files -/

/-- The inode of a directory or a regular file as the formatter makes it. -/
structure IsFile (made : Inode) (extents : Bool) : Prop where
  mode : made.mode ∈ [Mode.ifdir ||| 0o755, Mode.ifdir ||| 0o700, Mode.ifreg ||| 0o600]
  flags : made.flags = if extents then IFlags.extents else 0

theorem SameMap.isFile {made inode : Inode} {extents : Bool} (h : SameMap made inode)
    (hfile : IsFile made extents) :
    inode.hasBlockMap = true ∧ inode.usesExtents = extents ∧ inode.inlineData = false := by
  have hflags : inode.flags = if extents then IFlags.extents else 0 := by
    rw [h.flags, hfile.flags]
    cases extents <;> rfl
  refine ⟨?_, ?_, ?_⟩
  · have hmode := h.mode
    have hmade := hfile.mode
    simp only [List.mem_cons, List.not_mem_nil, or_false] at hmade
    unfold Inode.hasBlockMap Inode.fileType
    rcases hmade with hmade | hmade | hmade <;> rw [hmode, hmade] <;> rfl
  · rw [Inode.usesExtents, hflags]
    cases extents <;> rfl
  · rw [Inode.inlineData, hflags]
    cases extents <;> rfl

section Extents

variable {fs : Filesystem} {inode : Inode} {extents : List Extent}
  (hmap : inode.hasBlockMap = true) (hext : inode.usesExtents = true)
  (htyped : ∀ e ∈ extents, e.Typed)

include hmap hext htyped

/-- Extents in an inode are what a block resolves by. -/
theorem resolveBlock_inline (hblock : Extent.buildInline extents = .ok inode.block) (k : Nat) :
    fs.resolveBlock inode k = .ok (Extent.mapped extents k) := by
  obtain ⟨hfit, hnode⟩ := Extent.buildInline_ok hblock
  have hentries := Extent.entries_inline hfit
  have hdecode := Extent.decode_inline hfit
  rw [← hnode] at hentries hdecode
  rw [resolveBlock, hmap, if_neg (by decide), hext, if_pos rfl, resolveExtent, resolveNode,
    Lib.Hoare.bind_of_ok (returned_ok_iff.mpr hdecode)]
  exact (if_pos rfl).trans (Extent.findExtent_eq hentries htyped k rfl)

/-- So are extents in a leaf that the inode names. -/
theorem resolveBlock_leaf {leaf : Nat} {buf : List UInt8} {header : ExtentHeader}
    (hblock : journalInodeIBlock [] (some leaf) = .ok inode.block) (hleaf : leaf < 2 ^ 48)
    (hread : fs.readBlock leaf = .ok buf) (hdecode : ExtentHeader.decode buf = .ok header)
    (hdepth : header.depth = 0) (hcount : header.entries = extents.length)
    (hentries : Extent.Entries buf extents) (k : Nat) :
    fs.resolveBlock inode k = .ok (Extent.mapped extents k) := by
  obtain ⟨hlen, hheader, hindex⟩ := decode_indexBlock hblock
  rw [Nat.mod_eq_of_lt hleaf] at hindex
  have hfirst : (ExtentIdx.decode (Extent.entry inode.block 0)).block = 0 := by
    rw [entry_indexBlock hblock, ExtentIdx.decode, ExtentIdx.encode, getU32,
      slice_putU16_disjoint (by omega), slice_putU16_disjoint (by omega),
      slice_putU32_disjoint (by omega), slice_putU32_self (by simp [Extent.entryLen])]
    exact Lib.Endian.ofLe_toLe_of_lt (Nat.two_pow_pos 32)
  have hchild : findIndex inode.block k 1 0 none = .ok (some leaf) := by
    have hentry : nodeEntry inode.block 0 = .ok (Extent.entry inode.block 0) :=
      panicIf_bind_ok_iff.mpr ⟨by rw [hlen]; decide, rfl⟩
    rw [findIndex, Lib.Hoare.bind_of_ok hentry]
    dsimp only
    rw [hfirst, if_pos (Nat.zero_le k), hindex]
    rfl
  rw [resolveBlock, hmap, if_neg (by decide), hext, if_pos rfl, resolveExtent, resolveNode,
    Lib.Hoare.bind_of_ok (returned_ok_iff.mpr hheader)]
  refine (if_neg (by decide)).trans ?_
  rw [show indexHeader.entries = 1 from rfl, Lib.Hoare.bind_of_ok hchild]
  dsimp only
  rw [Lib.Hoare.bind_of_ok hread, resolveNode, Lib.Hoare.bind_of_ok (returned_ok_iff.mpr hdecode)]
  exact (if_pos hdepth).trans (Extent.findExtent_eq hentries htyped k hcount)

end Extents

section Pointers

variable {fs : Filesystem} {inode : Inode} (hmap : inode.hasBlockMap = true)
  (hext : inode.usesExtents = false)

include hmap hext

/-- Pointers to as many blocks as an inode has direct ones for, and no others. -/
theorem resolveBlock_direct (hfits : SpansFit fs.perBlock) {data : List Nat}
    (hlen : data.length ≤ ndirBlocks)
    (hpointers : inode.blockPointers = data ++ List.replicate (nBlocks - data.length) 0)
    (hpos : ∀ b ∈ data, b ≠ 0) (k : Nat) : fs.resolveBlock inode k = .ok data[k]? := by
  have hget : ∀ i, (data ++ List.replicate (nBlocks - data.length) 0).getD i 0 =
      data[i]?.getD 0 := by
    intro i
    rw [List.getD_eq_getElem?_getD]
    rcases Nat.lt_or_ge i data.length with hlt | hge
    · rw [List.getElem?_append_left hlt]
    · rw [List.getElem?_append_right hge, List.getElem?_eq_none hge, List.getElem?_replicate]
      split <;> rfl
  have hslot : ∀ slot, ndirBlocks ≤ slot → data[slot]?.getD 0 = 0 := by
    intro slot hslot
    rw [List.getElem?_eq_none (Nat.le_trans hlen hslot)]
    rfl
  rw [resolveBlock, hmap, if_neg (by decide), hext, if_neg (by decide), hpointers]
  dsimp only
  rw [hget]
  split
  · cases hk : data[k]? with
    | none => rfl
    | some b => exact if_neg (hpos b (List.mem_of_getElem? hk)) ▸ rfl
  · next hfar =>
    rw [List.getElem?_eq_none (by omega)]
    refine resolveSlots_empty hfits fun s hs => ?_
    rw [hget]
    simp only [List.mem_cons, List.not_mem_nil, or_false] at hs
    rcases hs with rfl | rfl | rfl
    · exact ⟨(by decide : 1 ≤ 3), hslot _ (Nat.le_refl _)⟩
    · exact ⟨(by decide : 2 ≤ 3), hslot _ (Nat.le_succ _)⟩
    · exact ⟨(by decide : 3 ≤ 3), hslot _ (Nat.le_add_right _ 2)⟩

/-- Writing a map where it stands changes nothing, so an inode over a map that stands on the device
resolves by it. -/
theorem resolveBlock_map {map : IndirectMap} {data : List Nat}
    (hresolves : ResolvesTo fs.blockSize map data) (hinline : inode.inlineData = false)
    (hblock : inode.block = pointerIBlock map)
    (hstands : ∀ c ∈ map.blocks, c.1 < fs.superblock.blocksCount ∧
      fs.readBlock c.1 = .ok (pointerBlock fs.blockSize c.2)) (k : Nat) :
    fs.resolveBlock inode k = .ok data[k]? := by
  have hruns : ∀ blocks ⊆ map.blocks, runOps (blocks.map fun c =>
      .write (c.1 * fs.blockSize) (pointerBlock fs.blockSize c.2)) fs.device = (.ok (), fs.device) := by
    intro blocks hsub
    induction blocks with
    | nil => rfl
    | cons c blocks ih =>
      obtain ⟨-, hread⟩ := hstands c (hsub List.mem_cons_self)
      obtain ⟨-, -, hin, hbuf⟩ := readBlock_ok_iff.mp hread
      have hsame : overlay fs.device.bytes (c.1 * fs.blockSize) (pointerBlock fs.blockSize c.2) =
          fs.device.bytes := by
        funext p
        rw [hbuf, overlay_apply _ _ _ _ 0, length_window]
        split
        · next hp => rw [getD_window _ _ _ _ _ (by omega), Nat.add_sub_cancel' hp.1]
        · rfl
      have hone : Op.run (.write (c.1 * fs.blockSize) (pointerBlock fs.blockSize c.2)) fs.device =
          .ok fs.device := by
        simp only [Op.run, Device.writeAt, checkBounds, length_pointerBlock]
        rw [if_pos hin, hsame]
        rfl
      rw [List.map_cons, runOps, hone]
      exact ih fun c hc => hsub (List.mem_cons_of_mem _ hc)
  exact (hresolves fs fs.device inode rfl (fun c hc => (hstands c hc).1)
    (hruns map.blocks (List.Subset.refl _)) hmap hext hinline hblock).1 k

end Pointers

/-! ## Leaves -/

/-- A leaf with these extents. -/
def IsLeaf (extents : List Extent) (buf : List UInt8) : Prop :=
  ∃ header, ExtentHeader.decode buf = .ok header ∧ header.depth = 0 ∧
    header.entries = extents.length ∧ Extent.Entries buf extents

theorem isLeaf_extentLeafBlock {extents : List Extent} {blockSize : Nat} {tail : Bool}
    {buf : List UInt8} (hsize : ∃ k, blockSize = 2 ^ k ∧ 10 ≤ k ∧ k ≤ 16)
    (h : extentLeafBlock extents blockSize tail = .ok buf) : IsLeaf extents buf := by
  have hdecode := decode_extentLeafBlock hsize h
  obtain ⟨hroom, rfl⟩ := extentLeafBlock_ok h
  exact ⟨_, hdecode, rfl, rfl, Extent.entries_buildNode hroom⟩

/-- The checksum of the journal's leaf is behind its entries. -/
theorem isLeaf_journalLeafBlock {plan : Plan} {buf : List UInt8}
    (hsize : ∃ k, plan.geom.blockSize = 2 ^ k ∧ 10 ≤ k ∧ k ≤ 16)
    (h : journalLeafBlock plan = .ok buf) : IsLeaf plan.journalExtents buf := by
  obtain ⟨node, hnode, h⟩ := Lib.Hoare.bind_ok h
  obtain ⟨header, hdecode, hdepth, hcount, hroom, hentries⟩ := isLeaf_extentLeafBlock hsize hnode
  split at h
  · next htail =>
    obtain rfl := Except.ok.inj h
    rw [decide_eq_true htail] at hnode
    obtain ⟨hin, -⟩ := extentLeafBlock_ok hnode
    obtain ⟨-, hmax⟩ := tail_fits hsize true
    simp only [Extent.headerLen, Extent.entryLen, Extent.tailOffset] at hin hmax
    refine ⟨header, ?_, hdepth, hcount, by rwa [length_putU32], fun i e hi => ?_⟩
    · refine (ExtentHeader.decode_congr (slice_putU32_disjoint (Or.inl ?_))).trans hdecode
      exact Nat.le_add_right _ _
    · have hlt := (List.getElem?_eq_some_iff.mp hi).1
      refine Eq.trans (slice_putU32_disjoint (Or.inl ?_)) (hentries i e hi)
      simp only [Extent.headerLen, Extent.entryLen, Extent.tailOffset]
      omega
  · obtain rfl := Except.ok.inj h
    exact ⟨header, hdecode, hdepth, hcount, hroom, hentries⟩

/-! ## A planned file -/

/-- The inode of a planned file that is read back resolves the file's blocks, as far as its leaf or
its indirect blocks are read back. -/
theorem resolveBlock_planned {fs : Filesystem} {made inode : Inode} {runs : List Run} {ext : Bool}
    {extents : List Extent} {leaf : Option Nat} {indirect : IndirectMap} (hfile : IsFile made ext)
    (hsame : SameMap made inode) (hblock : if ext then journalInodeIBlock extents leaf = .ok made.block
      else made.block = pointerIBlock indirect)
    (hextents : ext = true → extents = journalExtentsOf 0 runs) (hshort : total runs < 2 ^ 32)
    (hnear : ext = true → ∀ b ∈ blocksOf runs, b < 2 ^ 48)
    (hleaf : ext = true → ∀ l ∈ leaf, l < 2 ^ 48 ∧ ∃ buf, fs.readBlock l = .ok buf ∧ IsLeaf extents buf)
    (hmap : ext = false → ResolvesTo fs.blockSize indirect (blocksOf runs) ∧
      ∀ c ∈ indirect.blocks, c.1 < fs.superblock.blocksCount ∧
        fs.readBlock c.1 = .ok (pointerBlock fs.blockSize c.2)) (k : Nat) :
    fs.resolveBlock inode k = .ok (blocksOf runs)[k]? := by
  obtain ⟨hblockMap, huses, hinline⟩ := hsame.isFile hfile
  rw [← hsame.block] at hblock
  cases ext with
  | false =>
    obtain ⟨hresolves, hstands⟩ := hmap rfl
    exact resolveBlock_map hblockMap huses hresolves hinline hblock hstands k
  | true =>
    obtain rfl := hextents rfl
    have hmapped := @mapped_journalExtentsOf 0 runs k (Nat.zero_le k)
    rw [Nat.sub_zero] at hmapped
    have htyped := @typed_journalExtentsOf 0 runs (by rwa [Nat.zero_add]) (hnear rfl)
    rw [← hmapped]
    cases leaf with
    | none => exact resolveBlock_inline hblockMap huses htyped hblock k
    | some l =>
      obtain ⟨hl, buf, hread, header, hdecode, hdepth, hcount, hentries⟩ := hleaf rfl l rfl
      exact resolveBlock_leaf hblockMap huses htyped hblock hl hread hdecode hdepth hcount hentries k

/-! ## A file in one run -/

/-- An inode before it is given its blocks. -/
structure Blank (made : Inode) : Prop where
  mode : made.mode ∈ [Mode.ifdir ||| 0o755, Mode.ifdir ||| 0o700, Mode.ifreg ||| 0o600]
  flags : made.flags = 0
  block : made.block = List.replicate iBlockLen 0

/-- The inode of a run that is read back resolves the blocks of the run. -/
theorem resolveBlock_run {fs : Filesystem} {blank made inode : Inode} {start len : Nat} {ext : Bool}
    (hblank : Blank blank) (hset : setRun blank start len ext = .ok made) (hsame : SameMap made inode)
    (hpos : 0 < start) (hend : start + len ≤ if ext then 2 ^ 48 else 2 ^ 32) (hlen : len < 2 ^ 32)
    (hfits : SpansFit fs.perBlock) (k : Nat) :
    fs.resolveBlock inode k = .ok (List.range' start len)[k]? := by
  have hblocks : blocksOf [(⟨start, len⟩ : Run)] = List.range' start len := by
    rw [blocksOf_cons, blocksOf_nil, List.append_nil, Run.blocks]
  cases ext with
  | true =>
    obtain ⟨block, hblock, hmade⟩ := Lib.Hoare.bind_ok hset
    obtain rfl := Except.ok.inj hmade
    have hfile : IsFile { blank with flags := blank.flags ||| IFlags.extents, block } true :=
      ⟨hblank.mode, by dsimp only; rw [hblank.flags]; exact Nat.zero_or _⟩
    rw [← hblocks]
    have hone : runExtents len 0 start len = journalExtentsOf 0 [⟨start, len⟩] :=
      (List.append_nil _).symm
    rw [hone] at hblock
    refine @resolveBlock_planned fs _ inode _ true _ none {} hfile hsame hblock (fun _ => rfl) ?_
      (fun _ b hb => ?_) (fun _ l hl => absurd hl (Option.some_ne_none l).symm)
      (fun h => absurd h (by decide)) k
    · exact hlen
    · rw [hblocks, List.mem_range'_1] at hb
      exact Nat.lt_of_lt_of_le hb.2 hend
  | false =>
    rw [setRun, if_neg (by decide)] at hset
    split at hset
    · cases hset
    · next hfit =>
      obtain rfl := Except.ok.inj hset
      have hfile : IsFile (blank.setBlockPointers
          (List.range' start len ++ List.replicate (nBlocks - len) 0)) false :=
        ⟨hblank.mode, hblank.flags⟩
      obtain ⟨hmap, huses, -⟩ := hsame.isFile hfile
      have hdata : (List.range' start len).length = len := List.length_range'
      refine resolveBlock_direct hmap huses hfits (by rw [hdata]; exact Nat.not_lt.mp hfit) ?_
        (fun b hb => ?_) k
      · rw [hdata]
        refine @blockPointers_pointerIBlock
          { pointers := List.range' start len ++ List.replicate (nBlocks - len) 0 } _ ?_ ?_ ?_
        · rw [hsame.block, Inode.setBlockPointers, hblank.block]
          rfl
        · have hfew : ndirBlocks = 12 := rfl
          have hmany : nBlocks = 15 := rfl
          rw [List.length_append, hdata, List.length_replicate]
          omega
        · intro p hp
          rcases List.mem_append.mp hp with hp | hp
          · exact Nat.lt_of_lt_of_le (List.mem_range'_1.mp hp).2 hend
          · rw [List.eq_of_mem_replicate hp]
            decide
      · have := (List.mem_range'_1.mp hb).1
        omega

/-! ## The journal and the orphan file without extents -/

section Mapped

variable {plan : Plan} {params : Params} {journal orphan : FilePlan} {deviceSize : Nat}
  (hmade : plan.Made plan.geom params journal orphan)
  (hgeom : compute deviceSize params = .ok plan.geom) (hext : usesExtents plan.geom = false)

include hmade hgeom hext

/-- A journal without extents has its map allocated with it. -/
theorem Plan.Made.journal_map : total plan.journalRuns = plan.journalBlocks ∧
    (plan.journalRuns = [] → plan.journalIndirect.blocks = []) ∧
    (plan.journalRuns ≠ [] → (plan.journalIndirect.blocks.map Prod.fst).Nodup ∧
      ResolvesTo plan.geom.blockSize plan.journalIndirect (blocksOf plan.journalRuns)) := by
  have hplanned := hmade.journalPlanned
  rw [hext, planJournal] at hplanned
  rw [hmade.journalRuns, hmade.journalIndirect, hmade.journalBlocks]
  split at hplanned
  · next h0 =>
    obtain ⟨rfl, -⟩ := exec_pure_ok hplanned
    exact ⟨h0.symm, fun _ => rfl, fun h => absurd rfl h⟩
  · next h0 =>
    rw [if_neg (by decide)] at hplanned
    obtain ⟨⟨data, map⟩, a1, hdata, hrest⟩ := exec_bind_ok hplanned
    obtain ⟨rfl, -⟩ := exec_pure_ok hrest
    obtain ⟨hlen, hnodup, hresolves⟩ :=
      allocIndirectFile_resolves (hmade.journalReached.addressable hgeom hext)
        (spansFit_of_compute hgeom) hdata
    dsimp only
    rw [← length_blocksOf, blocksOf_runsOf]
    refine ⟨hlen, fun hnil => ?_, fun _ => ⟨hnodup.of_append_right, hresolves⟩⟩
    have hdata := blocksOf_runsOf data
    rw [hnil] at hdata
    rw [← hdata] at hlen
    exact absurd hlen.symm h0

/-- An orphan file without extents has its map built over its blocks. -/
theorem Plan.Made.orphan_map : total plan.orphanRuns = orphanBlocksFor plan.geom ∧
    (plan.orphanRuns = [] → plan.orphanIndirect.blocks = []) ∧
    (plan.orphanRuns ≠ [] → (plan.orphanIndirect.blocks.map Prod.fst).Nodup ∧
      ResolvesTo plan.geom.blockSize plan.orphanIndirect (blocksOf plan.orphanRuns)) := by
  obtain ⟨a, hplanned⟩ := hmade.orphanPlanned
  rw [hext, planOrphan] at hplanned
  rw [hmade.orphanRuns, hmade.orphanIndirect]
  split at hplanned
  · next h0 =>
    obtain ⟨rfl, -⟩ := exec_pure_ok hplanned
    exact ⟨h0.symm, fun _ => rfl, fun h => absurd rfl h⟩
  · next h0 =>
    obtain ⟨runs, a1, hruns, hrest⟩ := exec_bind_ok hplanned
    rw [if_neg (by decide)] at hrest
    obtain ⟨map, a2, hbuilt, hrest⟩ := exec_bind_ok hrest
    obtain ⟨rfl, -⟩ := exec_pure_ok hrest
    obtain ⟨hextends, -, htotal⟩ := allocRuns_ok hruns
    have hbefore := hmade.orphanReached.addressable hgeom hext
    have hafter := (hmade.orphanReached.extends hextends).addressable hgeom hext
    obtain ⟨hnodup, hresolves⟩ := buildIndirect_resolves hafter (spansFit_of_compute hgeom)
      (allocatesOne_alloc _)
      (fun b hb => ⟨(hextends.taken_iff b).mpr (Or.inr hb), hbefore.fits hextends b hb⟩)
      hextends.nodup hbuilt
    refine ⟨htotal, fun hnil => ?_, fun _ => ⟨hnodup.of_append_right, hresolves⟩⟩
    dsimp only at hnil
    rw [hnil] at htotal
    exact absurd htotal.symm h0

end Mapped

/-! ## What is left of the maps -/

section Left

variable {plan : Plan} (h : plan.Sound) {journal orphan : List Nat}
  (ho : plan.Ordered journal orphan)

include h

/-- A map is left as it was written, its blocks being different ones. -/
theorem Plan.Sound.leaves_writeIndirect {map : IndirectMap} (hnodup : (map.blocks.map Prod.fst).Nodup)
    {c : Nat × List Nat} (hc : c ∈ map.blocks) :
    Leaves plan.geom.blockSize c.1 (· = pointerBlock plan.geom.blockSize c.2)
      (writeIndirect plan map) := by
  refine leaves_forM h.blockSize_pos ⟨c, hc, leaves_writeBlock (length_pointerBlock _ _) rfl⟩
    fun d hd => ?_
  by_cases hkey : c.1 = d.1
  · rw [List.inj_on_of_nodup_map hnodup hc hd hkey]
    exact Or.inl (leaves_writeBlock (length_pointerBlock _ _) rfl)
  · exact Or.inr (skips_writeBlock (length_pointerBlock _ _) hkey)

include ho

theorem Plan.Sound.leaves_journalMap (hnodup : (plan.journalIndirect.blocks.map Prod.fst).Nodup)
    {start : Nat} (hstart : plan.journalStart = some start) {c : Nat × List Nat}
    (hc : c ∈ plan.journalIndirect.blocks) (hinodes : ¬HoldsInodes plan c.1) :
    Leaves plan.geom.blockSize c.1 (· = pointerBlock plan.geom.blockSize c.2) (writeFiles plan) := by
  have huse : c.1 ∈ plan.blocksFor journal orphan .journal := ho.journalIndirect c hc
  have hother : ∀ u, u ≠ .journal → c.1 ∉ plan.blocksFor journal orphan u := fun u hne hu =>
    hne (ho.one_use hu huse)
  have hfree : plan.geom.Free c.1 := h.free (h.laid.journalIndirect c hc)
  refine leaves_last fun _ _ => leaves_first h.blockSize_pos (leaves_forSome hstart
    (leaves_last fun _ _ => leaves_last fun _ _ => leaves_last fun _ _ =>
      h.leaves_writeIndirect hnodup hc)) fun _ _ => ?_
  exact issues_then (skips_resize (hother _ (by decide)) fun off hoff => h.free_ne_reserved hfree hoff)
    (issues_then (ho.skips_orphan (hother _ (by decide)) (hother _ (by decide)))
      (issues_then (skips_mmp (hother _ (by decide))) (skips_writeReservedInodes hinodes)))

theorem Plan.Sound.leaves_orphanMap (hnodup : (plan.orphanIndirect.blocks.map Prod.fst).Nodup)
    {inum : Nat} (hinum : plan.orphanInode = some inum) {c : Nat × List Nat}
    (hc : c ∈ plan.orphanIndirect.blocks) (hinodes : ¬HoldsInodes plan c.1) :
    Leaves plan.geom.blockSize c.1 (· = pointerBlock plan.geom.blockSize c.2) (writeFiles plan) := by
  have huse : c.1 ∈ plan.blocksFor journal orphan .orphan := ho.orphanIndirect c hc
  have hother : ∀ u, u ≠ .orphan → c.1 ∉ plan.blocksFor journal orphan u := fun u hne hu =>
    hne (ho.one_use hu huse)
  refine leaves_last fun _ _ => leaves_last fun _ _ => leaves_last fun _ _ =>
    leaves_first h.blockSize_pos (leaves_forSome hinum (leaves_last fun _ _ => leaves_last fun _ _ =>
      h.leaves_writeIndirect hnodup hc)) fun _ _ => ?_
  exact issues_then (skips_mmp (hother _ (by decide))) (skips_writeReservedInodes hinodes)

end Left

/-! ## The files of an image -/

/-- The formatter's files: the inode and the blocks of each. -/
def Plan.files (plan : Plan) : List (Nat × List Nat) :=
  [(Ino.root, [plan.rootBlock]), (goodOldFirstIno, plan.lostFound)] ++
    (if plan.journalStart.isSome then [(Ino.journal, blocksOf plan.journalRuns)] else []) ++
    plan.orphanInode.toList.map (·, blocksOf plan.orphanRuns)

theorem reservedInodes_mem {plan : Plan} {inodes : List (Nat × Inode)}
    (h : reservedInodes plan = .ok inodes) : (Ino.root, rootInode plan) ∈ inodes ∧
      (∃ lostFound, lostFoundInode plan = .ok lostFound ∧ (goodOldFirstIno, lostFound) ∈ inodes) ∧
      (Ino.journal, journalInode plan) ∈ inodes ∧
      ∀ inum ∈ plan.orphanInode, (inum, Format.orphanInode plan) ∈ inodes := by
  obtain ⟨lostFound, hlost, h⟩ := Lib.Hoare.bind_ok h
  obtain rfl := Except.ok.inj h
  refine ⟨by simp, ⟨lostFound, hlost, by simp⟩, by simp, fun inum hinum => ?_⟩
  exact List.mem_append_right _ (List.mem_map_of_mem (Option.mem_toList.mpr hinum))

/-- A map takes up all of its place in an inode. -/
theorem length_iblock {ext : Bool} {extents : List Extent} {leaf : Option Nat}
    {indirect : IndirectMap} {block : List UInt8}
    (h : if ext then journalInodeIBlock extents leaf = .ok block else block = pointerIBlock indirect) :
    block.length = iBlockLen := by
  cases ext with
  | true =>
    cases leaf with
    | none =>
      have hbuilt : Extent.buildInline extents = .ok block := h
      rw [(Extent.buildInline_ok hbuilt).2, Extent.length_buildNode]
      rfl
    | some leaf => exact (decode_indexBlock (show journalInodeIBlock [] (some leaf) = .ok block from h)).1
  | false =>
    have hpointers : block = pointerIBlock indirect := h
    rw [hpointers]
    exact (Superblock.length_putU32s _ _ _).trans (List.length_replicate ..)

theorem setRun_ok {blank made : Inode} {start len : Nat} {ext : Bool} (hblank : Blank blank)
    (h : setRun blank start len ext = .ok made) :
    made.block.length = iBlockLen ∧ made.size = blank.size ∧ made.mode = blank.mode ∧
      made.flags = if ext then IFlags.extents else 0 := by
  unfold setRun at h
  split at h
  · next hext =>
    obtain ⟨block, hblock, h⟩ := Lib.Hoare.bind_ok h
    obtain rfl := Except.ok.inj h
    refine ⟨?_, rfl, rfl, ?_⟩
    · dsimp only
      rw [(Extent.buildInline_ok hblock).2, Extent.length_buildNode]
      rfl
    · rw [if_pos hext]
      dsimp only
      rw [hblank.flags]
      exact Nat.zero_or _
  · next hext =>
    split at h
    · cases h
    · obtain rfl := Except.ok.inj h
      refine ⟨?_, rfl, rfl, hblank.flags.trans (if_neg hext).symm⟩
      rw [Inode.setBlockPointers, hblank.block]
      exact (Superblock.length_putU32s _ _ _).trans (List.length_replicate ..)

/-- One block always fits the inode. -/
theorem setRun_one (blank : Inode) (start : Nat) (ext : Bool) :
    setRun blank start 1 ext = .ok (setSingleBlock blank start ext) := by
  have hok : ∃ made, setRun blank start 1 ext = .ok made := by
    unfold setRun
    cases ext with
    | true =>
      have hone : runExtents 1 0 start 1 = [{ block := 0, len := 1, start }] := rfl
      have hfit : ¬ExtentHeader.maxEntries Extent.inlineLen false < 1 := by decide
      have hbuilt : Extent.buildInline [{ block := 0, len := 1, start }] =
          .ok (Extent.buildNode Extent.inlineLen (Extent.inlineHeader 1)
            [{ block := 0, len := 1, start }]) := by
        unfold Extent.buildInline
        exact if_neg hfit
      rw [if_pos rfl, hone]
      exact ⟨_, Lib.Hoare.bind_of_ok hbuilt⟩
    | false => exact ⟨_, rfl⟩
  obtain ⟨made, hmade⟩ := hok
  rw [setSingleBlock, hmade]

section Image

variable {plan : Plan} {chunkBlocks : Nat} {schedule : Nat → List Nat} {dev dev' : Device}
  {report : Report} {fs : Filesystem} (h : Image plan chunkBlocks schedule dev report dev' fs)
  (hapart : plan.RunsApart) (hfound : plan.TableFound) {inodes : List (Nat × Inode)}
  (hinodes : reservedInodes plan = .ok inodes)

include h hapart hfound hinodes

theorem Image.map_read {e : Nat × Inode} (he : e ∈ inodes) (hlen : e.2.block.length = iBlockLen) :
    ∃ inode, fs.readInode e.1 = .ok inode ∧ SameMap e.2 inode := by
  obtain ⟨k, hk, hlow⟩ := h.inodeSize
  obtain ⟨inode, hback, hsame⟩ := readBack_ok plan e.1
    (hk ▸ Inode.encodable_two_pow hlow : Inode.Encodable plan.geom.inodeSize) hlen
  refine ⟨inode, ?_, hsame⟩
  rw [h.inode_read hapart hfound hinodes he, hback]

omit hapart hfound hinodes in
/-- A size that is no more than the filesystem's is not cut. -/
theorem Image.size_fits {n : Nat} (hn : n ≤ plan.geom.blocksCount) :
    n * plan.geom.blockSize % 2 ^ 64 = n * plan.geom.blockSize := by
  have hmul := Nat.mul_le_mul_right plan.geom.blockSize hn
  have := h.covers
  have := h.size
  exact Nat.mod_eq_of_lt (by omega)

omit hapart hfound hinodes in
theorem Image.total_le {runs : List Run} (hnodup : (blocksOf runs).Nodup)
    (hin : ∀ b ∈ blocksOf runs, b ∈ blocksOf plan.runs) : total runs ≤ plan.geom.blocksCount := by
  rw [← length_blocksOf, ← @List.length_range plan.geom.blocksCount]
  refine (List.subperm_of_subset hnodup fun b hb => ?_).length_le
  exact List.mem_range.mpr (h.sound.laid.free b (hin b hb)).2

/-- What `f` says of a file: its inode is read back, with the size of the file, and resolves its
blocks. -/
def Resolves (fs : Filesystem) (blockSize : Nat) (f : Nat × List Nat) : Prop :=
  ∃ inode, fs.readInode f.1 = .ok inode ∧ inode.size = f.2.length * blockSize ∧
    ∀ k, fs.resolveBlock inode k = .ok f.2[k]?

omit hapart hfound hinodes in
/-- What was handed out is not under the inodes, where the metadata is in its own flex groups. -/
theorem Image.not_under (hin : plan.geom.MetadataContained) {b : Nat}
    (hb : b ∈ blocksOf plan.runs) : ¬HoldsInodes plan b := by
  intro hunder
  obtain ⟨lay, hlay, hwithin⟩ := h.sound.within_of_holdsInodes hunder
  exact h.sound.runs_beside hin hb ⟨0, lay, .inodeTable, hlay, hwithin⟩

omit hapart hfound hinodes in
/-- A block that was handed out is read back with what the files left in it. -/
theorem Image.read_run {b : Nat} {Q : List UInt8 → Prop} (hb : b ∈ blocksOf plan.runs)
    (hfiles : Leaves plan.geom.blockSize b Q (writeFiles plan)) :
    ∃ buf, fs.readBlock b = .ok buf ∧ Q buf := by
  obtain ⟨buf, hread, -, hQ⟩ := h.read (h.sound.laid.free b hb).2 (h.sound.leaves_of_files
    (fun _ hg hsuper => h.sound.free_ne_front (h.sound.free hb) hg hsuper) hfiles)
  exact ⟨buf, hread, hQ⟩

variable {params : Params} {journal orphan : FilePlan} {deviceSize : Nat}
  (hmade : plan.Made plan.geom params journal orphan)
  (hgeom : compute deviceSize params = .ok plan.geom)
  (hnear : usesExtents plan.geom = true → plan.geom.blocksCount ≤ 2 ^ 48)
  (hin : plan.geom.MetadataContained)

section Numbers

omit hapart hfound hinodes

include hgeom hnear

/-- A block number has room in an extent, or in a pointer. -/
theorem Image.number_fits {b : Nat} (hb : b ∈ blocksOf plan.runs) :
    0 < b ∧ b + 1 ≤ if usesExtents plan.geom then 2 ^ 48 else 2 ^ 32 := by
  obtain ⟨hprobe, hlt⟩ := h.sound.laid.free b hb
  refine ⟨Nat.pos_of_ne_zero fun h0 => ?_, ?_⟩
  · rw [h0, metadataProbe_zero h.sound.computed] at hprobe
    cases hprobe
  · cases hext : usesExtents plan.geom with
    | true => exact Nat.le_trans hlt (hnear hext)
    | false =>
      have hnew : Reached plan.geom (newAllocator plan.geom) := ⟨[], Extends.refl _⟩
      have hcount : plan.geom.blocksCount ≤ 2 ^ 32 := (hnew.addressable hgeom hext).count
      exact Nat.le_trans hlt hcount

end Numbers

include hgeom hnear

/-- A directory of one run. -/
theorem Image.run_resolves {inum start len : Nat} {blank made : Inode} (hblank : Blank blank)
    (hset : setRun blank start len (usesExtents plan.geom) = .ok made) (he : (inum, made) ∈ inodes)
    (hsize : blank.size = len * plan.geom.blockSize) (hpos : 0 < len) (hshort : len ≤ 12)
    (hin : ∀ i < len, start + i ∈ blocksOf plan.runs) :
    Resolves fs plan.geom.blockSize (inum, List.range' start len) := by
  obtain ⟨hlen, hkeeps, -⟩ := setRun_ok hblank hset
  obtain ⟨inode, hread, hsame⟩ := h.map_read hapart hfound hinodes he hlen
  obtain ⟨hstart, -⟩ := h.number_fits hgeom hnear (hin 0 hpos)
  obtain ⟨-, hlast⟩ := h.number_fits hgeom hnear (hin (len - 1) (by omega))
  have hcount := (h.sound.laid.free _ (hin (len - 1) (by omega))).2
  refine ⟨inode, hread, ?_, resolveBlock_run hblank hset hsame hstart ?_ (by omega) ?_⟩
  · rw [hsame.size, hkeeps, hsize, h.size_fits (by omega), List.length_range']
  · omega
  · rw [Filesystem.perBlock, h.mounts.blockSize]
    exact spansFit_of_compute hgeom

include hmade hin

theorem Image.journal_resolves {start : Nat} (hstart : plan.journalStart = some start) :
    Resolves fs plan.geom.blockSize (Ino.journal, blocksOf plan.journalRuns) := by
  have hruns : plan.journalRuns ≠ [] := by
    intro hnil
    rw [h.sound.laid.journalStart, hnil] at hstart
    cases hstart
  have hiblock := hmade.journalIBlock (by rwa [← hmade.journalRuns])
  have hblock : (journalInode plan).block = plan.journalIBlock := by
    unfold journalInode
    rw [hstart]
  have hsize : (journalInode plan).size = plan.journalBlocks * plan.geom.blockSize := by
    unfold journalInode
    rw [hstart]
  have hfile : IsFile (journalInode plan) (usesExtents plan.geom) := by
    unfold journalInode
    dsimp only
    rw [hstart]
    refine ⟨by simp, ?_⟩
    dsimp only
    cases hext : usesExtents plan.geom with
    | true => exact (if_pos hext).trans (Nat.zero_or _)
    | false => exact if_neg (by rw [extentsOn, ← usesExtents, hext]; decide)
  have hcount : total plan.journalRuns = plan.journalBlocks := by
    cases hext : usesExtents plan.geom with
    | true => exact (hmade.journal_extents hext).2.1
    | false => exact (hmade.journal_map hgeom hext).1
  rw [← hblock] at hiblock
  obtain ⟨-, -, hmem, -⟩ := reservedInodes_mem hinodes
  obtain ⟨inode, hread, hsame⟩ := h.map_read hapart hfound hinodes hmem (length_iblock hiblock)
  have hdata : ∀ b ∈ blocksOf plan.journalRuns, b ∈ blocksOf plan.runs :=
    fun b hb => h.sound.laid.journal_mem hb
  have hnodup : (blocksOf plan.journalRuns).Nodup :=
    ((h.sound.laid.files.nodup h.sound.laid.nodup)).of_append_right
  refine ⟨inode, hread, ?_, resolveBlock_planned hfile hsame hiblock (fun hext => ?_) ?_
    (fun hext b hb => ?_) (fun hext l hl => ?_) fun hext => ?_⟩
  · rw [hsame.size, hsize, ← hcount, h.size_fits (h.total_le hnodup hdata), length_blocksOf]
  · rw [← hmade.journalExtents]
    exact (hmade.journal_extents hext).1
  · rw [hcount]
    exact h.journalBlocks
  · have := (h.number_fits hgeom hnear (hdata b hb)).2
    rwa [hext, if_pos rfl] at this
  · have hl' := h.sound.laid.journalExtentLeaf l hl
    have hfits := (h.number_fits hgeom hnear hl').2
    rw [hext, if_pos rfl] at hfits
    obtain ⟨buf, hbuf, hleaf⟩ := h.read_run hl'
      (hmade.leaves_journalLeaf h.sound hl (h.not_under hin hl'))
    rw [← hmade.journalExtents]
    exact ⟨hfits, buf, hbuf, isLeaf_journalLeafBlock h.sound.blockSize hleaf⟩
  · obtain ⟨-, -, hmapped⟩ := hmade.journal_map hgeom hext
    obtain ⟨hkeys, hresolves⟩ := hmapped hruns
    obtain ⟨_, _, hord⟩ := h.ordered
    rw [h.mounts.blockSize, ← hmade.journalIndirect]
    refine ⟨hresolves, fun c hc => ?_⟩
    have hc' := h.sound.laid.journalIndirect c hc
    obtain ⟨buf, hbuf, rfl⟩ := h.read_run hc'
      (h.sound.leaves_journalMap hord hkeys hstart hc (h.not_under hin hc'))
    rw [h.mounts.blocksCount]
    exact ⟨(h.sound.laid.free _ hc').2, hbuf⟩

theorem Image.orphan_resolves {inum : Nat} (hinum : plan.orphanInode = some inum) :
    Resolves fs plan.geom.blockSize (inum, blocksOf plan.orphanRuns) := by
  have hwanted : 0 < orphanBlocksFor plan.geom := by
    have hsome := hmade.orphanInode
    rw [hinum] at hsome
    by_contra hnone
    rw [if_neg hnone] at hsome
    cases hsome
  obtain ⟨a, hplanned⟩ := hmade.orphanPlanned
  have hcount : total plan.orphanRuns = orphanBlocksFor plan.geom ∧
      ∀ r ∈ plan.orphanRuns, 0 < r.len := by
    rw [hmade.orphanRuns]
    rw [planOrphan, if_neg (Nat.ne_of_gt hwanted)] at hplanned
    obtain ⟨runs, a1, hruns, hrest⟩ := exec_bind_ok hplanned
    obtain ⟨-, hpos, htotal⟩ := allocRuns_ok hruns
    split at hrest
    · obtain ⟨rfl, -⟩ := exec_pure_ok hrest
      exact ⟨htotal, hpos⟩
    · obtain ⟨map, a2, -, hrest⟩ := exec_bind_ok hrest
      obtain ⟨rfl, -⟩ := exec_pure_ok hrest
      exact ⟨htotal, hpos⟩
  have hfew := orphanBlocksFor_le plan.geom
  have hruns : plan.orphanRuns ≠ [] := by
    intro hnil
    have htotal := hcount.1
    rw [hnil] at htotal
    exact absurd htotal (Nat.ne_of_lt hwanted)
  have hiblock := hmade.orphanIBlock (by rwa [← hmade.orphanRuns])
  have hblock : (Format.orphanInode plan).block = plan.orphanIBlock := by
    unfold Format.orphanInode
    cases extentsOn plan <;> rfl
  have hsize : (Format.orphanInode plan).size = total plan.orphanRuns * plan.geom.blockSize := by
    unfold Format.orphanInode
    cases extentsOn plan <;> rfl
  have hfile : IsFile (Format.orphanInode plan) (usesExtents plan.geom) := by
    have hmode : (Format.orphanInode plan).mode = Mode.ifreg ||| 0o600 := by
      unfold Format.orphanInode
      cases extentsOn plan <;> rfl
    refine ⟨by simp [hmode], ?_⟩
    change _ = if extentsOn plan then _ else _
    unfold Format.orphanInode
    cases extentsOn plan with
    | true => exact Nat.zero_or _
    | false => rfl
  rw [← hblock] at hiblock
  obtain ⟨-, -, -, hmem⟩ := reservedInodes_mem hinodes
  obtain ⟨inode, hread, hsame⟩ := h.map_read hapart hfound hinodes (hmem inum hinum)
    (length_iblock hiblock)
  have hextents : usesExtents plan.geom = true → orphan.extents = journalExtentsOf 0 plan.orphanRuns := by
    intro hext
    rw [(hmade.orphan_extents hext).2.1]
    exact orphanExtentsOf_eq hcount.2 (by omega)
  refine ⟨inode, hread, ?_, resolveBlock_planned hfile hsame hiblock hextents (by omega)
    (fun hext b hb => ?_) (fun hext l hl => ?_) fun hext => ?_⟩
  · have hmany : total plan.orphanRuns * plan.geom.blockSize < 2 ^ 64 := by
      obtain ⟨k, hk, -, hhigh⟩ := h.sound.blockSize
      have hle : plan.geom.blockSize ≤ 2 ^ 16 := hk ▸ Nat.pow_le_pow_right Nat.two_pos hhigh
      have hmul := Nat.mul_le_mul (hcount.1.trans_le hfew) hle
      omega
    rw [hsame.size, hsize, Nat.mod_eq_of_lt hmany, length_blocksOf]
  · have := (h.number_fits hgeom hnear (h.sound.laid.orphanRuns b hb)).2
    rwa [hext, if_pos rfl] at this
  · have hl' := h.sound.laid.orphanExtentLeaf l hl
    have hfits := (h.number_fits hgeom hnear hl').2
    rw [hext, if_pos rfl] at hfits
    obtain ⟨buf, hbuf, hleaf⟩ := h.read_run hl'
      (hmade.leaves_orphanLeaf h.sound hl hinum (h.not_under hin hl'))
    rw [(hmade.orphan_extents hext).2.1]
    exact ⟨hfits, buf, hbuf, isLeaf_extentLeafBlock h.sound.blockSize hleaf⟩
  · obtain ⟨-, -, hmapped⟩ := hmade.orphan_map hgeom hext
    obtain ⟨hkeys, hresolves⟩ := hmapped hruns
    obtain ⟨_, _, hord⟩ := h.ordered
    rw [h.mounts.blockSize, ← hmade.orphanIndirect]
    refine ⟨hresolves, fun c hc => ?_⟩
    have hc' := h.sound.laid.orphanIndirect c hc
    obtain ⟨buf, hbuf, rfl⟩ := h.read_run hc'
      (h.sound.leaves_orphanMap hord hkeys hinum hc (h.not_under hin hc'))
    rw [h.mounts.blocksCount]
    exact ⟨(h.sound.laid.free _ hc').2, hbuf⟩

/-- Every file of the formatter resolves. -/
theorem Image.resolves {f : Nat × List Nat} (hf : f ∈ plan.files) :
    Resolves fs plan.geom.blockSize f := by
  obtain ⟨hroot, ⟨lostFound, hlost, hmem⟩, -⟩ := reservedInodes_mem hinodes
  have hlaid := h.sound.laid
  rcases List.mem_append.mp hf with hf | hf
  · rcases List.mem_append.mp hf with hf | hf
    · simp only [List.mem_cons, List.not_mem_nil, or_false] at hf
      rcases hf with rfl | rfl
      · refine h.run_resolves hapart hfound hinodes hgeom hnear ⟨by simp [stampTimes], rfl, rfl⟩
          (setRun_one _ _ _) hroot (Nat.one_mul _).symm Nat.one_pos (by decide) fun i hi => ?_
        rw [Nat.lt_one_iff.mp hi]
        exact hlaid.root_mem
      · refine h.run_resolves hapart hfound hinodes hgeom hnear ⟨by simp [stampTimes], rfl, rfl⟩
          hlost hmem rfl h.sound.lostFound_pos ?_ fun i hi => hlaid.lostFound_mem hi
        rw [h.lostFoundBlocks]
        exact Nat.min_le_right _ _
    · split at hf
      · next hsome =>
        obtain ⟨start, hstart⟩ := Option.isSome_iff_exists.mp hsome
        obtain rfl := List.mem_singleton.mp hf
        exact h.journal_resolves hapart hfound hinodes hmade hgeom hnear hin hstart
      · exact absurd hf List.not_mem_nil
  · obtain ⟨inum, hinum, rfl⟩ := List.mem_map.mp hf
    exact h.orphan_resolves hapart hfound hinodes hmade hgeom hnear hin (Option.mem_toList.mp hinum)

end Image

/-- On a formatted device the inode of each file is found in the table, of the file's size, and each
of its blocks is found through the map the inode holds, by extents or by pointers; past the end
there is none. -/
theorem files_resolve {dev dev' : Device} {params : Params} {ambient : Ambient} {p : Plan}
    {chunkBlocks : Nat} {schedule : Nat → List Nat} {report : Report} (htyped : params.Typed)
    (huuid : ambient.uuid.length = 16) (hsector : dev.logicalSectorSize < 2 ^ 32)
    (hsize : dev.size < 2 ^ 64)
    (hplan : plan dev.size (onDevice params dev) ambient = .ok p)
    (hroomy : Spacious p.geom) (hfound : p.TableFound)
    (hnear : usesExtents p.geom = true → p.geom.blocksCount ≤ 2 ^ 48)
    (hrun : writePlan p chunkBlocks schedule dev = (.ok report, dev')) :
    ∃ fs, openOn dev' = .ok fs ∧ ∀ f ∈ p.files, Resolves fs p.geom.blockSize f := by
  obtain ⟨fs, h⟩ := image_of_plan htyped huuid hsector hsize hplan hrun
  obtain ⟨inodes, hinodes⟩ := h.reserved
  obtain ⟨hgeom, journal, orphan, hmade⟩ := plan_made hplan
  have hapart := h.sound.runsApart hroomy
  have hin := hroomy.contained h.sound.computed
  exact ⟨fs, h.opened, fun f hf => h.resolves hapart hfound hinodes hmade hgeom hnear hin hf⟩

/-- The files of the filesystem of several groups are found block by block. -/
theorem several_files : ∃ p report dev' fs, p.geom = several ∧
    writePlan p gdtChunkBlocks (fun _ => []) severalDevice = (.ok report, dev') ∧
    openOn dev' = .ok fs ∧ ∀ f ∈ p.files, Resolves fs 1024 f := by
  obtain ⟨p, report, dev', hplan, hgeom, hrun⟩ := several_written
  have hclassic : p.geom.metaBg = false := by rw [hgeom]; rfl
  have hcount : p.geom.blocksCount ≤ 2 ^ 48 := by rw [hgeom]; decide
  obtain ⟨fs, hopen, hfiles⟩ := files_resolve severalParams_typed (by decide) (by decide)
    (by decide) hplan (by rw [hgeom]; exact several_spacious)
    (fun hm => absurd (hclassic.symm.trans hm) (by decide)) (fun _ => hcount) hrun
  have hblock : p.geom.blockSize = 1024 := by rw [hgeom]; rfl
  exact ⟨p, report, dev', fs, hgeom, hrun, hopen, fun f hf => hblock ▸ hfiles f hf⟩

end MkfsExt4.Format
