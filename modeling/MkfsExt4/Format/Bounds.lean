/-
  Whole blocks, inside the filesystem: what a device that takes nothing smaller than a sector
  needs of every write (`write_filesystem_chunked` in `src/format.rs`). Every operation covers
  whole blocks. All end inside the filesystem but the copies of the descriptor table that
  `meta_bg` keeps in groups before `first_meta_bg`: there the whole table goes behind each
  superblock copy, and nothing looks at how many blocks are left.
-/
import MkfsExt4.Format.Allocations
import MkfsExt4.Format.Places

namespace MkfsExt4.Format

open Lib.Store Lib.Trace Lib.FirstFit Layout

/-- Whole blocks of the `blocksCount` there are. -/
def Op.WholeWithin (blockSize blocksCount : Nat) (op : Op) : Prop :=
  ∀ span ∈ op.span, span.1 % blockSize = 0 ∧ 0 < span.2 ∧ span.2 % blockSize = 0 ∧
    span.1 + span.2 ≤ blocksCount * blockSize

/-- Every chunk of the table the writer gets to fits behind every superblock copy it goes to. -/
def CopiesFit (plan : Plan) (chunk : Nat) : Prop :=
  ∀ copy ∈ classicCopies plan.geom, ∀ first < plan.geom.descBlocks, chunk ∣ first →
    Reaches plan chunk first →
      copy + first + min chunk (plan.geom.descBlocks - first) ≤ plan.geom.blocksCount

theorem Op.wholeWithin_of_on {blockSize blocksCount : Nat} (hb : 0 < blockSize) {op : Op}
    (h : op.On blockSize fun start len => start + len ≤ blocksCount) :
    op.WholeWithin blockSize blocksCount := by
  intro span hspan
  obtain ⟨start, len, hlen, rfl, hend⟩ := h span hspan
  refine ⟨Nat.mul_mod_left _ _, Nat.mul_pos hlen hb, Nat.mul_mod_left _ _, ?_⟩
  rw [← Nat.add_mul]
  exact Nat.mul_le_mul_right _ hend

section Whole

variable {plan : Plan} (h : plan.Sound)

include h

theorem Plan.Sound.blockSize_pos : 0 < plan.geom.blockSize :=
  Nat.lt_of_lt_of_le (by decide) h.blockSize_ge

theorem Plan.Sound.front_two {g : Nat} (hg : g < plan.geom.groupCount) :
    plan.geom.groupFirstBlock g + 2 ≤ plan.geom.blocksCount :=
  (h.holdsFront g hg).two h.computed h.descBlocks_pos

/-- A place ends inside the filesystem, where the copies do. -/
theorem Place.in_bounds {chunk : Nat} (hfit : CopiesFit plan chunk) {start len : Nat}
    (hlen : 0 < len) (hplace : Place plan chunk start len) :
    start + len ≤ plan.geom.blocksCount := by
  have hitable := h.computed.itable_pos
  have hfront := h.front_two h.computed.groupCount_pos
  cases hplace with
  | boot => omega
  | part p hlay => exact Geometry.end_le_of_clear hlen (Geometry.part_clear hitable hlay p)
  | inodes hlay hin =>
    exact (Geometry.part_clear hitable hlay _ _ hin.1 hin.2).lt_blocksCount
  | run hrun =>
    have := (h.laid.free _ (hrun (start + len - 1) (by omega) (by omega))).2
    omega
  | copy hcopy hfirst hdvd hreach => exact hfit _ hcopy _ hfirst hdvd hreach
  | holder hblock =>
    obtain ⟨g, hg, hloc⟩ := List.mem_filterMap.mp hblock
    have hg := of_decide_eq_true (List.mem_filter.mp hg).2
    have := h.front_two hg
    have := Bool.toNat_le (plan.geom.hasSuper g)
    rw [(Geometry.descBlockLocation_some hloc).2]
    omega
  | reserved hin =>
    have hm : plan.geom.metaBg = false := by
      cases hm : plan.geom.metaBg with
      | false => rfl
      | true =>
        have := (h.computed.distributed hm).1
        omega
    have htable := (h.holdsFront 0 h.computed.groupCount_pos).table h.computed hm
      (plan.geom.hasSuper_le_one (Nat.zero_le 1))
    rw [Geometry.groupFirstBlock_zero] at htable
    omega

omit h in
/-- The primary superblock is in a block of its own, or shares block 0 with the boot area. -/
theorem primarySuperblockBlock_spec (sb : Superblock) (blockSize : Nat) :
    (primarySuperblockBlock sb.encode blockSize).2.length = blockSize ∧
      ((primarySuperblockBlock sb.encode blockSize).1 = 0 ∨
        (primarySuperblockBlock sb.encode blockSize).1 = 1 ∧ blockSize = superblockOffset) := by
  unfold primarySuperblockBlock
  split
  · next hb =>
    refine ⟨?_, Or.inr ⟨rfl, hb⟩⟩
    rw [hb]
    exact (Superblock.length_encodeInto _ _).trans (List.length_replicate ..)
  · exact ⟨(length_splice _ _ _).trans (List.length_replicate ..), Or.inl rfl⟩

/-- The superblocks are whole blocks at the front of their groups. -/
theorem Plan.Sound.issues_writeSuperblocks (free : Nat × Nat) :
    Issues (Op.On plan.geom.blockSize fun start len => start + len ≤ plan.geom.blocksCount)
      (writeSuperblocks plan free) := by
  have hfront := h.front_two h.computed.groupCount_pos
  rw [Geometry.groupFirstBlock_zero] at hfront
  obtain ⟨hlen, hblock⟩ := primarySuperblockBlock_spec
    (buildSuperblock plan free.1 free.2) plan.geom.blockSize
  have hend : (primarySuperblockBlock (buildSuperblock plan free.1 free.2).encode
      plan.geom.blockSize).1 + 1 ≤ plan.geom.blocksCount := by
    have hfirst := h.firstDataBlock
    rcases hblock with h0 | ⟨h1, hb⟩
    · omega
    · have hb : plan.geom.blockSize = 1024 := hb
      rw [if_pos hb] at hfirst
      omega
  refine issues_then (issues_writeBlock hlen hend) (issues_then (issues_forM fun g hg => ?_)
    (issues_emit nofun))
  have hg := List.mem_range.mp (List.mem_filter.mp hg).1
  refine issues_writeBlock ((length_splice _ _ _).trans (List.length_replicate ..)) ?_
  have := h.front_two hg
  omega

theorem whole_of_copiesFit {chunkBlocks : Nat} (hfit : CopiesFit plan (max chunkBlocks 1))
    (schedule : Nat → List Nat) :
    Issues (Op.WholeWithin plan.geom.blockSize plan.geom.blocksCount)
      (writeFilesystemChunked plan chunkBlocks schedule) := by
  refine Issues.mono (Q := Op.On plan.geom.blockSize fun start len =>
    start + len ≤ plan.geom.blocksCount) ?_ fun op => Op.wholeWithin_of_on h.blockSize_pos
  refine issues_bind ?_ fun free _ => ?_
  · exact (h.issues_writeContents chunkBlocks schedule).mono fun op hop =>
      hop.mono fun start len hlen hplace => hplace.in_bounds h hfit hlen
  · exact issues_then (h.issues_writeSuperblocks free) (issues_pure _)

end Whole

/-! ## The writer gets to the copies -/

theorem ends_writeCopies (plan : Plan) (first blocks : Nat) (table : List UInt8) :
    Ends (writeCopies plan first blocks table) := by
  refine ends_bind (ends_forM fun _ _ => ends_emit _) fun _ => ends_onlyIf ?_
  exact ends_forM fun _ _ => ends_onlyIf (ends_forM fun _ _ => ends_emit _)

theorem ends_writeFront (plan : Plan) : Ends (writeFront plan) :=
  ends_bind (ends_onlyIf (ends_emit _)) fun _ =>
    ends_onlyIf (ends_forSome fun _ => ends_emit _)

/-- The groups of a chunk that is reached end. -/
theorem ends_drain {plan : Plan} {chunk first : Nat} (h : Reaches plan chunk first)
    (turns : List Nat) : Ends (drain plan.inFlight turns (chunkQueue plan chunk first)) := by
  refine drain_built fun t ht => ?_
  obtain ⟨hrest, -, hlt⟩ := mem_chunkQueue ht
  obtain ⟨state, hstate⟩ := h t.group hlt
  obtain ⟨⟨ops, desc⟩, hwrite⟩ := writeGroup_of_build hstate
  exact ⟨ops, desc, by rw [hrest, hwrite]⟩

theorem ends_writeChunk {plan : Plan} {chunk first : Nat} (h : Reaches plan chunk first)
    (turns : List Nat) : Ends (writeChunk plan chunk turns first) := by
  rw [writeChunk_eq]
  exact ends_bind (ends_drain h turns) fun done =>
    ends_bind (ends_writeCopies _ _ _ _) fun _ => ends_pure _

/-- A chunk that is reached comes after chunks that are. -/
theorem Reaches.mono {plan : Plan} {chunk first first' : Nat} (h : Reaches plan chunk first)
    (hle : first' ≤ first) (hfirst : first < plan.geom.descBlocks) : Reaches plan chunk first' := by
  intro g hg
  refine h g (Nat.lt_of_lt_of_le hg ?_)
  refine Nat.le_min.mpr ⟨Nat.le_trans (Nat.min_le_left _ _) ?_, Nat.min_le_right _ _⟩
  apply Nat.mul_le_mul_right
  omega

/-- Each classic copy of a chunk that is reached is written. -/
theorem copy_mem_trace {plan : Plan} {chunkBlocks first copy : Nat} (schedule : Nat → List Nat)
    (hcopy : copy ∈ classicCopies plan.geom) (hfirst : first < plan.geom.descBlocks)
    (hdvd : max chunkBlocks 1 ∣ first) (h : Reaches plan (max chunkBlocks 1) first) :
    ∃ table : List UInt8,
      table.length = min (max chunkBlocks 1) (plan.geom.descBlocks - first) * plan.geom.blockSize ∧
      Op.write ((copy + first) * plan.geom.blockSize) table ∈
        (writeFilesystemChunked plan chunkBlocks schedule).trace := by
  obtain ⟨k, hk⟩ := hdvd
  rw [Nat.mul_comm] at hk
  subst hk
  have hchunk : 0 < max chunkBlocks 1 := by omega
  have hk := (lt_divCeil_iff hchunk).mpr hfirst
  obtain ⟨done, hdone⟩ := ends_drain h (schedule k)
  refine ⟨chunkTable plan (k * max chunkBlocks 1 * plan.geom.descPerBlock)
    (min (max chunkBlocks 1) (plan.geom.descBlocks - k * max chunkBlocks 1)) done,
    length_chunkTable _ _ _ _, ?_⟩
  -- The front comes first, then the chunks in order.
  obtain ⟨_, hfront⟩ := ends_writeFront plan
  refine (trace_prefix_bind _ _).subset (mem_trace_bind hfront
    ((trace_prefix_bind _ _).subset ?_))
  unfold writeTable
  dsimp only
  obtain ⟨after, hrange⟩ : ∃ after, List.range (divCeil plan.geom.descBlocks (max chunkBlocks 1)) =
      List.range k ++ k :: after := by
    obtain ⟨n, hn⟩ := Nat.exists_eq_add_of_lt hk
    rw [hn, Nat.add_assoc, Nat.add_comm n 1, ← Nat.add_assoc, List.range_add, List.range_succ,
      List.append_assoc]
    exact ⟨_, rfl⟩
  rw [hrange]
  obtain ⟨free, hfree⟩ := ends_foldlM (f := fun (free : Nat × Nat) k => do
      let counted ← writeChunk plan (max chunkBlocks 1) (schedule k) (k * max chunkBlocks 1)
      return (free.1 + counted.1, free.2 + counted.2)) (fun k' (hk' : k' ∈ List.range k) _ => by
    refine ends_bind (ends_writeChunk (h.mono ?_ hfirst) _) fun _ => ends_pure _
    exact Nat.mul_le_mul_right _ (Nat.le_of_lt (List.mem_range.mp hk'))) (0, 0)
  refine mem_trace_foldlM hfree ((trace_prefix_bind _ _).subset ?_)
  rw [writeChunk_eq]
  refine mem_trace_bind hdone ((trace_prefix_bind _ _).subset ((trace_prefix_bind _ _).subset ?_))
  unfold issue
  rw [forM_emit]
  exact List.mem_map_of_mem hcopy

/-- Every operation of a format is whole and in bounds exactly when the copies of the descriptor
table fit. -/
theorem format_whole_iff {dev : Device} {params : Params} {ambient : Ambient} {plan : Plan}
    (htyped : params.Typed) (hsector : dev.logicalSectorSize < 2 ^ 32)
    (hplan : Format.plan dev.size (onDevice params dev) ambient = .ok plan)
    (schedule : Nat → List Nat) :
    (∀ op ∈ (writeFilesystemChunked plan gdtChunkBlocks schedule).trace,
      op.WholeWithin plan.geom.blockSize plan.geom.blocksCount) ↔
      CopiesFit plan gdtChunkBlocks := by
  have h := plan_sound (onDevice_typed htyped hsector) hplan
  rw [← show max gdtChunkBlocks 1 = gdtChunkBlocks by decide]
  constructor
  · intro hwhole copy hcopy first hfirst hdvd hreach
    obtain ⟨table, hlen, hmem⟩ := copy_mem_trace schedule hcopy hfirst hdvd hreach
    have hend := (hwhole _ hmem _ rfl).2.2.2
    rw [hlen, ← Nat.add_mul] at hend
    exact Nat.le_of_mul_le_mul_right hend h.blockSize_pos
  · exact fun hfit => whole_of_copiesFit h hfit schedule

theorem copiesFit_of_ends {plan : Plan} (hends : ∀ copy ∈ classicCopies plan.geom,
    copy + plan.geom.descBlocks ≤ plan.geom.blocksCount) (chunk : Nat) : CopiesFit plan chunk := by
  intro copy hcopy first hfirst _ _
  have := hends copy hcopy
  omega

/-- Without `meta_bg` every copy fits: the table is no longer than the room behind a superblock
copy. -/
theorem copiesFit_of_classic {plan : Plan} (h : plan.Sound) (hm : plan.geom.metaBg = false)
    (chunk : Nat) : CopiesFit plan chunk := by
  refine copiesFit_of_ends (fun copy hcopy => ?_) chunk
  obtain ⟨g, hg, hloc⟩ := List.mem_filterMap.mp hcopy
  have hg := List.mem_range.mp (List.mem_filter.mp hg).1
  obtain ⟨hdesc, rfl⟩ := Geometry.descBlockLocation_some hloc
  have hsuper : plan.geom.hasSuper g = true := by
    unfold Geometry.groupHasDesc at hdesc
    rwa [hm, Bool.not_false, Bool.true_or, if_pos rfl] at hdesc
  have htable := (h.holdsFront g hg).table h.computed hm hsuper
  rw [hsuper, Bool.toNat_true]
  omega

/-! ### A device that is written whole and one that is not -/

def smallDevice : Device := .ofChunks (512 * 1024) []

theorem small_whole : ∃ plan,
    Format.plan smallDevice.size (onDevice {} smallDevice) {} = .ok plan ∧
      ∀ op ∈ (writeFilesystemChunked plan gdtChunkBlocks fun _ => []).trace,
        op.WholeWithin plan.geom.blockSize plan.geom.blocksCount := by
  have hok : (Format.plan smallDevice.size (onDevice {} smallDevice) {}).map
      (fun plan => plan.geom.metaBg) = .ok false := by
    decide +kernel
  cases hplan : Format.plan smallDevice.size (onDevice {} smallDevice) {} with
  | error e =>
    rw [hplan] at hok
    cases hok
  | ok plan =>
    rw [hplan] at hok
    have hsound := plan_sound (onDevice_typed Params.typed_default (by decide)) hplan
    exact ⟨plan, rfl, (format_whole_iff Params.typed_default (by decide) hplan _).mpr
      (copiesFit_of_classic hsound (Except.ok.inj hok) _)⟩

/-- Groups of eight blocks, the descriptor table behind every superblock copy. -/
def tinyGroups : Params :=
  { blockSize := some 1024, blocksPerGroup := some 8, inodesCount := some 2016,
    inodeSize := some 128, firstMetaBg := some 8, journal := .none }

def tinyDevice : Device := .ofChunks (1009 * 1024) []

/-- 126 groups: group 125 is the last, carries a superblock copy, and has seven blocks left
for a table of eight. -/
def tiny : Geometry where
  blockSize := 1024
  logBlockSize := 0
  blocksCount := 1009
  firstDataBlock := 1
  blocksPerGroup := 8
  rBlocksCount := 50
  inodesCount := 2016
  inodesPerGroup := 16
  inodeSize := 128
  itableBlocksPerGroup := 2
  groupCount := 126
  descSize := 64
  descBlocks := 8
  reservedGdtBlocks := 0
  logGroupsPerFlex := 4
  metaBg := true
  firstMetaBg := 8
  features := { compat := 0x28, incompat := 0x22d2, roCompat := 0x46b }

theorem tiny_placed : ∀ f ∈ [0, 16, 32, 48, 64, 80, 96, 112], (tiny.placeFlex f).isOk = true := by
  decide +kernel

/-- Two stretches of twelve blocks that no group keeps for itself. -/
theorem tiny_free : ∀ b ∈ List.range' 113 12 ++ List.range' 241 12,
    (newAllocator tiny).taken b = false := by
  decide +kernel

theorem tiny_planned : (Lib.Hoare.exec (planBlocks tiny (onDevice tinyGroups tinyDevice) {})
    (newAllocator tiny)).1.isOk = true := by
  have hfree : ∀ s, s = 113 ∨ s = 241 → ∀ b, s ≤ b → b < s + 12 →
      (newAllocator tiny).taken b = false := by
    intro s hs b hb hb'
    refine tiny_free b (List.mem_append.mpr ?_)
    rw [List.mem_range'_1, List.mem_range'_1]
    omega
  have hlost : min (max (divCeil (16 * 1024) tiny.blockSize) 1) 12 = 12 := rfl
  have hfirst : tiny.firstDataBlock ≤ 113 := by decide
  have hlast : 113 + 1 ≤ tiny.blocksCount := by decide
  obtain ⟨root, hroot⟩ : ∃ root, Lib.Hoare.exec (alloc tiny.firstDataBlock 1) (newAllocator tiny) =
      (.ok root, (newAllocator tiny).push ⟨root, 1⟩) :=
    alloc_of_free (Nat.le_refl _) hfirst hlast
      fun b hb hb' => hfree 113 (Or.inl rfl) b hb (by omega)
  -- The root takes one block, so it leaves one of the stretches alone.
  obtain ⟨s, hs, hout⟩ : ∃ s, (s = 113 ∨ s = 241) ∧ (root < s ∨ s + 12 ≤ root) := by
    rcases Nat.lt_or_ge root 241 with hlt | hge
    · exact ⟨241, Or.inr rfl, Or.inl hlt⟩
    · exact ⟨113, Or.inl rfl, Or.inr (by omega)⟩
  have hlow : tiny.firstDataBlock ≤ s := show 1 ≤ s by omega
  have hhigh : s + 12 ≤ tiny.blocksCount := show s + 12 ≤ 1009 by omega
  have hleft : ∀ b, s ≤ b → b < s + 12 →
      ((newAllocator tiny).push ⟨root, 1⟩).taken b = false := by
    intro b hb hb'
    rw [← Bool.not_eq_true, (alloc_ok hroot).taken_iff, hfree s hs b hb hb', blocksOf_cons,
      blocksOf_nil, List.append_nil, Run.mem_blocks]
    dsimp only
    rintro (h | h)
    · cases h
    · omega
  obtain ⟨start, hstart⟩ := @alloc_of_free ((newAllocator tiny).push ⟨root, 1⟩) _ 12 s
    (Nat.le_refl tiny.firstDataBlock) hlow hhigh hleft
  rw [planBlocks]
  dsimp only
  rw [hlost, Lib.Hoare.exec_bind_of_ok hroot, Lib.Hoare.exec_bind_of_ok hstart]
  rfl

/-- The copy in group 125 ends one block past the end of the filesystem. -/
theorem tiny_not_whole : ∃ plan,
    Format.plan tinyDevice.size (onDevice tinyGroups tinyDevice) {} = .ok plan ∧
      ∀ schedule, ¬ ∀ op ∈ (writeFilesystemChunked plan gdtChunkBlocks schedule).trace,
        op.WholeWithin plan.geom.blockSize plan.geom.blocksCount := by
  have hcompute : compute tinyDevice.size (onDevice tinyGroups tinyDevice) = .ok tiny := by
    decide +kernel
  have hok : (Format.plan tinyDevice.size (onDevice tinyGroups tinyDevice) {}).isOk = true := by
    rw [Format.plan, Lib.Hoare.bind_of_ok hcompute]
    exact tiny_planned
  cases hplan : Format.plan tinyDevice.size (onDevice tinyGroups tinyDevice) {} with
  | error e =>
    rw [hplan] at hok
    cases hok
  | ok plan =>
    refine ⟨plan, rfl, fun schedule hwhole => ?_⟩
    obtain ⟨geom, hgeom, -, hfor⟩ := plan_ok hplan
    obtain rfl : tiny = geom := Except.ok.inj (hcompute.symm.trans hgeom)
    have hgeom := hfor.geom
    have hreach : Reaches plan (max gdtChunkBlocks 1) 0 := by
      intro g hg
      have hg : g < tiny.groupCount := by
        rw [← hgeom]
        exact Nat.lt_of_lt_of_le hg (Nat.min_le_right _ _)
      have hfirst : ∀ g < 126, tiny.flexFirstGroup g ∈ [0, 16, 32, 48, 64, 80, 96, 112] := by
        decide
      have hplaced := tiny_placed _ (hfirst g hg)
      cases hplace : tiny.placeFlex (tiny.flexFirstGroup g) with
      | error e =>
        rw [hplace] at hplaced
        cases hplaced
      | ok placement =>
        rw [← hgeom] at hg hplace
        exact buildGroup_of_placed hg (by rw [hgeom]; decide) (by rw [hgeom]; decide) hplace
    have hcopy : 1002 ∈ classicCopies plan.geom := by
      rw [hgeom]
      decide +kernel
    obtain ⟨table, hlen, hmem⟩ := copy_mem_trace schedule hcopy (by rw [hgeom]; decide)
      (Nat.dvd_zero _) hreach
    have hend := (hwhole _ hmem _ rfl).2.2.2
    rw [hlen, hgeom] at hend
    exact absurd hend (by decide)

end MkfsExt4.Format
