/-
  Where the writer's operations fall (`write_filesystem_chunked` in `src/format.rs`). Every one
  covers whole blocks; `Place` says which: metadata of a group, blocks that were handed out,
  copies of the descriptor table, the reserved descriptor blocks, the boot block.
-/
import MkfsExt4.Format.InFlight
import MkfsExt4.Layout.Fronts

namespace MkfsExt4.Format

open Lib.Store Lib.Trace Lib.FirstFit Layout

/-- The bytes an operation covers: where they start and how many they are. -/
def Op.span : Op → Option (Nat × Nat)
  | .write offset buf => some (offset, buf.length)
  | .zero offset len => some (offset, len)
  | .flush => none

/-- An operation covers whole blocks, a run of them that `R` has. -/
def Op.On (blockSize : Nat) (R : Nat → Nat → Prop) (op : Op) : Prop :=
  ∀ span ∈ op.span, ∃ start len, 0 < len ∧ span = (start * blockSize, len * blockSize) ∧ R start len

theorem Op.On.mono {blockSize : Nat} {R S : Nat → Nat → Prop} {op : Op} (h : op.On blockSize R)
    (hRS : ∀ start len, 0 < len → R start len → S start len) : op.On blockSize S := by
  intro span hspan
  obtain ⟨start, len, hlen, heq, hR⟩ := h span hspan
  exact ⟨start, len, hlen, heq, hRS start len hlen hR⟩

theorem Op.on_write {blockSize : Nat} {R : Nat → Nat → Prop} {start len : Nat} {buf : List UInt8}
    (hlen : 0 < len) (hbuf : buf.length = len * blockSize) (hR : R start len) :
    (Op.write (start * blockSize) buf).On blockSize R := by
  intro span hspan
  cases hspan
  exact ⟨start, len, hlen, by rw [hbuf], hR⟩

theorem Op.on_zero {blockSize : Nat} {R : Nat → Nat → Prop} {start len : Nat} (hlen : 0 < len)
    (hR : R start len) : (Op.zero (start * blockSize) (len * blockSize)).On blockSize R := by
  intro span hspan
  cases hspan
  exact ⟨start, len, hlen, rfl, hR⟩

variable (plan : Plan)

/-! ## Places -/

/-- One past the last group of the chunk of the descriptor table that starts at `first`. -/
def chunkEnd (chunk first : Nat) : Nat :=
  min ((first + min chunk (plan.geom.descBlocks - first)) * plan.geom.descPerBlock)
    plan.geom.groupCount

/-- Every group up to the end of a chunk can be built. -/
def Reaches (chunk first : Nat) : Prop :=
  ∀ g < chunkEnd plan chunk first, ∃ state, buildGroup plan g = .ok state

/-- The runs of blocks the writer may cover, the descriptor table going out `chunk` blocks at
a time. -/
inductive Place (chunk : Nat) : Nat → Nat → Prop where
  /-- The boot block, where it is a block of its own. -/
  | boot : plan.geom.blockSize = superblockOffset → Place chunk 0 1
  /-- A group's bitmap or inode table. -/
  | part {g : Nat} {lay : GroupLayout} (p : Part) : plan.geom.group g = .ok lay →
      Place chunk (plan.geom.part lay p).1 (plan.geom.part lay p).2
  /-- A block of group 0's inode table. -/
  | inodes {lay : GroupLayout} {block : Nat} : plan.geom.group 0 = .ok lay →
      Within (plan.geom.part lay .inodeTable) block → Place chunk block 1
  /-- Blocks that were handed out. -/
  | run {start len : Nat} : (∀ b, start ≤ b → b < start + len → b ∈ blocksOf plan.runs) →
      Place chunk start len
  /-- A chunk of the table, in a classic copy. -/
  | copy {copy first : Nat} : copy ∈ classicCopies plan.geom → first < plan.geom.descBlocks →
      chunk ∣ first → Reaches plan chunk first →
      Place chunk (copy + first) (min chunk (plan.geom.descBlocks - first))
  /-- A block of the table, in a meta block group. -/
  | holder {mbg block : Nat} : block ∈ metaHolders plan.geom mbg → Place chunk block 1
  /-- Reserved descriptor blocks of group 0. -/
  | reserved {off len : Nat} : off + len ≤ plan.geom.reservedGdtBlocks →
      Place chunk (plan.geom.firstDataBlock + 1 + plan.geom.descBlocks + off) len

variable {plan}

theorem Place.run_one {chunk block : Nat} (h : block ∈ blocksOf plan.runs) :
    Place plan chunk block 1 := by
  refine .run fun b hlow hhigh => ?_
  obtain rfl : b = block := by omega
  exact h

section

variable {R : Nat → Nat → Prop}

theorem issues_writeBlock {block : Nat} {buf : List UInt8}
    (hbuf : buf.length = plan.geom.blockSize) (hR : R block 1) :
    Issues (Op.On plan.geom.blockSize R) (writeBlock plan block buf) :=
  issues_emit (Op.on_write Nat.zero_lt_one (by rw [hbuf, Nat.one_mul]) hR)

theorem issues_zeroBlocks {block len : Nat} (hlen : 0 < len) (hR : R block len) :
    Issues (Op.On plan.geom.blockSize R) (zeroBlocks plan block len) :=
  issues_emit (Op.on_zero hlen hR)

end

/-! ## Groups and their descriptors -/

theorem buildGroup_ok {g : Nat} {state : GroupState} (h : buildGroup plan g = .ok state) :
    (∃ lay, plan.geom.group g = .ok lay ∧ state.desc.blockBitmap = lay.blockBitmap ∧
      state.desc.inodeBitmap = lay.inodeBitmap ∧ state.desc.inodeTable = lay.inodeTable) ∧
    state.blockBitmap.length = plan.geom.blockSize ∧
      state.inodeBitmap.length = plan.geom.blockSize := by
  obtain ⟨lay, hlay, h⟩ := Lib.Hoare.bind_ok h
  obtain ⟨metadata, -, h⟩ := Lib.Hoare.bind_ok h
  obtain ⟨_, -, h⟩ := Lib.Hoare.bind_ok h
  obtain ⟨_, -, h⟩ := Lib.Hoare.bind_ok h
  cases h
  refine ⟨⟨lay, returned_ok hlay, rfl, rfl, rfl⟩, ?_, ?_⟩
  · simp only [Lib.Bitmap.length_ofBits]
  · simp only [Lib.Bitmap.length_ofBits]

/-- A group whose flex group is placed can be built, where a block has a bit for each block and
inode of a group. -/
theorem buildGroup_of_placed {g : Nat} {placement : List (Nat × Nat × Nat)}
    (hg : g < plan.geom.groupCount) (hblocks : plan.geom.blocksPerGroup ≤ 8 * plan.geom.blockSize)
    (hinodes : plan.geom.inodesPerGroup ≤ 8 * plan.geom.blockSize)
    (h : plan.geom.placeFlex (plan.geom.flexFirstGroup g) = .ok placement) :
    ∃ state, buildGroup plan g = .ok state := by
  have hlay : ∃ lay, plan.geom.group g = .ok lay ∧ lay.group = g := by
    unfold Geometry.group
    rw [if_neg (Nat.not_le.mpr hg)]
    simp only [h]
    exact ⟨_, rfl, rfl⟩
  obtain ⟨lay, hlay, hgroup⟩ := hlay
  have hmeta : ∃ runs, plan.geom.flexMetadataRuns lay.group = .ok runs := by
    rw [hgroup]
    unfold Geometry.flexMetadataRuns
    rw [h]
    exact ⟨_, rfl⟩
  obtain ⟨runs, hmeta⟩ := hmeta
  have hbytes : ∀ n ≤ 8 * plan.geom.blockSize, divCeil n 8 ≤ plan.geom.blockSize := fun n hn =>
    (divCeil_le_iff (by decide)).mpr (by omega)
  cases hbuild : buildGroup plan g with
  | ok state => exact ⟨state, rfl⟩
  | error e =>
    exfalso
    have hnot : ∀ {bad : Prop} [Decidable bad], panicIf bad = .error e → bad := by
      intro bad _ hpanic
      by_contra hgood
      rw [panicIf, if_neg hgood] at hpanic
      cases hpanic
    obtain hbad | ⟨lay', hlay', hbuild⟩ := Lib.Hoare.bind_error hbuild
    · rw [hlay] at hbad
      cases hbad
    obtain rfl : lay = lay' := Except.ok.inj (hlay.symm.trans (returned_ok hlay'))
    obtain hbad | ⟨_, -, hbuild⟩ := Lib.Hoare.bind_error hbuild
    · rw [hmeta] at hbad
      cases hbad
    obtain hbad | ⟨_, -, hbuild⟩ := Lib.Hoare.bind_error hbuild
    · obtain ⟨r, hr, -, hlong⟩ := hnot hbad
      obtain ⟨r', -, rfl⟩ := List.mem_map.mp hr
      have : min (r'.2 - lay.firstBlock) plan.geom.blocksPerGroup ≤ plan.geom.blocksPerGroup :=
        Nat.min_le_right _ _
      dsimp only [window] at hlong
      omega
    obtain hbad | ⟨_, -, hbuild⟩ := Lib.Hoare.bind_error hbuild
    · have := hbytes _ hblocks
      have := hbytes _ hinodes
      have := (hnot hbad).2
      omega
    · cases hbuild

/-- What a group that can be built issues. -/
theorem writeGroup_ok {g : Nat} {ops : List Op} {desc : GroupDesc}
    (h : writeGroup plan g = .ok (ops, desc)) :
    ∃ state lay, buildGroup plan g = .ok state ∧ plan.geom.group g = .ok lay ∧
      desc = state.desc ∧ ops =
        (if state.desc.blockUninit then [] else
          [.write (lay.blockBitmap * plan.geom.blockSize) state.blockBitmap]) ++
        (if state.desc.inodeUninit then [] else
          [.write (lay.inodeBitmap * plan.geom.blockSize) state.inodeBitmap]) ++
        (if plan.zeroedMedium || (plan.lazyItable && g ≠ 0) then [] else
          [.zero (lay.inodeTable * plan.geom.blockSize)
            (plan.geom.itableBlocksPerGroup * plan.geom.blockSize)]) := by
  obtain ⟨state, hstate, h⟩ := Lib.Hoare.bind_ok h
  obtain ⟨lay, hlay, h⟩ := Lib.Hoare.bind_ok h
  cases h
  exact ⟨state, lay, hstate, returned_ok hlay, rfl, rfl⟩

/-- A group can be written when it can be built. -/
theorem writeGroup_of_build {g : Nat} {state : GroupState} (h : buildGroup plan g = .ok state) :
    ∃ r, writeGroup plan g = .ok r := by
  obtain ⟨⟨lay, hlay, -⟩, -⟩ := buildGroup_ok h
  have heq : writeGroup plan g = _ :=
    (Lib.Hoare.bind_of_ok h).trans (Lib.Hoare.bind_of_ok (returned_ok_iff.mpr hlay))
  exact ⟨_, heq⟩

/-- Every operation of a group is on its own metadata. -/
theorem writeGroup_on (hitable : 0 < plan.geom.itableBlocksPerGroup) {chunk g : Nat}
    {ops : List Op} {desc : GroupDesc} (h : writeGroup plan g = .ok (ops, desc)) :
    ∀ op ∈ ops, op.On plan.geom.blockSize (Place plan chunk) := by
  obtain ⟨state, lay, hstate, hlay, -, rfl⟩ := writeGroup_ok h
  obtain ⟨-, hblock, hinode⟩ := buildGroup_ok hstate
  intro op hop
  simp only [List.mem_append, List.mem_ite_nil_left, List.mem_singleton] at hop
  rcases hop with (⟨-, rfl⟩ | ⟨-, rfl⟩) | ⟨-, rfl⟩
  · exact Op.on_write Nat.zero_lt_one (by rw [hblock, Nat.one_mul]) (.part .blockBitmap hlay)
  · exact Op.on_write Nat.zero_lt_one (by rw [hinode, Nat.one_mul]) (.part .inodeBitmap hlay)
  · exact Op.on_zero hitable (.part .inodeTable hlay)

theorem length_chunkTable (plan : Plan) (firstGroup blocks : Nat) (done : List (Nat × GroupDesc)) :
    (chunkTable plan firstGroup blocks done).length = blocks * plan.geom.blockSize := by
  unfold chunkTable
  dsimp only
  have hfold : ∀ (done : List (Nat × GroupDesc)) (table : List UInt8),
      (done.foldl (fun table entry =>
        splice table ((entry.1 - firstGroup) * plan.geom.descSize)
          (entry.2.encodeWithCsum plan.geom.descSize plan.csumScheme plan.csumSeed plan.uuid
            entry.1))
        table).length = table.length := by
    intro done
    induction done with
    | nil => exact fun _ => rfl
    | cons d done ih =>
      intro table
      rw [List.foldl_cons, ih, length_splice]
  exact (hfold done _).trans List.length_replicate

/-- The groups of a chunk, as they are queued. -/
def chunkQueue (plan : Plan) (chunk first : Nat) : List InFlight :=
  let firstGroup := first * plan.geom.descPerBlock
  (List.range' firstGroup (chunkEnd plan chunk first - firstGroup)).map fun group =>
    { group, rest := writeGroup plan group }

theorem mem_chunkQueue {chunk first : Nat} {t : InFlight} (h : t ∈ chunkQueue plan chunk first) :
    t.rest = writeGroup plan t.group ∧ first * plan.geom.descPerBlock ≤ t.group ∧
      t.group < chunkEnd plan chunk first := by
  obtain ⟨g, hg, rfl⟩ := List.mem_map.mp h
  have hg := List.mem_range'_1.mp hg
  dsimp only at hg ⊢
  exact ⟨rfl, hg.1, by omega⟩

theorem chunkQueue_mem {chunk first g : Nat} (hlow : first * plan.geom.descPerBlock ≤ g)
    (hhigh : g < chunkEnd plan chunk first) :
    { group := g, rest := writeGroup plan g } ∈ chunkQueue plan chunk first :=
  List.mem_map.mpr ⟨g, List.mem_range'_1.mpr ⟨hlow, by omega⟩, rfl⟩

/-- A chunk: its groups, in flight together, then the copies of their descriptors. -/
theorem writeChunk_eq (plan : Plan) (chunk : Nat) (turns : List Nat) (first : Nat) :
    writeChunk plan chunk turns first =
      (drain plan.inFlight turns (chunkQueue plan chunk first) >>= fun done =>
        writeCopies plan first (min chunk (plan.geom.descBlocks - first))
          (chunkTable plan (first * plan.geom.descPerBlock)
            (min chunk (plan.geom.descBlocks - first)) done) >>= fun _ =>
        pure ((done.map fun d => d.2.freeBlocksCount).sum,
          (done.map fun d => d.2.freeInodesCount).sum)) := rfl

theorem inFlight_pos (plan : Plan) : 0 < plan.inFlight := by
  unfold Plan.inFlight
  split
  · omega
  · split <;> omega

/-- The groups of a chunk that was done with can be built. -/
theorem built_of_drain {chunk first : Nat} {turns : List Nat} {done : List (Nat × GroupDesc)}
    (h : (drain plan.inFlight turns (chunkQueue plan chunk first)).result = .ok done) {g : Nat}
    (hlow : first * plan.geom.descPerBlock ≤ g) (hhigh : g < chunkEnd plan chunk first) :
    ∃ state, buildGroup plan g = .ok state := by
  obtain ⟨ops, desc, hok⟩ := (drain_ok (inFlight_pos plan) h).1 _ (chunkQueue_mem hlow hhigh)
  obtain ⟨state, -, hstate, -⟩ := writeGroup_ok hok
  exact ⟨state, hstate⟩

/-- The copies of a chunk of the table. -/
theorem issues_writeCopies {chunk first : Nat} {table : List UInt8} (hchunk : 0 < chunk)
    (hfirst : first < plan.geom.descBlocks) (hdvd : chunk ∣ first)
    (hreach : Reaches plan chunk first)
    (htable : table.length = min chunk (plan.geom.descBlocks - first) * plan.geom.blockSize) :
    Issues (Op.On plan.geom.blockSize (Place plan chunk))
      (writeCopies plan first (min chunk (plan.geom.descBlocks - first)) table) := by
  unfold writeCopies
  dsimp only
  refine issues_then (issues_forM fun copy hcopy => issues_emit ?_) ?_
  · exact Op.on_write (Nat.lt_min.mpr ⟨hchunk, by omega⟩) htable (.copy hcopy hfirst hdvd hreach)
  · refine issues_onlyIf fun _ => issues_forM fun i hi => ?_
    refine issues_onlyIf fun _ => issues_forM fun block hblock => ?_
    refine issues_writeBlock (length_slice ?_) (.holder hblock)
    have := Nat.mul_le_mul_right plan.geom.blockSize (List.mem_range.mp hi)
    rw [Nat.succ_mul] at this
    rw [htable]
    exact this

/-- A group before the end of a chunk is in that chunk or in one before it. -/
theorem chunk_of_group (hdpb : 0 < plan.geom.descPerBlock) {chunk k g : Nat} (hchunk : 0 < chunk)
    (hk : k * chunk < plan.geom.descBlocks) (hg : g < chunkEnd plan chunk (k * chunk)) : ∃ k' ≤ k,
      k' * chunk * plan.geom.descPerBlock ≤ g ∧ g < chunkEnd plan chunk (k' * chunk) := by
  obtain ⟨hlt, hcount⟩ := Nat.lt_min.mp hg
  have hblock : g / plan.geom.descPerBlock <
      k * chunk + min chunk (plan.geom.descBlocks - k * chunk) :=
    (Nat.div_lt_iff_lt_mul hdpb).mpr hlt
  have hend : g < (g / plan.geom.descPerBlock + 1) * plan.geom.descPerBlock :=
    Nat.lt_mul_of_div_lt (Nat.lt_succ_self _) hdpb
  have hstart := Nat.div_mul_le_self g plan.geom.descPerBlock
  generalize g / plan.geom.descPerBlock = d at hblock hend hstart
  have hdiv := Nat.div_add_mod' d chunk
  have hmod := Nat.mod_lt d hchunk
  refine ⟨d / chunk, ?_, ?_, Nat.lt_min.mpr ⟨?_, hcount⟩⟩
  · apply Nat.lt_succ_iff.mp
    apply (Nat.div_lt_iff_lt_mul hchunk).mpr
    rw [Nat.succ_mul]
    omega
  · have := Nat.mul_le_mul_right plan.geom.descPerBlock (show d / chunk * chunk ≤ d by omega)
    exact Nat.le_trans this hstart
  · refine Nat.lt_of_lt_of_le hend (Nat.mul_le_mul_right _ ?_)
    omega

/-- The loop over the chunks gets to one only past the groups of those before it. -/
theorem issues_writeTable (hitable : 0 < plan.geom.itableBlocksPerGroup)
    (hdpb : 0 < plan.geom.descPerBlock) (chunkBlocks : Nat) (schedule : Nat → List Nat) :
    Issues (Op.On plan.geom.blockSize (Place plan (max chunkBlocks 1)))
      (writeTable plan chunkBlocks schedule) := by
  unfold writeTable
  dsimp only
  have hchunk : 0 < max chunkBlocks 1 := by omega
  generalize max chunkBlocks 1 = chunk at hchunk
  refine issues_foldlM fun before k after free hsplit hbefore => ?_
  -- The chunks come in order.
  have hk : k * chunk < plan.geom.descBlocks := by
    apply (lt_divCeil_iff hchunk).mp
    apply List.mem_range.mp
    rw [hsplit]
    exact List.mem_append_right _ List.mem_cons_self
  have hmem : ∀ k' < k, k' ∈ before := by
    intro k' hk'
    have hin : k' ∈ before ++ k :: after := by
      rw [← hsplit, List.mem_range]
      apply (lt_divCeil_iff hchunk).mpr
      exact Nat.lt_of_le_of_lt (Nat.mul_le_mul_right chunk (Nat.le_of_lt hk')) hk
    have hsorted := List.pairwise_lt_range (n := divCeil plan.geom.descBlocks chunk)
    rw [hsplit, List.pairwise_append, List.pairwise_cons] at hsorted
    rcases List.mem_append.mp hin with hin | hin
    · exact hin
    · rcases List.mem_cons.mp hin with rfl | hin
      · exact absurd hk' (Nat.lt_irrefl _)
      · exact absurd (hsorted.2.1.1 k' hin) (Nat.lt_asymm hk')
  have hbuilt : ∀ k' < k, ∀ g, k' * chunk * plan.geom.descPerBlock ≤ g →
      g < chunkEnd plan chunk (k' * chunk) → ∃ state, buildGroup plan g = .ok state := by
    intro k' hk' g hlow hhigh
    obtain ⟨b0, b1, hstep⟩ := foldlM_ok hbefore (hmem k' hk')
    obtain ⟨_, hwrite, -⟩ := bind_ok hstep
    rw [writeChunk_eq] at hwrite
    obtain ⟨done, hdone, -⟩ := bind_ok hwrite
    exact built_of_drain hdone hlow hhigh
  refine issues_bind ?_ fun _ _ => issues_pure _
  rw [writeChunk_eq]
  refine issues_bind (issues_drain fun t ht op hop => ?_) fun done hdone => ?_
  · obtain ⟨hrest, -⟩ := mem_chunkQueue ht
    cases hgroup : writeGroup plan t.group with
    | error e =>
      rw [InFlight.ops, hrest, hgroup] at hop
      cases hop
    | ok r =>
      rw [InFlight.ops, hrest, hgroup] at hop
      exact writeGroup_on hitable hgroup op hop
  · refine issues_then (issues_writeCopies hchunk hk (Nat.dvd_mul_left _ _) ?_
      (length_chunkTable plan _ _ done)) (issues_pure _)
    intro g hg
    obtain ⟨k', hk', hlow, hhigh⟩ := chunk_of_group hdpb hchunk hk hg
    rcases Nat.eq_or_lt_of_le hk' with rfl | hlt
    · exact built_of_drain hdone hlow hhigh
    · exact hbuilt k' hlt g hlow hhigh

/-! ## Files -/

section Files

variable (hlaid : plan.Laid) {chunk : Nat}

include hlaid

theorem Plan.Laid.root_mem : plan.rootBlock ∈ blocksOf plan.runs :=
  hlaid.files.subset List.mem_cons_self

theorem Plan.Laid.lostFound_mem {i : Nat} (hi : i < plan.lostFoundBlocks) :
    plan.lostFoundStart + i ∈ blocksOf plan.runs := by
  refine hlaid.files.subset (List.mem_cons_of_mem _ (List.mem_append_left _ ?_))
  rw [Plan.lostFound, List.mem_range'_1]
  omega

theorem Plan.Laid.journal_mem {b : Nat} (hb : b ∈ blocksOf plan.journalRuns) :
    b ∈ blocksOf plan.runs :=
  hlaid.files.subset (List.mem_cons_of_mem _ (List.mem_append_right _ hb))

theorem issues_writeRootAndLostFound (hpos : 0 < plan.lostFoundBlocks) :
    Issues (Op.On plan.geom.blockSize (Place plan chunk)) (writeRootAndLostFound plan) := by
  refine issues_bind (issues_ofExcept _) fun root hroot => ?_
  refine issues_then (issues_writeBlock (length_dirBlock plan (returned_ok hroot))
    (.run_one hlaid.root_mem)) ?_
  refine issues_bind (issues_ofExcept _) fun first hfirst => ?_
  refine issues_then (issues_writeBlock (length_dirBlock plan (returned_ok hfirst))
    (.run_one (hlaid.lostFound_mem hpos))) ?_
  refine issues_forM fun i hi => ?_
  have hi := List.mem_range'_1.mp hi
  exact issues_writeBlock (length_emptyDirBlock plan) (.run_one (hlaid.lostFound_mem (by omega)))

omit hlaid in
theorem issues_writeIndirect {map : IndirectMap}
    (h : ∀ c ∈ map.blocks, c.1 ∈ blocksOf plan.runs) :
    Issues (Op.On plan.geom.blockSize (Place plan chunk)) (writeIndirect plan map) :=
  issues_forM fun c hc => issues_writeBlock (length_pointerBlock _ _) (.run_one (h c hc))

omit hlaid in
theorem issues_zeroJournal {first : Bool} {runs : List Run}
    (h : ∀ b ∈ blocksOf runs, b ∈ blocksOf plan.runs) :
    Issues (Op.On plan.geom.blockSize (Place plan chunk)) (zeroJournal plan first runs) := by
  induction runs generalizing first with
  | nil => exact issues_pure _
  | cons r runs ih =>
    rw [blocksOf_cons] at h
    have hrun : ∀ b, r.start ≤ b → b < r.start + r.len → b ∈ blocksOf plan.runs :=
      fun b hlow hhigh => h b (List.mem_append_left _ (Run.mem_blocks.mpr ⟨hlow, hhigh⟩))
    have hrest := @ih false fun b hb => h b (List.mem_append_right _ hb)
    refine issues_then (issues_onlyIf fun hlen => issues_zeroBlocks hlen ?_) hrest
    -- The journal's superblock leaves its run the blocks past the first.
    have hin : r.start ≤ (if first then r.start + 1 else r.start) ∧
        (if first then r.start + 1 else r.start) + (if first then r.len - 1 else r.len) ≤
          r.start + r.len := by
      cases first <;> simp at hlen ⊢
      omega
    exact .run fun b hlow hhigh => hrun b (Nat.le_trans hin.1 hlow) (Nat.lt_of_lt_of_le hhigh hin.2)

theorem issues_writeJournal {start : Nat} (h : plan.journalStart = some start) :
    Issues (Op.On plan.geom.blockSize (Place plan chunk)) (writeJournal plan start) := by
  have hstart : start ∈ blocksOf plan.runs := by
    apply hlaid.journal_mem
    apply List.mem_of_mem_head?
    rw [← hlaid.journalStart]
    exact h
  refine issues_then (issues_writeBlock (length_journalSuperblock plan) (.run_one hstart)) ?_
  refine issues_then (issues_onlyIf fun _ => issues_zeroJournal fun b => hlaid.journal_mem) ?_
  refine issues_then (issues_forSome fun leaf hleaf => ?_)
    (issues_writeIndirect hlaid.journalIndirect)
  refine issues_bind (issues_ofExcept _) fun buf hbuf => ?_
  exact issues_writeBlock (length_journalLeafBlock plan hbuf)
    (.run_one (hlaid.journalExtentLeaf leaf hleaf))

theorem issues_writeOrphanFile (inum : Nat) :
    Issues (Op.On plan.geom.blockSize (Place plan chunk)) (writeOrphanFile plan inum) := by
  refine issues_then (issues_forM fun b hb => issues_writeBlock (length_orphanBlock plan inum b)
    (.run_one (hlaid.orphanRuns b hb))) ?_
  refine issues_then (issues_forSome fun leaf hleaf => ?_)
    (issues_writeIndirect hlaid.orphanIndirect)
  refine issues_bind (issues_ofExcept _) fun buf hbuf => ?_
  exact issues_writeBlock (length_extentLeafBlock hbuf)
    (.run_one (hlaid.orphanExtentLeaf leaf hleaf))

omit hlaid in
theorem length_mmpContents (plan : Plan) :
    (mmpContents plan).length = plan.geom.blockSize := by
  unfold mmpContents Mmp.encode
  dsimp only
  split
  · rw [length_putU32, Mmp.length_encodeFields]
  · exact Mmp.length_encodeFields _ _

omit hlaid in
/-- The reserved descriptor blocks start where group 0's table ends. -/
theorem reservedGdtBlock_eq (hfirst : plan.geom.firstDataBlock =
    if plan.geom.blockSize = 1024 then 1 else 0) (off : Nat) : reservedGdtBlock plan.geom off =
      plan.geom.firstDataBlock + 1 + plan.geom.descBlocks + off := by
  rw [reservedGdtBlock, hfirst]
  split <;> rfl

theorem issues_writeResizeInodeBlocks (hfirst : plan.geom.firstDataBlock =
    if plan.geom.blockSize = 1024 then 1 else 0) {dind : Nat} (h : plan.resizeDind = some dind) :
    Issues (Op.On plan.geom.blockSize (Place plan chunk)) (writeResizeInodeBlocks plan dind) := by
  refine issues_then (issues_forM fun off hoff => ?_) (issues_writeBlock
    (length_resizeDindContents _) (.run_one (hlaid.resizeDind dind h)))
  refine issues_writeBlock (length_pointerBlock _ _) ?_
  rw [reservedGdtBlock_eq hfirst]
  exact .reserved (List.mem_range.mp hoff)

omit hlaid in
/-- The reserved inodes are numbered up to 12. -/
theorem reservedInodes_le (hinum : ∀ inum ∈ plan.orphanInode, inum = goodOldFirstIno + 1)
    {inodes : List (Nat × Inode)} (h : reservedInodes plan = .ok inodes) :
    ∀ e ∈ inodes, e.1 ≤ 12 := by
  obtain ⟨lostFound, -, h⟩ := Lib.Hoare.bind_ok h
  cases h
  intro e he
  rcases List.mem_append.mp he with he | he
  · have hfixed : ∀ inum ∈ [Ino.bad, Ino.root, Ino.usrQuota, Ino.grpQuota, Ino.bootLoader,
        Ino.undelDir, Ino.exclude, Ino.replica, Ino.resize, Ino.journal, goodOldFirstIno],
        inum ≤ 12 := by
      decide
    exact hfixed _ (List.mem_map_of_mem (f := Prod.fst) he)
  · obtain ⟨inum, hin, rfl⟩ := List.mem_map.mp he
    rw [hinum inum (Option.mem_toList.mp hin)]
    exact Nat.le_refl 12

omit hlaid in
theorem issues_writeReservedInodes (hb : 0 < plan.geom.blockSize) (hinum : 12 ≤ plan.geom.inodesPerGroup)
    (hsize : 0 < plan.geom.inodeSize) (htable : plan.geom.inodesPerGroup * plan.geom.inodeSize =
      plan.geom.itableBlocksPerGroup * plan.geom.blockSize)
    (horphan : ∀ inum ∈ plan.orphanInode, inum = goodOldFirstIno + 1) :
    Issues (Op.On plan.geom.blockSize (Place plan chunk)) (writeReservedInodes plan) := by
  refine issues_bind (issues_ofExcept _) fun lay hlay => ?_
  refine issues_bind (issues_ofExcept _) fun inodes hinodes => issues_forM fun b hb' => ?_
  have hin : ∀ e ∈ inodes, (e.1 - 1) * plan.geom.inodeSize <
      plan.geom.itableBlocksPerGroup * plan.geom.blockSize := by
    intro e he
    have hle := reservedInodes_le horphan (returned_ok hinodes) e he
    rw [← htable]
    exact Nat.mul_lt_mul_of_pos_right (by omega) hsize
  obtain ⟨hplace, hlen⟩ := gatherInode_inv plan hb inodes [] hin nofun b hb'
  exact issues_writeBlock hlen (.inodes (returned_ok hlay) hplace)

end Files

/-! ## The whole writer -/

/-- What the places of a plan's operations rest on. -/
structure Plan.Sound (plan : Plan) : Prop where
  computed : Computed plan.geom
  laid : plan.Laid
  lostFound_pos : 0 < plan.lostFoundBlocks
  orphanInode : ∀ inum ∈ plan.orphanInode, inum = goodOldFirstIno + 1
  blockSize : ∃ k, plan.geom.blockSize = 2 ^ k ∧ 10 ≤ k ∧ k ≤ 16
  firstDataBlock : plan.geom.firstDataBlock = if plan.geom.blockSize = 1024 then 1 else 0
  table : plan.geom.inodesPerGroup * plan.geom.inodeSize =
    plan.geom.itableBlocksPerGroup * plan.geom.blockSize
  group0 : 12 ≤ plan.geom.inodesPerGroup
  descSize : plan.geom.descPerBlock * plan.geom.descSize = plan.geom.blockSize
  descBlocks : plan.geom.descBlocks = divCeil plan.geom.groupCount plan.geom.descPerBlock
  holdsFront : ∀ g < plan.geom.groupCount, plan.geom.HoldsFront g

theorem plan_sound {deviceSize : Nat} {params : Params} {ambient : Ambient} {p : Plan}
    (htyped : params.Typed) (h : Format.plan deviceSize params ambient = .ok p) : p.Sound := by
  obtain ⟨geom, hgeom, hlaid, hfor⟩ := plan_ok h
  obtain rfl := hfor.geom
  obtain ⟨req, start, descSize, s, grp, -, hfrom⟩ := compute_from hgeom
  obtain ⟨htable, hgroup0⟩ := hfrom.table_bytes htyped
  exact ⟨compute_ok hgeom, hlaid, hfor.lostFound_pos, hfor.orphanInode, hfrom.blockSize_pow,
    hfrom.firstDataBlock_eq, htable, hgroup0, hfrom.descSize_mul, hfrom.descBlocks_eq,
    fun g hg => hfrom.holdsFront hg⟩

theorem onDevice_typed {params : Params} {dev : Device} (htyped : params.Typed)
    (hsector : dev.logicalSectorSize < 2 ^ 32) : (onDevice params dev).Typed := by
  refine { htyped with sectorSize := fun n hn => ?_ }
  cases hn
  refine Nat.max_lt.mpr ⟨?_, hsector⟩
  cases hs : params.sectorSize with
  | none => decide
  | some n => exact htyped.sectorSize n hs

namespace Plan.Sound

variable (h : plan.Sound)

include h

/-- Blocks that were handed out are in no superblock or descriptor region. -/
theorem free {b : Nat} (hb : b ∈ blocksOf plan.runs) : plan.geom.Free b := by
  have hprobe := (h.laid.free b hb).1
  unfold metadataProbe at hprobe
  split at hprobe
  · cases hprobe
  · next hsuper => exact Bool.eq_false_iff.mpr hsuper

theorem blockSize_ge : 1024 ≤ plan.geom.blockSize := by
  obtain ⟨k, hk, hlow, -⟩ := h.blockSize
  rw [hk]
  exact Nat.pow_le_pow_right Nat.two_pos hlow

theorem inodeSize_pos : 0 < plan.geom.inodeSize := by
  rcases Nat.eq_zero_or_pos plan.geom.inodeSize with h0 | hpos
  · have htable := h.table
    have := Nat.mul_pos h.computed.itable_pos (Nat.lt_of_lt_of_le (by decide) h.blockSize_ge)
    rw [h0, Nat.mul_zero] at htable
    omega
  · exact hpos

theorem descPerBlock_pos : 0 < plan.geom.descPerBlock :=
  Nat.lt_of_lt_of_le (by decide) h.computed.descPerBlock_ge

theorem descBlocks_pos : 0 < plan.geom.descBlocks := by
  rw [h.descBlocks]
  exact divCeil_pos h.computed.groupCount_pos h.descPerBlock_pos

/-- Reserved descriptor blocks are only kept without `meta_bg`, and then group 0's table is the
first of the classic copies. -/
theorem classicCopies_head (hres : 0 < plan.geom.reservedGdtBlocks) :
    (classicCopies plan.geom).head? = some (plan.geom.firstDataBlock + 1) := by
  have hm : plan.geom.metaBg = false := by
    cases hm : plan.geom.metaBg with
    | false => rfl
    | true =>
      have := (h.computed.distributed hm).1
      omega
  obtain ⟨n, hn⟩ := Nat.exists_eq_succ_of_ne_zero (Nat.ne_of_gt h.computed.groupCount_pos)
  have hsuper := plan.geom.hasSuper_le_one (Nat.zero_le 1)
  have hloc : plan.geom.descBlockLocation 0 = some (plan.geom.firstDataBlock + 1) := by
    rw [Geometry.descBlockLocation, Geometry.groupHasDesc, hm, hsuper,
      Geometry.groupFirstBlock_zero]
    rfl
  rw [classicCopies, hn, List.range_succ_eq_map, hm, List.filter_cons_of_pos (by simp),
    List.filterMap_cons, hloc]
  rfl

/-- Everything before the superblocks falls in its place. -/
theorem issues_writeContents (chunkBlocks : Nat) (schedule : Nat → List Nat) :
    Issues (Op.On plan.geom.blockSize (Place plan (max chunkBlocks 1)))
      (writeContents plan chunkBlocks schedule) := by
  have hb : 0 < plan.geom.blockSize := Nat.lt_of_lt_of_le (by decide) h.blockSize_ge
  refine issues_then (issues_then
    (issues_onlyIf fun hboot => issues_zeroBlocks Nat.zero_lt_one (.boot hboot))
    (issues_onlyIf fun hres => issues_forSome fun primary hprimary => ?_)) ?_
  · rw [h.classicCopies_head hres.1] at hprimary
    cases hprimary
    exact issues_zeroBlocks hres.1 (@Place.reserved plan _ 0 _ (by omega))
  refine issues_bind (issues_writeTable h.computed.itable_pos h.descPerBlock_pos _ _) fun free _ => ?_
  refine issues_then ?_ (issues_pure _)
  refine issues_then (issues_writeRootAndLostFound h.laid h.lostFound_pos) ?_
  refine issues_then (issues_forSome fun start => issues_writeJournal h.laid) ?_
  refine issues_then (issues_forSome fun dind =>
    issues_writeResizeInodeBlocks h.laid h.firstDataBlock) ?_
  refine issues_then (issues_forSome fun inum _ => issues_writeOrphanFile h.laid inum) ?_
  refine issues_then (issues_forSome fun block hblock => issues_writeBlock (length_mmpContents plan)
    (.run_one (h.laid.mmpBlock block hblock))) ?_
  exact issues_writeReservedInodes hb h.group0 h.inodeSize_pos h.table h.orphanInode

end Plan.Sound

end MkfsExt4.Format
