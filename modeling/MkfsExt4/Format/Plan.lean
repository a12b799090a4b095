/-
  Planning a format (`plan` in `src/format.rs`): the geometry, the identity of the filesystem,
  and a place for every block that is not group metadata.

  What the source takes from its surroundings where the parameters leave it open (a random
  UUID and hash seed, the clock, the number of processors) is `Ambient`.
-/
import MkfsExt4.Csum
import MkfsExt4.Format.Indirect
import MkfsExt4.Layout.Compute
import MkfsExt4.Mmp.Block
import MkfsExt4.Structs.Extent

namespace MkfsExt4.Format

open Lib.Hoare Lib.Store Layout

/-- What the formatter asks of its surroundings. -/
structure Ambient where
  uuid : List UInt8 := List.replicate 16 0
  hashSeed : List UInt8 := List.replicate 16 0
  /-- Seconds since the epoch. -/
  now : Nat := 0
  availableParallelism : Option Nat := none

/-- Everything decided before a byte is written. -/
structure Plan where
  geom : Geometry
  uuid : List UInt8
  hashSeed : List Nat
  mkfsTime : Nat
  label : List UInt8
  /-- Every block handed out: directories, the resize inode's map, journal, orphan file. -/
  runs : List Run
  rootBlock : Nat
  lostFoundStart : Nat
  lostFoundBlocks : Nat
  resizeDind : Option Nat
  journalStart : Option Nat
  journalBlocks : Nat
  journalRuns : List Run
  journalExtents : List Extent
  /-- The journal's extent leaf, when its extents do not fit the inode. -/
  journalExtentLeaf : Option Nat
  journalIndirect : IndirectMap
  journalIBlock : List UInt8
  orphanInode : Option Nat
  orphanRuns : List Run
  orphanIBlock : List UInt8
  orphanExtentLeaf : Option Nat
  orphanIndirect : IndirectMap
  mmpBlock : Option Nat
  mmpUpdateInterval : Nat
  csumScheme : Csum.GroupDescCsum
  csumSeed : UInt32
  lazyItable : Bool
  zeroedMedium : Bool
  resuid : Nat
  resgid : Nat
  concurrency : Option Nat
  availableParallelism : Option Nat

namespace Plan

variable (plan : Plan)

/-- `s_jnl_blocks`: the journal inode's block map, then the halves of its size. -/
def jnlBlocksBackup : List Nat :=
  if plan.journalBlocks = 0 then List.replicate 17 0
  else
    let size := plan.journalBlocks * plan.geom.blockSize
    getU32s plan.journalIBlock 0 15 ++ [size / 2 ^ 32, size % 2 ^ 32]

/-- How many groups are in flight at once. -/
def inFlight : Nat :=
  match plan.concurrency with
  | some n => max n 1
  | none =>
    match plan.availableParallelism with
    | some n => min (max (n * 2) 1) 64
    | none => 8

end Plan

/-! ## Where blocks may go -/

/-- Whether a block is metadata: a superblock region, or a bitmap or inode table of the flex
group the block is in. -/
def metadataProbe (geom : Geometry) (block : Nat) : Bool :=
  if geom.inSuperRegion block then true
  else
    let group := (block - geom.firstDataBlock) / geom.blocksPerGroup % 2 ^ 32
    match geom.flexMetadataRuns group with
    | .error _ => true
    | .ok runs => runs.any fun r => r.1 ≤ block && block < r.1 + r.2

def newAllocator (geom : Geometry) : Allocator where
  blocksCount := geom.blocksCount
  firstDataBlock := geom.firstDataBlock
  blockSize := geom.blockSize
  metadata := metadataProbe geom

/-- Free blocks of a group, as things stand. -/
def freeIn (geom : Geometry) (a : Allocator) (group : Nat) : Nat :=
  let first := geom.groupFirstBlock group
  ((List.range' first (geom.groupLastBlock group + 1 - first)).filter fun b => !a.taken b).length

/-- `while group < group_count && free_in(group) == 0 { group += 1 }` -/
def skipFull (geom : Geometry) (a : Allocator) : (fuel : Nat) → (group : Nat) → Nat
  | 0, group => group
  | fuel + 1, group =>
    if group < geom.groupCount ∧ freeIn geom a group = 0 then skipFull geom a fuel (group + 1)
    else group

/-- Where to start looking for room for the journal: the emptiest group around the middle. -/
def midpointJournalBlock (geom : Geometry) (a : Allocator) : Nat :=
  let midpoint := (geom.blocksCount - geom.firstDataBlock) / 2
  let group := (midpoint - geom.firstDataBlock) / geom.blocksPerGroup % 2 ^ 32
  let group := min group (geom.groupCount - 1)
  let flex := 1 <<< geom.logGroupsPerFlex
  let (start, group) :=
    if 0 < geom.logGroupsPerFlex ∧ flex < group then
      let snapped := group / flex * flex
      let group := skipFull geom a (geom.groupCount - snapped) snapped
      let group := if group = geom.groupCount then 0 else group
      (group, group)
    else (group - 1, group)
  let last := if group + 1 < geom.groupCount then group + 1 else group
  let best := (List.range' (start + 1) (last - start)).foldl (fun best candidate =>
    if freeIn geom a best < freeIn geom a candidate then candidate else best) start
  geom.groupFirstBlock best

/-! ## Extents -/

/-- A run as extents of at most 32767 blocks, from a logical block on. -/
def runExtents : (fuel : Nat) → (logical start len : Nat) → List Extent
  | 0, _, _, _ => []
  | fuel + 1, logical, start, len =>
    if len = 0 then []
    else
      let chunk := min len (Extent.initMaxLen - 1)
      { block := logical, len := chunk, start } ::
        runExtents fuel (logical + chunk) (start + chunk) (len - chunk)

/-- The extents of a journal laid on `runs`. -/
def journalExtentsOf : (logical : Nat) → List Run → List Extent
  | _, [] => []
  | logical, r :: runs =>
    runExtents r.len logical r.start r.len ++ journalExtentsOf (logical + r.len) runs

/-- The extents of an orphan file laid on `runs`, one for each. -/
def orphanExtentsOf : (logical : Nat) → List Run → List Extent
  | _, [] => []
  | logical, r :: runs =>
    { block := logical, len := r.len % 2 ^ 16, start := r.start } ::
      orphanExtentsOf (logical + r.len) runs

/-- The `i_block` of an extent-mapped journal: the extents, or an index to their leaf. -/
def journalInodeIBlock (extents : List Extent) : (leaf : Option Nat) → Except Error (List UInt8)
  | none => Extent.buildInline extents
  | some leaf =>
    let header : ExtentHeader := {
      entries := 1
      max := ExtentHeader.maxEntries Extent.inlineLen false
      depth := 1
      generation := 0 }
    let idx : ExtentIdx := { block := 0, leaf }
    .ok (splice (header.encodeInto (List.replicate iBlockLen 0)) Extent.headerLen idx.encode)

/-- `i_block` as block pointers. -/
def pointerIBlock (map : IndirectMap) : List UInt8 :=
  (({} : Inode).setBlockPointers map.pointers).block

/-! ## Files -/

/-- A result of the crate, inside the allocator. -/
def ofResult {α : Type} : Except Error α → AllocM α
  | .ok a => return a
  | .error e => throw (.error e)

/-- What planning settles of a file: its runs, its extents and its indirect blocks. -/
structure FilePlan where
  runs : List Run := []
  extents : List Extent := []
  indirect : IndirectMap := {}

/-- The journal: near the middle with extents, from the first free block on without. -/
def planJournal (geom : Geometry) (extents : Bool) (blocks : Nat) : AllocM FilePlan := do
  if blocks = 0 then return {}
  if extents then
    let goal := midpointJournalBlock geom (← get)
    let runs ← allocRuns goal blocks
    return { runs, extents := journalExtentsOf 0 runs }
  let (data, indirect) ← allocIndirectFile geom.firstDataBlock blocks geom.blockSize
  return { runs := runsOf data, indirect }

def planOrphan (geom : Geometry) (extents : Bool) (blocks : Nat) : AllocM FilePlan := do
  if blocks = 0 then return {}
  let runs ← allocRuns geom.firstDataBlock blocks
  if extents then return { runs, extents := orphanExtentsOf 0 runs }
  let indirect ← buildIndirect (blocksOf runs) geom.blockSize (alloc geom.firstDataBlock 1)
  return { runs, indirect }

/-- A block, if one is wanted. -/
def allocIf (wanted : Bool) (goal : Nat) : AllocM (Option Nat) := do
  if wanted then return some (← alloc goal 1)
  return none

/-- A block of its own for a file's extents, when more than fit the inode. -/
def planLeaf (geom : Geometry) (extents : Bool) (file : FilePlan) : AllocM (Option Nat) :=
  allocIf (extents && ExtentHeader.maxEntries Extent.inlineLen false < file.extents.length)
    geom.firstDataBlock

/-- The `i_block` of a planned file. -/
def fileIBlock (extents : Bool) (file : FilePlan) (leaf : Option Nat) : AllocM (List UInt8) := do
  if file.runs.isEmpty then return List.replicate iBlockLen 0
  if extents then ofResult (journalInodeIBlock file.extents leaf)
  else return pointerIBlock file.indirect

/-- `ext2fs_default_orphan_file_blocks` -/
def defaultOrphanFileBlocks (blocksCount : Nat) : Nat :=
  min 512 (if blocksCount < 128 * 1024 then 32
    else if blocksCount < 2 * 1024 * 1024 then blocksCount / 4096
    else 512)

def journalBlocksFor (geom : Geometry) (params : Params) : Nat :=
  if !geom.features.compat.contains CompatFeatures.hasJournal then 0
  else
    match params.journal with
    | .none => 0
    | .blocks n => n
    | .default => (defaultJournalBlocks geom.blocksCount).getD 0

def csumSchemeOf (features : FeatureMasks) : Csum.GroupDescCsum :=
  if features.roCompat.contains RoCompatFeatures.metadataCsum then .crc32c
  else if features.roCompat.contains RoCompatFeatures.gdtCsum then .crc16
  else .none

/-- Seconds between heartbeats, kept within what the format allows. -/
def mmpInterval (params : Params) : Nat := min (max (params.mmpUpdateInterval.getD 5) 5) 300

/-! ## The plan -/

/-- Place every block that is not group metadata, in the order `mke2fs` does. -/
def planBlocks (geom : Geometry) (params : Params) (ambient : Ambient) : AllocM Plan := do
  let uuid := params.uuid.getD ambient.uuid
  let csumScheme := csumSchemeOf geom.features
  let first := geom.firstDataBlock
  let rootBlock ← alloc first 1
  let lostFoundBlocks := min (max (divCeil (16 * 1024) geom.blockSize) 1) 12
  let lostFoundStart ← alloc first lostFoundBlocks
  let resizeDind ← allocIf (geom.features.compat.contains CompatFeatures.resizeInode &&
    0 < geom.reservedGdtBlocks) first
  let extents := geom.features.incompat.contains IncompatFeatures.extents
  let journalBlocks := journalBlocksFor geom params
  let journal ← planJournal geom extents journalBlocks
  let orphanBlocks := if geom.features.compat.contains CompatFeatures.orphanFile then
    defaultOrphanFileBlocks geom.blocksCount else 0
  let orphan ← planOrphan geom extents orphanBlocks
  let mmpBlock ← allocIf (geom.features.incompat.contains IncompatFeatures.mmp)
    (geom.blocksCount / 2)
  let journalExtentLeaf ← planLeaf geom extents journal
  let orphanExtentLeaf ← planLeaf geom extents orphan
  let orphanIBlock ← fileIBlock extents orphan orphanExtentLeaf
  let journalIBlock ← fileIBlock extents journal journalExtentLeaf
  return {
    geom
    uuid
    hashSeed := getU32s (params.hashSeed.getD ambient.hashSeed) 0 4
    mkfsTime := params.mkfsTime.getD ambient.now
    label := params.label.getD []
    runs := (← get).runs
    rootBlock
    lostFoundStart
    lostFoundBlocks
    resizeDind
    journalStart := (blocksOf journal.runs).head?
    journalBlocks
    journalRuns := journal.runs
    journalExtents := journal.extents
    journalExtentLeaf
    journalIndirect := journal.indirect
    journalIBlock
    orphanInode := if 0 < orphanBlocks then some (goodOldFirstIno + 1) else none
    orphanRuns := orphan.runs
    orphanIBlock
    orphanExtentLeaf
    orphanIndirect := orphan.indirect
    mmpBlock
    mmpUpdateInterval := if mmpBlock.isSome then mmpInterval params else 0
    csumScheme
    csumSeed := if geom.features.incompat.contains IncompatFeatures.csumSeed ∨
      csumScheme = .crc32c then Csum.seedFromUuid uuid else 0
    lazyItable := params.lazyItableInit
    zeroedMedium := params.zeroedMedium
    resuid := params.resuid
    resgid := params.resgid
    concurrency := params.concurrency
    availableParallelism := ambient.availableParallelism }

/-- Work out the whole layout without touching the device. -/
def plan (deviceSize : Nat) (params : Params) (ambient : Ambient) : Except Failure Plan := do
  let geom ← compute deviceSize params
  (exec (planBlocks geom params ambient) (newAllocator geom)).1

/-! ## What a plan holds -/

/-- The blocks of `lost+found`. -/
def Plan.lostFound (plan : Plan) : List Nat := List.range' plan.lostFoundStart plan.lostFoundBlocks

/-- Every block a plan places is one that was handed out: no metadata, in the filesystem, for
one use. The journal's blocks come after the directories'. -/
structure Plan.Laid (plan : Plan) : Prop where
  free : ∀ b ∈ blocksOf plan.runs,
    metadataProbe plan.geom b = false ∧ b < plan.geom.blocksCount
  nodup : (blocksOf plan.runs).Nodup
  files : (plan.rootBlock :: plan.lostFound ++ blocksOf plan.journalRuns).Sublist
    (blocksOf plan.runs)
  resizeDind : ∀ b ∈ plan.resizeDind, b ∈ blocksOf plan.runs
  journalStart : plan.journalStart = (blocksOf plan.journalRuns).head?
  journalExtentLeaf : ∀ b ∈ plan.journalExtentLeaf, b ∈ blocksOf plan.runs
  journalIndirect : ∀ c ∈ plan.journalIndirect.blocks, c.1 ∈ blocksOf plan.runs
  orphanRuns : ∀ b ∈ blocksOf plan.orphanRuns, b ∈ blocksOf plan.runs
  orphanExtentLeaf : ∀ b ∈ plan.orphanExtentLeaf, b ∈ blocksOf plan.runs
  orphanIndirect : ∀ c ∈ plan.orphanIndirect.blocks, c.1 ∈ blocksOf plan.runs
  mmpBlock : ∀ b ∈ plan.mmpBlock, b ∈ blocksOf plan.runs

/-- A planned file's blocks are handed out for it, its data in order. -/
structure FilePlan.From (file : FilePlan) (a a' : Allocator) (runs : List Run) : Prop where
  ext : Extends a a' runs
  data : (blocksOf file.runs).Sublist (blocksOf runs)
  indirect : ∀ c ∈ file.indirect.blocks, c.1 ∈ blocksOf runs

theorem FilePlan.from_nothing (a : Allocator) : ({} : FilePlan).From a a [] :=
  ⟨Extends.refl a, List.Sublist.refl [], nofun⟩

theorem planJournal_ok {geom : Geometry} {extents : Bool} {blocks : Nat} {file : FilePlan}
    {a a' : Allocator} (h : exec (planJournal geom extents blocks) a = (.ok file, a')) :
    ∃ runs, file.From a a' runs := by
  unfold planJournal at h
  split at h
  · cases h
    exact ⟨[], FilePlan.from_nothing _⟩
  split at h
  · obtain ⟨a0, a1, hget, hrest⟩ := exec_bind_ok h
    cases hget
    obtain ⟨runs, a2, hruns, hrest⟩ := exec_bind_ok hrest
    cases hrest
    obtain ⟨hext, -, -⟩ := allocRuns_ok hruns
    exact ⟨runs, hext, List.Sublist.refl _, nofun⟩
  · obtain ⟨⟨data, map⟩, a1, hdata, hrest⟩ := exec_bind_ok h
    cases hrest
    obtain ⟨runs, hext, hsub, hmap, -⟩ := allocIndirectFile_ok hdata
    refine ⟨runs, hext, ?_, hmap⟩
    rw [blocksOf_runsOf]
    exact hsub

theorem allocatesOne_alloc (goal : Nat) : AllocatesOne (alloc goal 1) := fun _ _ _ => alloc_ok

theorem planOrphan_ok {geom : Geometry} {extents : Bool} {blocks : Nat} {file : FilePlan}
    {a a' : Allocator} (h : exec (planOrphan geom extents blocks) a = (.ok file, a')) :
    ∃ runs, file.From a a' runs := by
  unfold planOrphan at h
  split at h
  · cases h
    exact ⟨[], FilePlan.from_nothing _⟩
  obtain ⟨runs, a1, hruns, hrest⟩ := exec_bind_ok h
  obtain ⟨hext, -, -⟩ := allocRuns_ok hruns
  split at hrest
  · cases hrest
    exact ⟨runs, hext, List.Sublist.refl _, nofun⟩
  · obtain ⟨map, a2, hmap, hrest⟩ := exec_bind_ok hrest
    cases hrest
    obtain ⟨runs', hext', hmem⟩ := buildIndirect_ok (allocatesOne_alloc _) hmap
    refine ⟨runs ++ runs', hext.trans hext', ?_, fun c hc => ?_⟩
    · rw [blocksOf_append]
      exact List.sublist_append_left _ _
    · rw [blocksOf_append]
      exact List.mem_append_right _ (hmem c hc)

theorem allocIf_ok {wanted : Bool} {goal : Nat} {block : Option Nat} {a a' : Allocator}
    (h : exec (allocIf wanted goal) a = (.ok block, a')) :
    ∃ runs, Extends a a' runs ∧ ∀ b ∈ block, b ∈ blocksOf runs := by
  unfold allocIf at h
  split at h
  · obtain ⟨b, a1, hb, hrest⟩ := exec_bind_ok h
    cases hrest
    refine ⟨_, alloc_ok hb, fun c hc => ?_⟩
    cases hc
    exact List.mem_cons_self
  · cases h
    exact ⟨[], Extends.refl _, nofun⟩

theorem ofResult_ok {α : Type} {x : Except Error α} {v : α} {a a' : Allocator}
    (h : exec (ofResult x) a = (.ok v, a')) : a' = a := by
  cases x with
  | ok w => exact (exec_pure_ok h).2
  | error e => cases h

theorem fileIBlock_ok {extents : Bool} {file : FilePlan} {leaf : Option Nat} {iblock : List UInt8}
    {a a' : Allocator} (h : exec (fileIBlock extents file leaf) a = (.ok iblock, a')) : a' = a := by
  unfold fileIBlock at h
  split at h
  · exact (exec_pure_ok h).2
  split at h
  · exact ofResult_ok h
  · exact (exec_pure_ok h).2

/-- What planning leaves alone of its arguments. -/
structure Plan.For (plan : Plan) (g : Geometry) (params : Params) (ambient : Ambient) : Prop where
  geom : plan.geom = g
  csumScheme : plan.csumScheme = csumSchemeOf g.features
  zeroedMedium : plan.zeroedMedium = params.zeroedMedium
  uuid : plan.uuid = params.uuid.getD ambient.uuid
  lostFound_pos : 0 < plan.lostFoundBlocks
  orphanInode : ∀ inum ∈ plan.orphanInode, inum = goodOldFirstIno + 1

/-- What is placed after the resize inode's block is placed beside it. -/
structure Plan.Beyond (plan : Plan) (dind : Nat) : Prop where
  orphanRuns : dind ∉ blocksOf plan.orphanRuns
  orphanExtentLeaf : dind ∉ plan.orphanExtentLeaf
  orphanIndirect : ∀ c ∈ plan.orphanIndirect.blocks, dind ≠ c.1
  mmpBlock : dind ∉ plan.mmpBlock

theorem planBlocks_ok {geom : Geometry} {params : Params} {ambient : Ambient} {plan : Plan}
    {a : Allocator} (h : exec (planBlocks geom params ambient) (newAllocator geom) = (.ok plan, a)) :
    (plan.Laid ∧ plan.For geom params ambient) ∧ ∀ dind ∈ plan.resizeDind, plan.Beyond dind := by
  unfold planBlocks at h
  dsimp only at h
  obtain ⟨root, a1, hroot, h⟩ := exec_bind_ok h
  obtain ⟨lostFound, a2, hlost, h⟩ := exec_bind_ok h
  obtain ⟨dind, a3, hdind, h⟩ := exec_bind_ok h
  obtain ⟨journal, a4, hjournal, h⟩ := exec_bind_ok h
  obtain ⟨orphan, a5, horphan, h⟩ := exec_bind_ok h
  obtain ⟨mmp, a6, hmmp, h⟩ := exec_bind_ok h
  obtain ⟨jleaf, a7, hjleaf, h⟩ := exec_bind_ok h
  obtain ⟨oleaf, a8, holeaf, h⟩ := exec_bind_ok h
  obtain ⟨oblock, a9, hoblock, h⟩ := exec_bind_ok h
  obtain ⟨jblock, a10, hjblock, h⟩ := exec_bind_ok h
  obtain ⟨a11, a12, hget, hlast⟩ := exec_bind_ok h
  cases hget
  obtain ⟨rfl, rfl⟩ := exec_pure_ok hlast
  obtain rfl := fileIBlock_ok hoblock
  obtain rfl := fileIBlock_ok hjblock
  obtain ⟨r3, e3, m3⟩ := allocIf_ok hdind
  obtain ⟨r4, e4, d4, i4⟩ := planJournal_ok hjournal
  obtain ⟨r5, e5, d5, i5⟩ := planOrphan_ok horphan
  obtain ⟨r6, e6, m6⟩ := allocIf_ok hmmp
  obtain ⟨r7, e7, m7⟩ := allocIf_ok hjleaf
  obtain ⟨r8, e8, m8⟩ := allocIf_ok holeaf
  have hext := (alloc_ok hroot).trans ((alloc_ok hlost).trans (e3.trans (e4.trans (e5.trans
    (e6.trans (e7.trans e8))))))
  have hruns := congrArg Allocator.runs hext.eq
  simp only [newAllocator, List.nil_append] at hruns
  refine ⟨?_, fun b hb => ?_⟩
  rotate_left
  · have hnodup := (e3.trans (e4.trans (e5.trans (e6.trans (e7.trans e8))))).nodup
    rw [blocksOf_append, List.nodup_append] at hnodup
    have hlater := fun c hc heq => hnodup.2.2 b (m3 b hb) c hc heq
    simp only [blocksOf_append, List.mem_append] at hlater
    refine ⟨fun hc => hlater b (Or.inr (Or.inl (d5.mem hc))) rfl,
      fun hc => hlater b ?_ rfl, fun c hc => hlater c.1 (Or.inr (Or.inl (i5 c hc))),
      fun hc => hlater b (Or.inr (Or.inr (Or.inl (m6 b hc)))) rfl⟩
    exact Or.inr (Or.inr (Or.inr (Or.inr (m8 b hc))))
  refine ⟨⟨?_, ?_, ?_, ?_, rfl, ?_, ?_, ?_, ?_, ?_, ?_⟩, ⟨rfl, rfl, rfl, rfl, ?_, ?_⟩⟩
  · intro b hb
    rw [hruns] at hb
    have htaken := hext.free b hb
    simp only [Allocator.taken, newAllocator, List.any_nil, Bool.or_false] at htaken
    exact ⟨htaken, hext.lt b hb⟩
  · dsimp only
    rw [hruns]
    exact hext.nodup
  · dsimp only [Plan.lostFound]
    rw [hruns]
    simp only [blocksOf_append, blocksOf_cons, Run.blocks_one,
      List.cons_append, List.nil_append]
    refine List.Sublist.cons_cons root ((List.Sublist.refl _).append ?_)
    refine List.Sublist.trans ?_ (List.sublist_append_right _ _)
    exact d4.trans (List.sublist_append_left _ _)
  rotate_right 2
  · exact Nat.lt_min.mpr ⟨Nat.lt_of_lt_of_le Nat.zero_lt_one (Nat.le_max_right _ 1), by decide⟩
  · intro inum hinum
    exact (Option.some.inj (Option.ite_none_right_eq_some.mp hinum).2).symm
  all_goals
    intro b hb
    dsimp only
    rw [hruns]
    simp only [blocksOf_append, List.mem_append]
  · exact Or.inr (Or.inr (Or.inl (m3 b hb)))
  · exact Or.inr (Or.inr (Or.inr (Or.inr (Or.inr (Or.inr (Or.inl (m7 b hb)))))))
  · exact Or.inr (Or.inr (Or.inr (Or.inl (i4 b hb))))
  · exact Or.inr (Or.inr (Or.inr (Or.inr (Or.inl (d5.mem hb)))))
  · exact Or.inr (Or.inr (Or.inr (Or.inr (Or.inr (Or.inr (Or.inr (m8 b hb)))))))
  · exact Or.inr (Or.inr (Or.inr (Or.inr (Or.inl (i5 b hb)))))
  · exact Or.inr (Or.inr (Or.inr (Or.inr (Or.inr (Or.inl (m6 b hb))))))

/-- A plan comes from a run of the allocator over a computed geometry. -/
theorem plan_run {deviceSize : Nat} {params : Params} {ambient : Ambient} {p : Plan}
    (h : plan deviceSize params ambient = .ok p) :
    ∃ geom a, compute deviceSize params = .ok geom ∧
      exec (planBlocks geom params ambient) (newAllocator geom) = (.ok p, a) := by
  obtain ⟨geom, hgeom, h⟩ := bind_ok h
  rcases hrun : exec (planBlocks geom params ambient) (newAllocator geom) with ⟨out, a⟩
  rw [hrun] at h
  obtain rfl : out = .ok p := h
  exact ⟨geom, a, hgeom, hrun⟩

theorem plan_ok {deviceSize : Nat} {params : Params} {ambient : Ambient} {p : Plan}
    (h : plan deviceSize params ambient = .ok p) :
    ∃ geom, compute deviceSize params = .ok geom ∧ p.Laid ∧ p.For geom params ambient := by
  obtain ⟨geom, a, hgeom, hrun⟩ := plan_run h
  exact ⟨geom, hgeom, (planBlocks_ok hrun).1⟩

theorem plan_beyond {deviceSize : Nat} {params : Params} {ambient : Ambient} {p : Plan}
    (h : plan deviceSize params ambient = .ok p) : ∀ dind ∈ p.resizeDind, p.Beyond dind := by
  obtain ⟨geom, a, -, hrun⟩ := plan_run h
  exact (planBlocks_ok hrun).2

end MkfsExt4.Format
