/-
  The command line of `mkfs.ext4` and its dry run (`src/bin/mkfs_ext4.rs`).

  `mainWith` is the program from the opened device on; what `-q` leaves unprinted is left out.
  The dry run works out its own size and sector size, and `format` works out its own: `-n` counts
  the blocks asked for in its own unit where `format` takes the device's size, and it takes a sector
  size below the device's where `format` raises it. Where neither makes a difference the dry run
  shows the geometry that is written (`dry_run_of_matches`).
-/
import MkfsExt4.Format.Mounted

namespace MkfsExt4.Format

open Lib.Hoare Layout

/-! ## The command line -/

/-- `Args`. The share of `-m` is the function it is in `Params`. -/
structure Args where
  /-- Size in blocks. Defaults to the whole device. -/
  blocksCount : Option Nat := none
  fsType : String := "ext4"
  blockSize : Option Nat := none
  sectorSize : Option Nat := none
  inodeSize : Option Nat := none
  inodesCount : Option Nat := none
  inodeRatio : Option Nat := none
  reservedBlocks : Nat → Nat := fun blocks => blocks * 5 / 100
  label : Option String := none
  uuid : Option String := none
  features : Option String := none
  blocksPerGroup : Option Nat := none
  flexBgSize : Option Nat := none
  journalBlocks : Option Nat := none
  noJournal : Bool := false
  lazyItableInit : Bool := false
  zeroedMedium : Bool := false
  mkfsTime : Option Nat := none
  mmpUpdateInterval : Option Nat := none
  dryRun : Bool := false

/-- How the program ends without a result. -/
inductive Stop where
  | usage (msg : String)
  | failed (f : Failure)
deriving DecidableEq, Repr

/-- `FromStr for Profile` -/
def parseProfile : String → Except Stop Profile
  | "ext2" => .ok .ext2
  | "ext3" => .ok .ext3
  | "ext4" => .ok .ext4
  | other => .error (.usage s!"unknown filesystem type '{other}'")

/-- `Profile::name` -/
def profileName : Profile → String
  | .ext2 => "ext2"
  | .ext3 => "ext3"
  | .ext4 => "ext4"

/-- `parse_uuid`, over the `Uuid::parse_str` it calls. -/
def parseUuid (parseStr : String → Except String (List UInt8)) (s : String) :
    Except Stop (List UInt8) :=
  match parseStr s with
  | .ok uuid => .ok uuid
  | .error e => .error (.usage s!"invalid UUID '{s}': {e}")

namespace Args

variable (args : Args)

/-- `-O`, to which an interval of the heartbeat adds its feature. -/
def featureSpec : Option String :=
  if args.mmpUpdateInterval.isSome then
    some (match args.features with
      | some spec => spec ++ ",mmp"
      | none => "mmp")
  else args.features

def journal : JournalSize :=
  match args.noJournal, args.journalBlocks with
  | true, _ | _, some 0 => .none
  | _, some n => .blocks n
  | _, none => .default

/-- `-U`, if it was given. -/
def parsedUuid (parseStr : String → Except String (List UInt8)) :
    Except Stop (Option (List UInt8)) :=
  match args.uuid with
  | some u => (parseUuid parseStr u).map some
  | none => .ok none

/-- What `main` makes of the command line. -/
def params (parseStr : String → Except String (List UInt8)) : Except Stop Params := do
  let profile ← parseProfile args.fsType
  let uuid ← args.parsedUuid parseStr
  return {
    profile
    blockSize := args.blockSize
    sectorSize := args.sectorSize
    inodeSize := args.inodeSize
    inodesCount := args.inodesCount
    inodeRatio := args.inodeRatio
    reservedBlocks := args.reservedBlocks
    label := args.label.map fun l => l.toUTF8.toList
    uuid
    blocksPerGroup := args.blocksPerGroup
    flexBgSize := args.flexBgSize
    mmpUpdateInterval := args.mmpUpdateInterval
    journal := args.journal
    featureSpec := args.featureSpec
    mkfsTime := args.mkfsTime
    lazyItableInit := args.lazyItableInit
    zeroedMedium := args.zeroedMedium }

end Args

/-! ## The two runs -/

/-- What `-n` prints of a geometry. -/
structure Summary where
  blockSize : Nat
  blocksCount : Nat
  inodesCount : Nat
  groupCount : Nat
  blocksPerGroup : Nat
  inodesPerGroup : Nat
  reservedGdtBlocks : Nat
  features : String
deriving DecidableEq, Repr

def printed (geom : Geometry) : Summary where
  blockSize := geom.blockSize
  blocksCount := geom.blocksCount
  inodesCount := geom.inodesCount
  groupCount := geom.groupCount
  blocksPerGroup := geom.blocksPerGroup
  inodesPerGroup := geom.inodesPerGroup
  reservedGdtBlocks := geom.reservedGdtBlocks
  features := geom.features.toSpec

/-- The size the dry run takes for the device's. -/
def shownSize (args : Args) (params : Params) (dev : Device) : Except Failure Nat :=
  match args.blocksCount with
  | none => .ok dev.size
  | some b =>
    let size := b * params.blockSize.getD 4096
    if 2 ^ 64 ≤ size then .error .panicked else .ok size

/-- The geometry the dry run works out. -/
def shownGeometry (args : Args) (params : Params) (dev : Device) : Except Failure Geometry := do
  let size ← shownSize args params dev
  compute size { params with sectorSize := some (params.sectorSize.getD dev.logicalSectorSize) }

/-- What the program puts out. -/
inductive Output where
  | shown (fsType : String) (summary : Summary)
  | made (report : Report)

/-- `main`, once the device is open. -/
def mainWith (parseStr : String → Except String (List UInt8)) (args : Args) (ambient : Ambient)
    (schedule : Nat → List Nat) (dev : Device) : Except Stop Output × Device :=
  match args.params parseStr with
  | .error e => (.error e, dev)
  | .ok params =>
    if args.dryRun then
      match shownGeometry args params dev with
      | .error f => (.error (.failed f), dev)
      | .ok geom => (.ok (.shown (profileName params.profile) (printed geom)), dev)
    else
      match format params ambient schedule dev with
      | (.error f, dev) => (.error (.failed f), dev)
      | (.ok report, dev) => (.ok (.made report), dev)

section Runs

variable {parseStr : String → Except String (List UInt8)} {args : Args} {params : Params}
  {ambient : Ambient} {schedule : Nat → List Nat} {dev dev' : Device}

theorem params_sizes (h : args.params parseStr = .ok params) :
    params.blockSize = args.blockSize ∧ params.sectorSize = args.sectorSize := by
  unfold Args.params at h
  cases hprofile : parseProfile args.fsType with
  | error e =>
    rw [hprofile] at h
    cases h
  | ok profile =>
    rw [hprofile, bind_of_ok rfl] at h
    obtain ⟨uuid, -, h⟩ := bind_ok h
    cases h
    exact ⟨rfl, rfl⟩

theorem shown_iff {out : Output} :
    (mainWith parseStr { args with dryRun := true } ambient schedule dev).1 = .ok out ↔
      ∃ params geom, args.params parseStr = .ok params ∧ shownGeometry args params dev = .ok geom ∧
        out = .shown (profileName params.profile) (printed geom) := by
  unfold mainWith
  have hparams : ({ args with dryRun := true } : Args).params parseStr = args.params parseStr := rfl
  rw [hparams]
  cases args.params parseStr with
  | error e => exact ⟨nofun, fun ⟨_, _, h, _⟩ => nomatch h⟩
  | ok params =>
    have hshown : shownGeometry { args with dryRun := true } params dev =
        shownGeometry args params dev := rfl
    dsimp only
    rw [if_pos rfl, hshown]
    cases hgeom : shownGeometry args params dev with
    | error f =>
      refine ⟨nofun, ?_⟩
      rintro ⟨_, _, hp, hg, -⟩
      cases hp
      rw [hgeom] at hg
      cases hg
    | ok geom =>
      constructor
      · intro h
        exact ⟨params, geom, rfl, hgeom, (Except.ok.inj h).symm⟩
      · rintro ⟨_, _, hp, hg, rfl⟩
        cases hp
        rw [hgeom] at hg
        cases hg
        rfl

theorem made_iff {report : Report} :
    mainWith parseStr { args with dryRun := false } ambient schedule dev =
        (.ok (.made report), dev') ↔
      ∃ params p, args.params parseStr = .ok params ∧
        plan dev.size (onDevice params dev) ambient = .ok p ∧
        writePlan p gdtChunkBlocks schedule dev = (.ok report, dev') := by
  unfold mainWith
  have hparams : ({ args with dryRun := false } : Args).params parseStr = args.params parseStr := rfl
  rw [hparams]
  cases args.params parseStr with
  | error e => exact ⟨nofun, fun ⟨_, _, h, _⟩ => nomatch h⟩
  | ok params =>
    dsimp only
    rw [if_neg Bool.false_ne_true]
    unfold format
    cases hplan : plan dev.size (onDevice params dev) ambient with
    | error e =>
      refine ⟨nofun, ?_⟩
      rintro ⟨_, _, hp, hplan', -⟩
      cases hp
      rw [hplan] at hplan'
      cases hplan'
    | ok p =>
      dsimp only
      constructor
      · intro h
        refine ⟨params, p, rfl, hplan, ?_⟩
        split at h
        · cases h
        · next hrun =>
          cases h
          exact hrun
      · rintro ⟨_, _, hp, hplan', hrun⟩
        cases hp
        rw [hplan] at hplan'
        cases hplan'
        rw [hrun]

end Runs

/-! ## What the filesystem says -/

/-- The numbers of `Summary`, as a superblock has them. -/
def advertised (sb : Superblock) : Summary where
  blockSize := sb.blockSize
  blocksCount := sb.blocksCount
  inodesCount := sb.inodesCount
  groupCount := sb.groupCount
  blocksPerGroup := sb.blocksPerGroup
  inodesPerGroup := sb.inodesPerGroup
  reservedGdtBlocks := sb.reservedGdtBlocks
  features := ({ compat := sb.featureCompat, incompat := sb.featureIncompat,
                 roCompat := sb.featureRoCompat } : FeatureMasks).toSpec

/-- The superblock that is written has the geometry of the plan. -/
theorem advertised_buildSuperblock {deviceSize : Nat} {params : Params} {ambient : Ambient}
    {p : Plan} (h : plan deviceSize params ambient = .ok p) (freeBlocks freeInodes : Nat) :
    advertised (buildSuperblock p freeBlocks freeInodes) = printed p.geom := by
  obtain ⟨hgeom, -⟩ := plan_made h
  obtain ⟨req, start, descSize, s, grp, -, hfrom⟩ := compute_from hgeom
  have hblock := superblock_blockSize hfrom rfl freeBlocks freeInodes
  have hgroups := superblock_groupCount hfrom rfl freeBlocks freeInodes
  unfold advertised printed
  rw [hblock, hgroups]
  rfl

/-- The dry run shows the geometry of what the same command line without `-n` writes, and one
    fails when the other does at the geometry. -/
structure TellsTruth (parseStr : String → Except String (List UInt8)) (args : Args)
    (dev : Device) : Prop where
  stage : ∀ ambient schedule,
    (∃ out, (mainWith parseStr { args with dryRun := true } ambient schedule dev).1 = .ok out) ↔
      ∃ params geom, args.params parseStr = .ok params ∧
        compute dev.size (onDevice params dev) = .ok geom
  same : ∀ ambient schedule fsType summary report dev',
    (mainWith parseStr { args with dryRun := true } ambient schedule dev).1 =
      .ok (.shown fsType summary) →
    mainWith parseStr { args with dryRun := false } ambient schedule dev =
      (.ok (.made report), dev') →
    ∃ params p, args.params parseStr = .ok params ∧
      plan dev.size (onDevice params dev) ambient = .ok p ∧
      writePlan p gdtChunkBlocks schedule dev = (.ok report, dev') ∧
      advertised (buildSuperblock p report.freeBlocksCount report.freeInodesCount) = summary

/-! ## When the two agree -/

/-- A block size below the sector either run goes by. -/
def BelowSector (args : Args) (dev : Device) : Prop :=
  ∃ bs ∈ args.blockSize, bs < max (args.sectorSize.getD dev.logicalSectorSize) 1

/-- The block size of the run without `-n`. -/
def usedBlockSize (args : Args) (dev : Device) : Nat :=
  args.blockSize.getD (max (SizeType.of dev.size).blockSize
    (max (max (args.sectorSize.getD 0) dev.logicalSectorSize) 1))

/-- The blocks and the sector asked for make no difference to the device's own. -/
structure Matches (args : Args) (dev : Device) : Prop where
  blocks : ∀ b ∈ args.blocksCount, b * args.blockSize.getD 4096 < 2 ^ 64 ∧
    SizeType.of (b * args.blockSize.getD 4096) = SizeType.of dev.size ∧
    b * args.blockSize.getD 4096 / usedBlockSize args dev = dev.size / usedBlockSize args dev
  sector : ∀ s ∈ args.sectorSize, s < dev.logicalSectorSize →
    dev.logicalSectorSize ≤ args.blockSize.getD (SizeType.of dev.size).blockSize

section Agree

variable {parseStr : String → Except String (List UInt8)} {args : Args} {params : Params}
  {dev : Device} {size size' : Nat}

/-- Of the size and the sector `compute` uses the size class, the block size and the blocks. -/
theorem compute_congr {sector sector' : Option Nat}
    (hchoose : (chooseBlockSize { params with sectorSize := sector }
      (SizeType.of size)).toOption =
        (chooseBlockSize { params with sectorSize := sector' } (SizeType.of size')).toOption)
    (hsame : ∀ B, chooseBlockSize { params with sectorSize := sector' } (SizeType.of size') = .ok B →
      SizeType.of size = SizeType.of size' ∧ size / B = size' / B) :
    (compute size { params with sectorSize := sector }).toOption =
      (compute size' { params with sectorSize := sector' }).toOption := by
  unfold compute
  have hres : ∀ sector, ({ params with sectorSize := sector } : Params).resolveFeatures =
      params.resolveFeatures := fun _ => rfl
  rw [hres sector, hres sector']
  cases incompatible params.resolveFeatures with
  | error e => rfl
  | ok features =>
    rw [bind_of_ok rfl, bind_of_ok rfl]
    dsimp only
    cases hc' : chooseBlockSize { params with sectorSize := sector' } (SizeType.of size') with
    | error e' =>
      cases hc : chooseBlockSize { params with sectorSize := sector } (SizeType.of size) with
      | error e => rfl
      | ok B =>
        rw [hc, hc'] at hchoose
        cases hchoose
    | ok B =>
      cases hc : chooseBlockSize { params with sectorSize := sector } (SizeType.of size) with
      | error e =>
        rw [hc, hc'] at hchoose
        cases hchoose
      | ok B' =>
        rw [hc, hc'] at hchoose
        obtain rfl := Option.some.inj hchoose
        obtain ⟨hclass, hdiv⟩ := hsame B' hc'
        rw [bind_of_ok rfl, bind_of_ok rfl, hclass, hdiv]
        rfl

/-- Where the block size is refused both runs refuse it. -/
theorem agree_of_belowSector (hargs : args.params parseStr = .ok params) (h : BelowSector args dev) :
    (shownGeometry args params dev).toOption = (compute dev.size (onDevice params dev)).toOption := by
  obtain ⟨bs, hbs, hlt⟩ := h
  obtain ⟨hblock, hsector⟩ := params_sizes hargs
  have hrefused : ∀ (size : Nat) (sector : Option Nat),
      args.sectorSize.getD dev.logicalSectorSize ≤ sector.getD 512 →
      (compute size { params with sectorSize := sector }).toOption = none := by
    intro size sector hle
    cases hcompute : compute size { params with sectorSize := sector } with
    | error e => rfl
    | ok geom =>
      obtain ⟨_, -, hrest⟩ := bind_ok hcompute
      obtain ⟨B, hchoose, -⟩ := bind_ok hrest
      unfold chooseBlockSize at hchoose
      dsimp only at hchoose
      rw [hblock, hbs] at hchoose
      obtain ⟨_, hr, -⟩ := bind_ok hchoose
      have := refuse_ok hr
      omega
  have hsize := hrefused dev.size (onDevice params dev).sectorSize (by
    show _ ≤ max (params.sectorSize.getD 0) dev.logicalSectorSize
    rw [hsector]
    cases args.sectorSize with
    | none => exact Nat.le_max_right _ _
    | some s => exact Nat.le_max_left _ _)
  refine Eq.trans ?_ hsize.symm
  unfold shownGeometry
  cases shownSize args params dev with
  | error f => rfl
  | ok size => exact hrefused size _ (by rw [hsector]; exact Nat.le_refl _)

/-- The block size that is chosen, if one is. -/
theorem chooseBlockSize_toOption (params : Params) (sector : Nat) (c : SizeType) :
    (chooseBlockSize { params with sectorSize := some sector } c).toOption =
      match params.blockSize with
      | some bs => if bs < max sector 1 then none else some bs
      | none => some (max c.blockSize (max sector 1)) := by
  unfold chooseBlockSize
  dsimp only [Option.getD_some]
  cases params.blockSize with
  | none => rfl
  | some bs =>
    dsimp only
    unfold refuse
    split
    · rfl
    · rfl

theorem shownSize_of_matches (hblock : params.blockSize = args.blockSize) (h : Matches args dev) :
    ∃ size, shownSize args params dev = .ok size ∧ SizeType.of size = SizeType.of dev.size ∧
      size / usedBlockSize args dev = dev.size / usedBlockSize args dev := by
  unfold shownSize
  cases hb : args.blocksCount with
  | none => exact ⟨dev.size, rfl, rfl, rfl⟩
  | some b =>
    obtain ⟨hfits, hclass, hblocks⟩ := h.blocks b hb
    refine ⟨b * args.blockSize.getD 4096, ?_, hclass, hblocks⟩
    dsimp only
    rw [hblock, if_neg (by omega)]

/-- The two sectors choose one block size. -/
theorem choose_of_matches (hblock : params.blockSize = args.blockSize) (h : Matches args dev) :
    (chooseBlockSize { params with sectorSize := some (args.sectorSize.getD dev.logicalSectorSize) }
      (SizeType.of dev.size)).toOption =
    (chooseBlockSize
      { params with sectorSize := some (max (args.sectorSize.getD 0) dev.logicalSectorSize) }
      (SizeType.of dev.size)).toOption := by
  have hclass : 1 ≤ (SizeType.of dev.size).blockSize := by
    cases SizeType.of dev.size <;> decide
  rw [chooseBlockSize_toOption, chooseBlockSize_toOption, hblock]
  cases hs : args.sectorSize with
  | none => simp
  | some s =>
    have hbelow := h.sector s hs
    dsimp only [Option.getD_some]
    cases hb : args.blockSize with
    | none =>
      rw [hb, Option.getD_none] at hbelow
      dsimp only
      congr 1
      omega
    | some bs =>
      rw [hb, Option.getD_some] at hbelow
      have hiff : bs < max s 1 ↔ bs < max (max s dev.logicalSectorSize) 1 := by omega
      simp only [hiff]

/-- Where the blocks and the sector make no difference the geometries are one. -/
theorem agree_of_matches (hargs : args.params parseStr = .ok params) (h : Matches args dev) :
    (shownGeometry args params dev).toOption = (compute dev.size (onDevice params dev)).toOption := by
  obtain ⟨hblock, hsector⟩ := params_sizes hargs
  obtain ⟨size, hsize, hclass, hblocks⟩ := shownSize_of_matches hblock h
  have hshown : shownGeometry args params dev = compute size
      { params with sectorSize := some (args.sectorSize.getD dev.logicalSectorSize) } := by
    rw [shownGeometry, hsize, hsector]
    rfl
  rw [hshown, onDevice, hsector]
  refine compute_congr ?_ fun B hB => ⟨hclass, ?_⟩
  · rw [hclass]
    exact choose_of_matches hblock h
  · have hused := congrArg Except.toOption hB
    rw [chooseBlockSize_toOption, hblock] at hused
    have hBused : B = usedBlockSize args dev := by
      unfold usedBlockSize
      revert hused
      cases args.blockSize with
      | none => exact fun hused => (Option.some.inj hused).symm
      | some bs =>
        dsimp only
        split
        · exact nofun
        · exact fun hused => (Option.some.inj hused).symm
    rw [hBused]
    exact hblocks

end Agree

/-- Where the block count and the sector size make no difference to the device's own, or are
    refused by both runs, the dry run tells the truth. -/
theorem dry_run_of_matches (parseStr : String → Except String (List UInt8)) (args : Args)
    (dev : Device) (h : BelowSector args dev ∨ Matches args dev) : TellsTruth parseStr args dev := by
  have hagree : ∀ params, args.params parseStr = .ok params →
      (shownGeometry args params dev).toOption =
        (compute dev.size (onDevice params dev)).toOption := by
    intro params hargs
    rcases h with h | h
    · exact agree_of_belowSector hargs h
    · exact agree_of_matches hargs h
  have hiff : ∀ params geom, args.params parseStr = .ok params →
      (shownGeometry args params dev = .ok geom ↔ compute dev.size (onDevice params dev) = .ok geom) := by
    intro params geom hargs
    have hsome : ∀ x : Except Failure Geometry, x = .ok geom ↔ x.toOption = some geom := by
      intro x
      cases x with
      | error e => exact ⟨nofun, nofun⟩
      | ok g => exact ⟨fun hx => congrArg _ hx, fun hx => congrArg _ (Option.some.inj hx)⟩
    rw [hsome, hsome, hagree params hargs]
  constructor
  · intro ambient schedule
    simp only [shown_iff]
    constructor
    · rintro ⟨_, params, geom, hargs, hgeom, -⟩
      exact ⟨params, geom, hargs, (hiff params geom hargs).mp hgeom⟩
    · rintro ⟨params, geom, hargs, hgeom⟩
      exact ⟨_, params, geom, hargs, (hiff params geom hargs).mpr hgeom, rfl⟩
  · intro ambient schedule fsType summary report dev' hshown hmade
    obtain ⟨params, geom, hargs, hgeom, hout⟩ := shown_iff.mp hshown
    obtain ⟨params', p, hargs', hplan, hrun⟩ := made_iff.mp hmade
    obtain rfl := Except.ok.inj (hargs.symm.trans hargs')
    refine ⟨params, p, hargs, hplan, hrun, ?_⟩
    have hsame := (hiff params geom hargs).mp hgeom
    obtain rfl := Except.ok.inj (hsame.symm.trans (plan_made hplan).1)
    rw [advertised_buildSuperblock hplan]
    exact (Output.shown.inj hout).2.symm

/-! ### 512 KiB, as a block count -/

/-- No UUID is read. -/
def noUuid : String → Except String (List UInt8) := fun _ => .error "invalid length"

theorem dry_run_matches_small : TellsTruth noUuid { blocksCount := some 128 } smallDevice := by
  refine dry_run_of_matches _ _ _ (.inr ⟨fun b hb => ?_, nofun⟩)
  cases hb
  decide

/-! ### A part of a device, and a sector below the device's -/

/-- One group of 511 blocks. -/
def small : Geometry where
  blockSize := 1024
  logBlockSize := 0
  blocksCount := 512
  firstDataBlock := 1
  blocksPerGroup := 8192
  rBlocksCount := 25
  inodesCount := 64
  inodesPerGroup := 64
  inodeSize := 256
  itableBlocksPerGroup := 16
  groupCount := 1
  descSize := 64
  descBlocks := 1
  reservedGdtBlocks := 3
  logGroupsPerFlex := 4
  metaBg := false
  firstMetaBg := 0
  features := { compat := 0x38, incompat := 0x22c2, roCompat := 0x46b }

theorem small_written : ∃ p report dev',
    plan smallDevice.size (onDevice {} smallDevice) {} = .ok p ∧ p.geom = small ∧
      writePlan p gdtChunkBlocks (fun _ => []) smallDevice = (.ok report, dev') := by
  have hanswers : compute smallDevice.size (onDevice {} smallDevice) = .ok small ∧
      partsMade smallDevice.size (onDevice {} smallDevice) {} = true ∧
      ∀ g < 1, (small.placeFlex (small.flexFirstGroup g)).isOk = true := by
    decide +kernel
  obtain ⟨hcompute, hmade, hplaced⟩ := hanswers
  exact runs_of_geometry (onDevice_typed Params.typed_default (by decide)) hcompute hmade (by decide)
    (by decide) (by decide) (by decide) hplaced

/-- Asked for 64 blocks the dry run shows 256 of them, and 512 are written. -/
theorem count_not_shown : ¬TellsTruth noUuid { blocksCount := some 64 } smallDevice := by
  intro h
  obtain ⟨p, report, dev', hplan, hgeom, hrun⟩ := small_written
  have hparams : ({ blocksCount := some 64 } : Args).params noUuid = .ok {} := rfl
  have hcompute : (shownGeometry { blocksCount := some 64 } {} smallDevice).toOption.any
      (fun geom => decide (geom.blocksCount = 256)) = true := by decide +kernel
  cases hshown : shownGeometry { blocksCount := some 64 } {} smallDevice with
  | error f =>
    rw [hshown] at hcompute
    cases hcompute
  | ok geom =>
    rw [hshown] at hcompute
    have h256 : geom.blocksCount = 256 := of_decide_eq_true hcompute
    obtain ⟨params, p', hargs, hplan', -, hsame⟩ := h.same {} (fun _ => []) _ _ report dev'
      (shown_iff.mpr ⟨{}, geom, hparams, hshown, rfl⟩) (made_iff.mpr ⟨{}, p, hparams, hplan, hrun⟩)
    obtain rfl := Except.ok.inj (hparams.symm.trans hargs)
    obtain rfl := Except.ok.inj (hplan.symm.trans hplan')
    have hblocks := congrArg Summary.blocksCount hsame
    have h512 : p.geom.blocksCount = 512 := by rw [hgeom]; rfl
    have : p.geom.blocksCount = geom.blocksCount := hblocks
    omega

/-- A device of larger sectors. -/
def sectored : Device := { smallDevice with logicalSectorSize := 4096 }

def belowSector : Args := { blockSize := some 1024, sectorSize := some 512 }

/-- On a device of 4096-byte sectors the dry run shows blocks of 1024 bytes, which the run without
    `-n` refuses. -/
theorem sector_not_raised : ¬TellsTruth noUuid belowSector sectored := by
  intro h
  have hparams : belowSector.params noUuid =
    .ok { blockSize := some 1024, sectorSize := some 512 } := rfl
  have hshown : (shownGeometry belowSector { blockSize := some 1024, sectorSize := some 512 }
      sectored).toBool = true := by decide +kernel
  have hrefused : (compute sectored.size (onDevice { blockSize := some 1024, sectorSize := some 512 }
      sectored)).toOption.isSome = false := by decide +kernel
  obtain ⟨geom, hgeom⟩ := toBool_iff.mp hshown
  obtain ⟨params, geom', hargs, hcompute⟩ := (h.stage {} fun _ => []).mp
    ⟨_, shown_iff.mpr ⟨_, geom, hparams, hgeom, rfl⟩⟩
  obtain rfl := Except.ok.inj (hparams.symm.trans hargs)
  rw [hcompute] at hrefused
  cases hrefused

/-- Either is enough for the dry run to show another filesystem. -/
theorem dry_run_misleads : ¬TellsTruth noUuid { blocksCount := some 64 } smallDevice ∧
    ¬TellsTruth noUuid belowSector sectored :=
  ⟨count_not_shown, sector_not_raised⟩

end MkfsExt4.Format
