/-
  A torn format (`write_filesystem_chunked` in `src/format.rs`). The primary superblock goes
  out last of the filesystem's blocks, so that "until it lands, a torn format is not a
  filesystem at all". No earlier operation touches the bytes a primary superblock stands on,
  though: a device that held a filesystem before goes on opening, as the old one.
-/
import MkfsExt4.Format.Places
import MkfsExt4.Fs.Descriptors

namespace MkfsExt4.Format

open Lib.Store Lib.Trace Lib.FirstFit Layout Filesystem

/-- Two devices of one size and sector, with the same bytes where a primary superblock goes. -/
structure SamePrimary (dev dev' : Device) : Prop where
  size : dev'.size = dev.size
  sector : dev'.logicalSectorSize = dev.logicalSectorSize
  bytes : Lib.Store.window dev'.bytes superblockOffset superblockLen =
    Lib.Store.window dev.bytes superblockOffset superblockLen

theorem SamePrimary.refl (dev : Device) : SamePrimary dev dev := ⟨rfl, rfl, rfl⟩

theorem SamePrimary.symm {dev dev' : Device} (h : SamePrimary dev dev') : SamePrimary dev' dev :=
  ⟨h.size.symm, h.sector.symm, h.bytes.symm⟩

theorem SamePrimary.trans {dev dev' dev'' : Device} (h : SamePrimary dev dev')
    (h' : SamePrimary dev' dev'') : SamePrimary dev dev'' :=
  ⟨h'.size.trans h.size, h'.sector.trans h.sector, h'.bytes.trans h.bytes⟩

/-- One of two such devices opens when the other does. -/
theorem SamePrimary.opens {dev dev' : Device} {fs : Filesystem} (h : SamePrimary dev dev')
    (hopen : openOn dev = .ok fs) : ∃ fs', openOn dev' = .ok fs' :=
  ⟨_, openOn_of_same hopen h.size h.sector h.bytes⟩

/-! ## Operations beside the primary superblock -/

/-- The bytes an operation covers miss those of a primary superblock. -/
def Op.Misses (op : Op) : Prop :=
  ∀ span ∈ op.span, span.1 + span.2 ≤ superblockOffset ∨
    superblockOffset + superblockLen ≤ span.1

theorem Op.Misses.run {op : Op} (h : op.Misses) {dev dev' : Device}
    (hrun : op.run dev = .ok dev') : SamePrimary dev dev' := by
  cases op with
  | flush =>
    cases hrun
    exact .refl dev
  | write offset buf =>
    have hmiss := h _ rfl
    obtain ⟨_, -, hrun⟩ := Lib.Hoare.bind_ok hrun
    cases hrun
    refine ⟨rfl, rfl, window_congr fun p hlow hhigh => ?_⟩
    rcases hmiss with hlt | hge
    · exact overlay_of_ge _ _ (Nat.le_trans hlt hlow)
    · exact overlay_of_lt _ _ (Nat.lt_of_lt_of_le hhigh hge)
  | zero offset len =>
    have hmiss := h _ rfl
    obtain ⟨_, -, hrun⟩ := Lib.Hoare.bind_ok hrun
    cases hrun
    refine ⟨rfl, rfl, window_congr fun p hlow hhigh => ?_⟩
    dsimp only at hmiss ⊢
    rw [fill_apply, if_neg (by omega)]

theorem runOps_samePrimary {ops : List Op} (h : ∀ op ∈ ops, op.Misses) (dev : Device) :
    SamePrimary dev (runOps ops dev).2 := by
  induction ops generalizing dev with
  | nil => exact .refl dev
  | cons op ops ih =>
    rw [runOps]
    cases hrun : op.run dev with
    | error e => exact .refl dev
    | ok dev' =>
      exact ((h op List.mem_cons_self).run hrun).trans
        (ih (fun op' hop' => h op' (List.mem_cons_of_mem op hop')) dev')

/-! ## The writer's operations -/

section Beside

variable {plan : Plan} (h : plan.Sound)

include h

/-- Only the boot block is before the block that holds the primary superblock, and nothing is
on it. -/
theorem Place.past_first {chunk start len : Nat} (hlen : 0 < len)
    (hplace : Place plan chunk start len) :
    plan.geom.firstDataBlock < start ∨
      start = 0 ∧ len = 1 ∧ plan.geom.blockSize = superblockOffset := by
  have hbpg := h.computed.blocksPerGroup_pos
  have hitable := h.computed.itable_pos
  cases hplace with
  | boot hboot => exact Or.inr ⟨rfl, rfl, hboot⟩
  | part p hlay =>
    exact Or.inl ((Geometry.part_clear hitable hlay p _ (Nat.le_refl _) (by omega)).firstDataBlock_lt
      hbpg)
  | inodes hlay hin =>
    exact Or.inl ((Geometry.part_clear hitable hlay _ _ hin.1 hin.2).firstDataBlock_lt hbpg)
  | run hrun => exact Or.inl ((h.free (hrun _ (Nat.le_refl _) (by omega))).firstDataBlock_lt hbpg)
  | copy hcopy =>
    obtain ⟨g, -, hloc⟩ := List.mem_filterMap.mp hcopy
    exact Or.inl (Nat.lt_add_right _ (Geometry.firstDataBlock_lt_of_location hbpg hloc))
  | holder hblock =>
    obtain ⟨g, -, hloc⟩ := List.mem_filterMap.mp hblock
    exact Or.inl (Geometry.firstDataBlock_lt_of_location hbpg hloc)
  | reserved => omega

/-- Where the blocks past the first data block start, the primary superblock has ended. -/
theorem Plan.Sound.superblock_end :
    superblockOffset + superblockLen ≤ (plan.geom.firstDataBlock + 1) * plan.geom.blockSize := by
  have hfirst := h.firstDataBlock
  obtain ⟨k, hk, hlow, -⟩ := h.blockSize
  by_cases h1k : plan.geom.blockSize = 1024
  · rw [if_pos h1k] at hfirst
    rw [hfirst, h1k]
    decide
  · have hk11 : 11 ≤ k := by
      by_contra hlt
      obtain rfl : k = 10 := by omega
      exact h1k hk
    rw [if_neg h1k] at hfirst
    rw [hfirst, Nat.zero_add, Nat.one_mul, hk]
    exact Nat.le_trans (by decide) (Nat.pow_le_pow_right Nat.two_pos hk11)

/-- No operation before the superblocks touches the bytes of a primary superblock. -/
theorem Plan.Sound.contents_miss (chunkBlocks : Nat) (schedule : Nat → List Nat) :
    Issues Op.Misses (writeContents plan chunkBlocks schedule) := by
  refine (h.issues_writeContents chunkBlocks schedule).mono fun op hop span hspan => ?_
  obtain ⟨start, len, hlen, rfl, hplace⟩ := hop span hspan
  rcases hplace.past_first h hlen with hpast | ⟨rfl, rfl, hboot⟩
  · exact Or.inr (Nat.le_trans h.superblock_end (Nat.mul_le_mul_right _ hpast))
  · left
    rw [Nat.zero_mul, Nat.one_mul, Nat.zero_add, hboot]

end Beside

/-! ## Torn formats -/

/-- The write of the primary superblock. -/
def primaryOp (plan : Plan) (free : Nat × Nat) : Op :=
  let primary := primarySuperblockBlock (buildSuperblock plan free.1 free.2).encode
    plan.geom.blockSize
  .write (primary.1 * plan.geom.blockSize) primary.2

/-- What comes after the contents of a filesystem starts with its primary superblock. -/
theorem trace_writeFilesystemChunked (plan : Plan) (chunkBlocks : Nat)
    (schedule : Nat → List Nat) {free : Nat × Nat}
    (h : (writeContents plan chunkBlocks schedule).result = .ok free) :
    (writeContents plan chunkBlocks schedule).trace ++ [primaryOp plan free] <+:
      (writeFilesystemChunked plan chunkBlocks schedule).trace := by
  unfold writeFilesystemChunked
  rw [bind_of_ok h]
  refine (List.prefix_append_right_inj _).mpr (List.IsPrefix.trans ?_ (trace_prefix_bind _ _))
  exact ⟨_, rfl⟩

/-- What a format has issued when it stops before the primary superblock. -/
def Torn (plan : Plan) (schedule : Nat → List Nat) (ops : List Op) : Prop :=
  ops <+: (writeContents plan gdtChunkBlocks schedule).trace

theorem Torn.samePrimary {plan : Plan} (h : plan.Sound) {schedule : Nat → List Nat}
    {ops : List Op} (htorn : Torn plan schedule ops) (dev : Device) :
    SamePrimary dev (runOps ops dev).2 :=
  runOps_samePrimary (fun op hop => h.contents_miss _ schedule op (htorn.subset hop)) dev

/-- A torn format leaves no filesystem, whenever it stops, exactly when the device held none
before it. -/
theorem torn_closed_iff {dev : Device} {params : Params} {ambient : Ambient} {plan : Plan}
    (htyped : params.Typed) (hsector : dev.logicalSectorSize < 2 ^ 32)
    (hplan : Format.plan dev.size (onDevice params dev) ambient = .ok plan)
    (schedule : Nat → List Nat) :
    (∀ ops, Torn plan schedule ops → ∀ fs, openOn (runOps ops dev).2 ≠ .ok fs) ↔
      ∀ fs, openOn dev ≠ .ok fs := by
  have hsound := plan_sound (onDevice_typed htyped hsector) hplan
  constructor
  · intro hclosed fs hopen
    exact hclosed [] (List.nil_prefix) fs hopen
  · intro hclosed ops htorn fs hopen
    obtain ⟨fs', hopen'⟩ := (htorn.samePrimary hsound dev).symm.opens hopen
    exact hclosed fs' hopen'

/-! ### A blank device and one that held a filesystem -/

def blankImage : Device := .ofChunks (512 * 1024) []

/-- A filesystem of 16 blocks at the start of a larger device. -/
def oldImage : Device := .ofChunks (512 * 1024)
  [(1024, [16, 0, 0, 0, 16]), (1024 + 0x14, [1]), (1024 + 0x21, [0x20]), (1024 + 0x28, [16]),
    (1024 + 0x38, [0x53, 0xef]), (2048, [3, 0, 0, 0, 4, 0, 0, 0, 5])]

theorem blankImage_closed (fs : Filesystem) : openOn blankImage ≠ .ok fs := by
  have hnone : (openOn blankImage).isOk = false := by decide +kernel
  intro h
  rw [h] at hnone
  cases hnone

theorem torn_blank_closed : ∃ plan, Format.plan blankImage.size (onDevice {} blankImage) {} = .ok plan ∧
    ∀ ops, Torn plan (fun _ => []) ops → ∀ fs, openOn (runOps ops blankImage).2 ≠ .ok fs := by
  have hok : (Format.plan blankImage.size (onDevice {} blankImage) {}).isOk = true := by
    decide +kernel
  cases hplan : Format.plan blankImage.size (onDevice {} blankImage) {} with
  | error e =>
    rw [hplan] at hok
    cases hok
  | ok plan =>
    exact ⟨plan, rfl, (torn_closed_iff Params.typed_default (by decide) hplan _).mpr
      blankImage_closed⟩

/-- Over an old filesystem a torn format opens wherever it stops. -/
theorem torn_over_old_opens : ∃ plan fs,
    Format.plan oldImage.size (onDevice {} oldImage) {} = .ok plan ∧ openOn oldImage = .ok fs ∧
      ∀ schedule ops, Torn plan schedule ops → ∃ fs', openOn (runOps ops oldImage).2 = .ok fs' := by
  have hok : (Format.plan oldImage.size (onDevice {} oldImage) {}).isOk = true ∧
      (openOn oldImage).isOk = true := by
    decide +kernel
  cases hplan : Format.plan oldImage.size (onDevice {} oldImage) {} with
  | error e =>
    rw [hplan] at hok
    cases hok.1
  | ok plan =>
    cases hopen : openOn oldImage with
    | error e =>
      rw [hopen] at hok
      cases hok.2
    | ok fs =>
      have hsound := plan_sound (onDevice_typed Params.typed_default (by decide)) hplan
      exact ⟨plan, fs, rfl, rfl, fun schedule ops htorn =>
        (htorn.samePrimary hsound oldImage).opens hopen⟩

end MkfsExt4.Format
