/-
  The group descriptor table on disk (`src/fs.rs`): `read_group_descs` against
  `flush_group_descs` and `flush_primary_group_descs`.

  The reader takes the table from the block behind the superblock's, or under meta_bg one block
  from each meta block group; the writer puts the whole table behind the superblock copy of every
  group that has one. `tableBlock` and `copyBlock` are the two rules. `Placed` says that the
  copies end up where the reader looks and nowhere else; it is enough for the descriptors to
  read back (`roundTrip_of_placed`), and needed where descriptors fill their blocks
  (`placed_of_roundTrip`).
-/
import MkfsExt4.Fs.Filesystem
import Mathlib.Data.Nat.Find

namespace MkfsExt4

open Lib.Store Lib.Hoare

namespace Filesystem

variable (fs : Filesystem)

/-! ## Where the reader looks -/

/-- How many blocks of the table are read. -/
def tableParts : Nat :=
  if fs.metaBg then fs.superblock.gdtBlocks
  else (fs.superblock.groupCount * fs.superblock.descSize + fs.blockSize - 1) / fs.blockSize

/-- The block that part `k` of the table is read from. -/
def tableBlock (k : Nat) : Nat :=
  if fs.metaBg then
    let leader := k * fs.superblock.descPerBlock
    groupFirstBlockFor fs.superblock leader + (groupHasSuperFor fs.superblock leader).toNat
  else (if fs.blockSize = 1024 then 2 else 1) + k

/-- The table as it is read. -/
def tableBytes : List UInt8 :=
  ((List.range fs.tableParts).map fun k =>
    window fs.device.bytes (fs.tableBlock k * fs.blockSize) fs.blockSize).flatten

/-- The reads of the table succeed. -/
def TableInReach : Prop :=
  if fs.metaBg then fs.superblock.descPerBlock ≠ 0 ∧ ∀ k < fs.tableParts,
    fs.tableBlock k * fs.blockSize < 2 ^ 64 ∧
      fs.tableBlock k * fs.blockSize + fs.blockSize ≤ fs.device.size
  else fs.blockSize ≠ 0 ∧ fs.tableBlock 0 * fs.blockSize < 2 ^ 64 ∧
    fs.tableBlock 0 * fs.blockSize + fs.tableParts * fs.blockSize ≤ fs.device.size

/-- The descriptors in the bytes of a table. -/
def descsIn (raw : List UInt8) : List GroupDesc :=
  (List.range fs.superblock.groupCount).map fun g =>
    GroupDesc.decode (raw.drop (g * fs.superblock.descSize)) fs.superblock.descSize

variable {fs}

theorem readAtBlock_ok_iff {block len : Nat} {buf : List UInt8} :
    fs.readAtBlock block len = .ok buf ↔
      (block * fs.blockSize < 2 ^ 64 ∧ block * fs.blockSize + len ≤ fs.device.size) ∧
        buf = window fs.device.bytes (block * fs.blockSize) len := by
  unfold readAtBlock blockOffset
  by_cases ho : block * fs.blockSize < 2 ^ 64
  · rw [if_pos ho]
    have hread := @Device.readAt_ok_iff fs.device (block * fs.blockSize) len buf
    exact ⟨fun h => ⟨⟨ho, (hread.mp (returned_ok h)).1⟩, (hread.mp (returned_ok h)).2⟩,
      fun h => returned_ok_iff.mpr (hread.mpr ⟨h.1.2, h.2⟩)⟩
  · rw [if_neg ho]
    exact ⟨fun h => (nomatch h), fun h => absurd h.1.1 ho⟩

theorem readBlock_ok_iff {block : Nat} {buf : List UInt8} :
    fs.readBlock block = .ok buf ↔
      block < fs.superblock.blocksCount ∧ block * fs.blockSize < 2 ^ 64 ∧
        block * fs.blockSize + fs.blockSize ≤ fs.device.size ∧
        buf = window fs.device.bytes (block * fs.blockSize) fs.blockSize := by
  unfold readBlock
  by_cases hb : block < fs.superblock.blocksCount
  · rw [if_neg (Nat.not_le.mpr hb), readAtBlock_ok_iff, and_assoc]
    exact ⟨fun h => ⟨hb, h⟩, And.right⟩
  · rw [if_pos (Nat.not_lt.mp hb)]
    exact ⟨fun h => (nomatch h), fun h => absurd h.1 hb⟩

/-- Gathering pieces one after another succeeds when each does. -/
theorem gather_ok_iff {f : Nat → Except Failure (List UInt8)} {A : Nat → Prop}
    {piece : Nat → List UInt8} (hf : ∀ k buf, f k = .ok buf ↔ A k ∧ buf = piece k) (ks : List Nat)
    {acc raw : List UInt8} :
    ks.foldlM (fun raw k => do return raw ++ (← f k)) acc = .ok raw ↔
      (∀ k ∈ ks, A k) ∧ raw = acc ++ (ks.map piece).flatten := by
  induction ks generalizing acc with
  | nil =>
    rw [List.foldlM_nil, List.map_nil, List.flatten_nil, List.append_nil]
    exact ⟨fun h => ⟨fun k hk => absurd hk List.not_mem_nil, (Except.ok.inj h).symm⟩,
      fun h => congrArg _ h.2.symm⟩
  | cons k ks ih =>
    rw [List.foldlM_cons, List.map_cons, List.flatten_cons, ← List.append_assoc]
    constructor
    · intro h
      obtain ⟨acc', hacc', hrest⟩ := bind_ok h
      obtain ⟨buf, hbuf, hacc'⟩ := bind_ok hacc'
      obtain ⟨hk, rfl⟩ := (hf k buf).mp hbuf
      cases hacc'
      obtain ⟨hall, hraw⟩ := ih.mp hrest
      exact ⟨List.forall_mem_cons.mpr ⟨hk, hall⟩, hraw⟩
    · intro ⟨hall, hraw⟩
      obtain ⟨hk, hall⟩ := List.forall_mem_cons.mp hall
      rw [(hf k _).mpr ⟨hk, rfl⟩]
      exact ih.mpr ⟨hall, hraw⟩

theorem readGdt_ok_iff {raw : List UInt8} :
    fs.readGdt = .ok raw ↔ fs.TableInReach ∧ raw = fs.tableBytes := by
  unfold readGdt TableInReach tableBytes tableParts tableBlock
  cases hmeta : fs.metaBg with
  | false =>
    simp only [Bool.not_false, if_true, Bool.false_eq_true, if_false, Nat.add_zero]
    rw [panicIf_bind_ok_iff, readAtBlock_ok_iff, ← window_blocks, and_assoc, and_assoc, and_assoc]
    rfl
  | true =>
    simp only [Bool.not_true, Bool.false_eq_true, if_false, if_true]
    rw [panicIf_bind_ok_iff, and_assoc]
    refine and_congr_right fun _ => ?_
    refine (gather_ok_iff (fun k buf => readAtBlock_ok_iff) _).trans ?_
    simp only [List.mem_range, List.nil_append]
    rfl

/-! ## What opening checked -/

/-- An opened filesystem has blocks, and one descriptor for each group. -/
theorem Opened.blockSize_ne_zero {dev : Device} (h : Opened dev fs) : fs.blockSize ≠ 0 := by
  obtain ⟨raw, hraw, -⟩ := bind_ok h.groupDescs
  unfold readGdt at hraw
  split at hraw
  · exact (panicIf_bind_ok_iff.mp hraw).1
  · intro hzero
    refine (panicIf_bind_ok_iff.mp hraw).1 ?_
    show fs.blockSize / fs.superblock.descSize = 0
    rw [hzero, Nat.zero_div]

theorem Opened.length_groupDescs {dev : Device} (h : Opened dev fs) :
    fs.groupDescs.length = fs.groupCount := by
  obtain ⟨raw, -, hdescs⟩ := bind_ok h.groupDescs
  rw [← Except.ok.inj hdescs, List.length_map, List.length_range, groupCount]

/-- A block size that is not shifted out of 32 bits is a power of two, in 64 bits as well. -/
theorem shift_eq_pow {n : Nat} (hn : n < 32) (h : (1024 <<< (n % 32)) % 2 ^ 32 ≠ 0) :
    10 + n < 32 ∧ (1024 <<< (n % 32)) % 2 ^ 32 = 2 ^ (10 + n) ∧
      (1024 <<< n) % 2 ^ 64 = 2 ^ (10 + n) := by
  have hpow : 1024 <<< n = 2 ^ (10 + n) := by
    rw [Nat.shiftLeft_eq, Nat.pow_add]
  rw [Nat.mod_eq_of_lt hn, hpow] at h ⊢
  have hsmall : 10 + n < 32 := by
    by_contra hge
    exact h (Nat.mod_eq_zero_of_dvd (Nat.pow_dvd_pow 2 (Nat.not_lt.mp hge)))
  exact ⟨hsmall, Nat.mod_eq_of_lt (Nat.pow_lt_pow_right (by decide) hsmall),
    Nat.mod_eq_of_lt (Nat.pow_lt_pow_right (by decide) (by omega))⟩

theorem Opened.blockSize_eq {dev : Device} (h : Opened dev fs) :
    10 + fs.superblock.logBlockSize < 32 ∧
      fs.blockSize = 2 ^ (10 + fs.superblock.logBlockSize) ∧
      (1024 <<< fs.superblock.logBlockSize) % 2 ^ 64 = 2 ^ (10 + fs.superblock.logBlockSize) :=
  shift_eq_pow (Nat.not_le.mp fun hlog => h.sound (Or.inl hlog)) h.blockSize_ne_zero

/-- A fresh open of a device with the same superblock reads the table that stands there. -/
theorem openOn_of_same {dev dev' : Device} (h : openOn dev = .ok fs) (hsize : dev'.size = dev.size)
    (hsector : dev'.logicalSectorSize = dev.logicalSectorSize)
    (hsb : window dev'.bytes superblockOffset superblockLen =
      window dev.bytes superblockOffset superblockLen) :
    openOn dev' = .ok { fs with
      device := dev'
      groupDescs := fs.descsIn ({ fs with device := dev' } : Filesystem).tableBytes } := by
  have hopened := openOn_opened h
  unfold openOn at h
  obtain ⟨head, hhead, -⟩ := bind_ok h
  obtain ⟨hspan, -⟩ := Device.readAt_ok_iff.mp (returned_ok hhead)
  obtain ⟨raw, hraw, -⟩ := bind_ok hopened.groupDescs
  have hreach : ({ fs with device := dev' } : Filesystem).TableInReach := by
    have hold := (readGdt_ok_iff.mp hraw).1
    unfold TableInReach at hold ⊢
    rw [hopened.device, ← hsize] at hold
    exact hold
  have hdecode : Superblock.decode
      (slice (window dev'.bytes 0 ((superblockOffset + superblockLen +
        max dev'.logicalSectorSize 1 - 1) / max dev'.logicalSectorSize 1 *
          max dev'.logicalSectorSize 1)) superblockOffset superblockLen) = .ok fs.superblock := by
    rw [slice_window _ (superblock_in_span dev'), Nat.zero_add, hsb]
    exact hopened.superblock
  unfold openOn
  refine bind_ok_iff.mpr ⟨_, returned_ok_iff.mpr (Device.readAt_ok_iff.mpr ⟨?_, rfl⟩), ?_⟩
  · rw [hsector, hsize]
    exact hspan
  refine bind_ok_iff.mpr ⟨fs.superblock, returned_ok_iff.mpr hdecode, ?_⟩
  refine panicIf_bind_ok_iff.mpr ⟨hopened.sound, ?_⟩
  refine bind_ok_iff.mpr
    ⟨fs.descsIn ({ fs with device := dev' } : Filesystem).tableBytes, ?_, ?_⟩
  · exact bind_ok_iff.mpr ⟨_, readGdt_ok_iff.mpr ⟨hreach, rfl⟩, rfl⟩
  · rw [← hopened.csumScheme, ← hopened.csumSeed]
    rfl

/-! ## Where the writer puts it -/

variable (fs)

/-- The groups behind whose superblock copy the table is written. -/
def copies (primaryOnly : Bool) : List Nat :=
  (List.range fs.groupCount).filter fun g => fs.groupHasSuper g && (!primaryOnly || g = 0)

/-- The first block of the table in a group. -/
def copyBlock (g : Nat) : Nat := fs.groupFirstBlock g + 1

/-- The device with the table `raw` written to the groups `gs`. -/
def withCopies (gs : List Nat) (raw : List UInt8) : Filesystem :=
  { fs with device := { fs.device with
      bytes := overlays fs.device.bytes (gs.map fun g => (fs.copyBlock g * fs.blockSize, raw)) } }

variable {fs}

theorem exec_reading {α : Type} {f : Filesystem → Except Failure α} {a : α} (h : f fs = .ok a) :
    exec (reading f) fs = (.ok a, fs) := by
  have hget : exec (get : FsM Filesystem) fs = (.ok fs, fs) := rfl
  unfold reading
  rw [exec_bind_of_ok hget, h]
  rfl

theorem panicIf_of_not {bad : Prop} [Decidable bad] (h : ¬ bad) : panicIf bad = .ok () :=
  if_neg h

theorem exec_reading_error {α : Type} {f : Filesystem → Except Failure α} {e : Failure}
    (h : f fs = .error e) : exec (reading f) fs = (.error e, fs) := by
  have hget : exec (get : FsM Filesystem) fs = (.ok fs, fs) := rfl
  unfold reading
  rw [exec_bind_of_ok hget, h]
  rfl

theorem exec_writeBlock {block : Nat} {buf : List UInt8} (hoff : block * fs.blockSize < 2 ^ 64)
    (hin : block * fs.blockSize + buf.length ≤ fs.device.size) :
    exec (writeBlock block buf) fs = (.ok (), fs.withBytes (block * fs.blockSize) buf) := by
  have hblock : fs.blockOffset block = .ok (block * fs.blockSize) := if_pos hoff
  have hwrite : fs.device.writeAt (block * fs.blockSize) buf =
      .ok { fs.device with bytes := overlay fs.device.bytes (block * fs.blockSize) buf } := by
    unfold Device.writeAt checkBounds
    rw [if_pos hin]
    rfl
  unfold writeBlock
  rw [exec_bind_of_ok (exec_reading hblock),
    exec_bind_of_ok (exec_reading (returned_ok_iff.mpr hwrite))]
  rfl

/-- The filesystem with its superblock written. -/
def synced (fs : Filesystem) : Filesystem :=
  fs.withBytes superblockOffset
    (fs.superblock.encodeInto (window fs.device.bytes superblockOffset superblockLen))

/-- The superblock is written if it can be read, and nothing is if not. -/
theorem exec_flushSuperblock_cases (fs : Filesystem) :
    ((∃ raw, fs.readSuperblockRaw = .ok raw) ∧
      exec flushSuperblock fs = (.ok (), fs.synced)) ∨
    (∀ raw, fs.readSuperblockRaw ≠ .ok raw) ∧ ∃ e, exec flushSuperblock fs = (.error e, fs) := by
  cases hraw : fs.readSuperblockRaw with
  | error e =>
    refine Or.inr ⟨nofun, e, ?_⟩
    unfold flushSuperblock
    rw [exec_bind, exec_reading_error hraw]
  | ok raw =>
    refine Or.inl ⟨⟨raw, rfl⟩, ?_⟩
    obtain ⟨holder, hholder, hwin, hroom, -⟩ := readSuperblockRaw_ok hraw
    have hin := hholder
    unfold readSuperblockHolder at hin
    obtain ⟨_, -, hin⟩ := bind_ok hin
    obtain ⟨offset, hoff, -⟩ := bind_ok hin
    have hlen : holder.length = fs.blockSize := by rw [hwin, length_window]
    have hrun : ∃ fs', exec flushSuperblock fs = (.ok (), fs') := by
      unfold flushSuperblock
      rw [exec_bind_of_ok (exec_reading hraw), exec_bind_of_ok (exec_reading hholder),
        exec_bind_of_ok (show exec get fs = (.ok fs, fs) from rfl)]
      refine ⟨_, exec_writeBlock (blockOffset_ok hoff).2 ?_⟩
      rw [length_splice, hlen]
      exact (readAtBlock_ok hin).2
    obtain ⟨fs', hrun⟩ := hrun
    rw [hrun, flushSuperblock_ok hrun, synced]

/-- A flush asks only whether the superblock can be read: what it writes is as long as what it
    read. -/
theorem flushSuperblock_eq : flushSuperblock = (do
    let raw ← reading readSuperblockRaw
    modify fun fs => fs.withBytes superblockOffset (fs.superblock.encodeInto raw) : FsM Unit) := by
  funext fs
  show exec flushSuperblock fs = exec _ fs
  rcases exec_flushSuperblock_cases fs with ⟨⟨raw, hraw⟩, hflush⟩ | ⟨hno, -⟩
  · rw [hflush, exec_bind_of_ok (exec_reading hraw)]
    obtain ⟨holder, -, -, -, hraw⟩ := readSuperblockRaw_ok hraw
    rw [hraw]
    rfl
  · cases hraw : fs.readSuperblockRaw with
    | ok raw => exact absurd hraw (hno raw)
    | error e =>
      unfold flushSuperblock
      rw [exec_bind, exec_reading_error hraw, exec_bind, exec_reading_error hraw]

/-- Writing the table to the groups `gs` succeeds exactly when each copy lies on the device. -/
theorem exec_copies_iff {fs' : Filesystem} (gs : List Nat) (raw : List UInt8) :
    exec (forM gs fun g => writeBlock (fs.copyBlock g) raw) fs = (.ok (), fs') ↔
      (∀ g ∈ gs, fs.copyBlock g * fs.blockSize < 2 ^ 64 ∧
        fs.copyBlock g * fs.blockSize + raw.length ≤ fs.device.size) ∧
      fs' = fs.withCopies gs raw := by
  suffices hgen : ∀ cur : Filesystem, cur.superblock = fs.superblock →
      cur.device.size = fs.device.size →
      (exec (forM gs fun g => writeBlock (fs.copyBlock g) raw) cur = (.ok (), fs') ↔
        (∀ g ∈ gs, fs.copyBlock g * fs.blockSize < 2 ^ 64 ∧
          fs.copyBlock g * fs.blockSize + raw.length ≤ fs.device.size) ∧
        fs' = { cur with device := { cur.device with
          bytes := overlays cur.device.bytes
            (gs.map fun g => (fs.copyBlock g * fs.blockSize, raw)) } }) from
    hgen fs rfl rfl
  induction gs with
  | nil =>
    intro cur _ _
    refine ⟨fun h => ⟨fun g hg => absurd hg List.not_mem_nil, ?_⟩, fun h => ?_⟩
    · cases h
      rfl
    · rw [h.2]
      rfl
  | cons g gs ih =>
    intro cur hsb hsize
    have hbs : cur.blockSize = fs.blockSize := by rw [blockSize, hsb, blockSize]
    rw [List.forM_cons]
    constructor
    · intro h
      obtain ⟨_, cur1, hwrite, hrest⟩ := exec_bind_ok h
      have hoff : fs.copyBlock g * fs.blockSize < 2 ^ 64 := by
        obtain ⟨offset, cur2, hread, -⟩ := exec_bind_ok hwrite
        rw [← hbs]
        exact (blockOffset_ok (reading_ok hread).1).2
      obtain ⟨rfl, hin⟩ := writeBlock_ok hwrite
      obtain ⟨hall, rfl⟩ :=
        (ih (cur.withBytes (fs.copyBlock g * cur.blockSize) raw) hsb hsize).mp hrest
      rw [hbs, hsize] at hin
      refine ⟨List.forall_mem_cons.mpr ⟨⟨hoff, hin⟩, hall⟩, ?_⟩
      rw [hbs]
      rfl
    · intro ⟨hall, hfs'⟩
      obtain ⟨⟨hoff, hin⟩, hall⟩ := List.forall_mem_cons.mp hall
      rw [← hbs] at hoff hin
      rw [← hsize] at hin
      rw [exec_bind_of_ok (exec_writeBlock hoff hin)]
      refine (ih (cur.withBytes (fs.copyBlock g * cur.blockSize) raw) hsb hsize).mpr ⟨hall, ?_⟩
      rw [hfs', hbs]
      rfl

theorem exec_writeGroupDescs_iff {fs' : Filesystem} (primaryOnly : Bool) :
    exec (writeGroupDescs primaryOnly) fs = (.ok (), fs') ↔
      ¬ (fs.superblock.descPerBlock = 0 ∨ fs.superblock.gdtBlocks * fs.blockSize <
        fs.groupDescs.length * fs.superblock.descSize) ∧
      (∀ g ∈ fs.copies primaryOnly, fs.copyBlock g * fs.blockSize < 2 ^ 64 ∧
        fs.copyBlock g * fs.blockSize + fs.encodeGdt.length ≤ fs.device.size) ∧
      fs' = fs.withCopies (fs.copies primaryOnly) fs.encodeGdt := by
  constructor
  · intro h
    obtain ⟨_, fs1, hread, hrest⟩ := exec_bind_ok h
    obtain ⟨hguard, rfl⟩ := reading_ok hread
    obtain ⟨fs2, fs3, hget, hrest⟩ := exec_bind_ok hrest
    cases hget
    exact ⟨panicIf_ok hguard, (exec_copies_iff _ _).mp hrest⟩
  · intro ⟨hguard, hcopies⟩
    have hread := @exec_reading fs _ (fun fs => panicIf (fs.superblock.descPerBlock = 0 ∨
      fs.superblock.gdtBlocks * fs.blockSize < fs.groupDescs.length * fs.superblock.descSize)) ()
        (panicIf_of_not hguard)
    have hget : exec (get : FsM Filesystem) fs = (.ok fs, fs) := rfl
    unfold writeGroupDescs
    rw [exec_bind_of_ok hread, exec_bind_of_ok hget]
    exact (exec_copies_iff _ _).mpr hcopies

/-! ## The round trip -/

variable (fs)

/-- Blocks of the table a group stores, the reserved ones apart. -/
def copyLength (g : Nat) : Nat :=
  if !fs.metaBg || g / fs.descPerBlock < fs.superblock.firstMetaBg then fs.superblock.gdtBlocks
  else 1

/-- Whether a block holds a copy of a descriptor block, by the layout. -/
def HoldsCopy (block : Nat) : Prop :=
  ∃ g < fs.groupCount, fs.groupHasDesc g = true ∧
    fs.groupFirstBlock g + (fs.groupHasSuper g).toNat ≤ block ∧
    block < fs.groupFirstBlock g + (fs.groupHasSuper g).toNat + fs.copyLength g

/-- The table in the group `g`, as the writer puts it, lies over `block`. -/
def Over (g block : Nat) : Prop :=
  fs.copyBlock g ≤ block ∧ block < fs.copyBlock g + fs.superblock.gdtBlocks

/-- The descriptors with the checksums that writing them computes. -/
def stampedDescs (descs : List GroupDesc) : List GroupDesc :=
  descs.mapIdx fun g desc => desc.stamped fs.superblock.descSize fs.csumScheme fs.csumSeed
    fs.superblock.uuid g

/-- One descriptor for each group, each of which fits. -/
def Fitting (descs : List GroupDesc) : Prop :=
  descs.length = fs.groupCount ∧ ∀ desc ∈ descs, desc.Representable fs.superblock.descSize

/-- Writing `descs` succeeds, a fresh open reads them back with their checksums, and every byte
    changed lies in a block that holds a descriptor copy. -/
def RoundTrip (primaryOnly : Bool) (descs : List GroupDesc) : Prop :=
  ∃ fs', exec (writeGroupDescs primaryOnly) { fs with groupDescs := descs } = (.ok (), fs') ∧
    (∃ again, openOn fs'.device = .ok again ∧ again.groupDescs = fs.stampedDescs descs) ∧
    ∀ p, fs'.device.bytes p ≠ fs.device.bytes p → fs.HoldsCopy (p / fs.blockSize)

/-- The copies lie on the device and behind the superblock, the last one over each block the
    reader takes puts that part of the table there, and all are where the layout has copies. -/
structure Placed (primaryOnly : Bool) : Prop where
  entries : fs.superblock.descPerBlock ≠ 0
  onDevice : ∀ g ∈ fs.copies primaryOnly, fs.copyBlock g * fs.blockSize < 2 ^ 64 ∧
    fs.copyBlock g * fs.blockSize + fs.superblock.gdtBlocks * fs.blockSize ≤ fs.device.size
  superblock : ∀ g ∈ fs.copies primaryOnly,
    superblockOffset + superblockLen ≤ fs.copyBlock g * fs.blockSize
  parts : ∀ k < fs.tableParts, ∃ g ∈ fs.copies primaryOnly, fs.tableBlock k = fs.copyBlock g + k ∧
    ∀ g' ∈ fs.copies primaryOnly, g < g' → ¬ fs.Over g' (fs.tableBlock k)
  layout : ∀ g ∈ fs.copies primaryOnly, ∀ block, fs.Over g block → fs.HoldsCopy block

variable {fs}

theorem descSize_cases (sb : Superblock) :
    sb.descSize = minDescSize ∨ descSize64bit ≤ sb.descSize := by
  unfold Superblock.descSize
  split
  · exact Or.inr (Nat.le_max_right _ _)
  · exact Or.inl rfl

theorem minDescSize_le (sb : Superblock) : minDescSize ≤ sb.descSize := by
  rcases descSize_cases sb with h | h
  · exact Nat.le_of_eq h.symm
  · exact Nat.le_trans (by decide) h

theorem le_divCeil_mul (n : Nat) {d : Nat} (hd : 0 < d) : n ≤ (n + d - 1) / d * d := by
  have hmod := Nat.mod_lt (n + d - 1) hd
  have hdiv := Nat.div_add_mod' (n + d - 1) d
  omega

/-- The table holds a descriptor for each group. -/
theorem table_room (h : fs.superblock.descPerBlock ≠ 0) :
    fs.groupCount * fs.superblock.descSize ≤ fs.superblock.gdtBlocks * fs.blockSize :=
  calc fs.groupCount * fs.superblock.descSize
      ≤ fs.superblock.gdtBlocks * fs.superblock.descPerBlock * fs.superblock.descSize :=
        Nat.mul_le_mul_right _ (le_divCeil_mul _ (Nat.pos_of_ne_zero h))
    _ = fs.superblock.gdtBlocks * (fs.superblock.descPerBlock * fs.superblock.descSize) :=
        Nat.mul_assoc _ _ _
    _ ≤ fs.superblock.gdtBlocks * fs.blockSize :=
        Nat.mul_le_mul_left _ (Nat.div_mul_le_self _ _)

/-- The parts that are read hold a descriptor for each group, and are no more than are written. -/
theorem tableParts_room (hdesc : fs.superblock.descPerBlock ≠ 0) (hbs : fs.blockSize ≠ 0) :
    fs.groupCount * fs.superblock.descSize ≤ fs.tableParts * fs.blockSize := by
  unfold tableParts
  split
  · exact table_room hdesc
  · exact le_divCeil_mul _ (Nat.pos_of_ne_zero hbs)

theorem tableParts_le (hdesc : fs.superblock.descPerBlock ≠ 0) (hbs : fs.blockSize ≠ 0) :
    fs.tableParts ≤ fs.superblock.gdtBlocks := by
  unfold tableParts
  split
  · exact Nat.le_refl _
  · have hpos := Nat.pos_of_ne_zero hbs
    have hroom : fs.superblock.groupCount * fs.superblock.descSize ≤
        fs.superblock.gdtBlocks * fs.blockSize := table_room hdesc
    refine Nat.le_of_lt_succ ((Nat.div_lt_iff_lt_mul hpos).mpr ?_)
    rw [Nat.succ_mul]
    omega

theorem mapIdx_eq_map_range {α β : Type} (xs : List α) (d : α) (f : Nat → α → β) :
    xs.mapIdx f = (List.range xs.length).map fun i => f i (xs.getD i d) := by
  refine List.ext_getElem (by simp) fun i h1 h2 => ?_
  have hi : i < xs.length := by simpa using h1
  simp [List.getD_eq_getElem?_getD, List.getElem?_eq_getElem hi]

/-- The table the writer makes of `descs`. -/
def gdtOf (fs : Filesystem) (descs : List GroupDesc) : List UInt8 :=
  ({ fs with groupDescs := descs } : Filesystem).encodeGdt

/-- The bytes of one descriptor in it. -/
def descBytes (fs : Filesystem) (descs : List GroupDesc) (g : Nat) : List UInt8 :=
  (descs.getD g {}).encodeWithCsum fs.superblock.descSize fs.csumScheme fs.csumSeed
    fs.superblock.uuid g

theorem length_descBytes (fs : Filesystem) (descs : List GroupDesc) (g : Nat) :
    (fs.descBytes descs g).length = fs.superblock.descSize :=
  GroupDesc.length_encodeWithCsum _ _ _ _ _ _

theorem gdtOf_eq (fs : Filesystem) (descs : List GroupDesc) :
    fs.gdtOf descs = ((List.range descs.length).map (fs.descBytes descs)).flatten ++
      List.replicate (fs.superblock.gdtBlocks * fs.blockSize -
        ((List.range descs.length).map (fs.descBytes descs)).flatten.length) 0 := by
  unfold gdtOf encodeGdt
  dsimp only
  rw [mapIdx_eq_map_range _ {}]
  rfl

section Table

variable {descs : List GroupDesc} (hdesc : fs.superblock.descPerBlock ≠ 0)
  (hlen : descs.length = fs.groupCount)

include hdesc hlen

theorem length_gdtOf : (fs.gdtOf descs).length = fs.superblock.gdtBlocks * fs.blockSize := by
  have hroom := table_room hdesc
  rw [gdtOf_eq, List.length_append, List.length_replicate,
    length_flatten_blocks fun g _ => fs.length_descBytes descs g, hlen]
  omega

omit hdesc in
theorem slice_gdtOf {g : Nat} (hg : g < fs.groupCount) :
    slice (fs.gdtOf descs) (g * fs.superblock.descSize) fs.superblock.descSize =
      fs.descBytes descs g := by
  rw [gdtOf_eq]
  exact slice_flatten_blocks 0 (fun g _ => fs.length_descBytes descs g) (hlen ▸ hg) _

/-- A table that holds `gdtOf descs` where it is read decodes to the descriptors, stamped. -/
theorem descsIn_gdtOf (hbs : fs.blockSize ≠ 0)
    (hfit : ∀ desc ∈ descs, desc.Representable fs.superblock.descSize) :
    fs.descsIn ((fs.gdtOf descs).take (fs.tableParts * fs.blockSize)) = fs.stampedDescs descs := by
  unfold descsIn stampedDescs
  rw [mapIdx_eq_map_range _ {}, hlen]
  refine List.map_congr_left fun g hg => ?_
  have hg : g < fs.groupCount := List.mem_range.mp hg
  have hend : g * fs.superblock.descSize + fs.superblock.descSize ≤
      fs.tableParts * fs.blockSize := by
    have := Nat.mul_le_mul_right fs.superblock.descSize hg
    rw [Nat.succ_mul] at this
    exact Nat.le_trans this (tableParts_room hdesc hbs)
  have hcut : slice ((fs.gdtOf descs).take (fs.tableParts * fs.blockSize))
      (g * fs.superblock.descSize) fs.superblock.descSize = fs.descBytes descs g := by
    rw [← slice_gdtOf hlen hg]
    have := @slice_slice _ (fs.gdtOf descs) (g * fs.superblock.descSize) fs.superblock.descSize 0
      (fs.tableParts * fs.blockSize) hend
    rwa [Nat.zero_add] at this
  rw [← GroupDesc.decode_take _ (minDescSize_le _)]
  show GroupDesc.decode (slice _ _ _) _ = _
  rw [hcut, descBytes]
  refine GroupDesc.decode_encodeWithCsum (descSize_cases _) ?_ _ _ _ _
  rw [List.getD_eq_getElem?_getD, List.getElem?_eq_getElem (hlen ▸ hg), Option.getD_some]
  exact hfit _ (List.getElem_mem _)

end Table

/-! ### What stands on the device afterwards -/

section Copies

variable {primaryOnly : Bool} {raw : List UInt8}
  (hraw : raw.length = fs.superblock.gdtBlocks * fs.blockSize)

theorem copies_pairwise (fs : Filesystem) (primaryOnly : Bool) :
    (fs.copies primaryOnly).Pairwise (· < ·) :=
  List.Pairwise.filter _ List.pairwise_lt_range

include hraw

/-- The copy in the group `g` misses a place in a block it does not lie over. -/
theorem copy_misses {g block r : Nat} (hr : r < fs.blockSize) (h : ¬ fs.Over g block) :
    block * fs.blockSize + r < fs.copyBlock g * fs.blockSize ∨
      fs.copyBlock g * fs.blockSize + raw.length ≤ block * fs.blockSize + r := by
  rw [hraw, ← Nat.add_mul, place_lt_iff hr, ← Nat.not_lt, place_lt_iff hr]
  unfold Over at h
  omega

theorem withCopies_miss {block r : Nat} (hr : r < fs.blockSize)
    (h : ∀ g ∈ fs.copies primaryOnly, ¬ fs.Over g block) :
    (fs.withCopies (fs.copies primaryOnly) raw).device.bytes (block * fs.blockSize + r) =
      fs.device.bytes (block * fs.blockSize + r) := by
  refine overlays_of_miss _ fun w hw => ?_
  obtain ⟨g, hg, rfl⟩ := List.mem_map.mp hw
  exact copy_misses hraw hr (h g hg)

theorem withCopies_over {g block r : Nat} (hr : r < fs.blockSize) (hg : g ∈ fs.copies primaryOnly)
    (hover : fs.Over g block)
    (hlast : ∀ g' ∈ fs.copies primaryOnly, g < g' → ¬ fs.Over g' block) :
    (fs.withCopies (fs.copies primaryOnly) raw).device.bytes (block * fs.blockSize + r) =
      raw.getD ((block - fs.copyBlock g) * fs.blockSize + r) 0 := by
  have hord := fs.copies_pairwise primaryOnly
  obtain ⟨before, after, hsplit⟩ := List.append_of_mem hg
  rw [hsplit] at hord hlast
  have hafter := (List.pairwise_cons.mp (List.pairwise_append.mp hord).2.1).1
  have hend : block * fs.blockSize + r <
      fs.copyBlock g * fs.blockSize + fs.superblock.gdtBlocks * fs.blockSize := by
    rw [← Nat.add_mul, place_lt_iff hr]
    exact hover.2
  have hstart := Nat.mul_le_mul_right fs.blockSize hover.1
  unfold withCopies
  rw [hsplit, List.map_append, List.map_cons]
  dsimp only
  rw [overlays_last _ _ 0 (by dsimp only; omega) (by rw [hraw]; exact hend)]
  · dsimp only
    rw [Nat.sub_mul]
    congr 1
    omega
  · intro w hw
    obtain ⟨g', hg', rfl⟩ := List.mem_map.mp hw
    exact copy_misses hraw hr (hlast g' (List.mem_append_right _ (List.mem_cons_of_mem _ hg'))
      (hafter g' hg'))

/-- A byte that changed lies in a block that one of the copies lies over. -/
theorem withCopies_changed (hbs : fs.blockSize ≠ 0) {p : Nat}
    (h : (fs.withCopies (fs.copies primaryOnly) raw).device.bytes p ≠ fs.device.bytes p) :
    ∃ g ∈ fs.copies primaryOnly, fs.Over g (p / fs.blockSize) := by
  by_contra hnone
  refine h ?_
  have hmiss := @withCopies_miss fs primaryOnly raw hraw (p / fs.blockSize) (p % fs.blockSize)
    (Nat.mod_lt _ (Nat.pos_of_ne_zero hbs)) fun g hg hover => hnone ⟨g, hg, hover⟩
  rwa [Nat.div_add_mod'] at hmiss

end Copies

/-! ### Enough -/

/-- The device once `descs` are written. -/
def flushed (fs : Filesystem) (primaryOnly : Bool) (descs : List GroupDesc) : Device :=
  (fs.withCopies (fs.copies primaryOnly) (fs.gdtOf descs)).device

theorem exec_flush_iff {primaryOnly : Bool} {descs : List GroupDesc} {fs' : Filesystem}
    (hlen : descs.length = fs.groupCount) :
    exec (writeGroupDescs primaryOnly) { fs with groupDescs := descs } = (.ok (), fs') ↔
      fs.superblock.descPerBlock ≠ 0 ∧
      (∀ g ∈ fs.copies primaryOnly, fs.copyBlock g * fs.blockSize < 2 ^ 64 ∧
        fs.copyBlock g * fs.blockSize + fs.superblock.gdtBlocks * fs.blockSize ≤ fs.device.size) ∧
      fs' = { fs with groupDescs := descs, device := fs.flushed primaryOnly descs } := by
  refine (exec_writeGroupDescs_iff primaryOnly).trans ?_
  constructor
  · intro ⟨hguard, hdev, hfs'⟩
    have hdesc : fs.superblock.descPerBlock ≠ 0 := fun hzero => hguard (Or.inl hzero)
    refine ⟨hdesc, fun g hg => ?_, hfs'⟩
    rw [← length_gdtOf hdesc hlen]
    exact hdev g hg
  · intro ⟨hdesc, hdev, hfs'⟩
    refine ⟨?_, fun g hg => ?_, hfs'⟩
    · intro hguard
      rcases hguard with hzero | hover
      · exact hdesc hzero
      · have hroom := @table_room fs hdesc
        rw [← hlen] at hroom
        exact absurd hover (Nat.not_lt.mpr hroom)
    · have hraw := length_gdtOf hdesc hlen
      rw [gdtOf] at hraw
      rw [hraw]
      exact hdev g hg

/-- Where the last copy over each block the reader takes puts that part there, the reader gets
    the table. -/
theorem tableBytes_flushed {primaryOnly : Bool} {descs : List GroupDesc} (hbs : fs.blockSize ≠ 0)
    (hlen : descs.length = fs.groupCount) (h : fs.Placed primaryOnly) :
    ({ fs with device := fs.flushed primaryOnly descs } : Filesystem).tableBytes =
      (fs.gdtOf descs).take (fs.tableParts * fs.blockSize) := by
  have hraw := length_gdtOf h.entries hlen
  have hparts := tableParts_le h.entries hbs
  have hlens : ∀ k, k < fs.tableParts → (window (fs.flushed primaryOnly descs).bytes
      (fs.tableBlock k * fs.blockSize) fs.blockSize).length = fs.blockSize :=
    fun k _ => length_window _ _ _
  have hsize := length_flatten_blocks hlens
  show ((List.range fs.tableParts).map fun k => window (fs.flushed primaryOnly descs).bytes
    (fs.tableBlock k * fs.blockSize) fs.blockSize).flatten = _
  refine ext_getD 0 ?_ fun q hq => ?_
  · rw [hsize, List.length_take, hraw, Nat.min_eq_left (Nat.mul_le_mul_right _ hparts)]
  · rw [hsize] at hq
    have hr := Nat.mod_lt q (Nat.pos_of_ne_zero hbs)
    have hk : q / fs.blockSize < fs.tableParts :=
      (Nat.div_lt_iff_lt_mul (Nat.pos_of_ne_zero hbs)).mpr hq
    obtain ⟨g, hg, hblock, hlast⟩ := h.parts _ hk
    have hover : fs.Over g (fs.tableBlock (q / fs.blockSize)) := by
      rw [hblock]
      exact ⟨Nat.le_add_right _ _, by omega⟩
    rw [getD_flatten_blocks 0 hlens hq, getD_window _ _ _ _ _ hr]
    refine (withCopies_over hraw hr hg hover hlast).trans ?_
    rw [hblock, Nat.add_sub_cancel_left, Nat.div_add_mod', List.getD_eq_getElem?_getD,
      List.getD_eq_getElem?_getD, List.getElem?_take_of_lt hq]

/-- What a fresh open gets, if the superblock was left alone. -/
theorem openOn_flushed {dev : Device} {primaryOnly : Bool} (hopen : openOn dev = .ok fs)
    (h : ∀ g ∈ fs.copies primaryOnly,
      superblockOffset + superblockLen ≤ fs.copyBlock g * fs.blockSize) (descs : List GroupDesc) :
    openOn (fs.flushed primaryOnly descs) = .ok { fs with
      device := fs.flushed primaryOnly descs
      groupDescs := fs.descsIn
        ({ fs with device := fs.flushed primaryOnly descs } : Filesystem).tableBytes } := by
  have hdev := (openOn_opened hopen).device
  refine openOn_of_same hopen ?_ ?_ ?_
  · rw [← hdev]
    rfl
  · rw [← hdev]
    rfl
  · rw [← hdev]
    refine window_congr fun p _ hp => overlays_of_miss _ fun w hw => ?_
    obtain ⟨g, hg, rfl⟩ := List.mem_map.mp hw
    exact Or.inl (Nat.lt_of_lt_of_le hp (h g hg))

/-- Under `Placed` every list of descriptors that fits reads back. -/
theorem roundTrip_of_placed {dev : Device} {primaryOnly : Bool} (hopen : openOn dev = .ok fs)
    (h : fs.Placed primaryOnly) {descs : List GroupDesc} (hfit : fs.Fitting descs) :
    fs.RoundTrip primaryOnly descs := by
  obtain ⟨hlen, hfit⟩ := hfit
  have hbs := (openOn_opened hopen).blockSize_ne_zero
  refine ⟨_, (exec_flush_iff hlen).mpr ⟨h.entries, h.onDevice, rfl⟩,
    ⟨_, openOn_flushed hopen h.superblock descs, ?_⟩, fun p hp => ?_⟩
  · show fs.descsIn _ = _
    rw [tableBytes_flushed hbs hlen h, descsIn_gdtOf h.entries hlen hbs hfit]
  · obtain ⟨g, hg, hover⟩ := withCopies_changed (length_gdtOf h.entries hlen) hbs hp
    exact h.layout g hg _ hover

/-! ### Needed, where descriptors fill their blocks -/

/-- Some copy over a block is the last one. -/
theorem exists_last_over {primaryOnly : Bool} {block : Nat}
    (h : ∃ g ∈ fs.copies primaryOnly, fs.Over g block) :
    ∃ g ∈ fs.copies primaryOnly, fs.Over g block ∧
      ∀ g' ∈ fs.copies primaryOnly, g < g' → ¬ fs.Over g' block := by
  classical
  obtain ⟨g, hg, hover⟩ := h
  have hlt : ∀ g ∈ fs.copies primaryOnly, g ≤ fs.groupCount := fun g hg =>
    Nat.le_of_lt (List.mem_range.mp (List.mem_of_mem_filter hg))
  have hspec := Nat.findGreatest_spec (P := fun g => g ∈ fs.copies primaryOnly ∧ fs.Over g block)
    (hlt g hg) ⟨hg, hover⟩
  refine ⟨_, hspec.1, hspec.2, fun g' hg' hlast hover' => ?_⟩
  exact Nat.findGreatest_is_greatest hlast (hlt g' hg') ⟨hg', hover'⟩

/-- Descriptors that are all zero but for the inode table of one group. -/
def probe (fs : Filesystem) (group table : Nat) : List GroupDesc :=
  (List.replicate fs.groupCount {}).set group { inodeTable := table }

theorem representable_table {table descSize : Nat} (h : table < 256) :
    ({ inodeTable := table } : GroupDesc).Representable descSize := by
  have hsmall : ∀ w, table < 2 ^ (32 + w) := fun w =>
    Nat.lt_of_lt_of_le h (show 2 ^ 8 ≤ 2 ^ (32 + w) from
      Nat.pow_le_pow_right (by decide) (by omega))
  have hif : ∀ {v a b : Nat}, v < 2 ^ a → v < 2 ^ b →
      v < if descSize64bit ≤ descSize then 2 ^ a else 2 ^ b := fun ha hb => by
    split
    · exact ha
    · exact hb
  have hzero : ∀ {a b : Nat}, 0 < if descSize64bit ≤ descSize then 2 ^ a else 2 ^ b :=
    hif (Nat.two_pow_pos _) (Nat.two_pow_pos _)
  exact ⟨hzero, hzero, hif (hsmall 32) (hsmall 0), hzero, hzero, hzero, Nat.two_pow_pos _, hzero,
    hzero, hzero, hzero, Nat.two_pow_pos _⟩

theorem fitting_probe (fs : Filesystem) (group : Nat) {table : Nat} (h : table < 256) :
    fs.Fitting (fs.probe group table) := by
  refine ⟨by rw [probe, List.length_set, List.length_replicate], fun desc hdesc => ?_⟩
  rcases List.mem_or_eq_of_mem_set hdesc with hmem | rfl
  · rw [List.eq_of_mem_replicate hmem]
    exact @representable_table 0 _ (by decide)
  · exact representable_table h

theorem getD_probe (fs : Filesystem) {group g : Nat} (table : Nat) (hg : g < fs.groupCount) :
    (fs.probe group table).getD g {} = { inodeTable := if g = group then table else 0 } := by
  rw [probe, List.getD_eq_getElem?_getD, List.getElem?_set]
  by_cases h : group = g
  · subst h
    rw [if_pos rfl, if_pos rfl, if_pos (by rw [List.length_replicate]; exact hg)]
    rfl
  · rw [if_neg h, if_neg (Ne.symm h), List.getElem?_replicate_of_lt hg]
    rfl

/-- The lowest byte of a little-endian number. -/
theorem ofLe_mod (bs : List UInt8) : Lib.Endian.ofLe bs % 256 = (bs.getD 0 0).toNat := by
  cases bs with
  | nil => rfl
  | cons b bs =>
    show (b.toNat + 256 * Lib.Endian.ofLe bs) % 256 = b.toNat
    rw [Nat.add_mul_mod_self_left, Nat.mod_eq_of_lt b.toNat_lt]

/-- The lowest byte of a descriptor's inode table, in its bytes. -/
theorem descBytes_table (fs : Filesystem) (descs : List GroupDesc) (g : Nat) :
    ((fs.descBytes descs g).getD 8 0).toNat = (descs.getD g {}).inodeTable % 256 := by
  have hfield : ((descs.getD g {}).fieldsFor fs.superblock.descSize)[2]? =
      some (.num 0x08 4 (descs.getD g {}).inodeTable) := by
    unfold GroupDesc.fieldsFor
    split <;> rfl
  have hread := (descs.getD g {}).read_encodeWithCsum (minDescSize_le _) fs.csumScheme fs.csumSeed
    fs.superblock.uuid g hfield (Or.inl (by decide))
  have hmod := ofLe_mod (slice (fs.descBytes descs g) 0x08 4)
  rw [getD_slice _ _ _ _ _ (by decide), descBytes, hread] at hmod
  rw [descBytes, ← hmod, Nat.mod_mod_of_dvd _ (by decide)]

/-- The lowest byte of a decoded inode table. -/
theorem decode_table (buf : List UInt8) (descSize : Nat) :
    (GroupDesc.decode buf descSize).inodeTable % 256 = (buf.getD 8 0).toNat := by
  have hmod := ofLe_mod (slice buf 0x08 4)
  rw [getD_slice _ _ _ _ _ (by decide)] at hmod
  rw [← hmod]
  unfold GroupDesc.decode
  dsimp only
  generalize (if descSize64bit ≤ descSize then getU32 buf 0x28 else 0) = hi
  rw [join, getU32]
  omega

theorem Opened.eight_lt_blockSize {dev : Device} (h : Opened dev fs) : 8 < fs.blockSize := by
  obtain ⟨-, hpow, -⟩ := h.blockSize_eq
  rw [hpow, Nat.pow_add]
  have := Nat.two_pow_pos fs.superblock.logBlockSize
  omega

section Needed

variable {dev : Device} {primaryOnly : Bool} (hopen : openOn dev = .ok fs)
  (hdvd : fs.superblock.descSize ∣ fs.blockSize)

include hdvd in
/-- Block `j` of a table starts with the descriptor of the group `j * descPerBlock`. -/
theorem block_eq_desc (j : Nat) :
    j * fs.blockSize = j * fs.superblock.descPerBlock * fs.superblock.descSize := by
  rw [Nat.mul_assoc]
  exact congrArg (j * ·) (Nat.div_mul_cancel hdvd).symm

theorem leader_lt (hdesc : fs.superblock.descPerBlock ≠ 0) {j : Nat}
    (hj : j < fs.superblock.gdtBlocks) : j * fs.superblock.descPerBlock < fs.groupCount := by
  have hpos := Nat.pos_of_ne_zero hdesc
  unfold Superblock.gdtBlocks at hj
  have hle := (Nat.le_div_iff_mul_le hpos).mp hj
  rw [Nat.succ_mul] at hle
  unfold groupCount
  omega

include hdvd

/-- What the first descriptor of block `j` of the table holds for the probe. -/
theorem gdtOf_probe (hdesc : fs.superblock.descPerBlock ≠ 0) {group table j : Nat}
    (htable : table < 256) (hj : j < fs.superblock.gdtBlocks) :
    ((fs.gdtOf (fs.probe group table)).getD (j * fs.blockSize + 8) 0).toNat =
      if j * fs.superblock.descPerBlock = group then table else 0 := by
  have hlead := leader_lt hdesc hj
  have hmin := minDescSize_le fs.superblock
  simp only [minDescSize] at hmin
  rw [block_eq_desc hdvd j, ← getD_slice _ _ fs.superblock.descSize _ _ (by omega),
    slice_gdtOf (fs.fitting_probe group htable).1 hlead, descBytes_table, fs.getD_probe table hlead]
  split
  · exact Nat.mod_eq_of_lt htable
  · rfl

include hopen

/-- If the probe reads back, its byte stands where the reader looks. -/
theorem probe_read (hsb : ∀ g ∈ fs.copies primaryOnly,
      superblockOffset + superblockLen ≤ fs.copyBlock g * fs.blockSize)
    (hdesc : fs.superblock.descPerBlock ≠ 0) {k table : Nat} (htable : table < 256)
    (hk : k < fs.tableParts)
    (h : fs.RoundTrip primaryOnly (fs.probe (k * fs.superblock.descPerBlock) table)) :
    ((fs.flushed primaryOnly (fs.probe (k * fs.superblock.descPerBlock) table)).bytes
      (fs.tableBlock k * fs.blockSize + 8)).toNat = table := by
  have hbs := (openOn_opened hopen).blockSize_ne_zero
  have hroom := (openOn_opened hopen).eight_lt_blockSize
  have hlead := leader_lt hdesc (Nat.lt_of_lt_of_le hk (tableParts_le hdesc hbs))
  have hlen := (fs.fitting_probe (k * fs.superblock.descPerBlock) htable).1
  obtain ⟨fs', hexec, ⟨again, hagain, hdescs⟩, -⟩ := h
  obtain ⟨-, -, rfl⟩ := (exec_flush_iff hlen).mp hexec
  rw [openOn_flushed hopen hsb] at hagain
  rw [← Except.ok.inj hagain] at hdescs
  have htables := congrArg (fun ds : List GroupDesc =>
    (ds.getD (k * fs.superblock.descPerBlock) {}).inodeTable % 256) hdescs
  have hlead' : k * fs.superblock.descPerBlock < fs.superblock.groupCount := hlead
  simp only [descsIn, stampedDescs] at htables
  rw [getD_map_range _ _ hlead', decode_table, mapIdx_eq_map_range _ {}, hlen,
    getD_map_range _ _ hlead, GroupDesc.stamped, fs.getD_probe table hlead, if_pos rfl,
    Nat.mod_eq_of_lt htable, ← block_eq_desc hdvd k] at htables
  refine Eq.trans (congrArg UInt8.toNat ?_) htables
  have hlens : ∀ k', k' < fs.tableParts → (window (fs.flushed primaryOnly
      (fs.probe (k * fs.superblock.descPerBlock) table)).bytes
      (fs.tableBlock k' * fs.blockSize) fs.blockSize).length = fs.blockSize :=
    fun k' _ => length_window _ _ _
  have hplace : k * fs.blockSize + 8 < fs.tableParts * fs.blockSize := (place_lt_iff hroom).mpr hk
  rw [List.getD_eq_getElem?_getD, List.getElem?_drop, ← List.getD_eq_getElem?_getD]
  refine Eq.trans ?_ (getD_flatten_blocks 0 hlens hplace).symm
  rw [Nat.add_comm (k * fs.blockSize), Nat.add_mul_div_right _ _ (by omega),
    Nat.div_eq_of_lt hroom, Nat.zero_add, Nat.add_mul_mod_self_right, Nat.mod_eq_of_lt hroom,
    getD_window _ _ _ _ _ hroom]

omit hopen hdvd in
/-- Where the magic would be, a table of zeroes holds a zero. -/
theorem gdtOf_zero_magic : ((fs.gdtOf (fs.probe 0 0)).getD 0x38 0).toNat = 0 := by
  have hlen := (fs.fitting_probe 0 (by decide : 0 < 256)).1
  have hzero : ∀ {g i off : Nat}, g < fs.groupCount → (({} : GroupDesc).fieldsFor
      fs.superblock.descSize)[i]? = some (.num off 2 0) → off + 2 ≤ 0x1e ∨ 0x20 ≤ off →
      off < fs.superblock.descSize →
      ((fs.gdtOf (fs.probe 0 0)).getD (g * fs.superblock.descSize + off) 0).toNat = 0 :=
    fun {g i off} hg hfield hoff hin => by
    have hdesc : (fs.probe 0 0).getD g {} = {} := by
      rw [fs.getD_probe 0 hg, ite_self]
    have hread := ({} : GroupDesc).read_encodeWithCsum (minDescSize_le _) fs.csumScheme fs.csumSeed
      fs.superblock.uuid g hfield hoff
    have hmod := ofLe_mod (slice (fs.descBytes (fs.probe 0 0) g) off 2)
    rw [getD_slice _ _ _ _ _ (by decide), descBytes, hdesc, hread, Nat.zero_mod,
      Nat.add_zero] at hmod
    rw [← getD_slice _ _ fs.superblock.descSize _ _ hin, slice_gdtOf hlen hg, descBytes, hdesc]
    exact hmod.symm
  have hpad : fs.groupCount * fs.superblock.descSize ≤ 0x38 →
      ((fs.gdtOf (fs.probe 0 0)).getD 0x38 0).toNat = 0 := fun hend => by
    rw [gdtOf_eq, List.getD_eq_getElem?_getD, List.getElem?_append_right
      (by rw [length_flatten_blocks fun g _ => fs.length_descBytes _ g, hlen]; exact hend),
      List.getElem?_replicate]
    split <;> rfl
  rcases descSize_cases fs.superblock with hnarrow | hwide
  · have hfield : (({} : GroupDesc).fieldsFor fs.superblock.descSize)[8]? =
        some (.num 0x18 2 0) := by
      rw [hnarrow]
      rfl
    have hword : minDescSize = 32 := rfl
    by_cases hg : 1 < fs.groupCount
    · have hbyte := hzero hg hfield (Or.inl (by decide)) (by omega)
      rwa [hnarrow] at hbyte
    · refine hpad ?_
      have := Nat.mul_le_mul_right fs.superblock.descSize (Nat.not_lt.mp hg)
      omega
  · have hfield : (({} : GroupDesc).fieldsFor fs.superblock.descSize)[20]? =
        some (.num 0x38 2 0) := by
      rw [GroupDesc.fieldsFor, if_pos hwide]
      rfl
    have hword : descSize64bit = 64 := rfl
    by_cases hg : 0 < fs.groupCount
    · have hbyte := hzero hg hfield (Or.inr (by decide)) (by omega)
      rwa [Nat.zero_mul, Nat.zero_add] at hbyte
    · refine hpad ?_
      rw [Nat.eq_zero_of_not_pos hg, Nat.zero_mul]
      exact Nat.zero_le _

omit hdvd in
/-- The superblock is behind every copy if a table of zeroes reads back. -/
theorem superblock_kept (hdesc : fs.superblock.descPerBlock ≠ 0)
    (h : fs.RoundTrip primaryOnly (fs.probe 0 0)) {g : Nat} (hg : g ∈ fs.copies primaryOnly) :
    superblockOffset + superblockLen ≤ fs.copyBlock g * fs.blockSize := by
  have hsuper : superblockOffset + superblockLen = 2048 := rfl
  have hlen := (fs.fitting_probe 0 (by decide : 0 < 256)).1
  have hone : ∀ g, 1 ≤ fs.copyBlock g := fun g => Nat.le_add_left 1 _
  obtain ⟨-, hpow, -⟩ := (openOn_opened hopen).blockSize_eq
  by_contra hlt
  rw [hsuper, Nat.not_le] at hlt
  have hbs : fs.blockSize = 1024 := by
    cases hlog : fs.superblock.logBlockSize with
    | zero =>
      rw [hpow, hlog]
      rfl
    | succ n =>
      have hbig : 2 ^ 11 ≤ fs.blockSize := by
        rw [hpow, hlog]
        exact Nat.pow_le_pow_right (by decide) (by omega)
      have := Nat.mul_le_mul (hone g) hbig
      omega
  rw [hbs] at hlt
  have hblocks : 0 < fs.superblock.gdtBlocks := by
    have hcount : 0 < fs.superblock.groupCount :=
      Nat.lt_of_le_of_lt (Nat.zero_le g) (List.mem_range.mp (List.mem_of_mem_filter hg))
    exact Nat.div_pos (by omega) (Nat.pos_of_ne_zero hdesc)
  have hover : fs.Over g 1 := ⟨by omega, by have := hone g; omega⟩
  obtain ⟨g', hg', hover', hlast⟩ := exists_last_over ⟨g, hg, hover⟩
  have hfirst : fs.copyBlock g' = 1 := Nat.le_antisymm hover'.1 (hone g')
  have hbyte := withCopies_over (length_gdtOf hdesc hlen) (by omega : 0x38 < fs.blockSize) hg'
    hover' hlast
  rw [hfirst, Nat.sub_self, Nat.zero_mul, Nat.zero_add, hbs] at hbyte
  obtain ⟨fs', hexec, ⟨again, hagain, -⟩, -⟩ := h
  obtain ⟨-, -, rfl⟩ := (exec_flush_iff hlen).mp hexec
  have hmagic := Superblock.decode_magic (openOn_opened hagain).superblock
  have hmod := ofLe_mod (slice (window (fs.flushed primaryOnly (fs.probe 0 0)).bytes
    superblockOffset superblockLen) 0x38 2)
  rw [getD_slice _ _ _ _ _ (by decide), getD_window _ _ _ _ _ (by decide)] at hmod
  rw [getU16] at hmagic
  rw [hmagic] at hmod
  refine absurd (hmod.trans ?_) (by decide : ext2SuperMagic % 256 ≠ 0)
  exact (congrArg UInt8.toNat hbyte).trans gdtOf_zero_magic

theorem placed_of_roundTrip (h : ∀ descs, fs.Fitting descs → fs.RoundTrip primaryOnly descs) :
    fs.Placed primaryOnly := by
  have hbs := (openOn_opened hopen).blockSize_ne_zero
  have hroom := (openOn_opened hopen).eight_lt_blockSize
  have hprobe := fun (group : Nat) {table : Nat} (htable : table < 256) =>
    h _ (fs.fitting_probe group htable)
  obtain ⟨fs', hexec, -, -⟩ := hprobe 0 (by decide : 0 < 256)
  obtain ⟨hdesc, hdev, -⟩ := (exec_flush_iff (fs.fitting_probe 0 (by decide)).1).mp hexec
  have hsb : ∀ g ∈ fs.copies primaryOnly,
      superblockOffset + superblockLen ≤ fs.copyBlock g * fs.blockSize := fun g hg =>
    superblock_kept hopen hdesc (hprobe 0 (by decide)) hg
  have hraw := fun (group : Nat) {table : Nat} (htable : table < 256) =>
    length_gdtOf hdesc (fs.fitting_probe group htable).1
  refine ⟨hdesc, hdev, hsb, fun k hk => ?_, fun g hg block hover => ?_⟩
  · by_cases hnone : ∃ g ∈ fs.copies primaryOnly, fs.Over g (fs.tableBlock k)
    · obtain ⟨g, hg, hover, hlast⟩ := exists_last_over hnone
      refine ⟨g, hg, ?_, hlast⟩
      by_contra hne
      -- the last copy puts another part there, which is zero in the probe of this one
      have hread := probe_read hopen hdvd hsb hdesc (by decide : 1 < 256) hk
        (hprobe (k * fs.superblock.descPerBlock) (by decide))
      have hj : fs.tableBlock k - fs.copyBlock g < fs.superblock.gdtBlocks := by
        have := hover.2
        have := hover.1
        omega
      rw [flushed, withCopies_over (hraw _ (by decide)) hroom hg hover hlast,
        gdtOf_probe hdvd hdesc (by decide) hj, if_neg] at hread
      · exact absurd hread (by decide)
      · intro heq
        have := Nat.eq_of_mul_eq_mul_right (Nat.pos_of_ne_zero hdesc) heq
        have := hover.1
        omega
    · -- no copy reaches the block, so two probes cannot both read back
      have hmiss : ∀ g ∈ fs.copies primaryOnly, ¬ fs.Over g (fs.tableBlock k) :=
        fun g hg hover => hnone ⟨g, hg, hover⟩
      have hzero := probe_read hopen hdvd hsb hdesc (by decide : 0 < 256) hk
        (hprobe (k * fs.superblock.descPerBlock) (by decide))
      have hone := probe_read hopen hdvd hsb hdesc (by decide : 1 < 256) hk
        (hprobe (k * fs.superblock.descPerBlock) (by decide))
      rw [flushed, withCopies_miss (hraw _ (by decide)) hroom hmiss] at hzero hone
      omega
  · obtain ⟨g', hg', hover', hlast⟩ := exists_last_over ⟨g, hg, hover⟩
    have hj : block - fs.copyBlock g' < fs.superblock.gdtBlocks := by
      have := hover'.2
      have := hover'.1
      omega
    have hbyte : ∀ table, table < 256 → ((fs.flushed primaryOnly (fs.probe
        ((block - fs.copyBlock g') * fs.superblock.descPerBlock) table)).bytes
          (block * fs.blockSize + 8)).toNat = table := fun table htable => by
      rw [flushed, withCopies_over (hraw _ htable) hroom hg' hover' hlast,
        gdtOf_probe hdvd hdesc htable hj, if_pos rfl]
    have hchange : ∃ table, table < 256 ∧ (fs.device.bytes (block * fs.blockSize + 8)).toNat ≠ table := by
      by_cases hold : (fs.device.bytes (block * fs.blockSize + 8)).toNat = 0
      · exact ⟨1, by decide, by omega⟩
      · exact ⟨0, by decide, hold⟩
    obtain ⟨table, htable, hne⟩ := hchange
    obtain ⟨fs', hexec, -, hframe⟩ := hprobe
      ((block - fs.copyBlock g') * fs.superblock.descPerBlock) htable
    obtain ⟨-, -, rfl⟩ := (exec_flush_iff (fs.fitting_probe _ htable).1).mp hexec
    have hholds := hframe (block * fs.blockSize + 8) fun heq => hne (by
      rw [← heq]
      exact hbyte table htable)
    rwa [Nat.add_comm, Nat.add_mul_div_right _ _ (by omega), Nat.div_eq_of_lt hroom,
      Nat.zero_add] at hholds

end Needed

/-- For every filesystem that opens, flushing all the copies or the primary one: under `Placed`
    every list of descriptors that fits reads back and nothing else changes; and where
    descriptors fill their blocks only under `Placed`. -/
theorem flush_roundTrip {dev : Device} (hopen : openOn dev = .ok fs) (primaryOnly : Bool) :
    (fs.Placed primaryOnly → ∀ descs, fs.Fitting descs → fs.RoundTrip primaryOnly descs) ∧
      (fs.superblock.descSize ∣ fs.blockSize →
        (∀ descs, fs.Fitting descs → fs.RoundTrip primaryOnly descs) → fs.Placed primaryOnly) :=
  ⟨fun h _ hfit => roundTrip_of_placed hopen h hfit,
    fun hdvd h => placed_of_roundTrip hopen hdvd h⟩

/-- Without meta_bg: the table starts where the reader expects it, and one copy ends before the
    next begins. -/
theorem placed_of_plain {dev : Device} {primaryOnly : Bool} (hopen : openOn dev = .ok fs)
    (hmeta : fs.metaBg = false) (hdesc : fs.superblock.descPerBlock ≠ 0)
    (hfirst : fs.superblock.firstDataBlock = if fs.blockSize = 1024 then 1 else 0)
    (hroom : primaryOnly = true ∨ fs.superblock.gdtBlocks ≤ fs.superblock.blocksPerGroup)
    (hdev : ∀ g ∈ fs.copies primaryOnly, fs.copyBlock g * fs.blockSize < 2 ^ 64 ∧
      fs.copyBlock g * fs.blockSize + fs.superblock.gdtBlocks * fs.blockSize ≤ fs.device.size) :
    fs.Placed primaryOnly := by
  have hopened := openOn_opened hopen
  have hcopy : ∀ g, fs.copyBlock g =
      (if fs.blockSize = 1024 then 2 else 1) + g * fs.superblock.blocksPerGroup := fun g => by
    rw [copyBlock, groupFirstBlock, groupFirstBlockFor, hfirst]
    split <;> omega
  have htable : ∀ k, fs.tableBlock k = (if fs.blockSize = 1024 then 2 else 1) + k := fun k => by
    rw [tableBlock, hmeta]
    rfl
  refine ⟨hdesc, hdev, fun g _ => ?_, fun k hk => ⟨0, ?_, ?_, fun g' hg' hpos => ?_⟩,
    fun g hg block hover => ?_⟩
  · obtain ⟨-, hpow, -⟩ := hopened.blockSize_eq
    have hsuper : superblockOffset + superblockLen = 2048 := rfl
    rw [hsuper, hcopy, Nat.add_mul]
    refine Nat.le_trans ?_ (Nat.le_add_right _ _)
    split
    · next hbs => rw [hbs]
    · next hbs =>
      rw [Nat.one_mul, hpow] at *
      have hlog : fs.superblock.logBlockSize ≠ 0 := fun hzero => hbs (by rw [hzero]; rfl)
      exact (show 2 ^ 11 ≤ 2 ^ (10 + fs.superblock.logBlockSize) from
        Nat.pow_le_pow_right (by decide) (by omega))
  · -- the primary copy is there as soon as there is a table
    have hcount : 0 < fs.groupCount := by
      refine Nat.pos_of_ne_zero fun hzero => ?_
      have hle := tableParts_le hdesc hopened.blockSize_ne_zero
      have hgdt : fs.superblock.gdtBlocks = 0 := by
        rw [groupCount] at hzero
        rw [Superblock.gdtBlocks, hzero, Nat.zero_add]
        exact Nat.div_eq_of_lt (by omega)
      omega
    refine List.mem_filter.mpr ⟨List.mem_range.mpr hcount, ?_⟩
    have hsuper : fs.groupHasSuper 0 = true := by
      unfold groupHasSuper groupHasSuperFor
      split <;> rfl
    rw [hsuper, Bool.true_and]
    cases primaryOnly <;> rfl
  · rw [htable, hcopy, Nat.zero_mul, Nat.add_zero]
  · rcases hroom with rfl | hroom
    · have hzero := (List.mem_filter.mp hg').2
      rw [Bool.and_eq_true] at hzero
      have : g' = 0 := by simpa using hzero.2
      omega
    · intro hover
      have hle := tableParts_le hdesc hopened.blockSize_ne_zero
      have hmul := Nat.mul_le_mul_right fs.superblock.blocksPerGroup hpos
      have := hover.1
      rw [htable, hcopy] at this
      omega
  · have hsuper : fs.groupHasSuper g = true := (Bool.and_eq_true _ _ ▸ (List.mem_filter.mp hg).2).1
    refine ⟨g, List.mem_range.mp (List.mem_of_mem_filter hg), ?_, ?_, ?_⟩
    · rw [groupHasDesc, hmeta, Bool.not_false, Bool.true_or, if_pos rfl]
      exact hsuper
    · rw [hsuper]
      exact hover.1
    · rw [hsuper, copyLength, hmeta, Bool.not_false, Bool.true_or, if_pos rfl]
      exact hover.2

/-! ### A second meta block group -/

/-- 33 groups of 8 blocks, 8 inodes each, under meta_bg: the descriptor of group 32 leads its
    own meta block group, in block 257. Inode 2 is a directory, inode 257 a file. -/
def spreadImage : Device := .ofChunks (265 * 1024)
  [(1024, [8, 1, 0, 0, 9, 1]), (1024 + 0x14, [1]), (1024 + 0x20, [8, 0, 0, 0, 8, 0, 0, 0, 8]),
    (1024 + 0x38, [0x53, 0xef]), (1024 + 0x4c, [1]), (1024 + 0x58, [128]),
    (1024 + 0x60, [0x10, 0, 0, 0, 1]), (2048, [3, 0, 0, 0, 4, 0, 0, 0, 5]),
    (5 * 1024 + 128, [0xed, 0x41]), (257 * 1024, [2, 1, 0, 0, 3, 1, 0, 0, 4, 1]),
    (260 * 1024, [0xa4, 0x81])]

/-- The same groups without meta_bg: a table of two blocks, and eight copies of it. -/
def plainImage : Device := .ofChunks (265 * 1024)
  [(1024, [8, 1, 0, 0, 9, 1]), (1024 + 0x14, [1]), (1024 + 0x20, [8, 0, 0, 0, 8, 0, 0, 0, 8]),
    (1024 + 0x38, [0x53, 0xef]), (1024 + 0x4c, [1]), (1024 + 0x58, [128]),
    (1024 + 0x60, [0, 0, 0, 0, 1]), (2048, [3, 0, 0, 0, 4, 0, 0, 0, 5])]

/-- What the reader and the writer make of an image. -/
structure Table where
  (metaBg : Bool) (blockSize descSize firstDataBlock blocksPerGroup gdtBlocks parts second : Nat)
  copyBlocks : List Nat
deriving DecidableEq

def tableOn (dev : Device) : Option Table :=
  match openOn dev with
  | .ok fs => some {
      metaBg := fs.metaBg
      blockSize := fs.blockSize
      descSize := fs.superblock.descSize
      firstDataBlock := fs.superblock.firstDataBlock
      blocksPerGroup := fs.superblock.blocksPerGroup
      gdtBlocks := fs.superblock.gdtBlocks
      parts := fs.tableParts
      second := fs.tableBlock 1
      copyBlocks := (fs.copies false).map fs.copyBlock }
  | .error _ => none

theorem tableOn_plain : tableOn plainImage = some {
    metaBg := false, blockSize := 1024, descSize := 32, firstDataBlock := 1, blocksPerGroup := 8
    gdtBlocks := 2, parts := 2, second := 3
    copyBlocks := [2, 10, 26, 42, 58, 74, 202, 218] } := by decide +kernel

theorem tableOn_spread : tableOn spreadImage = some {
    metaBg := true, blockSize := 1024, descSize := 32, firstDataBlock := 1, blocksPerGroup := 8
    gdtBlocks := 2, parts := 2, second := 257
    copyBlocks := [2, 10, 26, 42, 58, 74, 202, 218] } := by decide +kernel

theorem tableOn_some {dev : Device} {t : Table} (h : tableOn dev = some t) :
    ∃ fs, openOn dev = .ok fs ∧ fs.metaBg = t.metaBg ∧ fs.blockSize = t.blockSize ∧
      fs.superblock.descSize = t.descSize ∧ fs.superblock.firstDataBlock = t.firstDataBlock ∧
      fs.superblock.blocksPerGroup = t.blocksPerGroup ∧ fs.superblock.gdtBlocks = t.gdtBlocks ∧
      fs.tableParts = t.parts ∧ fs.tableBlock 1 = t.second ∧
      ∀ g ∈ fs.copies false, fs.copyBlock g ∈ t.copyBlocks := by
  unfold tableOn at h
  split at h
  · next fs hopen =>
    cases h
    exact ⟨fs, hopen, rfl, rfl, rfl, rfl, rfl, rfl, rfl, rfl,
      fun g hg => List.mem_map.mpr ⟨g, hg, rfl⟩⟩
  · cases h

theorem flush_roundTrip_plain : ∃ fs, openOn plainImage = .ok fs ∧
    ∀ descs, fs.Fitting descs → fs.RoundTrip false descs := by
  obtain ⟨fs, hopen, hmeta, hbs, hdesc, hfirst, hbpg, hgdt, -, -, hcopies⟩ :=
    tableOn_some tableOn_plain
  have hsmall : ∀ b ∈ [2, 10, 26, 42, 58, 74, 202, 218],
      b * 1024 < 2 ^ 64 ∧ b * 1024 + 2 * 1024 ≤ 265 * 1024 := by decide
  refine ⟨fs, hopen, (flush_roundTrip hopen false).1 (placed_of_plain hopen hmeta ?_ ?_ ?_ ?_)⟩
  · show fs.blockSize / fs.superblock.descSize ≠ 0
    rw [hbs, hdesc]
    decide
  · rw [hfirst, hbs]
    decide
  · right
    rw [hgdt, hbpg]
    decide
  · intro g hg
    rw [hbs, hgdt, (openOn_opened hopen).device]
    exact hsmall _ (hcopies g hg)

/-- Not every list of descriptors reads back: the one of group 32 is written where nothing reads
    it. -/
theorem flush_lost : ¬ ∀ (dev : Device) (fs : Filesystem) (primaryOnly : Bool)
    (descs : List GroupDesc), openOn dev = .ok fs → fs.Fitting descs →
    fs.RoundTrip primaryOnly descs := by
  intro hall
  obtain ⟨fs, hopen, -, hbs, hdesc, -, -, hgdt, hparts, hsecond, hcopies⟩ :=
    tableOn_some tableOn_spread
  have hper : fs.superblock.descPerBlock = 32 := by
    show fs.blockSize / fs.superblock.descSize = 32
    rw [hbs, hdesc]
    rfl
  have hfit := fs.fitting_probe (1 * fs.superblock.descPerBlock) (by decide : 1 < 256)
  have hsmall : ∀ b ∈ [2, 10, 26, 42, 58, 74, 202, 218],
      2048 ≤ b * 1024 ∧ ¬ (b ≤ 257 ∧ 257 < b + 2) := by decide
  have hread := probe_read hopen (by rw [hbs, hdesc]; decide)
    (fun g hg => by rw [hbs]; exact (hsmall _ (hcopies g hg)).1) (by omega)
    (by decide : 1 < 256) (by rw [hparts]; decide : 1 < fs.tableParts)
    (hall spreadImage fs false _ hopen hfit)
  rw [flushed, withCopies_miss (length_gdtOf (by omega) hfit.1)
    (openOn_opened hopen).eight_lt_blockSize, hsecond, hbs, (openOn_opened hopen).device] at hread
  · exact absurd hread (by decide)
  · intro g hg hover
    unfold Over at hover
    rw [hsecond, hgdt] at hover
    exact (hsmall _ (hcopies g hg)).2 hover

end Filesystem

end MkfsExt4
