/-
  Where the two readers look for an inode: `read_inode` of `src/read.rs` and of `src/fs.rs`.

  `Ext4` takes one descriptor straight from the table behind the primary superblock, as wide
  as `s_desc_size` says, and reads the inode's bytes. `Filesystem` has gathered its
  descriptors when it opened, by meta block group where the superblock says so and as wide as
  `64bit` allows, and reads the whole block the inode lies in.
  `read_inode_agree_iff` says when the two agree.
-/
import MkfsExt4.Fs.Descriptors
import MkfsExt4.Read.Ext4
import MkfsExt4.Structs.InodeCodec

namespace MkfsExt4

open Lib.Store Lib.Hoare Filesystem

/-! ## The synchronous reader -/

namespace Ext4

variable (e : Ext4) (dev : Device)

/-- The group of an inode, and the byte of its table the inode starts at. -/
def groupOf (ino : Nat) : Nat := (ino - 1) / e.inodesPerGroup

def byteOf (ino : Nat) : Nat := (ino - 1) % e.inodesPerGroup * e.inodeSize

/-- Where the descriptor of a group is looked for. -/
def descOffset (group : Nat) : Nat := e.gdtOffset + group * e.descSize

/-- The inode table of a group, by the bytes that stand there. -/
def tableOf (group : Nat) : Nat :=
  (GroupDesc.decode (window dev.bytes (e.descOffset group) e.descSize) e.descSize).inodeTable

/-- Where the inode's bytes are taken from. -/
def inodeOffset (ino : Nat) : Nat := e.tableOf dev (e.groupOf ino) * e.blockSize + e.byteOf ino

def inodeBytes (ino : Nat) : List UInt8 := window dev.bytes (e.inodeOffset dev ino) e.inodeSize

/-- The descriptor and the inode it leads to lie on the device. -/
structure InReach (ino : Nat) : Prop where
  desc : minDescSize ≤ e.descSize
  table : e.descOffset (e.groupOf ino) + e.descSize ≤ dev.size
  offset : e.inodeOffset dev ino < 2 ^ 64
  inode : e.inodeOffset dev ino + e.inodeSize ≤ dev.size

variable {e dev}

theorem readExact_ok_iff {offset len : Nat} {buf : List UInt8} :
    readExact dev offset len = .ok buf ↔
      offset + len ≤ dev.size ∧ buf = window dev.bytes offset len := by
  rw [← Device.readAt_ok_iff]
  unfold readExact
  split
  · next b hb =>
    rw [hb]
    exact ⟨fun h => congrArg _ (Except.ok.inj h), fun h => congrArg _ (Except.ok.inj h)⟩
  · next er hb =>
    rw [hb]
    exact ⟨fun h => (nomatch h), fun h => (nomatch h)⟩

theorem readGroupDesc_ok_iff {group : Nat} {gd : GroupDesc} :
    e.readGroupDesc dev group = .ok gd ↔
      e.descOffset group + e.descSize ≤ dev.size ∧ minDescSize ≤ e.descSize ∧
        gd = GroupDesc.decode (window dev.bytes (e.descOffset group) e.descSize) e.descSize := by
  unfold readGroupDesc
  constructor
  · intro h
    obtain ⟨buf, hbuf, hrest⟩ := bind_ok h
    obtain ⟨hin, rfl⟩ := readExact_ok_iff.mp hbuf
    obtain ⟨hdesc, hrest⟩ := panicIf_bind_ok_iff.mp hrest
    exact ⟨hin, Nat.not_lt.mp hdesc, (Except.ok.inj hrest).symm⟩
  · intro ⟨hin, hdesc, hgd⟩
    refine bind_ok_iff.mpr ⟨_, readExact_ok_iff.mpr ⟨hin, rfl⟩, ?_⟩
    exact panicIf_bind_ok_iff.mpr ⟨Nat.not_lt.mpr hdesc, congrArg _ hgd.symm⟩

/-- An inode comes back exactly when it is in reach, and it is what its bytes decode to. -/
theorem readInode_ok_iff {ino : Nat} {inode : Inode} (hino : 1 ≤ ino) :
    e.readInode dev ino = .ok inode ↔
      e.InReach dev ino ∧ Inode.decode (e.inodeBytes dev ino) e.inodeSize = .ok inode := by
  unfold readInode
  rw [if_neg (by omega)]
  constructor
  · intro h
    obtain ⟨gd, hgd, hrest⟩ := bind_ok h
    obtain ⟨hin, hdesc, rfl⟩ := readGroupDesc_ok_iff.mp hgd
    obtain ⟨table, htable, hrest⟩ := bind_ok hrest
    obtain ⟨-, htable⟩ := panicIf_bind_ok_iff.mp htable
    cases htable
    obtain ⟨hoff, hrest⟩ := panicIf_bind_ok_iff.mp hrest
    obtain ⟨buf, hbuf, hrest⟩ := bind_ok hrest
    obtain ⟨hinside, rfl⟩ := readExact_ok_iff.mp hbuf
    exact ⟨⟨hdesc, hin, Nat.not_le.mp hoff, hinside⟩, hrest⟩
  · intro ⟨⟨hdesc, hin, hoff, hinside⟩, hdecode⟩
    refine bind_ok_iff.mpr ⟨_, readGroupDesc_ok_iff.mpr ⟨hin, hdesc, rfl⟩, ?_⟩
    have htable : e.tableOf dev (e.groupOf ino) * e.blockSize ≤ e.inodeOffset dev ino :=
      Nat.le_add_right _ _
    refine bind_ok_iff.mpr ⟨e.tableOf dev (e.groupOf ino) * e.blockSize,
      panicIf_bind_ok_iff.mpr ⟨?_, rfl⟩, ?_⟩
    · exact Nat.not_le.mpr (Nat.lt_of_le_of_lt htable hoff)
    · refine panicIf_bind_ok_iff.mpr ⟨Nat.not_le.mpr hoff, ?_⟩
      exact bind_ok_iff.mpr ⟨_, readExact_ok_iff.mpr ⟨hinside, rfl⟩, hdecode⟩

end Ext4

/-! ## The opened filesystem -/

namespace Filesystem

variable (fs : Filesystem)

/-- The group of an inode, and the byte of its table the inode starts at. -/
def inodeGroup (ino : Nat) : Nat := (ino - 1) / fs.superblock.inodesPerGroup

def inodeByte (ino : Nat) : Nat :=
  (ino - 1) % fs.superblock.inodesPerGroup * fs.superblock.inodeSize

/-- The inode table of a group, by the descriptor in memory. -/
def tableOf (group : Nat) : Nat := (fs.groupDescs.getD group {}).inodeTable

/-- The block of the table the inode starts in. -/
def inodeBlock (ino : Nat) : Nat :=
  fs.tableOf (fs.inodeGroup ino) + fs.inodeByte ino / fs.blockSize

/-- The bytes of the table from where the inode starts. -/
def inodeBytes (ino : Nat) : List UInt8 :=
  window fs.device.bytes (fs.tableOf (fs.inodeGroup ino) * fs.blockSize + fs.inodeByte ino)
    fs.superblock.inodeSize

/-- The inode lies within one block of the filesystem, and that block on the device. -/
structure InReach (ino : Nat) : Prop where
  group : fs.inodeGroup ino < fs.groupDescs.length
  block : fs.inodeBlock ino < fs.superblock.blocksCount
  offset : fs.inodeBlock ino * fs.blockSize < 2 ^ 64
  inside : fs.inodeBlock ino * fs.blockSize + fs.blockSize ≤ fs.device.size
  whole : fs.inodeByte ino % fs.blockSize + fs.superblock.inodeSize ≤ fs.blockSize

variable {fs} {ino : Nat}

theorem inodeLocation_ok_iff {loc : Nat × Nat × Nat} (hlo : 1 ≤ ino)
    (hhi : ino ≤ fs.superblock.inodesCount) (hipg : fs.superblock.inodesPerGroup ≠ 0)
    (hbs : fs.blockSize ≠ 0) :
    fs.inodeLocation ino = .ok loc ↔
      fs.inodeGroup ino < fs.groupDescs.length ∧ fs.inodeBlock ino < 2 ^ 64 ∧
        loc = (fs.inodeGroup ino, fs.inodeBlock ino, fs.inodeByte ino % fs.blockSize) := by
  unfold inodeLocation
  dsimp only
  rw [if_neg (by omega)]
  refine Iff.trans panicIf_bind_ok_iff ?_
  by_cases hg : fs.inodeGroup ino < fs.groupDescs.length
  · have hdesc : fs.groupDescs[(ino - 1) / fs.superblock.inodesPerGroup]? =
        some (fs.groupDescs.getD (fs.inodeGroup ino) {}) := by
      rw [List.getD_eq_getElem?_getD]
      simp only [inodeGroup] at hg ⊢
      rw [List.getElem?_eq_getElem hg, Option.getD_some]
    simp only [hdesc]
    rw [panicIf_bind_ok_iff]
    constructor
    · rintro ⟨-, hblock, hloc⟩
      exact ⟨hg, Nat.not_le.mp hblock, (Except.ok.inj hloc).symm⟩
    · rintro ⟨-, hblock, hloc⟩
      refine ⟨?_, Nat.not_le.mpr hblock, congrArg _ hloc.symm⟩
      intro hbad
      exact hbad.elim hipg hbs
  · have hdesc : fs.groupDescs[(ino - 1) / fs.superblock.inodesPerGroup]? = none :=
      List.getElem?_eq_none (Nat.not_lt.mp hg)
    simp only [hdesc]
    refine ⟨fun h => ?_, fun h => absurd h.1 hg⟩
    cases h.2

/-- The bytes of the inode, cut out of the block it starts in. -/
theorem slice_inodeBlock (h : fs.InReach ino) :
    slice (window fs.device.bytes (fs.inodeBlock ino * fs.blockSize) fs.blockSize)
      (fs.inodeByte ino % fs.blockSize) fs.superblock.inodeSize = fs.inodeBytes ino := by
  have hoff : fs.inodeBlock ino * fs.blockSize + fs.inodeByte ino % fs.blockSize =
      fs.tableOf (fs.inodeGroup ino) * fs.blockSize + fs.inodeByte ino := by
    rw [inodeBlock, Nat.add_mul, Nat.add_assoc, Nat.div_add_mod']
  rw [slice_window _ h.whole, hoff, inodeBytes]

/-- An inode comes back exactly when it is in reach, and it is what its bytes decode to. -/
theorem readInode_ok_iff {inode : Inode} (hlo : 1 ≤ ino) (hhi : ino ≤ fs.superblock.inodesCount)
    (hipg : fs.superblock.inodesPerGroup ≠ 0) (hbs : fs.blockSize ≠ 0) :
    fs.readInode ino = .ok inode ↔
      fs.InReach ino ∧
        Inode.decode (fs.inodeBytes ino) fs.superblock.inodeSize = .ok inode := by
  have hloc := fun {loc} => @inodeLocation_ok_iff fs ino loc hlo hhi hipg hbs
  unfold readInode readInodeRaw
  constructor
  · intro h
    obtain ⟨raw, hraw, hdecode⟩ := bind_ok h
    obtain ⟨loc, hl, hraw⟩ := bind_ok hraw
    obtain ⟨hg, -, rfl⟩ := hloc.mp hl
    obtain ⟨buf, hbuf, hraw⟩ := bind_ok hraw
    obtain ⟨hb, ho, hin, rfl⟩ := readBlock_ok_iff.mp hbuf
    obtain ⟨hwhole, hraw⟩ := panicIf_bind_ok_iff.mp hraw
    rw [length_window] at hwhole
    have hreach : fs.InReach ino := ⟨hg, hb, ho, hin, Nat.not_lt.mp hwhole⟩
    cases hraw
    rw [slice_inodeBlock hreach] at hdecode
    exact ⟨hreach, hdecode⟩
  · intro ⟨hreach, hdecode⟩
    have hblock : fs.inodeBlock ino < 2 ^ 64 :=
      Nat.lt_of_le_of_lt (Nat.le_mul_of_pos_right _ (Nat.pos_of_ne_zero hbs)) hreach.offset
    refine bind_ok_iff.mpr ⟨fs.inodeBytes ino, ?_, hdecode⟩
    refine bind_ok_iff.mpr ⟨_, hloc.mpr ⟨hreach.group, hblock, rfl⟩, ?_⟩
    refine bind_ok_iff.mpr ⟨_, readBlock_ok_iff.mpr
      ⟨hreach.block, hreach.offset, hreach.inside, rfl⟩, ?_⟩
    refine panicIf_bind_ok_iff.mpr ⟨?_, ?_⟩
    · rw [length_window]
      exact Nat.not_lt.mpr hreach.whole
    · exact congrArg _ (slice_inodeBlock hreach)

/-- A table rounded up to whole blocks holds every entry of it. -/
theorem entry_le_divCeil_mul {g n size block : Nat} (hg : g < n) (hblock : 0 < block) :
    g * size + size ≤ (n * size + block - 1) / block * block := by
  have hentry : (g + 1) * size ≤ n * size := Nat.mul_le_mul_right size hg
  rw [Nat.add_mul, Nat.one_mul] at hentry
  have hmod := Nat.mod_lt (n * size + block - 1) hblock
  have hdiv := Nat.div_add_mod' (n * size + block - 1) block
  omega

/-- Without meta_bg the descriptors stand one after another behind the superblock's block. -/
theorem Opened.groupDescs_getD {dev : Device} (h : Opened dev fs) (hmeta : fs.metaBg = false)
    {g : Nat} (hg : g < fs.groupCount) :
    let at_ := (if fs.blockSize = 1024 then 2 else 1) * fs.blockSize +
      g * fs.superblock.descSize
    at_ + fs.superblock.descSize ≤ dev.size ∧ fs.groupDescs.getD g {} =
      GroupDesc.decode (window dev.bytes at_ fs.superblock.descSize) fs.superblock.descSize := by
  obtain ⟨raw, hraw, hdescs⟩ := bind_ok h.groupDescs
  unfold readGdt at hraw
  rw [hmeta, Bool.not_false, if_pos rfl] at hraw
  obtain ⟨hbs, hread⟩ := panicIf_bind_ok_iff.mp hraw
  obtain ⟨rfl, hin⟩ := readAtBlock_ok hread
  have hentry := @entry_le_divCeil_mul g fs.groupCount fs.superblock.descSize fs.blockSize hg
    (Nat.pos_of_ne_zero hbs)
  rw [h.device] at hin hdescs
  refine ⟨?_, ?_⟩
  · exact Nat.le_trans (by rw [Nat.add_assoc]; exact Nat.add_le_add_left hentry _) hin
  · have hget : g < (List.range fs.superblock.groupCount).length := by
      rw [List.length_range]
      exact hg
    rw [← Except.ok.inj hdescs, List.getD_eq_getElem?_getD, List.getElem?_map,
      List.getElem?_eq_getElem hget, List.getElem_range, Option.map_some, Option.getD_some,
      ← GroupDesc.decode_take _ (minDescSize_le _)]
    congr 1
    exact slice_window _ hentry

end Filesystem

/-! ## The two against each other -/

namespace Ext4

/-- What the synchronous reader takes from the superblock. -/
structure Opened (dev : Device) (e : Ext4) : Prop where
  sb : Superblock.decode (window dev.bytes superblockOffset superblockLen) = .ok e.sb
  blockSize : e.blockSize = (1024 <<< e.sb.logBlockSize) % 2 ^ 64
  inodeSize : e.inodeSize = e.sb.inodeSize
  inodesPerGroup : e.inodesPerGroup = e.sb.inodesPerGroup
  descSize : e.descSize = if e.sb.sDescSize = 0 then 32 else e.sb.sDescSize
  gdtOffset : e.gdtOffset = ((if e.blockSize = 1024 then 1 else 0) + 1) * e.blockSize
  sound : ¬ (e.blockSize = 0 ∨ e.inodeSize = 0 ∨ e.inodesPerGroup = 0)

theorem openOn_opened {dev : Device} {e : Ext4} (h : openOn dev = .ok e) : Opened dev e := by
  unfold openOn at h
  obtain ⟨buf, hbuf, hrest⟩ := bind_ok h
  obtain ⟨sb, hsb, hrest⟩ := bind_ok hrest
  have hsb := returned_ok hsb
  rw [(readExact_ok_iff.mp hbuf).2] at hsb
  obtain ⟨_, -, hrest⟩ := bind_ok hrest
  dsimp only at hrest
  split at hrest
  · cases hrest
  · next hsound =>
    cases hrest
    exact {
      sb := hsb
      blockSize := rfl
      inodeSize := rfl
      inodesPerGroup := rfl
      descSize := rfl
      gdtOffset := rfl
      sound := hsound }

end Ext4

section Pair

variable {dev : Device} {e : Ext4} {fs : Filesystem}

/-- The two readers of one image see one superblock and one block size. -/
theorem opened_pair (he : Ext4.Opened dev e) (hf : Filesystem.Opened dev fs) :
    e.sb = fs.superblock ∧ e.blockSize = fs.blockSize := by
  have hsb : e.sb = fs.superblock := Except.ok.inj (he.sb.symm.trans hf.superblock)
  refine ⟨hsb, ?_⟩
  obtain ⟨-, hfs, hshift⟩ := hf.blockSize_eq
  rw [he.blockSize, hsb, hshift, hfs]

/-- The descriptors stand in one table, and both readers take them to be as wide. -/
structure Plain (e : Ext4) (fs : Filesystem) : Prop where
  metaBg : fs.metaBg = false
  descSize : e.descSize = fs.superblock.descSize

/-- No inode decodes; or neither reader reaches this one; or the filesystem does and the tables are
    plain; or both do and find bytes that agree wherever an inode is decoded from. -/
def SameInode (e : Ext4) (fs : Filesystem) (dev : Device) (ino : Nat) : Prop :=
  ¬ Inode.Decodable e.inodeSize e.inodeSize ∨ (¬ e.InReach dev ino ∧ ¬ fs.InReach ino) ∨
    (Plain e fs ∧ fs.InReach ino) ∨
    (e.InReach dev ino ∧ fs.InReach ino ∧
      Inode.SameTaken (e.inodeBytes dev ino) (fs.inodeBytes ino) e.inodeSize)

/-- A block that starts below 2^64 ends there too: its size is a power of two. -/
theorem block_end_le {bs block : Nat} {n : Nat} (hbs : bs = 2 ^ n) (hn : n ≤ 64)
    (h : block * bs < 2 ^ 64) : block * bs + bs ≤ 2 ^ 64 := by
  have hsplit : 2 ^ 64 = 2 ^ (64 - n) * bs := by
    rw [hbs, ← Nat.pow_add, Nat.sub_add_cancel hn]
  have hlt : block < 2 ^ (64 - n) := by
    rw [hsplit] at h
    exact Nat.lt_of_mul_lt_mul_right h
  calc block * bs + bs = (block + 1) * bs := by rw [Nat.add_mul, Nat.one_mul]
    _ ≤ 2 ^ (64 - n) * bs := Nat.mul_le_mul_right bs hlt
    _ = 2 ^ 64 := hsplit.symm

/-- With plain tables an inode in reach of the filesystem is in reach of the other reader, at the
    same place. -/
theorem sameBytes_of_plain (he : Ext4.Opened dev e) (hf : Filesystem.Opened dev fs)
    (hplain : Plain e fs) {ino : Nat} (hreach : fs.InReach ino) :
    e.InReach dev ino ∧ e.inodeBytes dev ino = fs.inodeBytes ino := by
  obtain ⟨hmeta, hwide⟩ := hplain
  obtain ⟨hsb, hbs⟩ := opened_pair he hf
  have hisz : e.inodeSize = fs.superblock.inodeSize := by rw [he.inodeSize, hsb]
  have hipg : e.inodesPerGroup = fs.superblock.inodesPerGroup := by rw [he.inodesPerGroup, hsb]
  have hgroup : e.groupOf ino = fs.inodeGroup ino := by rw [Ext4.groupOf, hipg, inodeGroup]
  have hbyte : e.byteOf ino = fs.inodeByte ino := by rw [Ext4.byteOf, hipg, hisz, inodeByte]
  have hg : fs.inodeGroup ino < fs.groupCount := hf.length_groupDescs ▸ hreach.group
  obtain ⟨hin, hdesc⟩ := hf.groupDescs_getD hmeta hg
  have hoff : e.descOffset (fs.inodeGroup ino) = (if fs.blockSize = 1024 then 2 else 1) *
      fs.blockSize + fs.inodeGroup ino * fs.superblock.descSize := by
    rw [Ext4.descOffset, he.gdtOffset, hwide, hbs]
    split <;> rfl
  have htable : e.tableOf dev (e.groupOf ino) = fs.tableOf (fs.inodeGroup ino) := by
    rw [hgroup, Ext4.tableOf, hoff, hwide, tableOf, hdesc]
  have hstart : e.inodeOffset dev ino =
      fs.inodeBlock ino * fs.blockSize + fs.inodeByte ino % fs.blockSize := by
    rw [Ext4.inodeOffset, htable, hbs, hbyte, inodeBlock, Nat.add_mul, Nat.add_assoc,
      Nat.div_add_mod']
  have hend : e.inodeOffset dev ino + e.inodeSize ≤
      fs.inodeBlock ino * fs.blockSize + fs.blockSize := by
    rw [hstart, hisz, Nat.add_assoc]
    exact Nat.add_le_add_left hreach.whole _
  obtain ⟨hsmall, hpow, -⟩ := hf.blockSize_eq
  have hcap := block_end_le hpow (by omega) hreach.offset
  have hpos : 0 < e.inodeSize := Nat.pos_of_ne_zero fun h => he.sound (Or.inr (Or.inl h))
  refine ⟨⟨?_, ?_, ?_, ?_⟩, ?_⟩
  · rw [hwide]
    exact minDescSize_le _
  · rw [hgroup, hoff, hwide]
    exact hin
  · omega
  · have hdev : fs.device.size = dev.size := by rw [hf.device]
    have := hreach.inside
    omega
  · rw [Ext4.inodeBytes, Ext4.inodeOffset, htable, hbs, hbyte, inodeBytes, hisz, hf.device]

/-- Two answers that are each `.ok` under a condition are the same up to their errors exactly
    when they are `.ok` of the same things. -/
theorem toOption_eq_iff {α : Type} {x y : Except Failure α} :
    x.toOption = y.toOption ↔ ∀ a, x = .ok a ↔ y = .ok a := by
  cases x with
  | error _ =>
    cases y with
    | error _ => exact ⟨fun _ a => ⟨fun h => (nomatch h), fun h => (nomatch h)⟩, fun _ => rfl⟩
    | ok b => exact ⟨fun h => (nomatch h), fun h => (nomatch (h b).mpr rfl)⟩
  | ok a =>
    refine ⟨fun h b => ?_, fun h => ?_⟩
    · cases y with
      | error _ => cases h
      | ok c => rw [Option.some.inj h]
    · rw [(h a).mp rfl]

/-- For every image both readers open and every inode number the superblock allows, the two
    return the same inode, or both fail, exactly when `SameInode` holds. -/
theorem read_inode_agree_iff (he : Ext4.openOn dev = .ok e) (hf : Filesystem.openOn dev = .ok fs)
    {ino : Nat} (hlo : 1 ≤ ino) (hhi : ino ≤ fs.superblock.inodesCount) :
    (e.readInode dev ino).toOption = (fs.readInode ino).toOption ↔ SameInode e fs dev ino := by
  have he := Ext4.openOn_opened he
  have hf := openOn_opened hf
  obtain ⟨hsb, -⟩ := opened_pair he hf
  have hipg : fs.superblock.inodesPerGroup ≠ 0 := by
    rw [← hsb, ← he.inodesPerGroup]
    exact fun h => he.sound (Or.inr (Or.inr h))
  have hisz : fs.superblock.inodeSize = e.inodeSize := by rw [he.inodeSize, hsb]
  rw [toOption_eq_iff]
  simp only [Ext4.readInode_ok_iff hlo,
    Filesystem.readInode_ok_iff hlo hhi hipg hf.blockSize_ne_zero, hisz]
  have hle : (e.inodeBytes dev ino).length = e.inodeSize := length_window _ _ _
  have hlf : (fs.inodeBytes ino).length = e.inodeSize := hisz ▸ length_window _ _ _
  unfold SameInode
  by_cases hsize : Inode.Decodable e.inodeSize e.inodeSize
  · obtain ⟨a, ha, -⟩ := @Inode.decode_ok (e.inodeBytes dev ino) e.inodeSize (by rwa [hle])
    obtain ⟨b, hb, -⟩ := @Inode.decode_ok (fs.inodeBytes ino) e.inodeSize (by rwa [hlf])
    have halike := Inode.decode_eq_iff hle hlf hsize
    rw [ha, hb, Except.ok.injEq] at halike
    simp only [ha, hb, Except.ok.injEq]
    constructor
    · intro h
      by_cases hreach : e.InReach dev ino
      · obtain ⟨hreach', hba⟩ := (h a).mp ⟨hreach, rfl⟩
        exact Or.inr (Or.inr (Or.inr ⟨hreach, hreach', halike.mp hba.symm⟩))
      · exact Or.inr (Or.inl ⟨hreach, fun h' => hreach ((h b).mpr ⟨h', rfl⟩).1⟩)
    · intro h inode
      have hboth : e.InReach dev ino → fs.InReach ino → a = b →
          (e.InReach dev ino ∧ a = inode ↔ fs.InReach ino ∧ b = inode) := by
        rintro hre hrf rfl
        exact ⟨fun h => ⟨hrf, h.2⟩, fun h => ⟨hre, h.2⟩⟩
      rcases h with h | ⟨hne, hnf⟩ | ⟨hplain, hrf⟩ | ⟨hre, hrf, hsame⟩
      · exact absurd hsize h
      · exact ⟨fun h => absurd h.1 hne, fun h => absurd h.1 hnf⟩
      · obtain ⟨hre, hbytes⟩ := sameBytes_of_plain he hf hplain hrf
        rw [hbytes, hb] at ha
        exact hboth hre hrf (Except.ok.inj ha).symm
      · exact hboth hre hrf (halike.mpr hsame)
  · have hnone : ∀ {buf : List UInt8} {inode : Inode}, buf.length = e.inodeSize →
        Inode.decode buf e.inodeSize ≠ .ok inode := by
      intro buf inode hlen h
      have := Inode.decodable_of_decode h
      rw [hlen] at this
      exact hsize this
    exact ⟨fun _ => Or.inl hsize, fun _ inode =>
      ⟨fun h => absurd h.2 (hnone hle), fun h => absurd h.2 (hnone hlf)⟩⟩

end Pair

/-! ### A second meta block group -/

/-- The number of inodes, and what the two readers say of one, if both open the image. -/
def readBoth (dev : Device) (ino : Nat) : Option (Nat × Option Inode × Option Inode) :=
  match Ext4.openOn dev, openOn dev with
  | .ok e, .ok fs =>
    some (fs.superblock.inodesCount, (e.readInode dev ino).toOption, (fs.readInode ino).toOption)
  | _, _ => none

theorem readBoth_some {dev : Device} {ino count : Nat} {a b : Option Inode}
    (h : readBoth dev ino = some (count, a, b)) :
    ∃ e fs, Ext4.openOn dev = .ok e ∧ openOn dev = .ok fs ∧ fs.superblock.inodesCount = count ∧
      (e.readInode dev ino).toOption = a ∧ (fs.readInode ino).toOption = b := by
  unfold readBoth at h
  split at h
  · next e fs he hf =>
    obtain ⟨hcount, hrest⟩ := Prod.mk.inj (Option.some.inj h)
    obtain ⟨ha, hb⟩ := Prod.mk.inj hrest
    exact ⟨e, fs, he, hf, hcount, ha, hb⟩
  · cases h

theorem readBoth_root : readBoth spreadImage 2 =
    some (264, some { mode := 0x41ed }, some { mode := 0x41ed }) := by decide +kernel

theorem readBoth_spread : readBoth spreadImage 257 =
    some (264, some {}, some { mode := 0x81a4 }) := by decide +kernel

theorem spread_same_root : ∃ e fs, Ext4.openOn spreadImage = .ok e ∧
    openOn spreadImage = .ok fs ∧ SameInode e fs spreadImage 2 := by
  obtain ⟨e, fs, he, hf, hcount, ha, hb⟩ := readBoth_some readBoth_root
  exact ⟨e, fs, he, hf,
    (read_inode_agree_iff he hf (by decide) (hcount ▸ by decide)).mp (ha.trans hb.symm)⟩

/-- The two readers do not agree on every inode of every image. -/
theorem read_inode_disagree : ¬ ∀ (dev : Device) (e : Ext4) (fs : Filesystem) (ino : Nat),
    Ext4.openOn dev = .ok e → openOn dev = .ok fs → 1 ≤ ino → ino ≤ fs.superblock.inodesCount →
    (e.readInode dev ino).toOption = (fs.readInode ino).toOption := by
  intro hall
  obtain ⟨e, fs, he, hf, hcount, ha, hb⟩ := readBoth_some readBoth_spread
  have hsame := hall spreadImage e fs 257 he hf (by decide) (hcount ▸ by decide)
  rw [ha, hb] at hsame
  exact absurd hsame (by decide)

end MkfsExt4
