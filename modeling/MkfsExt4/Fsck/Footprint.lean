/-
  What the repairs of a check leave alone.

  Past the journal a check that writes, writes the superblock, bitmaps, copies of the descriptor
  table, and inodes that it read. `LeftAlone` is a byte where none of these goes but the
  superblock, or only the `i_dtime` of an inode, which is written as it was read. `Follows fs n`
  is a state reached from `fs` that keeps what is left alone and stores its orphans, `n` the
  head of the chain. Proved: where the superblock itself is left alone by the rest (`Apart`), the
  flush keeps a state that follows, and so does every stage of a check past the orphans.
-/
import MkfsExt4.Fs.Inodes
import MkfsExt4.Fsck.Verdict

namespace MkfsExt4

open Lib.Store Lib.Hoare Lib.Endian Lib.Record

/-! ## The record in the superblock -/

/-- `s_last_orphan`, as the device holds it. -/
def storedLastOrphan (device : Device) : Nat :=
  getU32 (window device.bytes superblockOffset superblockLen) 0xe8

/-- `ORPHAN_PRESENT`, as the device holds it. -/
def storedOrphanPresent (device : Device) : Bool :=
  Mask.contains (BitVec.ofNat 32
    (getU32 (window device.bytes superblockOffset superblockLen) 0x64)) RoCompatFeatures.orphanPresent

namespace Superblock

theorem decode_orphans {buf : List UInt8} {sb : Superblock} (h : decode buf = .ok sb) :
    sb.lastOrphan = getU32 buf 0xe8 ∧ sb.featureRoCompat = BitVec.ofNat 32 (getU32 buf 0x64) := by
  unfold decode at h
  dsimp only at h
  split at h
  · cases h
  split at h
  · cases h
  obtain rfl := Except.ok.inj h
  exact ⟨rfl, rfl⟩

/-- The head of the chain is not written over once it is written, whatever the other fields
    hold. -/
theorem lastOrphan_encodeInto (sb : Superblock) {buf : List UInt8}
    (hlen : superblockLen ≤ buf.length) :
    getU32 (sb.encodeInto buf) 0xe8 = sb.lastOrphan % 2 ^ 32 := by
  have hafter : ∀ (xs ys : List UInt8) (o : Nat), 0xec ≤ o →
      slice (splice xs o ys) 0xe8 4 = slice xs 0xe8 4 := fun xs ys o ho =>
    slice_splice_disjoint (Or.inl ho)
  have hwords : ∀ (xs : List UInt8) (o : Nat) (vs : List Nat), 0xec ≤ o →
      slice (putU32s xs o vs) 0xe8 4 = slice xs 0xe8 4 := fun xs o vs ho =>
    slice_putU32s_after vs ho
  have hwritten : ∀ xs : List UInt8, superblockLen ≤ xs.length →
      slice (splice xs 0xe8 (toLe 4 sb.lastOrphan)) 0xe8 4 = toLe 4 sb.lastOrphan := by
    intro xs hxs
    rw [superblockLen] at hxs
    exact slice_splice (length_toLe _ _) (by omega)
  unfold encodeInto encodeFields getU32
  dsimp only [putU8, putU16, putU32, putU64, putBytes]
  simp (disch := decide) only [hafter, hwords]
  rw [hwritten, ofLe_toLe]
  · rfl
  · simp only [length_splice]
    exact hlen

theorem present_encodeInto (sb : Superblock) {buf : List UInt8}
    (hlen : superblockLen ≤ buf.length) :
    BitVec.ofNat 32 (getU32 (sb.encodeInto buf) 0x64) = sb.featureRoCompat := by
  have hread := sb.read_head hlen (i := 30) rfl (by decide)
  have hword : sb.featureRoCompat.toNat % 256 ^ 4 = sb.featureRoCompat.toNat :=
    Nat.mod_eq_of_lt sb.featureRoCompat.isLt
  rw [getU32, hread, hword, BitVec.ofNat_toNat, BitVec.setWidth_eq]

end Superblock

namespace Filesystem

/-- A flush stores the orphans that the superblock in memory records. -/
theorem synced_orphans (fs : Filesystem) :
    storedLastOrphan fs.synced.device = fs.superblock.lastOrphan % 2 ^ 32 ∧
      storedOrphanPresent fs.synced.device =
        fs.superblock.featureRoCompat.contains RoCompatFeatures.orphanPresent := by
  have hold := (length_window fs.device.bytes superblockOffset superblockLen).ge
  have hwindow := window_overlay fs.device.bytes superblockOffset
    (fs.superblock.encodeInto (window fs.device.bytes superblockOffset superblockLen))
  rw [Superblock.length_encodeInto, length_window] at hwindow
  constructor
  · rw [storedLastOrphan, ← fs.superblock.lastOrphan_encodeInto hold]
    exact congrArg (getU32 · 0xe8) hwindow
  · rw [storedOrphanPresent, ← fs.superblock.present_encodeInto hold]
    exact congrArg (fun raw => Mask.contains (BitVec.ofNat 32 (getU32 raw 0x64))
      RoCompatFeatures.orphanPresent) hwindow

end Filesystem

/-! ## Where the repairs write -/

/-- `p` is one of the `len` bytes from `start` on. -/
def Within (start len p : Nat) : Prop := start ≤ p ∧ p < start + len

/-- A superblock but for what a repair changes of it. -/
def Superblock.core (sb : Superblock) : Superblock :=
  { sb with
    freeBlocksCount := 0, freeInodesCount := 0, state := 0, lastOrphan := 0, lastcheck := 0
    mntCount := 0 }

/-- Where a group has its bitmaps and its inodes. -/
def GroupDesc.places (desc : GroupDesc) : Nat × Nat × Nat :=
  (desc.blockBitmap, desc.inodeBitmap, desc.inodeTable)

namespace Filesystem

/-- What decides where a repair writes. -/
def layout (fs : Filesystem) : Superblock × List (Nat × Nat × Nat) :=
  (fs.superblock.core, fs.groupDescs.map (·.places))

/-- No repair writes the byte `p`, the superblock's apart, or else as part of an `i_dtime`. -/
structure LeftAlone (fs : Filesystem) (p : Nat) : Prop where
  bitmaps : ∀ place ∈ fs.groupDescs.map (·.places),
    ¬Within (place.1 * fs.blockSize) fs.blockSize p ∧
      ¬Within (place.2.1 * fs.blockSize) fs.blockSize p
  table : ∀ g ∈ fs.copies false,
    ¬Within (fs.copyBlock g * fs.blockSize) (fs.superblock.gdtBlocks * fs.blockSize) p
  inodes : ∀ inum group block offset, fs.inodeLocation inum = .ok (group, block, offset) →
    Within (block * fs.blockSize + offset) fs.superblock.inodeSize p →
      Within (block * fs.blockSize + offset + 0x14) 4 p

/-- What the rest of a check writes does not reach the superblock. -/
def Apart (fs : Filesystem) : Prop :=
  ∀ p, Within superblockOffset superblockLen p → fs.LeftAlone p

/-- `cur` is `fs` after repairs, with `n` at the head of the chain, in memory and stored. -/
structure Follows (fs : Filesystem) (n : Nat) (cur : Filesystem) : Prop where
  layout : cur.layout = fs.layout
  last : cur.superblock.lastOrphan % 2 ^ 32 = n
  head : storedLastOrphan cur.device = n
  present : storedOrphanPresent cur.device =
    fs.superblock.featureRoCompat.contains RoCompatFeatures.orphanPresent
  bytes : ∀ p, fs.LeftAlone p → ¬Within superblockOffset superblockLen p →
    cur.device.bytes p = fs.device.bytes p

variable {fs cur : Filesystem} {n : Nat}

/-! ### What goes by the layout -/

section Layout

variable (h : cur.layout = fs.layout)

include h

/-- What a superblock says apart from what repairs change. -/
theorem of_layout {α : Type} (f : Superblock → α) (hf : ∀ sb, f sb.core = f sb) :
    f cur.superblock = f fs.superblock := by
  have hcore : cur.superblock.core = fs.superblock.core := congrArg Prod.fst h
  rw [← hf cur.superblock, hcore, hf]

theorem blockSize_of_layout : cur.blockSize = fs.blockSize :=
  of_layout h (·.blockSize) fun _ => rfl

theorem copies_of_layout (primaryOnly : Bool) : cur.copies primaryOnly = fs.copies primaryOnly :=
  of_layout h (fun sb => { fs with superblock := sb }.copies primaryOnly) fun _ => rfl

theorem copyBlock_of_layout (g : Nat) : cur.copyBlock g = fs.copyBlock g :=
  of_layout h (fun sb => { fs with superblock := sb }.copyBlock g) fun _ => rfl

theorem inodeLocation_of_layout (inum : Nat) :
    cur.inodeLocation inum = fs.inodeLocation inum := by
  have hcount := of_layout h (·.inodesCount) fun _ => rfl
  have hgroups := of_layout h (·.inodesPerGroup) fun _ => rfl
  have hblock := of_layout h (·.blockSize) fun _ => rfl
  have hinode := of_layout h (·.inodeSize) fun _ => rfl
  have hdescs : ∀ group : Nat, (cur.groupDescs[group]?).map GroupDesc.places =
      (fs.groupDescs[group]?).map GroupDesc.places := by
    intro group
    rw [← List.getElem?_map, ← List.getElem?_map]
    exact congrArg (·[group]?) (congrArg Prod.snd h)
  unfold inodeLocation
  dsimp only
  rw [hcount, hgroups, hblock, hinode]
  have hgroup := hdescs ((inum - 1) / fs.superblock.inodesPerGroup)
  cases hcur : cur.groupDescs[(inum - 1) / fs.superblock.inodesPerGroup]? with
  | none =>
    rw [hcur] at hgroup
    rw [Option.map_eq_none_iff.mp hgroup.symm]
  | some desc =>
    rw [hcur] at hgroup
    obtain ⟨desc', hfs, hplaces⟩ := Option.map_eq_some_iff.mp hgroup.symm
    have htable : desc'.inodeTable = desc.inodeTable := congrArg (·.2.2) hplaces
    rw [hfs]
    dsimp only
    rw [htable]

/-- The blocks of a bitmap of a group. -/
theorem place_of_layout {group : Nat} {desc : GroupDesc} (hdesc : cur.groupDesc group = .ok desc) :
    desc.places ∈ fs.groupDescs.map (·.places) := by
  have hmem : desc ∈ cur.groupDescs := by
    unfold groupDesc at hdesc
    split at hdesc
    · next hget =>
      obtain rfl := Except.ok.inj hdesc
      exact List.mem_of_getElem? hget
    · cases hdesc
  have hplaces : cur.groupDescs.map (·.places) = fs.groupDescs.map (·.places) :=
    congrArg Prod.snd h
  rw [← hplaces]
  exact List.mem_map_of_mem hmem

end Layout

/-! ### One write -/

/-- A command that reads goes on over the same state, or fails in it. -/
theorem reading_preserves {α : Type} {P : Filesystem → Prop} (f : Filesystem → Except Failure α) :
    Preserves P (reading f) := (Fsck.reading_keeps id f).preserves

/-- A write to one block happens as a whole, or not at all. -/
theorem exec_writeBlock_cases (fs : Filesystem) (block : Nat) (buf : List UInt8) :
    (exec (writeBlock block buf) fs).2 = fs ∨
      (exec (writeBlock block buf) fs).2 = fs.withBytes (block * fs.blockSize) buf := by
  cases hoffset : fs.blockOffset block with
  | error e =>
    unfold writeBlock
    rw [exec_bind, exec_reading_error hoffset]
    exact Or.inl rfl
  | ok offset =>
    obtain ⟨rfl, hoff⟩ := blockOffset_ok hoffset
    cases hwrite : returned (fs.device.writeAt (block * fs.blockSize) buf) with
    | error e =>
      unfold writeBlock
      rw [exec_bind_of_ok (exec_reading hoffset), exec_bind, exec_reading_error hwrite]
      exact Or.inl rfl
    | ok device =>
      have hrun : ∃ fs', exec (writeBlock block buf) fs = (.ok (), fs') := by
        unfold writeBlock
        rw [exec_bind_of_ok (exec_reading hoffset), exec_bind_of_ok (exec_reading hwrite)]
        exact ⟨_, rfl⟩
      obtain ⟨fs', hrun⟩ := hrun
      rw [hrun]
      exact Or.inr (writeBlock_ok hrun).1

/-- What is stored of the superblock and of the bytes left alone decides. -/
theorem Follows.withBytes (h : Follows fs n cur) (hapart : fs.Apart) {offset : Nat} {buf : List UInt8}
    (hsame : ∀ p, fs.LeftAlone p → Within offset buf.length p →
      buf.getD (p - offset) 0 = cur.device.bytes p) :
    Follows fs n (cur.withBytes offset buf) := by
  have hbytes : ∀ p, fs.LeftAlone p →
      (cur.withBytes offset buf).device.bytes p = cur.device.bytes p := by
    intro p hp
    show overlay cur.device.bytes offset buf p = _
    rw [overlay_apply _ _ _ _ 0]
    split
    · next hin => exact hsame p hp hin
    · rfl
  have hwindow : window (cur.withBytes offset buf).device.bytes superblockOffset superblockLen =
      window cur.device.bytes superblockOffset superblockLen :=
    window_congr fun p hlow hhigh => hbytes p (hapart p ⟨hlow, hhigh⟩)
  exact {
    layout := h.layout
    last := h.last
    head := by rw [storedLastOrphan, hwindow]; exact h.head
    present := by rw [storedOrphanPresent, hwindow]; exact h.present
    bytes := fun p hp hout => (hbytes p hp).trans (h.bytes p hp hout) }

/-- A write to a block where nothing is left alone. -/
theorem writeBlock_follows (hapart : fs.Apart) {block : Nat} {buf : List UInt8}
    (hmiss : ∀ p, fs.LeftAlone p → ¬Within (block * fs.blockSize) buf.length p) :
    Preserves (Follows fs n) (writeBlock block buf) := by
  intro cur h
  rcases exec_writeBlock_cases cur block buf with heq | heq
  · rw [heq]
    exact h
  · rw [heq]
    refine h.withBytes hapart fun p hp hin => ?_
    rw [blockSize_of_layout h.layout] at hin
    exact absurd hin (hmiss p hp)

/-- What changes the state in memory but not the chain, and not where repairs write. -/
theorem modify_follows {f : Filesystem → Filesystem}
    (hf : ∀ cur, (f cur).layout = cur.layout ∧
      (f cur).superblock.lastOrphan = cur.superblock.lastOrphan ∧
      (f cur).device = cur.device) :
    Preserves (Follows fs n) (modify f : FsM Unit) := by
  refine preserves_modify fun cur h => ?_
  obtain ⟨hlayout, hlast, hdevice⟩ := hf cur
  exact {
    layout := hlayout.trans h.layout
    last := by rw [hlast]; exact h.last
    head := by rw [hdevice]; exact h.head
    present := by rw [hdevice]; exact h.present
    bytes := fun p hp hout => by rw [hdevice]; exact h.bytes p hp hout }

/-- A state with the orphans of `fs` and `n` for the chain in memory, once it is flushed. -/
theorem follows_synced (hlayout : cur.layout = fs.layout)
    (hlast : cur.superblock.lastOrphan % 2 ^ 32 = n)
    (hbytes : ∀ p, fs.LeftAlone p → ¬Within superblockOffset superblockLen p →
      cur.device.bytes p = fs.device.bytes p) : Follows fs n cur.synced := by
  obtain ⟨hhead, hpresent⟩ := synced_orphans cur
  have hro := of_layout hlayout (·.featureRoCompat) fun _ => rfl
  have hlen : (cur.superblock.encodeInto
      (window cur.device.bytes superblockOffset superblockLen)).length = superblockLen := by
    rw [Superblock.length_encodeInto, length_window]
  exact {
    layout := hlayout
    last := hlast
    head := hhead.trans hlast
    present := by rw [hpresent, hro]
    bytes := fun p hp hout => by
      have hmiss : ¬(superblockOffset ≤ p ∧ p < superblockOffset + superblockLen) := hout
      show overlay cur.device.bytes superblockOffset _ p = _
      rw [overlay_apply _ _ _ _ 0, hlen, if_neg hmiss]
      exact hbytes p hp hout }

theorem flushSuperblock_follows : Preserves (Follows fs n) flushSuperblock := by
  intro cur h
  rcases exec_flushSuperblock_cases cur with ⟨-, heq⟩ | ⟨-, e, heq⟩
  · rw [heq]
    exact follows_synced h.layout h.last h.bytes
  · rw [heq]
    exact h

/-! ### An inode read and written -/

/-- A command that reads first. -/
theorem exec_reading_bind {α β : Type} (f : Filesystem → Except Failure α) (k : α → FsM β)
    (fs : Filesystem) :
    (exec (reading f >>= k) fs).2 = fs ∨
      ∃ a, f fs = .ok a ∧ exec (reading f >>= k) fs = exec (k a) fs := by
  cases hf : f fs with
  | error e =>
    rw [exec_bind, exec_reading_error hf]
    exact Or.inl rfl
  | ok a => exact Or.inr ⟨a, rfl, exec_bind_of_ok (exec_reading hf)⟩

/-- Writing an inode changes its own bytes, or nothing. -/
theorem exec_writeInode_cases (fs : Filesystem) (inum : Nat) (inode : Inode) :
    (exec (writeInode inum inode) fs).2 = fs ∨
      ∃ group block offset, fs.inodeLocation inum = .ok (group, block, offset) ∧
        offset + fs.superblock.inodeSize ≤ fs.blockSize ∧
        (exec (writeInode inum inode) fs).2 = fs.withBytes (block * fs.blockSize + offset)
          (inode.encodeWithCsum fs.superblock.inodeSize fs.hasMetadataCsum fs.csumSeed inum) := by
  unfold writeInode
  rcases exec_reading_bind (fun fs => fs.inodeLocation inum) _ fs with heq | ⟨place, hloc, heq⟩
  · exact Or.inl heq
  rw [heq]
  obtain ⟨group, block, offset⟩ := place
  dsimp only
  rcases exec_reading_bind _ _ fs with heq | ⟨_, -, heq⟩
  · exact Or.inl heq
  rw [heq]
  rcases exec_reading_bind _ _ fs with heq | ⟨encoded, hencoded, heq⟩
  · exact Or.inl heq
  obtain rfl := Except.ok.inj hencoded
  rw [heq]
  rcases exec_reading_bind _ _ fs with heq | ⟨tableBlock, hread, heq⟩
  · exact Or.inl heq
  rw [heq]
  rcases exec_reading_bind _ _ fs with heq | ⟨_, hroom, heq⟩
  · exact Or.inl heq
  rw [heq]
  have hwindow : tableBlock = window fs.device.bytes (block * fs.blockSize) fs.blockSize := by
    unfold readBlock at hread
    dsimp only at hread
    split at hread
    · cases hread
    · exact (readAtBlock_ok hread).1
  have hin : offset + fs.superblock.inodeSize ≤ fs.blockSize := by
    have := panicIf_ok hroom
    rw [hwindow, length_window] at this
    omega
  rcases exec_writeBlock_cases fs block _ with heq | heq
  · exact Or.inl heq
  · refine Or.inr ⟨group, block, offset, hloc, hin, heq.trans ?_⟩
    rw [hwindow]
    unfold withBytes
    rw [overlay_splice_window _ (by rw [Inode.length_encodeWithCsum]; exact hin)]

end Filesystem

theorem Inode.decode_dtime {raw : List UInt8} {inodeSize : Nat} {inode : Inode}
    (h : decode raw inodeSize = .ok inode) : inode.dtime = getU32 raw 0x14 := by
  unfold decode at h
  dsimp only at h
  split at h
  · cases h
  split at h
  · cases h
  obtain rfl := Except.ok.inj h
  rfl

/-- A deletion time that was read is written as it was. -/
theorem Inode.slice_dtime {raw : List UInt8} {inodeSize : Nat} {read inode : Inode}
    (h : decode raw inodeSize = .ok read) (hdtime : inode.dtime = read.dtime) (metadataCsum : Bool)
    (seed : UInt32) (inum : Nat) :
    slice (inode.encodeWithCsum inodeSize metadataCsum seed inum) 0x14 4 = slice raw 0x14 4 := by
  obtain ⟨hsize, hlen, -⟩ := decodable_of_decode h
  have hread := inode.read_encodeWithCsum metadataCsum seed inum hsize (i := 6) rfl (by decide)
  rw [hdtime, decode_dtime h] at hread
  rw [goodOldInodeSize] at hsize
  have hleft : 0x14 + 4 ≤ (inode.encodeWithCsum inodeSize metadataCsum seed inum).length := by
    rw [length_encodeWithCsum]
    omega
  rw [← toLe_ofLe_slice hleft, hread, ← toLe_ofLe_slice (show 0x14 + 4 ≤ raw.length by omega)]
  exact toLe_mod 4 _

namespace Filesystem

variable {fs cur : Filesystem} {n : Nat}

/-- An inode that was read is written with the deletion time it had. -/
theorem writeInode_follows (hapart : fs.Apart) (h : Follows fs n cur) {inum : Nat}
    {read inode : Inode} (hread : cur.readInode inum = .ok read)
    (hdtime : inode.dtime = read.dtime) : Follows fs n (exec (writeInode inum inode) cur).2 := by
  rcases exec_writeInode_cases cur inum inode with heq | ⟨group, block, offset, hloc, hroom, heq⟩
  · rw [heq]
    exact h
  rw [heq]
  unfold readInode at hread
  obtain ⟨raw, hraw, hdecode⟩ := bind_ok hread
  obtain ⟨group', block', offset', hloc', -, -, -, -, hwindow⟩ := readInodeRaw_ok hraw
  rw [hloc'] at hloc
  obtain ⟨-, hplace⟩ := Prod.mk.inj (Except.ok.inj hloc)
  obtain ⟨rfl, rfl⟩ := Prod.mk.inj hplace
  have hslice := Inode.slice_dtime hdecode hdtime cur.hasMetadataCsum cur.csumSeed inum
  refine h.withBytes hapart fun p hp hin => ?_
  -- Of an inode's bytes only the deletion time is left alone.
  rw [Inode.length_encodeWithCsum, of_layout h.layout (·.inodeSize) fun _ => rfl,
    blockSize_of_layout h.layout] at hin
  obtain ⟨hlow, hhigh⟩ := hp.inodes inum group' block' offset'
    (inodeLocation_of_layout h.layout inum ▸ hloc') hin
  rw [← blockSize_of_layout h.layout] at hlow hhigh
  obtain ⟨i, rfl⟩ := Nat.exists_eq_add_of_le hlow
  have hi : i < 4 := by omega
  have hbyte := congrArg (·.getD i 0) hslice
  simp only [getD_slice _ _ _ _ _ hi] at hbyte
  have hoff : block' * cur.blockSize + offset' + 0x14 + i - (block' * cur.blockSize + offset') =
      0x14 + i := by omega
  have hsize : 0x14 + i < cur.superblock.inodeSize := by
    have := (Inode.decodable_of_decode hdecode).1
    rw [goodOldInodeSize] at this
    omega
  rw [hoff, hbyte, hwindow, getD_window _ _ _ _ _ hsize]
  exact congrArg cur.device.bytes (Nat.add_assoc _ _ _).symm

/-! ### The descriptor table -/

theorem length_encodeGdt (h : fs.groupDescs.length * fs.superblock.descSize ≤
    fs.superblock.gdtBlocks * fs.blockSize) :
    fs.encodeGdt.length = fs.superblock.gdtBlocks * fs.blockSize := by
  have hgdt : fs.encodeGdt = fs.gdtOf fs.groupDescs := rfl
  rw [hgdt, gdtOf_eq, List.length_append, List.length_replicate,
    length_flatten_blocks fun g _ => fs.length_descBytes fs.groupDescs g]
  omega

theorem flushGroupDescs_follows (hapart : fs.Apart) :
    Preserves (Follows fs n) flushGroupDescs := by
  unfold flushGroupDescs writeGroupDescs
  refine preserves_bind (reading_preserves _) fun s _ _ hs hguard => ?_
  have hguard := panicIf_ok (reading_ok hguard).1
  refine preserves_bind keeps_get.preserves fun cur _ _ h hget => ?_
  cases hget
  -- What was checked of one state goes by the layout, and holds of the other.
  have hcount : s.groupDescs.length = cur.groupDescs.length := by
    have hplaces := congrArg (fun l => l.2.length) (hs.layout.trans h.layout.symm)
    simpa only [layout, List.length_map] using hplaces
  have hlayout := hs.layout.trans h.layout.symm
  rw [hcount, of_layout hlayout (·.descPerBlock) fun _ => rfl,
    of_layout hlayout (·.gdtBlocks) fun _ => rfl, of_layout hlayout (·.descSize) fun _ => rfl,
    blockSize_of_layout hlayout] at hguard
  have hlen := length_encodeGdt (Nat.le_of_not_lt fun hlong => hguard (Or.inr hlong))
  refine preserves_forM fun g hg => writeBlock_follows hapart fun p hp => ?_
  have hmiss := hp.table g (copies_of_layout h.layout false ▸ hg)
  rw [← copyBlock_of_layout h.layout] at hmiss
  rw [hlen, of_layout h.layout (·.gdtBlocks) fun _ => rfl, blockSize_of_layout h.layout]
  exact hmiss

end Filesystem

/-! ## The stages of a check -/

namespace Fsck

open Filesystem

variable {fs : Filesystem} {n : Nat}

theorem modifySb_follows {f : Superblock → Superblock}
    (hf : ∀ sb, (f sb).core = sb.core ∧ (f sb).lastOrphan = sb.lastOrphan) :
    Preserves (Follows fs n) (modifySb f) :=
  modify_follows fun cur =>
    ⟨congrArg (·, _) (hf cur.superblock).1, (hf cur.superblock).2, rfl⟩

theorem preenHalt_follows (r : FsckReport) : Preserves (Follows fs n) (preenHalt r) :=
  preserves_then (modifySb_follows fun _ => ⟨rfl, rfl⟩) fun _ =>
    preserves_then flushSuperblock_follows fun _ => preserves_pure _

theorem skip_follows (options : FsckOptions) (now : Nat) (r : FsckReport) :
    Preserves (Follows fs n) (skip options now r) := by
  have hlast : Preserves (Follows fs n) (do
      let fs ← get
      let sb := fs.superblock
      return { r with
        problems := r.problems.filter (·.isNote)
        inodesUsed := sb.inodesCount - sb.freeInodesCount
        blocksUsed := sb.blocksCount - sb.freeBlocksCount
        scope := .skipped (nextCheck sb now) } : FsM FsckReport) :=
    preserves_then keeps_get.preserves fun _ => preserves_pure _
  unfold skip
  split
  · refine preserves_then keeps_get.preserves fun cur => ?_
    dsimp only
    split
    · exact preserves_then (modifySb_follows fun _ => ⟨rfl, rfl⟩) fun _ =>
        preserves_then flushSuperblock_follows fun _ => hlast
    · exact hlast
  · exact hlast

theorem fixLinks_follows (hapart : fs.Apart) (r : FsckReport) (fix : LinkFix) :
    Preserves (Follows fs n) (fixLinks r fix) := by
  intro cur h
  unfold fixLinks
  rcases exec_reading_bind (fun fs => fs.readInode fix.inum) _ cur with heq | ⟨inode, hread, heq⟩
  · rw [heq]
    exact h
  · rw [heq]
    have hwrite := @writeInode_follows fs cur n hapart h fix.inum inode
      { inode with linksCount := fix.observed } hread rfl
    rw [exec_bind]
    rcases hr : exec (writeInode fix.inum { inode with linksCount := fix.observed }) cur with
      ⟨e | _, t⟩ <;> rw [hr] at hwrite <;> exact hwrite

theorem fixBitmap_follows (hapart : fs.Apart) (writes : Bool) (code : Code) (message : String)
    {block : Nat} (actual : List UInt8) {expected : List UInt8} (r : FsckReport)
    (hlen : expected.length = fs.blockSize)
    (hmiss : ∀ p, fs.LeftAlone p → ¬Within (block * fs.blockSize) fs.blockSize p) :
    Preserves (Follows fs n) (fixBitmap writes code message block actual expected r) := by
  unfold fixBitmap
  split
  · exact preserves_pure _
  · split
    · exact preserves_then (writeBlock_follows hapart (hlen ▸ hmiss)) fun _ => preserves_pure _
    · exact preserves_pure _

theorem length_expectedBlocks (fs : Filesystem) (state : ScanState) (group : Nat) :
    (expectedBlocks fs state group).length = fs.blockSize := by
  have hfold : ∀ (runs : List (Nat × Nat)) (first : Nat) (bm : List UInt8),
      (runs.foldl (fun bm p => setBits bm (p.1 - first) (p.2 - first)) bm).length = bm.length := by
    intro runs first
    induction runs with
    | nil => exact fun _ => rfl
    | cons run runs ih =>
      intro bm
      rw [List.foldl_cons, ih, length_setBits]
  unfold expectedBlocks
  dsimp only
  rw [length_setBits, hfold, List.length_replicate]

theorem places_modify (descs : List GroupDesc) (group : Nat) {f : GroupDesc → GroupDesc}
    (hf : ∀ desc, (f desc).places = desc.places) :
    (descs.modify group f).map (·.places) = descs.map (·.places) := by
  refine List.ext_getElem? fun i => ?_
  rw [List.getElem?_map, List.getElem?_map, List.getElem?_modify]
  cases descs[i]? with
  | none => rfl
  | some desc =>
    split
    · exact congrArg some (hf desc)
    · rfl

theorem pass5Group_follows (hapart : fs.Apart) (writes : Bool) (state : ScanState) (t : Totals)
    (group : Nat) : Preserves (Follows fs n) (pass5Group writes state t group) := by
  unfold pass5Group
  refine preserves_bind keeps_get.preserves fun cur _ _ h hget => ?_
  cases hget
  have hbs := blockSize_of_layout h.layout
  refine preserves_then (reading_preserves _) fun actual => ?_
  refine preserves_bind (reading_preserves _) fun cur2 desc _ h2 hdesc => ?_
  have hplace := place_of_layout h2.layout (reading_ok hdesc).1
  refine preserves_then (fixBitmap_follows hapart _ _ _ _ _
    ((length_expectedBlocks cur state group).trans hbs) fun p hp => (hp.bitmaps _ hplace).1)
      fun r1 => ?_
  refine preserves_then (reading_preserves _) fun _ => ?_
  refine preserves_then (reading_preserves _) fun actualInodes => ?_
  refine preserves_then (fixBitmap_follows hapart _ _ _ _ _
    ((Lib.Bitmap.length_ofBits _ _).trans hbs) fun p hp => (hp.bitmaps _ hplace).2) fun r2 => ?_
  dsimp only
  split
  · refine preserves_then (reading_preserves _) fun _ => ?_
    refine preserves_then (reading_preserves _) fun _ => ?_
    refine preserves_then (modify_follows fun cur => ⟨?_, rfl, rfl⟩) fun _ => preserves_pure _
    exact congrArg (_, ·) (places_modify _ _ fun _ => rfl)
  · exact preserves_pure _

theorem pass5Bitmaps_follows (hapart : fs.Apart) (writes : Bool) (f : Findings) :
    Preserves (Follows fs n) (pass5Bitmaps writes f) := by
  unfold pass5Bitmaps
  refine preserves_then keeps_get.preserves fun cur => ?_
  refine preserves_then (preserves_foldlM (pass5Group_follows hapart writes f.state) _ _) fun t => ?_
  dsimp only
  split
  · exact preserves_then (modify_follows fun _ => ⟨rfl, rfl, rfl⟩) fun _ => preserves_pure _
  · exact preserves_pure _

theorem finish_follows (hapart : fs.Apart) (now : Nat) (r : FsckReport) :
    Preserves (Follows fs n) (finish now r) := by
  have hlast : ∀ report : FsckReport, Preserves (Follows fs n) (do
      if report.repairedAnything then flushGroupDescs
      return report : FsM FsckReport) := by
    intro report
    dsimp only
    split
    · exact preserves_then (flushGroupDescs_follows hapart) fun _ => preserves_pure _
    · exact preserves_pure _
  unfold finish
  refine preserves_then keeps_get.preserves fun cur => ?_
  refine preserves_then (modifySb_follows fun _ => ⟨rfl, rfl⟩) fun _ => ?_
  exact preserves_then flushSuperblock_follows fun _ => hlast _

/-- The passes and the repairs leave alone what is to be, and go on storing the orphans. -/
theorem passes_follows (hapart : fs.Apart) (options : FsckOptions) (now : Nat) (f : Findings) :
    Preserves (Follows fs n) (passes options now f) := by
  unfold passes repairs
  refine preserves_then (reading_preserves _) fun found => ?_
  dsimp only
  split
  · exact preenHalt_follows _
  · split
    · exact preserves_then (preserves_foldlM (fixLinks_follows hapart) _ _) fun _ =>
        preserves_then (pass5Bitmaps_follows hapart _ _) fun _ => finish_follows hapart _ _
    · exact preserves_then (pass5Bitmaps_follows hapart _ _) fun _ => preserves_pure _

theorem goOn_follows (options : FsckOptions) (now : Nat) (f : Findings) (r : FsckReport) :
    Preserves (Follows fs n) (goOn options now f r) := by
  unfold goOn
  split
  · exact preserves_pure _
  · refine preserves_then (reading_preserves _) fun due => ?_
    split
    · exact preserves_pure _
    · exact preserves_then (skip_follows _ _ _) fun _ => preserves_pure _

end Fsck

end MkfsExt4
