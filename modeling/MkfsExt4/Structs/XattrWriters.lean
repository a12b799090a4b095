/-
  The two attribute writers and their readers (`src/structs/xattr.rs`): the spare end of an inode
  and a block of its own.

  `xattrs_roundTrip_iff`: what was written is read back, sorted, for every list the writer accepts
  unless some remainder does not fit the byte its length is stored in. `refused_keeps_iff`: a
  refused write leaves the inode as it was only where there was nothing to lose.
  `order_irrelevant`: the order attributes are given in does not show.
-/
import MkfsExt4.Structs.XattrCodec

namespace MkfsExt4.Xattr

open Lib.Store Lib.Endian Lib.Hoare

/-! ## What the inode's writer does -/

variable {raw : List UInt8} {inodeSize extraIsize start len : Nat} {attrs : List Xattr}

/-- Where the area lies. -/
theorem inodeArea_some (h : inodeArea inodeSize extraIsize = some (start, len)) :
    start = 128 + extraIsize + 4 ∧ inodeSize = start + len := by
  unfold inodeArea at h
  dsimp only at h
  split at h
  · cases h
  · obtain ⟨rfl, rfl⟩ := Prod.mk.inj (Option.some.inj h)
    omega

/-- The inode with its area and the magic before it cleared. -/
def cleared (raw : List UInt8) (inodeSize extraIsize : Nat) : List UInt8 :=
  splice raw (128 + extraIsize) (List.replicate (inodeSize - (128 + extraIsize)) 0)

/-- The inode with attributes in its area. -/
def written (raw : List UInt8) (inodeSize extraIsize start len : Nat) (attrs : List Xattr) :
    List UInt8 :=
  splice (putU32 (cleared raw inodeSize extraIsize) (128 + extraIsize) xattrMagic) start
    (filled 0 (fun _ _ => 0) (sorted attrs) len)

theorem exec_writeInode_none (h : inodeArea inodeSize extraIsize = none) :
    ∃ e, exec (writeInodeXattrs inodeSize extraIsize attrs) raw =
      (if attrs = [] then .ok () else .error (.error e), raw) := by
  unfold writeInodeXattrs
  rw [h]
  dsimp only
  split
  · exact ⟨.invalidParams "", rfl⟩
  · exact ⟨_, rfl⟩

theorem exec_writeInode_short (h : inodeArea inodeSize extraIsize = some (start, len))
    (hraw : raw.length < inodeSize) :
    exec (writeInodeXattrs inodeSize extraIsize attrs) raw = (.error .panicked, raw) := by
  unfold writeInodeXattrs
  rw [h]
  dsimp only
  rw [exec_bind_of_ok (show exec get raw = (.ok raw, raw) from rfl), if_pos hraw]
  rfl

variable (harea : inodeArea inodeSize extraIsize = some (start, len))
  (hraw : inodeSize ≤ raw.length)

/-- The bytes of the area are zero once it is cleared. -/
theorem slice_cleared {off n : Nat} (hoff : 128 + extraIsize ≤ off) (hn : off + n ≤ inodeSize)
    (hraw : inodeSize ≤ raw.length) :
    slice (cleared raw inodeSize extraIsize) off n = List.replicate n 0 := by
  have hzero : slice (cleared raw inodeSize extraIsize) (128 + extraIsize)
      (inodeSize - (128 + extraIsize)) = List.replicate (inodeSize - (128 + extraIsize)) 0 :=
    slice_splice List.length_replicate (by omega)
  obtain ⟨k, rfl⟩ := Nat.exists_eq_add_of_le hoff
  rw [← slice_slice _ (show k + n ≤ inodeSize - (128 + extraIsize) by omega), hzero, slice,
    List.drop_replicate, List.take_replicate, Nat.min_eq_left (by omega)]

include harea hraw in
theorem exec_writeInode :
    ∃ e, exec (writeInodeXattrs inodeSize extraIsize attrs) raw =
      if attrs = [] then (.ok (), cleared raw inodeSize extraIsize)
      else if len < needed attrs + 4 then
        (.error (.error e), cleared raw inodeSize extraIsize)
      else (.ok (), written raw inodeSize extraIsize start len attrs) := by
  obtain ⟨hstart, hend⟩ := inodeArea_some harea
  unfold writeInodeXattrs
  rw [harea]
  dsimp only
  rw [exec_bind_of_ok (show exec get raw = (.ok raw, raw) from rfl),
    if_neg (Nat.not_lt.mpr hraw)]
  split
  · exact ⟨.invalidParams "", rfl⟩
  · split
    · exact ⟨_, rfl⟩
    · refine ⟨.invalidParams "", ?_⟩
      have hslice : slice (putU32 (cleared raw inodeSize extraIsize) (128 + extraIsize) xattrMagic)
          start len = List.replicate len 0 := by
        rw [slice_putU32_disjoint (by omega), slice_cleared (by omega) (by omega) hraw]
      rw [written, filled, ← hslice]
      rfl

/-! ## Reading back -/

include harea hraw in
/-- What the reader sees of an inode that was written. -/
theorem readInode_written : readInodeXattrs (written raw inodeSize extraIsize start len attrs)
    inodeSize extraIsize = parseEntries (filled 0 (fun _ _ => 0) (sorted attrs) len) 0 := by
  obtain ⟨hstart, hend⟩ := inodeArea_some harea
  have hlen : (filled 0 (fun _ _ => 0) (sorted attrs) len).length = len := by
    rw [filled, length_putAttrs, List.length_replicate]
  have hclear : (cleared raw inodeSize extraIsize).length = raw.length := length_splice _ _ _
  have hwritten : (written raw inodeSize extraIsize start len attrs).length = raw.length := by
    rw [written, length_splice, length_putU32, hclear]
  have hmagic : getU32 (written raw inodeSize extraIsize start len attrs) (128 + extraIsize) =
      xattrMagic := by
    rw [written, getU32_splice_disjoint (by omega), getU32_putU32 (by omega) (by decide)]
  have hslice : slice (written raw inodeSize extraIsize start len attrs) start len =
      filled 0 (fun _ _ => 0) (sorted attrs) len :=
    slice_splice hlen (by rw [length_putU32]; omega)
  unfold readInodeXattrs
  rw [harea]
  dsimp only
  rw [if_neg (by omega), if_neg (not_not.mpr hmagic), hslice]

include harea hraw in
/-- A cleared inode has none. -/
theorem readInode_cleared :
    readInodeXattrs (cleared raw inodeSize extraIsize) inodeSize extraIsize = .ok [] := by
  obtain ⟨hstart, hend⟩ := inodeArea_some harea
  have hmagic : getU32 (cleared raw inodeSize extraIsize) (128 + extraIsize) = 0 := by
    rw [getU32, slice_cleared (Nat.le_refl _) (by omega) hraw]
    rfl
  unfold readInodeXattrs
  rw [harea]
  dsimp only
  split
  · rfl
  · rw [if_pos (by rw [hmagic]; decide)]

/-- The write into an inode is refused, or what is read back is what was written. -/
def InodeRoundTrips (raw : List UInt8) (inodeSize extraIsize : Nat) (attrs : List Xattr) : Prop :=
  match exec (writeInodeXattrs inodeSize extraIsize attrs) raw with
  | (.ok (), raw') => GivesBack (readInodeXattrs raw' inodeSize extraIsize) attrs
  | (.error (.error _), _) => True
  | (.error _, _) => False

/-- The same for a block. -/
def BlockRoundTrips (blockSize : Nat) (attrs : List Xattr) : Prop :=
  match writeBlockXattrs blockSize attrs with
  | .ok block => GivesBack (readBlockXattrs block) attrs
  | .error (.error _) => True
  | .error _ => False

/-- The attributes go into the area an inode has. -/
def FitsInode (inodeSize extraIsize : Nat) (attrs : List Xattr) : Prop :=
  ∃ start len, inodeArea inodeSize extraIsize = some (start, len) ∧ needed attrs + 4 ≤ len

/-- The attributes go into a block. -/
def FitsBlock (blockSize : Nat) (attrs : List Xattr) : Prop :=
  needed attrs + 4 ≤ blockSize - blockHeaderLen

instance (blockSize : Nat) (attrs : List Xattr) : Decidable (FitsBlock blockSize attrs) :=
  inferInstanceAs (Decidable (needed attrs + 4 ≤ blockSize - blockHeaderLen))

theorem shortNames_nil : ShortNames [] := fun _ h => absurd h List.not_mem_nil

variable (hdistinct : Distinct attrs) (hnames : ∀ a ∈ attrs, a.name ≠ [])

include hraw hdistinct hnames in
theorem inodeRoundTrips_iff (hsize : inodeSize ≤ 65536) :
    InodeRoundTrips raw inodeSize extraIsize attrs ↔
      (FitsInode inodeSize extraIsize attrs → ShortNames attrs) := by
  unfold InodeRoundTrips FitsInode
  cases harea : inodeArea inodeSize extraIsize with
  | none =>
    obtain ⟨e, hexec⟩ := @exec_writeInode_none raw _ _ attrs harea
    rw [hexec]
    by_cases hnil : attrs = []
    · subst hnil
      refine ⟨fun _ h => absurd h (by simp), fun _ => ⟨[], ?_, List.Perm.nil, List.Pairwise.nil⟩⟩
      rw [readInodeXattrs, harea]
    · rw [if_neg hnil]
      exact ⟨fun _ h => absurd h (by simp), fun _ => trivial⟩
  | some area =>
    obtain ⟨start, len⟩ := area
    obtain ⟨hstart, hend⟩ := inodeArea_some harea
    obtain ⟨e, hexec⟩ := @exec_writeInode _ _ _ _ _ attrs harea hraw
    rw [hexec]
    by_cases hnil : attrs = []
    · subst hnil
      rw [if_pos rfl]
      exact ⟨fun _ _ => shortNames_nil, fun _ =>
        ⟨[], readInode_cleared harea hraw, List.Perm.nil, List.Pairwise.nil⟩⟩
    · rw [if_neg hnil]
      by_cases hfits : len < needed attrs + 4
      · rw [if_pos hfits]
        refine ⟨fun _ h => ?_, fun _ => trivial⟩
        obtain ⟨_, _, heq, hle⟩ := h
        obtain ⟨-, rfl⟩ := Prod.mk.inj (Option.some.inj heq)
        omega
      · rw [if_neg hfits]
        dsimp only
        rw [readInode_written harea hraw,
          givesBack_iff (by omega) (by omega) hdistinct hnames]
        exact ⟨fun h _ => h, fun h => h ⟨start, len, rfl, by omega⟩⟩

section Block

variable {blockSize : Nat} (hlo : blockHeaderLen ≤ blockSize)

theorem length_blockHeader (blockSize : Nat) : (blockHeader blockSize).length = blockSize := by
  unfold blockHeader
  rw [length_putU32, length_putU32, length_putU32, List.length_replicate]

theorem drop_eq_slice (xs : List UInt8) (off : Nat) : xs.drop off = slice xs off (xs.length - off) := by
  rw [slice, List.take_of_length_le (by rw [List.length_drop])]

/-- The header leaves the area zero. -/
theorem drop_blockHeader (blockSize : Nat) : (blockHeader blockSize).drop blockHeaderLen =
    List.replicate (blockSize - blockHeaderLen) 0 := by
  rw [drop_eq_slice, length_blockHeader, blockHeader, slice_putU32_disjoint (Or.inr (by decide)),
    slice_putU32_disjoint (Or.inr (by decide)), slice_putU32_disjoint (Or.inr (by decide)), slice,
    List.drop_replicate, List.take_replicate, Nat.min_self]

/-- A block with attributes in it. -/
def writtenBlock (blockSize : Nat) (attrs : List Xattr) : List UInt8 :=
  splice (blockHeader blockSize) blockHeaderLen
    (filled blockHeaderLen hashEntry (sorted attrs) (blockSize - blockHeaderLen))

include hlo in
theorem writeBlock_eq : ∃ e, writeBlockXattrs blockSize attrs =
    if blockSize - blockHeaderLen < needed attrs + 4 then .error (.error e)
    else .ok (writtenBlock blockSize attrs) := by
  unfold writeBlockXattrs panicIf
  dsimp only
  rw [if_neg (Nat.not_lt.mpr hlo)]
  split
  · exact ⟨_, rfl⟩
  · refine ⟨.invalidParams "", ?_⟩
    rw [writtenBlock, filled, ← drop_blockHeader]
    rfl

include hlo in
theorem readBlock_written : readBlockXattrs (writtenBlock blockSize attrs) =
    parseEntries (filled blockHeaderLen hashEntry (sorted attrs) (blockSize - blockHeaderLen))
      blockHeaderLen := by
  have hlen : (writtenBlock blockSize attrs).length = blockSize := by
    rw [writtenBlock, length_splice, length_blockHeader]
  have harea : (filled blockHeaderLen hashEntry (sorted attrs) (blockSize - blockHeaderLen)).length =
      blockSize - blockHeaderLen := by
    rw [filled, length_putAttrs, List.length_replicate]
  have hmagic : getU32 (writtenBlock blockSize attrs) BlockOff.hMagic = xattrMagic := by
    simp only [blockHeaderLen] at hlo
    rw [writtenBlock, getU32_splice_disjoint (Or.inl (by decide)), blockHeader,
      getU32_putU32_disjoint (Or.inl (by decide)), getU32_putU32_disjoint (Or.inl (by decide)),
      getU32_putU32 (by rw [List.length_replicate, BlockOff.hMagic]; omega) (by decide)]
  have hdrop : (writtenBlock blockSize attrs).drop blockHeaderLen =
      filled blockHeaderLen hashEntry (sorted attrs) (blockSize - blockHeaderLen) := by
    rw [drop_eq_slice, hlen]
    exact slice_splice harea (by rw [length_blockHeader]; omega)
  unfold readBlockXattrs
  dsimp only
  rw [if_neg (by omega), if_neg (not_not.mpr hmagic), hdrop]

include hlo hdistinct hnames in
theorem blockRoundTrips_iff (hhi : blockSize ≤ 65536) :
    BlockRoundTrips blockSize attrs ↔ (FitsBlock blockSize attrs → ShortNames attrs) := by
  obtain ⟨e, heq⟩ := @writeBlock_eq attrs _ hlo
  unfold BlockRoundTrips FitsBlock
  rw [heq]
  by_cases hfits : blockSize - blockHeaderLen < needed attrs + 4
  · rw [if_pos hfits]
    exact ⟨fun _ h => absurd h (Nat.not_le.mpr hfits), fun _ => trivial⟩
  · rw [if_neg hfits]
    dsimp only
    rw [readBlock_written hlo, givesBack_iff (by omega) (by omega) hdistinct hnames]
    exact ⟨fun h _ => h, fun h => h (Nat.not_lt.mp hfits)⟩

end Block

/-- Attributes come back from an inode and from a block exactly when those that go in at all have
    names whose remainders fit the byte that holds their length. -/
theorem xattrs_roundTrip_iff {attrs : List Xattr} (hdistinct : Distinct attrs)
    (hnames : ∀ a ∈ attrs, a.name ≠ []) :
    (∀ raw inodeSize extraIsize, inodeSize ≤ raw.length → inodeSize ≤ 65536 →
      (InodeRoundTrips raw inodeSize extraIsize attrs ↔
        (FitsInode inodeSize extraIsize attrs → ShortNames attrs))) ∧
      ∀ blockSize, 1024 ≤ blockSize → blockSize ≤ 65536 →
        (BlockRoundTrips blockSize attrs ↔ (FitsBlock blockSize attrs → ShortNames attrs)) := by
  refine ⟨fun raw inodeSize extraIsize hraw hsize => ?_, fun blockSize hlo hhi => ?_⟩
  · exact inodeRoundTrips_iff hraw hdistinct hnames hsize
  · exact blockRoundTrips_iff hdistinct hnames (Nat.le_trans (by decide) hlo) hhi

/-- The label of a file, which is stored under `security.`. -/
def label : Xattr := { name := "security.selinux".toList, value := [0x75, 0x3a, 0x00] }

/-- The label between two attributes of the owner's, in no order. -/
def labels : List Xattr :=
  [{ name := "user.b".toList, value := [0x31, 0x32, 0x33, 0x34, 0x35] }, label,
    { name := "user.a".toList, value := [] }]

/-- An inode of 256 bytes, all of them set. -/
def usedInode : List UInt8 := List.replicate 256 0xff

theorem xattrs_roundTrip_labels : FitsInode 256 32 labels ∧ FitsBlock 1024 labels ∧
    InodeRoundTrips usedInode 256 32 labels ∧ BlockRoundTrips 1024 labels := by
  obtain ⟨hinode, hblock⟩ := @xattrs_roundTrip_iff labels (by decide) (by decide)
  have hshort : ShortNames labels := by decide
  have hlen : usedInode.length = 256 := List.length_replicate
  have hraw : 256 ≤ usedInode.length := by rw [hlen]
  refine ⟨⟨_, _, rfl, by decide⟩, by decide, ?_⟩
  rw [hinode usedInode 256 32 hraw (by decide), hblock 1024 (by decide) (by decide)]
  exact ⟨fun _ => hshort, fun _ => hshort⟩

/-- An attribute under `user.` whose remainder takes 256 bytes. -/
def longNamed : Xattr := { name := "user.".toList ++ List.replicate 256 'x', value := [0x31] }

/-- It is stored with the length zero, and read back as `user.`. -/
theorem long_name_lost :
    Distinct [longNamed] ∧ (∀ a ∈ [longNamed], a.name ≠ []) ∧ ¬ BlockRoundTrips 1024 [longNamed] := by
  have hnames : ∀ a ∈ [longNamed], a.name ≠ [] := by
    intro a ha h
    rw [List.mem_singleton.mp ha] at h
    exact absurd (List.append_eq_nil_iff.mp h).1 (by decide)
  have hdistinct : Distinct [longNamed] := List.nodup_singleton _
  have hrest : longNamed.rest.length = 256 :=
    Lib.Utf8.length_utf8_replicate 256 'x'
  have hvalue : longNamed.value.length = 1 := rfl
  have hlo : blockHeaderLen ≤ 1024 := by decide
  have hhi : (1024 : Nat) ≤ 65536 := by decide
  refine ⟨hdistinct, hnames, ?_⟩
  have hfits : FitsBlock 1024 [longNamed] := by
    simp only [FitsBlock, needed, storedLen, entrySize, valueSize, List.map_cons, List.map_nil,
      List.sum_cons, List.sum_nil, hrest, hvalue]
    decide
  rw [blockRoundTrips_iff hdistinct hnames hlo hhi]
  intro h
  have hshort := h hfits longNamed List.mem_cons_self
  omega

/-! ## Refused writes -/

include harea hraw in
/-- Clearing changes nothing only where the bytes are zero. -/
theorem cleared_eq_self : cleared raw inodeSize extraIsize = raw ↔
    ∀ b ∈ slice raw (128 + extraIsize) (inodeSize - (128 + extraIsize)), b = 0 := by
  obtain ⟨hstart, hend⟩ := inodeArea_some harea
  have hin : 128 + extraIsize + (inodeSize - (128 + extraIsize)) ≤ raw.length := by omega
  constructor
  · intro h
    rw [← h, slice_cleared (Nat.le_refl _) (by omega) hraw]
    exact fun b hb => (List.mem_replicate.mp hb).2
  · intro h
    rw [cleared, ← List.eq_replicate_iff.mpr ⟨length_slice hin, h⟩, splice_slice_self hin]

/-- A write that is refused leaves the inode as it was. -/
def RefusedKeeps (raw : List UInt8) (inodeSize extraIsize : Nat) (attrs : List Xattr) : Prop :=
  ∀ e raw', exec (writeInodeXattrs inodeSize extraIsize attrs) raw = (.error (.error e), raw') →
    raw' = raw

/-- A refused write leaves the inode alone exactly when the inode has no area or is not all there,
    or the list is empty or goes in after all, or the area was clear already. -/
theorem refused_keeps_iff (raw : List UInt8) (inodeSize extraIsize : Nat) (attrs : List Xattr) :
    RefusedKeeps raw inodeSize extraIsize attrs ↔
      inodeArea inodeSize extraIsize = none ∨ raw.length < inodeSize ∨ attrs = [] ∨
        FitsInode inodeSize extraIsize attrs ∨
        ∀ b ∈ slice raw (128 + extraIsize) (inodeSize - (128 + extraIsize)), b = 0 := by
  unfold RefusedKeeps FitsInode
  cases harea : inodeArea inodeSize extraIsize with
  | none =>
    obtain ⟨e, hexec⟩ := @exec_writeInode_none raw _ _ attrs harea
    rw [hexec]
    exact ⟨fun _ => Or.inl rfl, fun _ _ _ h => (Prod.mk.inj h).2.symm⟩
  | some area =>
    obtain ⟨start, len⟩ := area
    by_cases hraw : raw.length < inodeSize
    · rw [exec_writeInode_short harea hraw]
      exact ⟨fun _ => Or.inr (Or.inl hraw), fun _ _ _ h => (Prod.mk.inj h).2.symm⟩
    have hraw := Nat.not_lt.mp hraw
    obtain ⟨e, hexec⟩ := @exec_writeInode _ _ _ _ _ attrs harea hraw
    rw [hexec, ← cleared_eq_self harea hraw]
    by_cases hnil : attrs = []
    · rw [if_pos hnil]
      exact ⟨fun _ => Or.inr (Or.inr (Or.inl hnil)), fun _ _ _ h => nomatch h⟩
    · rw [if_neg hnil]
      by_cases hfits : len < needed attrs + 4
      · rw [if_pos hfits]
        constructor
        · intro h
          exact Or.inr (Or.inr (Or.inr (Or.inr (h e _ rfl))))
        · rintro (h | h | h | ⟨_, _, heq, hle⟩ | h) _ _ hrun
          · cases h
          · exact absurd h (Nat.not_lt.mpr hraw)
          · exact absurd h hnil
          · obtain ⟨-, rfl⟩ := Prod.mk.inj (Option.some.inj heq)
            omega
          · exact (Prod.mk.inj hrun).2.symm.trans h
      · rw [if_neg hfits]
        exact ⟨fun _ => Or.inr (Or.inr (Or.inr (Or.inl ⟨start, len, rfl, Nat.not_lt.mp hfits⟩))),
          fun _ _ _ h => nomatch h⟩

/-- The inode with the label in it. -/
def labelledInode : List UInt8 := written usedInode 256 32 164 92 [label]

/-- An attribute too large for the 92 bytes such an inode has. -/
def bulky : Xattr := { name := "user.bulky".toList, value := List.replicate 128 0x5a }

/-- The inode holds its label; the refused write of the label and the large one takes it away. -/
theorem refused_write_loses_label :
    readInodeXattrs labelledInode 256 32 = .ok [label] ∧
      ¬ RefusedKeeps labelledInode 256 32 [label, bulky] := by
  have harea : inodeArea 256 32 = some (164, 92) := rfl
  have hused : 256 ≤ usedInode.length := Nat.le_of_eq List.length_replicate.symm
  have hraw : 256 ≤ labelledInode.length := by
    rw [labelledInode, written, length_splice, length_putU32, cleared, length_splice]
    exact hused
  have hread : readInodeXattrs labelledInode 256 32 = .ok [label] := by
    have hfits : needed [label] + 4 ≤ 92 := by decide
    have hnames : ∀ a ∈ [label], a.name ≠ [] := by decide
    rw [labelledInode, readInode_written harea hused, sorted, List.mergeSort_singleton]
    exact parseEntries_short hfits (by decide) hnames (by decide)
  have hfull : 92 < needed [label, bulky] + 4 := by
    have hvalue : bulky.value.length = 128 := List.length_replicate
    simp only [needed, storedLen, valueSize, hvalue, List.map_cons, List.map_nil, List.sum_cons,
      List.sum_nil, roundUp]
    omega
  refine ⟨hread, fun hkeeps => ?_⟩
  obtain ⟨e, hexec⟩ := @exec_writeInode _ _ _ _ _ [label, bulky] harea hraw
  rw [if_neg (List.cons_ne_nil _ _), if_pos hfull] at hexec
  have hsame := hkeeps e _ hexec
  have hcleared := readInode_cleared harea hraw
  rw [hsame, hread] at hcleared
  exact absurd (Except.ok.inj hcleared) (List.cons_ne_nil _ _)

/-! ## The order given -/

/-- Two orders of one list of attributes leave the same bytes, in an inode and in a block, or
    are refused in the same words. -/
theorem order_irrelevant {attrs attrs' : List Xattr} (hdistinct : Distinct attrs)
    (hperm : attrs.Perm attrs') :
    (∀ raw inodeSize extraIsize, exec (writeInodeXattrs inodeSize extraIsize attrs) raw =
      exec (writeInodeXattrs inodeSize extraIsize attrs') raw) ∧
      ∀ blockSize, writeBlockXattrs blockSize attrs = writeBlockXattrs blockSize attrs' := by
  have hsorted := sorted_eq_of_perm hdistinct hperm
  have hneeded := needed_perm hperm
  have hnil : attrs = [] ↔ attrs' = [] := by
    constructor
    · intro h
      exact List.nil_perm.mp (h ▸ hperm)
    · intro h
      exact List.perm_nil.mp (h ▸ hperm)
  refine ⟨fun raw inodeSize extraIsize => ?_, fun blockSize => ?_⟩
  · unfold writeInodeXattrs
    simp only [hsorted, hneeded, hnil]
  · unfold writeBlockXattrs
    rw [hsorted, hneeded]

theorem order_irrelevant_label :
    (∀ raw inodeSize extraIsize, exec (writeInodeXattrs inodeSize extraIsize [label, bulky]) raw =
      exec (writeInodeXattrs inodeSize extraIsize [bulky, label]) raw) ∧
      ∀ blockSize, writeBlockXattrs blockSize [label, bulky] =
        writeBlockXattrs blockSize [bulky, label] :=
  order_irrelevant (by decide) (List.Perm.swap bulky label [])

end MkfsExt4.Xattr
