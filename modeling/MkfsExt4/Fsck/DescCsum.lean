/-
  Descriptor checksums and the check's verdict on them (`src/fsck.rs`, pass 0).

  Pass 0 never sees a descriptor's bytes: it encodes the decoded fields again and takes the
  checksum of that. Proved: what a writer stamped passes (`stamped_desc_passes`), and the pass
  reports a group's checksum exactly when the stored one is not that of the bytes with the
  reserved ones cleared (`reportsDescCsum_iff`), which is the verdict on the bytes that are on
  disk unless the reserved ones weigh in the checksum (`desc_csum_verdict_iff`).
-/
import MkfsExt4.Fs.Descriptors
import MkfsExt4.Fsck.Added
import MkfsExt4.Structs.GroupDescCodec

namespace MkfsExt4

open Lib.Store Lib.Hoare Lib.Endian

namespace Filesystem

variable {fs : Filesystem}

/-- The bytes of a group's descriptor, as the table has them on disk. -/
def descOnDisk (fs : Filesystem) (group : Nat) : List UInt8 :=
  slice fs.tableBytes (group * fs.superblock.descSize) fs.superblock.descSize

/-- An opened filesystem's table has room for the descriptor of each group. -/
theorem Opened.length_descOnDisk {dev : Device} (h : Opened dev fs) {g : Nat}
    (hg : g < fs.groupCount) : (fs.descOnDisk g).length = fs.superblock.descSize := by
  obtain ⟨raw, hraw, -⟩ := bind_ok h.groupDescs
  have hreach := (readGdt_ok_iff.mp hraw).1
  have hroom : fs.groupCount * fs.superblock.descSize ≤ fs.tableParts * fs.blockSize := by
    unfold TableInReach at hreach
    unfold tableParts
    split
    · next hmeta =>
      rw [if_pos hmeta] at hreach
      exact table_room hreach.1
    · exact le_divCeil_mul _ (Nat.pos_of_ne_zero h.blockSize_ne_zero)
  have hlen : fs.tableBytes.length = fs.tableParts * fs.blockSize :=
    length_flatten_blocks fun k _ => length_window _ _ _
  have hend := Nat.mul_le_mul_right fs.superblock.descSize hg
  rw [Nat.succ_mul] at hend
  exact length_slice (by rw [hlen]; exact Nat.le_trans hend hroom)

/-- It is what the descriptor in memory was decoded from. -/
theorem Opened.groupDescs_get {dev : Device} (h : Opened dev fs) {g : Nat}
    (hg : g < fs.groupCount) :
    fs.groupDescs[g]? = some (GroupDesc.decode (fs.descOnDisk g) fs.superblock.descSize) := by
  obtain ⟨raw, hraw, hdescs⟩ := bind_ok h.groupDescs
  obtain ⟨-, rfl⟩ := readGdt_ok_iff.mp hraw
  have hget : g < (List.range fs.superblock.groupCount).length := by
    rw [List.length_range]
    exact hg
  rw [← Except.ok.inj hdescs, List.getElem?_map, List.getElem?_eq_getElem hget,
    List.getElem_range, Option.map_some, ← GroupDesc.decode_take _ (minDescSize_le _)]
  rfl

end Filesystem

namespace Fsck

open Filesystem

variable {fs : Filesystem} {f f' : Findings}

/-! ## What was stamped passes -/

theorem checkDescCsum_of_right {group : Nat} {desc : GroupDesc}
    (h : desc.checksum = Csum.groupDescCsum fs.csumScheme fs.csumSeed fs.superblock.uuid group
      (desc.encode fs.superblock.descSize)) (f : Findings) :
    checkDescCsum fs group desc f = f := by
  unfold checkDescCsum
  dsimp only
  rw [← h, Findings.pushIf, FsckReport.pushIf, if_neg fun hne => hne.2 rfl]

/-- The codec of a descriptor and its checksum agree: what fits its width decodes to itself, and
    what was stamped has, once read, the checksum of its fields encoded again, so that pass 0
    finds nothing. -/
theorem stamped_desc_passes :
    (∀ (d : GroupDesc) (descSize : Nat), descSize = minDescSize ∨ descSize64bit ≤ descSize →
      d.Representable descSize → GroupDesc.decode (d.encode descSize) descSize = d) ∧
    (∀ (d : GroupDesc) (descSize : Nat), descSize = minDescSize ∨ descSize64bit ≤ descSize →
      ∀ (scheme : Csum.GroupDescCsum) (seed : UInt32) (uuid : List UInt8) (group : Nat),
      let read := GroupDesc.decode (d.encodeWithCsum descSize scheme seed uuid group) descSize
      read.checksum = Csum.groupDescCsum scheme seed uuid group (read.encode descSize)) ∧
    ∀ (fs : Filesystem) (d : GroupDesc) (group : Nat) (f : Findings),
      let written := d.encodeWithCsum fs.superblock.descSize fs.csumScheme fs.csumSeed
        fs.superblock.uuid group
      checkDescCsum fs group (GroupDesc.decode written fs.superblock.descSize) f = f := by
  refine ⟨fun d descSize hsize h => GroupDesc.decode_encode hsize h,
    fun d descSize hsize => d.checksum_decode_encodeWithCsum hsize, fun fs d group f => ?_⟩
  exact checkDescCsum_of_right (d.checksum_decode_encodeWithCsum (descSize_cases _) _ _ _ _) f

/-- A descriptor of 64 bytes with high halves. -/
theorem stamped_desc_passes_wide :
    let d : GroupDesc := { blockBitmap := 2 ^ 40 + 3, freeBlocksCount := 70000, checksum := 7 }
    GroupDesc.decode (d.encode 64) 64 = d :=
  stamped_desc_passes.1 _ 64 (Or.inr (Nat.le_refl 64)) (by
    constructor <;> decide)

/-! ## The verdict -/

/-- What pass 0 reports of a descriptor whose checksum is not what it computed. -/
def descCsumWrong (group stored computed : Nat) : Problem where
  pass := 0
  code := .groupDescCsum
  severity := .fixable
  message := s!"group {group} descriptor checksum is " ++ hex 4 stored ++ ", computed " ++
    hex 4 computed
  fixed := false

/-- Pass 0 reports the checksum of the group's descriptor, among the problems it adds. -/
def ReportsDescCsum (f f' : Findings) (group : Nat) : Prop :=
  ∃ stored computed, descCsumWrong group stored computed ∈
    f'.report.problems.drop f.report.problems.length

theorem descCsumWrong_inj {m n stored computed stored' computed' : Nat}
    (h : descCsumWrong m stored computed = descCsumWrong n stored' computed') : m = n := by
  have hmsg : ∀ n stored computed : Nat, (descCsumWrong n stored computed).message =
      "group " ++ (toString n ++ (" " ++ ("descriptor checksum is " ++ (hex 4 stored ++
        (", computed " ++ hex 4 computed))))) := by
    intro n stored computed
    simp only [descCsumWrong, String.append_assoc]
    rfl
  have hwords := congrArg Problem.message h
  rw [hmsg, hmsg] at hwords
  exact numbered_inj hwords

/-- The finding of pass 0 on a group's checksum. -/
def descVerdict (fs : Filesystem) (group : Nat) : List Problem :=
  match fs.groupDescs[group]? with
  | none => []
  | some desc =>
    let computed := Csum.groupDescCsum fs.csumScheme fs.csumSeed fs.superblock.uuid group
      (desc.encode fs.superblock.descSize)
    if fs.csumScheme ≠ .none ∧ desc.checksum ≠ computed then
      [descCsumWrong group desc.checksum computed]
    else []

theorem checkDescCsum_adds {group : Nat} {desc : GroupDesc}
    (h : fs.groupDescs[group]? = some desc) (f : Findings) :
    AddsOf .groupDescCsum f (descVerdict fs group) (checkDescCsum fs group desc f) := by
  unfold descVerdict checkDescCsum Findings.pushIf FsckReport.pushIf
  rw [h]
  dsimp only
  split
  · exact ⟨[_], rfl, rfl⟩
  · exact .refl f

theorem pass0Group_adds {group : Nat} (h : pass0Group fs f group = .ok f') :
    AddsOf .groupDescCsum f (descVerdict fs group) f' := by
  unfold pass0Group at h
  obtain ⟨_, -, h⟩ := bind_ok h
  split at h
  · next hnone =>
    cases h
    unfold descVerdict
    rw [hnone]
    exact AddsOf.refl f
  · next desc hdesc =>
    obtain ⟨_, -, h⟩ := bind_ok h
    cases h
    refine AddsOf.skip ?_ (checkDescCsum_adds hdesc _)
    have hpointer : ∀ (f : Findings) (x : String × Nat),
        AddsOf .groupDescCsum f [] (checkPointer fs.superblock group f x) :=
      fun f _ => .pushIf (by decide) _ f _ _ _
    have hpointers := AddsOf.foldl hpointer [("block bitmap", desc.blockBitmap),
      ("inode bitmap", desc.inodeBitmap), ("inode table", desc.inodeTable)]
      (f.claimRange (fs.groupFirstBlock group)
        (fs.groupFirstBlock group + fs.superOverhead group))
    generalize List.foldl _ _ _ = g at hpointers ⊢
    exact hpointers.of_report rfl rfl

theorem checkSuperblock_adds (h : checkSuperblock fs f = .ok f') :
    AddsOf .groupDescCsum f [] f' := by
  unfold checkSuperblock at h
  dsimp only at h
  split at h
  · cases h
    exact (AddsOf.pushIf (by decide) _ f _ _ _).skip (.pushIf (by decide) _ _ _ _ _)
  · obtain ⟨raw, -, h⟩ := bind_ok h
    cases h
    refine AddsOf.skip ?_ (.pushIf (by decide) _ _ _ _ _)
    exact (AddsOf.pushIf (by decide) _ f _ _ _).skip (.pushIf (by decide) _ _ _ _ _)

/-- The findings of pass 0 about checksums of descriptors are its verdicts on the groups. -/
theorem pass0_adds (h : pass0Superblock fs f = .ok f') : AddsOf .groupDescCsum f
    (if fs.superblock.blocksPerGroup = 0 ∨ fs.superblock.inodesPerGroup = 0 then []
      else (List.range fs.superblock.groupCount).flatMap (descVerdict fs)) f' := by
  unfold pass0Superblock at h
  dsimp only at h
  split at h
  · next hzero =>
    cases h
    rw [if_pos hzero]
    exact (AddsOf.pushIf (by decide) _ f _ _ _).skip (.push (by decide) _ _ _ _)
  · next hzero =>
    obtain ⟨f1, h1, h⟩ := bind_ok h
    obtain ⟨f2, h2, h⟩ := bind_ok h
    cases h
    have hgroups : AddsOf .groupDescCsum f1
        ((List.range fs.superblock.groupCount).flatMap (descVerdict fs)) f2 :=
      .foldlM (fun f _ f' hturn => pass0Group_adds hturn) h2
    rw [if_neg hzero]
    refine (AddsOf.pushIf (by decide) _ f _ _ _).skip ((checkSuperblock_adds h1).skip ?_)
    refine hgroups.of_report rfl ?_
    unfold claimLoose
    dsimp only
    split
    · rfl
    · rfl

/-- In an image, the verdict is about the bytes on disk with the reserved ones cleared. -/
theorem descVerdict_opened {dev : Device} (hopen : Opened dev fs) {group : Nat}
    (hg : group < fs.groupCount) (hscheme : fs.csumScheme ≠ .none) :
    ∃ problem : Problem, (∃ stored computed, problem = descCsumWrong group stored computed) ∧
      descVerdict fs group = if getU16 (fs.descOnDisk group) Csum.bgChecksumOffset ≠
        Csum.groupDescCsum fs.csumScheme fs.csumSeed fs.superblock.uuid group
          (clearReserved (fs.descOnDisk group)) then [problem] else [] := by
  unfold descVerdict
  rw [hopen.groupDescs_get hg]
  dsimp only
  rw [GroupDesc.encode_decode (descSize_cases _) (hopen.length_descOnDisk hg)]
  simp only [ne_eq, hscheme, not_false_eq_true, true_and]
  exact ⟨_, ⟨_, _, rfl⟩, rfl⟩

/-- Pass 0 reports a group's checksum exactly when the stored one is not that of the bytes on
    disk with the reserved ones cleared, in an image that it walks. -/
theorem reportsDescCsum_iff {dev : Device} (hopen : Opened dev fs) {group : Nat}
    (hg : group < fs.groupCount) (hscheme : fs.csumScheme ≠ .none)
    (h : pass0Superblock fs f = .ok f') :
    ReportsDescCsum f f' group ↔ fs.superblock.inodesPerGroup ≠ 0 ∧
      getU16 (fs.descOnDisk group) Csum.bgChecksumOffset ≠
        Csum.groupDescCsum fs.csumScheme fs.csumSeed fs.superblock.uuid group
          (clearReserved (fs.descOnDisk group)) := by
  have hadds := pass0_adds h
  have hblocks : fs.superblock.blocksPerGroup ≠ 0 := by
    intro hzero
    have hcount : fs.groupCount = 0 := if_pos hzero
    omega
  have hfound : ReportsDescCsum f f' group ↔ ∃ stored computed,
      descCsumWrong group stored computed ∈ if fs.superblock.blocksPerGroup = 0 ∨
        fs.superblock.inodesPerGroup = 0 then []
        else (List.range fs.superblock.groupCount).flatMap (descVerdict fs) :=
    exists_congr fun _ => exists_congr fun _ => hadds.mem_drop rfl
  rw [hfound]
  by_cases hinodes : fs.superblock.inodesPerGroup = 0
  · rw [if_pos (Or.inr hinodes)]
    exact iff_of_false (fun ⟨_, _, hmem⟩ => nomatch hmem) fun hrep => hrep.1 hinodes
  rw [if_neg (not_or.mpr ⟨hblocks, hinodes⟩), and_iff_right hinodes]
  constructor
  · rintro ⟨stored, computed, hmem⟩
    obtain ⟨n, hn, hverdict⟩ := List.mem_flatMap.mp hmem
    obtain ⟨_, ⟨_, _, rfl⟩, heq⟩ := descVerdict_opened hopen (List.mem_range.mp hn) hscheme
    rw [heq] at hverdict
    split at hverdict
    · next hbad =>
      obtain rfl := descCsumWrong_inj (List.mem_singleton.mp hverdict)
      exact hbad
    · cases hverdict
  · intro hbad
    obtain ⟨_, ⟨stored, computed, rfl⟩, heq⟩ := descVerdict_opened hopen hg hscheme
    refine ⟨stored, computed, List.mem_flatMap.mpr ⟨group, List.mem_range.mpr hg, ?_⟩⟩
    rw [heq, if_pos hbad]
    exact List.mem_singleton_self _

/-- Judging by the wrong value `right ^^^ added` comes to judging by `right` just in these cases. -/
theorem xor_verdict_iff {stored right added : Nat} :
    (stored ≠ right ^^^ added ↔ stored ≠ right) ↔
      added = 0 ∨ stored ≠ right ∧ stored ≠ right ^^^ added := by
  by_cases hzero : added = 0
  · rw [hzero, Nat.xor_zero]
    exact iff_of_true Iff.rfl (Or.inl rfl)
  have hdiff : right ^^^ added ≠ right := by
    intro heq
    exact hzero ((Nat.xor_right_inj).mp (heq.trans (Nat.xor_zero right).symm))
  constructor
  · intro hiff
    refine Or.inr ⟨fun heq => ?_, fun heq => ?_⟩
    · exact hiff.mp (fun hcl => hdiff (hcl.symm.trans heq)) heq
    · exact hiff.mpr (fun hr => hdiff (heq.symm.trans hr)) heq
  · rintro (hz | ⟨hne, hne'⟩)
    · exact absurd hz hzero
    · exact iff_of_true hne' hne

/-- Pass 0's verdict on a group's checksum is the one on the bytes that are on disk exactly when
    the bytes from 0x3c on add nothing to the checksum, or the stored one is neither the right
    one nor that without what they add. Of an image without inodes it gives none. -/
theorem desc_csum_verdict_iff {dev : Device} (hopen : openOn dev = .ok fs) {group : Nat}
    (hg : group < fs.groupCount) (hscheme : fs.csumScheme ≠ .none)
    (h : pass0Superblock fs f = .ok f') :
    let raw := fs.descOnDisk group
    let stored := getU16 raw Csum.bgChecksumOffset
    let right := Csum.groupDescCsum fs.csumScheme fs.csumSeed fs.superblock.uuid group raw
    let added := Csum.reservedCsum fs.csumScheme raw
    (ReportsDescCsum f f' group ↔ stored ≠ right) ↔
      if fs.superblock.inodesPerGroup = 0 then stored = right
      else added = 0 ∨ stored ≠ right ∧ stored ≠ right ^^^ added := by
  intro raw stored right added
  have hcleared : Csum.groupDescCsum fs.csumScheme fs.csumSeed fs.superblock.uuid group
      (clearReserved raw) = right ^^^ added := by
    have hright : right = Csum.groupDescCsum fs.csumScheme fs.csumSeed fs.superblock.uuid group
        (clearReserved raw) ^^^ added := Csum.groupDescCsum_cleared _ _ _ _ _
    rw [hright, Nat.xor_assoc, Nat.xor_self, Nat.xor_zero]
  rw [reportsDescCsum_iff (openOn_opened hopen) hg hscheme h, hcleared]
  split
  · next hnone =>
    simp only [hnone, ne_eq, not_true_eq_false, false_and, false_iff, not_not]
  · next hsome =>
    rw [and_iff_right hsome]
    exact xor_verdict_iff

/-! ### A descriptor with a byte of a later version -/

/-- One group of 16 blocks under `64bit` and `uninit_bg`. Its descriptor has a byte at 0x3c, and
    the checksum of its 64 bytes. -/
def futureImage : Device := .ofChunks 16384
  [(1024, [16, 0, 0, 0, 16]), (1024 + 0x14, [1]), (1024 + 0x21, [0x20]), (1024 + 0x28, [16]),
    (1024 + 0x38, [0x53, 0xef]), (1024 + 0x60, [0x80, 0, 0, 0, 0x10]), (1024 + 0xfe, [64]),
    (2048, [3, 0, 0, 0, 4, 0, 0, 0, 5]), (2048 + 0x1e, toLe 2 4614), (2048 + 0x3c, [1])]

/-- Its groups, whether they have no checksums, its inodes, the stored checksum, the right one
    and what the reserved bytes add, and whether pass 0 ends. -/
def futureRun : Option (Nat × Bool × List Nat × Bool) :=
  match openOn futureImage with
  | .error _ => none
  | .ok fs =>
    let raw := fs.descOnDisk 0
    some (fs.groupCount, decide (fs.csumScheme = .none),
      [fs.superblock.inodesPerGroup, getU16 raw Csum.bgChecksumOffset,
        Csum.groupDescCsum fs.csumScheme fs.csumSeed fs.superblock.uuid 0 raw,
        Csum.reservedCsum fs.csumScheme raw],
      (pass0Superblock fs ⟨{}, ScanState.new fs⟩).isOk)

theorem futureRun_eq : futureRun = some (1, false, [16, 4614, 4614, 64513], true) := by
  decide +kernel

theorem future_run : ∃ fs f f', openOn futureImage = .ok fs ∧ 0 < fs.groupCount ∧
    fs.csumScheme ≠ .none ∧ pass0Superblock fs f = .ok f' ∧
    fs.superblock.inodesPerGroup = 16 ∧ getU16 (fs.descOnDisk 0) Csum.bgChecksumOffset = 4614 ∧
    Csum.groupDescCsum fs.csumScheme fs.csumSeed fs.superblock.uuid 0 (fs.descOnDisk 0) = 4614 ∧
    Csum.reservedCsum fs.csumScheme (fs.descOnDisk 0) = 64513 := by
  have hrun := futureRun_eq
  unfold futureRun at hrun
  split at hrun
  · cases hrun
  · next fs hopen =>
    simp only [Option.some.injEq, Prod.mk.injEq, List.cons.injEq, decide_eq_false_iff_not,
      and_true] at hrun
    obtain ⟨hcount, hscheme, ⟨hinodes, hstored, hright, hadded⟩, hends⟩ := hrun
    cases hturn : pass0Superblock fs ⟨{}, ScanState.new fs⟩ with
    | ok f' =>
      exact ⟨fs, _, f', hopen, by omega, hscheme, hturn, hinodes, hstored, hright, hadded⟩
    | error e =>
      rw [hturn] at hends
      cases hends

theorem desc_csum_verdict_future : ∃ fs f f', openOn futureImage = .ok fs ∧
    let raw := fs.descOnDisk 0
    let stored := getU16 raw Csum.bgChecksumOffset
    let right := Csum.groupDescCsum fs.csumScheme fs.csumSeed fs.superblock.uuid 0 raw
    let added := Csum.reservedCsum fs.csumScheme raw
    (ReportsDescCsum f f' 0 ↔ stored ≠ right) ↔
      if fs.superblock.inodesPerGroup = 0 then stored = right
      else added = 0 ∨ stored ≠ right ∧ stored ≠ right ^^^ added := by
  obtain ⟨fs, f, f', hopen, hg, hscheme, hturn, -⟩ := future_run
  exact ⟨fs, f, f', hopen, desc_csum_verdict_iff hopen hg hscheme hturn⟩

/-- The verdict is not always the one on the disk: a descriptor with the checksum of its bytes
    is reported. -/
theorem desc_csum_refused : ¬ ∀ (dev : Device) (fs : Filesystem) (f f' : Findings) (group : Nat),
    openOn dev = .ok fs → group < fs.groupCount → fs.csumScheme ≠ .none →
    pass0Superblock fs f = .ok f' →
    (ReportsDescCsum f f' group ↔ getU16 (fs.descOnDisk group) Csum.bgChecksumOffset ≠
      Csum.groupDescCsum fs.csumScheme fs.csumSeed fs.superblock.uuid group
        (fs.descOnDisk group)) := by
  intro hall
  obtain ⟨fs, f, f', hopen, hg, hscheme, hturn, hinodes, hstored, hright, hadded⟩ := future_run
  have hclaim := hall futureImage fs f f' 0 hopen hg hscheme hturn
  have hreported : ReportsDescCsum f f' 0 := by
    have hcleared := Csum.groupDescCsum_cleared fs.csumScheme fs.csumSeed fs.superblock.uuid 0
      (fs.descOnDisk 0)
    rw [hright, hadded] at hcleared
    refine (reportsDescCsum_iff (openOn_opened hopen) hg hscheme hturn).mpr
      ⟨by rw [hinodes]; decide, fun heq => ?_⟩
    rw [← heq, hstored] at hcleared
    exact absurd hcleared (by decide)
  exact hclaim.mp hreported (hstored.trans hright.symm)

end Fsck

end MkfsExt4
