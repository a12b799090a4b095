/-
  The inodes of a formatted image (`write_reserved_inodes` of `src/format.rs` against
  `read_inode` of `src/fs.rs`).

  The inodes are gathered into the blocks of group 0's table, several to a block, and each block
  is written once. No two inodes of a block share a byte of it.
-/
import MkfsExt4.Format.Described

namespace MkfsExt4.Format

open Lib.Store Lib.Trace Lib.SortedMap Layout Filesystem

/-! ## Gathering -/

section Gathered

variable {plan : Plan} {table : Nat}

/-- An inode's place in its block of the table. -/
def inodeAt (plan : Plan) (inum : Nat) : Nat :=
  (inum - 1) * plan.geom.inodeSize % plan.geom.blockSize

/-- An inode as the formatter writes it. -/
def encoded (plan : Plan) (e : Nat × Inode) : List UInt8 :=
  e.2.encodeWithCsum plan.geom.inodeSize (plan.csumScheme = .crc32c) plan.csumSeed e.1

/-- A whole block of the table with an inode in its place. -/
def HoldsInode (plan : Plan) (e : Nat × Inode) (buf : List UInt8) : Prop :=
  buf.length = plan.geom.blockSize ∧
    slice buf (inodeAt plan e.1) plan.geom.inodeSize = encoded plan e

/-- No inode reaches past its block. -/
theorem inodeAt_le (hinode : plan.geom.inodeSize ∣ plan.geom.blockSize)
    (hb : 0 < plan.geom.blockSize) (inum : Nat) :
    inodeAt plan inum + plan.geom.inodeSize ≤ plan.geom.blockSize := by
  have hdvd : plan.geom.inodeSize ∣ inodeAt plan inum :=
    (Nat.dvd_mod_iff hinode).mpr (Nat.dvd_mul_left _ _)
  obtain ⟨c, hc⟩ := hinode
  obtain ⟨a, ha⟩ := hdvd
  have hlt : inodeAt plan inum < plan.geom.blockSize := Nat.mod_lt _ hb
  rw [ha, hc] at hlt ⊢
  rw [← Nat.mul_succ]
  exact Nat.mul_le_mul_left _ (Nat.lt_of_mul_lt_mul_left hlt)

/-- Two inodes of one block are apart in it. -/
theorem inodeAt_apart {i j : Nat} (hlt : i < j) (hi : 1 ≤ i)
    (hsame : inodeBlock plan table i = inodeBlock plan table j) :
    inodeAt plan i + plan.geom.inodeSize ≤ inodeAt plan j := by
  have hquot := Nat.add_left_cancel hsame
  have hdi := Nat.div_add_mod ((i - 1) * plan.geom.inodeSize) plan.geom.blockSize
  have hdj := Nat.div_add_mod ((j - 1) * plan.geom.inodeSize) plan.geom.blockSize
  rw [hquot] at hdi
  have hmul := Nat.mul_le_mul_right plan.geom.inodeSize (show i - 1 + 1 ≤ j - 1 by omega)
  rw [Nat.add_mul, Nat.one_mul] at hmul
  unfold inodeAt
  omega

/-- Putting an inode in a block makes it hold that one, and leaves it with the others. -/
theorem holds_withInode (hinode : plan.geom.inodeSize ∣ plan.geom.blockSize)
    (hb : 0 < plan.geom.blockSize) {e : Nat × Inode} {buf : List UInt8}
    (hlen : buf.length = plan.geom.blockSize) :
    HoldsInode plan e (withInode plan e buf) ∧ ∀ e', HoldsInode plan e' buf → e'.1 ≠ e.1 →
      1 ≤ e.1 → 1 ≤ e'.1 → inodeBlock plan table e'.1 = inodeBlock plan table e.1 →
      HoldsInode plan e' (withInode plan e buf) := by
  have hlen' : (withInode plan e buf).length = plan.geom.blockSize :=
    (length_splice _ _ _).trans hlen
  have hput := Inode.length_encodeWithCsum e.2 plan.geom.inodeSize (plan.csumScheme = .crc32c)
    plan.csumSeed e.1
  refine ⟨⟨hlen', slice_splice hput ?_⟩, fun e' hholds hne he he' hsame => ⟨hlen', ?_⟩⟩
  · rw [hlen]
    exact inodeAt_le hinode hb e.1
  · refine (slice_splice_disjoint ?_).trans hholds.2
    rw [hput]
    rcases Nat.lt_or_gt_of_ne hne with hlt | hgt
    · exact Or.inl (inodeAt_apart hlt he' hsame)
    · exact Or.inr (inodeAt_apart hgt he hsame.symm)

/-- Whole blocks of the table, one of each number, with the inodes in their places. -/
structure Gathered (plan : Plan) (table : Nat) (inodes : List (Nat × Inode))
    (blocks : List (Nat × List UInt8)) : Prop where
  sorted : (blocks.map Prod.fst).Pairwise (· < ·)
  whole : ∀ b buf, blocks.lookup b = some buf → buf.length = plan.geom.blockSize
  holds : ∀ e ∈ inodes, ∃ buf, blocks.lookup (inodeBlock plan table e.1) = some buf ∧
    HoldsInode plan e buf

/-- Gathering puts every inode in its block. -/
theorem gathered_holds (hinode : plan.geom.inodeSize ∣ plan.geom.blockSize)
    (hb : 0 < plan.geom.blockSize) {inodes : List (Nat × Inode)}
    (hnodup : (inodes.map Prod.fst).Nodup) (hpos : ∀ e ∈ inodes, 1 ≤ e.1) :
    Gathered plan table inodes (inodes.foldl (gatherInode plan table) []) := by
  induction inodes using List.reverseRecOn with
  | nil =>
    exact ⟨List.Pairwise.nil, fun b buf h => absurd h (Option.some_ne_none buf).symm,
      fun e he => absurd he List.not_mem_nil⟩
  | append_singleton inodes e ih =>
    rw [List.map_append] at hnodup
    obtain ⟨hnodup, -, hfresh⟩ := List.nodup_append.mp hnodup
    obtain ⟨hsorted, hwhole, hholds⟩ := ih hnodup fun e he => hpos e (List.mem_append_left _ he)
    rw [List.foldl_append, List.foldl_cons, List.foldl_nil]
    generalize inodes.foldl (gatherInode plan table) [] = blocks at hsorted hwhole hholds ⊢
    -- The block the inode is put in: the one gathered so far, or zeroes.
    have hbuf : ((blocks.lookup (inodeBlock plan table e.1)).getD
        (List.replicate plan.geom.blockSize 0)).length = plan.geom.blockSize := by
      cases hfound : blocks.lookup (inodeBlock plan table e.1) with
      | none => exact List.length_replicate ..
      | some buf => exact hwhole _ _ hfound
    obtain ⟨hown, hothers⟩ := @holds_withInode plan table hinode hb e _ hbuf
    have hlookup : ∀ b, (gatherInode plan table blocks e).lookup b =
        if b = inodeBlock plan table e.1 then some (withInode plan e
          ((blocks.lookup (inodeBlock plan table e.1)).getD
            (List.replicate plan.geom.blockSize 0))) else blocks.lookup b :=
      fun b => lookup_insert _ _ _ b
    refine ⟨sorted_insert hsorted, fun b buf h => ?_, fun e' he' => ?_⟩
    · rw [hlookup] at h
      split at h
      · obtain rfl := Option.some.inj h
        exact hown.1
      · exact hwhole b buf h
    · rw [hlookup]
      rcases List.mem_append.mp he' with he' | he'
      · obtain ⟨buf, hfound, hbefore⟩ := hholds e' he'
        have hne : e'.1 ≠ e.1 := hfresh _ (List.mem_map_of_mem he') _ List.mem_cons_self
        split
        · next hsame =>
          rw [hsame] at hfound
          rw [hfound] at hothers ⊢
          exact ⟨_, rfl, hothers e' hbefore hne
            (hpos e (List.mem_append_right _ List.mem_cons_self))
            (hpos e' (List.mem_append_left _ he')) hsame⟩
        · exact ⟨buf, hfound, hbefore⟩
      · obtain rfl := List.mem_singleton.mp he'
        rw [if_pos rfl]
        exact ⟨_, rfl, hown⟩

end Gathered

/-! ## The table in the end -/

theorem reservedInodes_nodup {plan : Plan} (horphan : ∀ inum ∈ plan.orphanInode, inum = 12)
    {inodes : List (Nat × Inode)} (h : reservedInodes plan = .ok inodes) :
    (inodes.map Prod.fst).Nodup ∧ ∀ e ∈ inodes, 1 ≤ e.1 ∧ e.1 ≤ 12 := by
  have hinums := reservedInodes_inums h
  obtain ⟨lostFound, -, h⟩ := Lib.Hoare.bind_ok h
  obtain rfl := Except.ok.inj h
  have hmap : ∀ inums : List Nat, (inums.map (·, orphanInode plan)).map Prod.fst = inums := by
    intro inums
    rw [List.map_map]
    exact List.map_id _
  constructor
  · rw [List.map_append, hmap]
    cases hinum : plan.orphanInode with
    | none =>
      show ([Ino.bad, Ino.root, Ino.usrQuota, Ino.grpQuota, Ino.bootLoader, Ino.undelDir,
        Ino.exclude, Ino.replica, Ino.resize, Ino.journal, goodOldFirstIno] ++ []).Nodup
      decide
    | some inum =>
      obtain rfl := horphan inum hinum
      show ([Ino.bad, Ino.root, Ino.usrQuota, Ino.grpQuota, Ino.bootLoader, Ino.undelDir,
        Ino.exclude, Ino.replica, Ino.resize, Ino.journal, goodOldFirstIno] ++ [12]).Nodup
      decide
  · intro e he
    rcases List.mem_append.mp ((hinums e.1).mp (List.mem_map_of_mem he)) with hin | hin
    · have := List.mem_range'_1.mp hin
      omega
    · rw [horphan e.1 (Option.mem_toList.mp hin)]
      decide

section Left

variable {plan : Plan} (h : plan.Sound) (hinode : plan.geom.inodeSize ∣ plan.geom.blockSize)
  {lay : GroupLayout} (hlay : plan.geom.group 0 = .ok lay) {inodes : List (Nat × Inode)}
  (hinodes : reservedInodes plan = .ok inodes) {e : Nat × Inode} (he : e ∈ inodes)

include h hinode hlay hinodes he

theorem Plan.Sound.leaves_inode : Leaves plan.geom.blockSize (inodeBlock plan lay.inodeTable e.1)
    (HoldsInode plan e) (writeReservedInodes plan) := by
  obtain ⟨hnodup, hrange⟩ := reservedInodes_nodup h.orphanInode hinodes
  refine leaves_last fun lay' hlay' => ?_
  obtain rfl : lay = lay' := Except.ok.inj (hlay.symm.trans (returned_ok hlay'))
  refine leaves_last fun inodes' hinodes' => ?_
  obtain rfl : inodes = inodes' := Except.ok.inj (hinodes.symm.trans (returned_ok hinodes'))
  obtain ⟨hsorted, hwhole, hholds⟩ := @gathered_holds plan lay.inodeTable hinode h.blockSize_pos
    inodes hnodup fun e he => (hrange e he).1
  obtain ⟨buf, hfound, hbuf⟩ := hholds e he
  -- Each block is written once, so the one that is found is the one that stays.
  have hwrite : ∀ c ∈ inodes.foldl (gatherInode plan lay.inodeTable) [],
      c.1 = inodeBlock plan lay.inodeTable e.1 → Leaves plan.geom.blockSize
        (inodeBlock plan lay.inodeTable e.1) (HoldsInode plan e) (writeBlock plan c.1 c.2) := by
    intro c hc hkey
    have hsame := lookup_of_mem hsorted hc
    rw [hkey, hfound] at hsame
    rw [hkey, ← Option.some.inj hsame]
    exact leaves_writeBlock hbuf.1 hbuf
  refine leaves_forM h.blockSize_pos ⟨_, mem_of_lookup hfound,
    hwrite _ (mem_of_lookup hfound) rfl⟩ fun c hc => ?_
  by_cases hkey : c.1 = inodeBlock plan lay.inodeTable e.1
  · exact Or.inl (hwrite c hc hkey)
  · exact Or.inr (skips_writeBlock (hwhole c.1 c.2 (lookup_of_mem hsorted hc)) fun heq =>
      hkey heq.symm)

theorem Plan.Sound.leaves_inode_at_end (chunkBlocks : Nat) (schedule : Nat → List Nat) :
    Leaves plan.geom.blockSize (inodeBlock plan lay.inodeTable e.1) (HoldsInode plan e)
      (writeFilesystemChunked plan chunkBlocks schedule) := by
  have hunder : HoldsInodes plan (inodeBlock plan lay.inodeTable e.1) :=
    ⟨lay, hlay, e.1, (reservedInodes_inums hinodes e.1).mp (List.mem_map_of_mem he), rfl⟩
  refine h.leaves_of_files (fun g hg hsuper =>
    h.free_ne_front (h.free_of_holdsInodes hunder) hg hsuper) ?_
  exact leaves_last fun _ _ => leaves_last fun _ _ => leaves_last fun _ _ => leaves_last fun _ _ =>
    leaves_last fun _ _ => h.leaves_inode hinode hlay hinodes he

end Left

section Read

variable {plan : Plan} {chunkBlocks : Nat} {schedule : Nat → List Nat} {dev dev' : Device}
  {report : Report} {fs : Filesystem} (h : Image plan chunkBlocks schedule dev report dev' fs)

include h

theorem Image.inodeSize_dvd : plan.geom.inodeSize ∣ plan.geom.blockSize := by
  obtain ⟨i, hi, -⟩ := h.inodeSize
  obtain ⟨b, hb, -⟩ := h.sound.blockSize
  have hle := h.inode_le
  rw [hi, hb] at hle ⊢
  exact Nat.pow_dvd_pow 2 ((Nat.pow_le_pow_iff_right (by decide)).mp hle)

theorem Image.reserved : ∃ inodes, reservedInodes plan = .ok inodes := by
  obtain ⟨hresult, -⟩ := device_of_writePlan h.written
  obtain ⟨free, hcontents, -⟩ := bind_ok hresult
  obtain ⟨_, -, hrest, -⟩ := bind_ok hcontents
  obtain ⟨_, -, hrest, -⟩ := bind_ok hrest
  obtain ⟨_, hfiles, -⟩ := bind_ok hrest
  obtain ⟨_, -, hrest, -⟩ := bind_ok hfiles
  obtain ⟨_, -, hrest, -⟩ := bind_ok hrest
  obtain ⟨_, -, hrest, -⟩ := bind_ok hrest
  obtain ⟨_, -, hrest, -⟩ := bind_ok hrest
  obtain ⟨_, -, hrest, -⟩ := bind_ok hrest
  obtain ⟨lay, -, hrest, -⟩ := bind_ok hrest
  obtain ⟨inodes, hinodes, -⟩ := bind_ok hrest
  exact ⟨inodes, returned_ok hinodes⟩

/-- An inode of the formatter is read back from the bytes it was encoded to. -/
theorem Image.inode_read (hapart : plan.RunsApart) (hfound : plan.TableFound)
    {inodes : List (Nat × Inode)} (hinodes : reservedInodes plan = .ok inodes) {e : Nat × Inode}
    (he : e ∈ inodes) : fs.readInode e.1 = readBack plan e.1 e.2 := by
  have hb := h.sound.blockSize_pos
  have hcount := h.sound.computed.groupCount_pos
  obtain ⟨state, hstate⟩ := h.built hcount
  obtain ⟨desc, hget, -, -, htable, -⟩ :=
    h.desc_read hfound (h.sound.partsLast hapart _) hcount hstate
  obtain ⟨⟨lay, hlay, -, -, hstart⟩, -⟩ := buildGroup_ok hstate
  obtain ⟨-, hrange⟩ := reservedInodes_nodup h.sound.orphanInode hinodes
  obtain ⟨hlow, hhigh⟩ := hrange e he
  have hgroup0 := h.sound.group0
  have hunder : HoldsInodes plan (inodeBlock plan lay.inodeTable e.1) :=
    ⟨lay, hlay, e.1, (reservedInodes_inums hinodes e.1).mp (List.mem_map_of_mem he), rfl⟩
  have hblock := (h.sound.free_of_holdsInodes hunder).lt_blocksCount
  obtain ⟨buf, hread, hlen, -, hslice⟩ := h.read hblock
    (h.sound.leaves_inode_at_end h.inodeSize_dvd hlay hinodes he chunkBlocks schedule)
  obtain ⟨-, -, hipg, -⟩ := h.geometry
  have hinodeSize : fs.superblock.inodeSize = plan.geom.inodeSize := by
    obtain ⟨checksum, hsb⟩ := h.superblock
    rw [hsb]
    rfl
  have hinodesCount : fs.superblock.inodesCount = plan.geom.inodesCount := by
    obtain ⟨checksum, hsb⟩ := h.superblock
    rw [hsb]
    rfl
  have hblockSize : fs.superblock.blockSize = plan.geom.blockSize := h.mounts.blockSize
  -- It is in group 0, where the descriptor says its table is.
  have hloc : fs.inodeLocation e.1 = .ok (0, inodeBlock plan lay.inodeTable e.1,
      inodeAt plan e.1) := by
    have hmany := Nat.mul_le_mul_right plan.geom.inodesPerGroup hcount
    rw [h.inodesCount] at hmany
    have hsmall : inodeBlock plan lay.inodeTable e.1 < 2 ^ 64 := by
      have := h.covers
      have := Nat.mul_le_mul_left plan.geom.blocksCount hb
      have := h.size
      omega
    unfold inodeLocation
    dsimp only
    rw [hinodesCount, if_neg (by omega), hipg, hblockSize, hinodeSize, Nat.div_eq_of_lt (by omega),
      Nat.mod_eq_of_lt (by omega), hget]
    refine panicIf_bind_ok_iff.mpr ⟨by omega, ?_⟩
    dsimp only
    rw [htable, hstart]
    exact panicIf_bind_ok_iff.mpr ⟨Nat.not_le.mpr hsmall, rfl⟩
  have hroom := inodeAt_le h.inodeSize_dvd hb e.1
  have hraw : fs.readInodeRaw e.1 = .ok (encoded plan e) := by
    unfold readInodeRaw
    rw [Lib.Hoare.bind_of_ok hloc]
    dsimp only
    rw [Lib.Hoare.bind_of_ok hread, hinodeSize]
    exact panicIf_bind_ok_iff.mpr ⟨by omega, congrArg Except.ok hslice⟩
  unfold readInode
  rw [Lib.Hoare.bind_of_ok hraw, hinodeSize]
  rfl

end Read

end MkfsExt4.Format
