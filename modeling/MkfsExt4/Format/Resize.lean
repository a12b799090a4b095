/-
  What the resize inode reaches (`write_resize_inode_blocks` in `src/format.rs`, walked by
  `walk_blocks` in `src/fs.rs`).

  Its double indirect block lists the reserved descriptor blocks of group 0, and each of those
  lists its copies in the backup groups, as many as a block has pointers for.
  `resize_inode_blocks` counts every copy. Proved: the two agree, and what is reached is what the
  inode is there for, exactly when there are no more backup groups than that
  (`resizeMapped_iff`).
-/
import Mathlib.Data.List.Perm.Basic
import MkfsExt4.Format.Mapped
import MkfsExt4.Format.Mounted
import MkfsExt4.Format.Schedule
import MkfsExt4.Layout.Total
import MkfsExt4.Read.Pointers
import MkfsExt4.Read.Resolve

namespace MkfsExt4.Format

open Lib.Store Lib.Trace Layout Filesystem

/-- Block `off` of the reserved area of group `g`. -/
def reservedAt (geom : Geometry) (off g : Nat) : Nat :=
  geom.groupFirstBlock g + 1 + geom.descBlocks + off

/-- The blocks in the reserved area of group `g`, behind its superblock copy and descriptors. -/
def InReserved (geom : Geometry) (g b : Nat) : Prop :=
  geom.groupFirstBlock g + 1 + geom.descBlocks ≤ b ∧
    b < geom.groupFirstBlock g + 1 + geom.descBlocks + geom.reservedGdtBlocks ∧
    b ≤ geom.groupLastBlock g

/-- The resize inode's blocks, with the copies of the reserved blocks in `groups`. -/
def resizeBlocksIn (geom : Geometry) (dind : Nat) (groups : List Nat) : List Nat :=
  dind :: (List.range geom.reservedGdtBlocks).flatMap fun off =>
    (0 :: groups).map (reservedAt geom off)

/-- The physical blocks a walk visits. -/
def reachedBlocks (fs : Filesystem) (inode : Inode) : List Nat :=
  (fs.walkBlocks inode).1.map (·.physical)

/-- The resize inode maps its double indirect block and the reserved descriptor blocks of group 0
and of every backup group, each once, and counts them in sectors. -/
structure ResizeMapped (fs : Filesystem) (geom : Geometry) (dind : Nat) (inode : Inode) : Prop where
  ends : (fs.walkBlocks inode).2 = .ok ()
  reached : (reachedBlocks fs inode).Perm (resizeBlocksIn geom dind (backupGroups geom))
  once : (reachedBlocks fs inode).Nodup
  area : ∀ g ∈ 0 :: backupGroups geom, ∀ off < geom.reservedGdtBlocks,
    InReserved geom g (reservedAt geom off g)
  counted : inode.blocks * 512 = (reachedBlocks fs inode).length * geom.blockSize

theorem length_resizeBlocksIn (geom : Geometry) (dind : Nat) (groups : List Nat) :
    (resizeBlocksIn geom dind groups).length =
      1 + geom.reservedGdtBlocks * (1 + groups.length) := by
  simp only [resizeBlocksIn, List.length_cons, List.length_flatMap, List.length_map,
    List.map_const', List.length_range, List.sum_replicate_nat]
  rw [Nat.add_comm 1 groups.length, Nat.add_comm]

/-- The groups with a superblock copy, group 0 first. -/
theorem backups_sublist {geom : Geometry} (h : 0 < geom.groupCount) :
    (0 :: backupGroups geom).Sublist (List.range geom.groupCount) := by
  obtain ⟨n, hn⟩ := Nat.exists_eq_succ_of_ne_zero (Nat.ne_of_gt h)
  rw [backupGroups, hn, List.range_succ_eq_map, List.filter_cons_of_neg (by simp)]
  exact List.Sublist.cons_cons 0 List.filter_sublist

theorem super_of_mem_backups {geom : Geometry} (h : 0 < geom.groupCount) {g : Nat}
    (hg : g ∈ 0 :: backupGroups geom) : g < geom.groupCount ∧ geom.hasSuper g = true := by
  refine ⟨List.mem_range.mp ((backups_sublist h).mem hg), ?_⟩
  rcases List.mem_cons.mp hg with rfl | hg
  · exact geom.hasSuper_le_one (Nat.zero_le 1)
  · exact (Bool.and_eq_true_iff.mp (List.mem_filter.mp hg).2).2

/-! ## Room for the reserved blocks -/

/-- With blocks reserved the counted groups end below block 2^32, which is as far as a filesystem
is reserved for. -/
theorem groups_lt_of_reserved {sizeBytes : Nat} {params : Params} {geom : Geometry} {req : Request}
    {start s : Nat × Nat} {grp : Groups} (h : geom.From sizeBytes params req start s grp)
    (hreserved : 0 < geom.reservedGdtBlocks) :
    geom.firstDataBlock + geom.groupCount * geom.blocksPerGroup < 2 ^ 32 ∧
      geom.reservedGdtBlocks ≤ geom.blockSize / 4 := by
  obtain ⟨descSize, hmade, hfin⟩ := h.made
  have hset := h.settles
  have hcount : geom.groupCount = req.groupCountAt s := by rw [hfin.groupCount, hset.eq]; rfl
  have hsize : geom.blocksPerGroup = s.2 := by rw [hfin.blocksPerGroup, hset.eq]; rfl
  have hpos : 0 < s.2 := Nat.pos_of_ne_zero hset.size_ne
  have hper : 0 < req.descPerBlock := by
    have := hmade.descPerBlock_bounds
    omega
  have hres : geom.reservedGdtBlocks ≤ req.reservedGdtAt s := by
    rw [hfin.reservedGdt, hset.eq]
    split
    · exact Nat.zero_le _
    · exact Nat.le_refl _
  unfold Request.reservedGdtAt Request.reservedGdt at hres
  split at hres
  · unfold calcReservedGdtBlocks at hres
    dsimp only at hres
    have hmax : (if s.1 < (2 ^ 32 - 1) / 1024 then s.1 * 1024 else 2 ^ 32 - 1) < 2 ^ 32 := by
      split <;> omega
    generalize (if s.1 < (2 ^ 32 - 1) / 1024 then s.1 * 1024 else 2 ^ 32 - 1) = most at hres hmax
    have hdesc : req.groupCountAt s ≤ req.descBlocksAt s * req.descPerBlock :=
      (divCeil_le_iff hper).mp (Nat.le_refl _)
    have hgroups : ¬divCeil (divCeil (most - req.firstDataBlock) s.2) req.descPerBlock ≤
        req.descBlocksAt s := by
      have := Nat.mod_le (divCeil (divCeil (most - req.firstDataBlock) s.2) req.descPerBlock)
        (2 ^ 32)
      omega
    rw [divCeil_le_iff hper] at hgroups
    have hblocks := (lt_divCeil_iff hpos).mp (show req.groupCountAt s <
      divCeil (most - req.firstDataBlock) s.2 by omega)
    rw [hfin.firstDataBlock, hcount, hsize, hfin.blockSize]
    omega
  · omega

/-- Where the group count is exact, the groups hold every block. -/
theorem blocks_le_groups {sizeBytes : Nat} {params : Params} {geom : Geometry} {req : Request}
    {start s : Nat × Nat} {descSize : Nat} {grp : Groups} (htyped : params.Typed)
    (hreq : computeRequest sizeBytes params = .ok (req, start, descSize))
    (h : geom.From sizeBytes params req start s grp) (hfew : FewGroups sizeBytes params) :
    geom.blocksCount ≤ geom.firstDataBlock + geom.groupCount * geom.blocksPerGroup := by
  obtain ⟨_, hmade, hfin⟩ := h.made
  have hset := h.settles
  have hlt := h.visits.invariant (fun _ _ hn => hn.needed_lt hmade.blockSize_bounds.1
    (hmade.requested_bounds htyped).2) (hfew _ _ _ hreq)
  have hcount : geom.groupCount = req.groupsNeeded s := by
    rw [hfin.groupCount, hset.eq]
    exact Nat.mod_eq_of_lt hlt
  have hsize : geom.blocksPerGroup = s.2 := by rw [hfin.blocksPerGroup, hset.eq]; rfl
  have hblocks : geom.blocksCount = s.1 := by rw [hfin.blocksCount, hset.eq]; rfl
  have hfits := Layout.le_divCeil_mul (s.1 - req.firstDataBlock) (Nat.pos_of_ne_zero hset.size_ne)
  rw [hcount, hsize, hblocks, hfin.firstDataBlock, Request.groupsNeeded]
  omega

/-! ## The walk -/

/-- The resize inode as it is read: a file whose only pointer is the double indirect one. -/
structure OverDind (inode : Inode) (dind : Nat) : Prop where
  mode : inode.mode = Mode.ifreg ||| 0o600
  flags : inode.flags = 0
  pointers : inode.blockPointers = List.replicate (ndirBlocks + 1) 0 ++ [dind % 2 ^ 32, 0]

theorem walkIndirectSlot_null {fs : Filesystem} {pointers : List Nat} {slot depth base : Nat}
    (hzero : pointers.getD slot 0 = 0) (hfits : base + fs.perBlock ^ depth < 2 ^ 64) :
    fs.walkIndirectSlot pointers slot depth base = Walk.done () := by
  rw [walkIndirectSlot]
  refine (if_pos hzero).trans ?_
  rw [panicIf, if_neg (Nat.not_le.mpr hfits)]
  rfl

theorem OverDind.walkBlocks {fs : Filesystem} {inode : Inode} {dind : Nat} (h : OverDind inode dind)
    (hfits : SpansFit fs.perBlock) :
    fs.walkBlocks inode = if dind % 2 ^ 32 = 0 then ([], .ok ()) else
      (mapRef (dind % 2 ^ 32) ::
          (fs.walkIndirectLevel 2 (dind % 2 ^ 32) (ndirBlocks + fs.perBlock)).1,
        (fs.walkIndirectLevel 2 (dind % 2 ^ 32) (ndirBlocks + fs.perBlock)).2) := by
  have hmap : inode.hasBlockMap = true := by
    rw [Inode.hasBlockMap, Inode.fileType, h.mode]
    rfl
  have hext : inode.usesExtents = false := by
    rw [Inode.usesExtents, h.flags]
    rfl
  have hinline : inode.inlineData = false := by
    rw [Inode.inlineData, h.flags]
    rfl
  have hdirect : ((List.range ndirBlocks).map fun i => (i, inode.blockPointers.getD i 0)).filter
      (fun p => p.2 ≠ 0) = [] := by
    rw [h.pointers]
    rfl
  have hsingle : inode.blockPointers.getD ndirBlocks 0 = 0 := by
    rw [h.pointers]
    rfl
  have hroot : inode.blockPointers.getD (ndirBlocks + 1) 0 = dind % 2 ^ 32 := by
    rw [h.pointers]
    rfl
  have htriple : inode.blockPointers.getD (ndirBlocks + 2) 0 = 0 := by
    rw [h.pointers]
    rfl
  unfold SpansFit at hfits
  have hdouble : ndirBlocks + fs.perBlock + fs.perBlock ^ 2 < 2 ^ 64 := by omega
  rw [Filesystem.walkBlocks, if_neg (by simp [hmap, hinline]), if_neg (by simp [hext]),
    walkIndirect, hdirect, walkIndirectSlot_null hsingle (by rw [pow_one]; omega),
    walkIndirectSlot_null htriple hfits]
  split
  · next hzero =>
    rw [walkIndirectSlot_null (hroot.trans hzero) hdouble]
    rfl
  · next hne =>
    rw [walkIndirectSlot, hroot, if_neg hne]
    generalize fs.walkIndirectLevel 2 (dind % 2 ^ 32) (ndirBlocks + fs.perBlock) = w
    obtain ⟨refs, _ | _⟩ := w <;> simp [Walk.andThen, Walk.visit, Walk.done]

/-- Every pointer a walk comes by has 32 bits. -/
theorem walkIndirectLevel_lt {fs : Filesystem} {d block base : Nat} {refs : List BlockRef}
    (h : fs.walkIndirectLevel (d + 1) block base = (refs, .ok ())) :
    ∀ r ∈ refs, r.physical < 2 ^ 32 := by
  have hpointers : ∀ {buf : List UInt8} {q : Nat × Nat}, q ∈ pointersOf fs.perBlock buf →
      q.2 < 2 ^ 32 := by
    intro buf ⟨i, p⟩ hq
    obtain ⟨-, rfl, -⟩ := mem_pointersOf.mp hq
    exact getU32_lt _ _
  induction d generalizing block base refs with
  | zero =>
    obtain ⟨buf, hread, -, hrefs, -, -⟩ := walkIndirectLevel_eq h
    rw [hrefs rfl]
    intro r hr
    obtain ⟨q, hq, rfl⟩ := List.mem_map.mp hr
    exact hpointers hq
  | succ d ih =>
    obtain ⟨buf, hread, -, -, hrefs, hok⟩ := walkIndirectLevel_eq h
    rw [hrefs (Nat.succ_ne_zero d)]
    intro r hr
    rcases List.mem_append.mp hr with hr | hr
    · obtain ⟨p, hp, rfl⟩ := List.mem_map.mp hr
      obtain ⟨q, hq, rfl⟩ := List.mem_map.mp hp
      exact hpointers hq
    · obtain ⟨q, hq, hr⟩ := List.mem_flatMap.mp hr
      exact ih (Prod.ext rfl (hok (Nat.succ_ne_zero d) q (List.mem_reverse.mp hq))) r hr

theorem OverDind.reached_lt {fs : Filesystem} {inode : Inode} {dind : Nat} (h : OverDind inode dind)
    (hfits : SpansFit fs.perBlock) (hends : (fs.walkBlocks inode).2 = .ok ()) :
    ∀ b ∈ reachedBlocks fs inode, b < 2 ^ 32 := by
  have hwalk := @OverDind.walkBlocks fs inode dind h hfits
  intro b hb
  rw [reachedBlocks] at hb
  rw [hwalk] at hb hends
  split at hb
  · cases hb
  · next hne =>
    rw [if_neg hne] at hends
    obtain ⟨r, hr, rfl⟩ := List.mem_map.mp hb
    rcases List.mem_cons.mp hr with rfl | hr
    · exact Nat.mod_lt _ (Nat.two_pow_pos 32)
    · exact walkIndirectLevel_lt (Prod.ext rfl hends) r hr

section Reached

variable {plan : Plan} (h : plan.Sound) (hreserved : 0 < plan.geom.reservedGdtBlocks)

include h

theorem Plan.Sound.spansFit {fs : Filesystem} (hsize : fs.blockSize = plan.geom.blockSize) :
    SpansFit fs.perBlock := by
  obtain ⟨k, hk, -, hle⟩ := h.blockSize
  refine spansFit_of_le ?_
  rw [hsize, hk]
  exact Nat.pow_le_pow_right Nat.two_pos (by omega)

theorem Plan.Sound.reservedGdtBlock_eq (off : Nat) :
    reservedGdtBlock plan.geom off = reservedAt plan.geom off 0 := by
  rw [Format.reservedGdtBlock_eq h.firstDataBlock, reservedAt, Geometry.groupFirstBlock_zero]

theorem Plan.Sound.copy_eq (off g : Nat) : reservedGdtBlock plan.geom off +
    g * plan.geom.blocksPerGroup = reservedAt plan.geom off g := by
  rw [Format.reservedGdtBlock_eq h.firstDataBlock, reservedAt, Geometry.groupFirstBlock]
  omega

include hreserved

theorem Plan.Sound.classic_of_reserved : plan.geom.metaBg = false ∧
    plan.geom.descBlocks + plan.geom.reservedGdtBlocks + 1 ≤ plan.geom.blocksPerGroup := by
  cases hm : plan.geom.metaBg with
  | false => exact ⟨rfl, h.computed.classic hm⟩
  | true =>
    have := (h.computed.distributed hm).1
    omega

/-- The reserved area of a group ends with the group at the latest. -/
theorem Plan.Sound.reservedAt_lt {g off : Nat} (hg : g < plan.geom.groupCount)
    (hoff : off < plan.geom.reservedGdtBlocks) : reservedAt plan.geom off g <
      plan.geom.firstDataBlock + plan.geom.groupCount * plan.geom.blocksPerGroup := by
  have hroom := (h.classic_of_reserved hreserved).2
  have hnext := Nat.mul_le_mul_right plan.geom.blocksPerGroup hg
  rw [Nat.succ_mul] at hnext
  rw [reservedAt, Geometry.groupFirstBlock]
  omega

variable {fs : Filesystem} {dind base : Nat} (hblockSize : fs.blockSize = plan.geom.blockSize)
  (hgroups : plan.geom.firstDataBlock + plan.geom.groupCount * plan.geom.blocksPerGroup < 2 ^ 32)
  (hcopies : ∀ off < plan.geom.reservedGdtBlocks,
    fs.readBlock (reservedGdtBlock plan.geom off) = .ok (reservedGdtContents plan.geom off))

include hblockSize hgroups hcopies

/-- The walk of a reserved block visits its copies, as many as were listed. -/
theorem Plan.Sound.walk_reserved {off : Nat} (hoff : off < plan.geom.reservedGdtBlocks)
    (hfits : base + fs.perBlock < 2 ^ 64) :
    (fs.walkIndirectLevel 1 (reservedGdtBlock plan.geom off) base).2 = .ok () ∧
      (fs.walkIndirectLevel 1 (reservedGdtBlock plan.geom off) base).1.map (·.physical) =
        ((backupGroups plan.geom).take (plan.geom.blockSize / 4)).map fun g =>
          reservedGdtBlock plan.geom off + g * plan.geom.blocksPerGroup := by
  have hvalid : ∀ e ∈ ((backupGroups plan.geom).take (plan.geom.blockSize / 4)).map (fun g =>
      reservedGdtBlock plan.geom off + g * plan.geom.blocksPerGroup), 0 < e ∧ e < 2 ^ 32 := by
    intro e he
    obtain ⟨g, hg, rfl⟩ := List.mem_map.mp he
    have hg := List.mem_range.mp (List.mem_filter.mp (List.mem_of_mem_take hg)).1
    have hlt := h.reservedAt_lt hreserved hg hoff
    rw [h.copy_eq]
    rw [reservedAt] at hlt ⊢
    omega
  have hpointers := @pointersOf_putU32s fs.perBlock plan.geom.blockSize _ hvalid (by
    rw [List.length_map, List.length_take, perBlock, hblockSize]
    exact Nat.min_le_left _ _) (by rw [perBlock, hblockSize]; exact Nat.div_mul_le_self _ 4)
  rw [walkIndirectLevel_leaf (hcopies off hoff) hfits, reservedGdtContents, pointerBlock,
    hpointers]
  refine ⟨rfl, ?_⟩
  rw [List.map_map, List.map_map]
  exact List.zipIdx_map_fst 0 _

theorem Plan.Sound.walk_dind (hper : plan.geom.reservedGdtBlocks ≤ plan.geom.blockSize / 4)
    (hdind : fs.readBlock dind = .ok (resizeDindContents plan.geom))
    (hfits : base + fs.perBlock ^ 2 < 2 ^ 64) :
    (fs.walkIndirectLevel 2 dind base).2 = .ok () ∧
      ((mapRef dind :: (fs.walkIndirectLevel 2 dind base).1).map (·.physical)).Perm
        (resizeBlocksIn plan.geom dind
          ((backupGroups plan.geom).take (plan.geom.blockSize / 4))) := by
  have hn : 0 < plan.geom.blockSize / 4 := Nat.lt_of_lt_of_le hreserved hper
  -- No two reserved blocks are listed in one slot.
  have hslots : ((List.range plan.geom.reservedGdtBlocks).map fun off =>
      (plan.geom.descBlocks + off) % (plan.geom.blockSize / 4)).Nodup := by
    refine List.Nodup.map_on (fun i hi j hj heq => ?_) List.nodup_range
    have hi := List.mem_range.mp hi
    have hj := List.mem_range.mp hj
    have hmod : i % (plan.geom.blockSize / 4) = j % (plan.geom.blockSize / 4) :=
      Nat.ModEq.add_left_cancel' plan.geom.descBlocks heq
    rwa [Nat.mod_eq_of_lt (by omega), Nat.mod_eq_of_lt (by omega)] at hmod
  have hpointers := @pointersOf_scattered (fun off =>
    (plan.geom.descBlocks + off) % (plan.geom.blockSize / 4)) (reservedGdtBlock plan.geom)
    (plan.geom.blockSize / 4) plan.geom.blockSize (List.range plan.geom.reservedGdtBlocks)
    (Nat.div_mul_le_self _ 4) hslots (by
      intro off hoff
      have hlt := h.reservedAt_lt hreserved h.computed.groupCount_pos (List.mem_range.mp hoff)
      rw [h.reservedGdtBlock_eq]
      refine ⟨Nat.mod_lt _ hn, ?_, by omega⟩
      rw [reservedAt]
      omega)
  have hbuf : pointersOf fs.perBlock (resizeDindContents plan.geom) =
      pointersOf (plan.geom.blockSize / 4) (resizeDindContents plan.geom) := by
    rw [perBlock, hblockSize]
  rw [← resizeDindContents, ← hbuf] at hpointers
  have hwalk : ∀ q ∈ pointersOf fs.perBlock (resizeDindContents plan.geom),
      (fs.walkIndirectLevel 1 q.2 (base + q.1 * fs.perBlock ^ 1)).2 = .ok () ∧
        (fs.walkIndirectLevel 1 q.2 (base + q.1 * fs.perBlock ^ 1)).1.map (·.physical) =
          ((backupGroups plan.geom).take (plan.geom.blockSize / 4)).map fun g =>
            q.2 + g * plan.geom.blocksPerGroup := by
    rintro ⟨i, p⟩ hq
    have hentry := entry_fits hfits (mem_pointersOf.mp hq).1
    obtain ⟨off, hoff, heq⟩ := List.mem_map.mp (hpointers.mem_iff.mp hq)
    obtain ⟨-, rfl⟩ := Prod.mk.inj heq
    rw [pow_one] at hentry
    exact h.walk_reserved hreserved hblockSize hgroups hcopies (List.mem_range.mp hoff)
      (by rwa [pow_one])
  rw [walkIndirectLevel_inner hdind (by rwa [Nat.zero_add, pow_one, ← pow_two]) fun q hq => (hwalk q hq).1]
  refine ⟨rfl, ?_⟩
  generalize hpts : pointersOf fs.perBlock (resizeDindContents plan.geom) = pts at hpointers hwalk
  have hbelow : (pts.reverse.flatMap fun q => (fs.walkIndirectLevel (0 + 1) q.2
      (base + q.1 * fs.perBlock ^ (0 + 1))).1).map (·.physical) = pts.reverse.flatMap fun q =>
        ((backupGroups plan.geom).take (plan.geom.blockSize / 4)).map fun g =>
          q.2 + g * plan.geom.blocksPerGroup := by
    rw [List.map_flatMap]
    exact List.flatMap_congr fun q hq => (hwalk q (List.mem_reverse.mp hq)).2
  rw [List.map_cons, List.map_append, hbelow, List.map_map]
  refine List.Perm.cons _ ?_
  refine ((List.reverse_perm pts).flatMap_right _).append_left _ |>.trans ?_
  refine (List.map_append_flatMap_perm pts _ _).trans ((hpointers.flatMap_right _).trans ?_)
  rw [List.flatMap_map]
  refine List.Perm.of_eq (List.flatMap_congr fun off _ => ?_)
  rw [List.map_cons, ← h.reservedGdtBlock_eq]
  exact congrArg _ (List.map_congr_left fun g _ => h.copy_eq off g)

end Reached

/-! ## The image -/

section Left

variable {plan : Plan} {dind : Nat} (h : plan.Sound) (hdind : plan.resizeDind = some dind)
  (hbeyond : plan.Beyond dind)

include h hdind

theorem Plan.Sound.dind_free : plan.geom.Free dind := h.free (h.laid.resizeDind dind hdind)

/-- After the resize inode's blocks come those of the orphan file, the multi-mount block and the
inodes. -/
theorem Plan.Sound.leaves_of_resize {block : Nat} {Q : List UInt8 → Prop}
    (hleaves : Leaves plan.geom.blockSize block Q (writeResizeInodeBlocks plan dind))
    (horphan : block ∉ blocksOf plan.orphanRuns) (hleaf : block ∉ plan.orphanExtentLeaf)
    (hmap : ∀ c ∈ plan.orphanIndirect.blocks, block ≠ c.1) (hmmp : block ∉ plan.mmpBlock)
    (hfree : ¬HoldsInodes plan block) : Leaves plan.geom.blockSize block Q (writeFiles plan) := by
  refine leaves_last fun _ _ => leaves_last fun _ _ => leaves_first h.blockSize_pos
    (leaves_forSome hdind hleaves) fun _ _ => ?_
  refine issues_then (issues_forSome fun inum _ => skips_writeOrphanFile horphan ?_ hmap)
    (issues_then (issues_forSome fun b hsome => skips_writeBlock (length_mmpContents plan) ?_)
      (skips_writeReservedInodes hfree))
  · rintro leaf hsome rfl
    exact hleaf hsome
  · rintro rfl
    exact hmmp hsome

theorem Plan.Sound.leaves_reserved {off : Nat} (hoff : off < plan.geom.reservedGdtBlocks) :
    Leaves plan.geom.blockSize (reservedGdtBlock plan.geom off)
      (· = reservedGdtContents plan.geom off) (writeFiles plan) := by
  -- What was handed out is free, and a reserved block is not.
  have hhanded : ∀ {b : Nat}, b ∈ blocksOf plan.runs → reservedGdtBlock plan.geom off ≠ b :=
    fun hb heq => h.free_ne_reserved (h.free hb) hoff heq.symm
  refine h.leaves_of_resize hdind ?_ (fun hin => hhanded (h.laid.orphanRuns _ hin) rfl)
    (fun hin => hhanded (h.laid.orphanExtentLeaf _ hin) rfl)
    (fun c hc => hhanded (h.laid.orphanIndirect c hc))
    (fun hin => hhanded (h.laid.mmpBlock _ hin) rfl)
    (fun hunder => h.free_ne_reserved (h.free_of_holdsInodes hunder) hoff rfl)
  refine leaves_first h.blockSize_pos (leaves_forM h.blockSize_pos ⟨off, List.mem_range.mpr hoff,
    leaves_writeBlock (length_pointerBlock _ _) rfl⟩ fun off' _ => ?_) fun _ _ =>
      skips_writeBlock (length_resizeDindContents _) (hhanded (h.laid.resizeDind dind hdind))
  by_cases heq : off' = off
  · rw [heq]
    exact Or.inl (leaves_writeBlock (length_pointerBlock _ _) rfl)
  · refine Or.inr (skips_writeBlock (length_pointerBlock _ _) ?_)
    rw [reservedGdtBlock, reservedGdtBlock]
    omega

include hbeyond

theorem Plan.Sound.leaves_dind (hfree : ¬HoldsInodes plan dind) :
    Leaves plan.geom.blockSize dind (· = resizeDindContents plan.geom) (writeFiles plan) :=
  h.leaves_of_resize hdind
    (leaves_last fun _ _ => leaves_writeBlock (length_resizeDindContents _) rfl)
    hbeyond.orphanRuns hbeyond.orphanExtentLeaf hbeyond.orphanIndirect hbeyond.mmpBlock hfree

end Left

/-- The resize inode is read back as it was made. -/
theorem resizeInode_read {plan : Plan} {dind : Nat} (hdind : plan.resizeDind = some dind)
    (henc : Inode.Encodable plan.geom.inodeSize) :
    ∃ inode, readBack plan Ino.resize (resizeInode plan) = .ok inode ∧ OverDind inode dind ∧
      inode.blocks = resizeInodeBlocks plan.geom * sectorsPerBlock plan % 2 ^ 48 := by
  have hmade : resizeInode plan = { newInode plan with
      mode := Mode.ifreg ||| 0o600
      linksCount := 1
      blocks := resizeInodeBlocks plan.geom * sectorsPerBlock plan
      size := (plan.geom.blockSize / 4 * (plan.geom.blockSize / 4) + plan.geom.blockSize / 4 +
        ndirBlocks) * plan.geom.blockSize
      ctime := plan.mkfsTime % 2 ^ 32
      block := pointerIBlock ⟨List.replicate (ndirBlocks + 1) 0 ++ [dind % 2 ^ 32, 0], []⟩ } := by
    unfold resizeInode
    rw [hdind]
    rfl
  have hmode : (resizeInode plan).mode = Mode.ifreg ||| 0o600 := by rw [hmade]
  have hflags : (resizeInode plan).flags = 0 := by
    rw [hmade]
    rfl
  have hiblock : (resizeInode plan).block =
      pointerIBlock ⟨List.replicate (ndirBlocks + 1) 0 ++ [dind % 2 ^ 32, 0], []⟩ := by
    rw [hmade]
  have hblock : (resizeInode plan).block.length = iBlockLen := by
    rw [hiblock, pointerIBlock, Inode.setBlockPointers, Superblock.length_putU32s]
    exact List.length_replicate ..
  obtain ⟨inode, hok, hsame⟩ := readBack_ok plan Ino.resize henc hblock
  refine ⟨inode, hok, ⟨?_, ?_, ?_⟩, ?_⟩
  · rw [hsame.mode, hmode]
    rfl
  · rw [hsame.flags, hflags]
    rfl
  · refine blockPointers_pointerIBlock (hsame.block.trans hiblock) rfl ?_
    intro p hp
    rcases List.mem_append.mp hp with hp | hp
    · rw [List.eq_of_mem_replicate hp]
      decide
    · have hlt := Nat.mod_lt dind (Nat.two_pow_pos 32)
      simp only [List.mem_cons, List.not_mem_nil, or_false] at hp
      omega
  · rw [hsame.blocks, hmade]

section Mapped

variable {plan : Plan} {dev dev' : Device} {report : Report} {fs : Filesystem} {chunkBlocks dind : Nat}
  {schedule : Nat → List Nat} {inode : Inode} (h : plan.Sound)
  (hreserved : 0 < plan.geom.reservedGdtBlocks)
  (hgroups : plan.geom.firstDataBlock + plan.geom.groupCount * plan.geom.blocksPerGroup < 2 ^ 32)

include h hreserved hgroups

/-- The count of the resize inode's blocks fits `i_blocks`. -/
theorem Plan.Sound.resizeInodeBlocks_lt :
    resizeInodeBlocks plan.geom * sectorsPerBlock plan < 2 ^ 48 := by
  have hroom := (h.classic_of_reserved hreserved).2
  have hbackups := (backups_sublist h.computed.groupCount_pos).length_le
  rw [List.length_cons, List.length_range] at hbackups
  have hblocks : resizeInodeBlocks plan.geom < 2 ^ 32 := by
    have hmul := Nat.mul_le_mul (show plan.geom.reservedGdtBlocks + 1 ≤ plan.geom.blocksPerGroup by
      omega) hbackups
    rw [Nat.add_mul, Nat.one_mul, Nat.mul_comm plan.geom.blocksPerGroup] at hmul
    rw [resizeInodeBlocks, Nat.add_comm 1 (backupGroups plan.geom).length]
    omega
  have hsectors : sectorsPerBlock plan ≤ 2 ^ 7 := by
    obtain ⟨k, hk, -, hhigh⟩ := h.blockSize
    have hpow : 2 ^ k ≤ 2 ^ 16 := Nat.pow_le_pow_right Nat.two_pos hhigh
    rw [sectorsPerBlock, hk]
    omega
  calc resizeInodeBlocks plan.geom * sectorsPerBlock plan
      ≤ 2 ^ 32 * 2 ^ 7 := Nat.mul_le_mul (Nat.le_of_lt hblocks) hsectors
    _ < 2 ^ 48 := by decide

omit hgroups in
/-- No block is reserved twice. -/
theorem Plan.Sound.reservedAt_inj {g g' off off' : Nat} (hoff : off < plan.geom.reservedGdtBlocks)
    (hoff' : off' < plan.geom.reservedGdtBlocks)
    (heq : reservedAt plan.geom off g = reservedAt plan.geom off' g') : g = g' ∧ off = off' := by
  have hroom := (h.classic_of_reserved hreserved).2
  have hgroup : ∀ {i k : Nat}, i < plan.geom.reservedGdtBlocks →
      (1 + plan.geom.descBlocks + i + k * plan.geom.blocksPerGroup) / plan.geom.blocksPerGroup =
        k := by
    intro i k hi
    rw [Nat.add_mul_div_right _ _ h.computed.blocksPerGroup_pos, Nat.div_eq_of_lt (by omega),
      Nat.zero_add]
  simp only [reservedAt, Geometry.groupFirstBlock] at heq
  have hg : g = g' := by
    rw [← hgroup (k := g) hoff, ← hgroup (k := g') hoff']
    exact congrArg (· / plan.geom.blocksPerGroup) (by omega)
  rw [hg] at heq
  exact ⟨hg, by omega⟩

omit hgroups in
theorem Plan.Sound.nodup_resizeBlocksIn (hfree : plan.geom.Free dind) :
    (resizeBlocksIn plan.geom dind (backupGroups plan.geom)).Nodup := by
  have hsub := backups_sublist h.computed.groupCount_pos
  refine List.nodup_cons.mpr ⟨fun hin => ?_, List.nodup_flatMap.mpr ⟨fun off hoff => ?_, ?_⟩⟩
  · obtain ⟨off, hoff, hin⟩ := List.mem_flatMap.mp hin
    obtain ⟨g, hg, rfl⟩ := List.mem_map.mp hin
    obtain ⟨hg, hsuper⟩ := super_of_mem_backups h.computed.groupCount_pos hg
    exact h.not_free_reserved hg hsuper (List.mem_range.mp hoff) hfree
  · have hoff := List.mem_range.mp hoff
    exact (hsub.nodup List.nodup_range).map_on fun g _ g' _ heq =>
      (h.reservedAt_inj hreserved hoff hoff heq).1
  · refine List.nodup_range.imp_of_mem fun {off off'} hoff hoff' hne b hb hb' => hne ?_
    obtain ⟨g, -, rfl⟩ := List.mem_map.mp hb
    obtain ⟨g', -, heq⟩ := List.mem_map.mp hb'
    exact (h.reservedAt_inj hreserved (List.mem_range.mp hoff) (List.mem_range.mp hoff')
      heq.symm).2

variable (hper : plan.geom.reservedGdtBlocks ≤ plan.geom.blockSize / 4)
  (hdind : plan.resizeDind = some dind) (hlt : dind < 2 ^ 32) (hbeyond : plan.Beyond dind)
  (hfree : ¬HoldsInodes plan dind) (hover : OverDind inode dind)
  (hrun : writePlan plan chunkBlocks schedule dev = (.ok report, dev')) (hfs : Mounts plan dev' fs)
  (hcovers : plan.geom.blocksCount * plan.geom.blockSize ≤ dev.size) (hsize : dev.size < 2 ^ 64)

include hper hdind hlt hbeyond hfree hover hrun hfs hcovers hsize

/-- What a walk of the resize inode reaches on the image: the copies that were listed. -/
theorem Plan.Sound.reached_of_written : (fs.walkBlocks inode).2 = .ok () ∧
    (reachedBlocks fs inode).Perm (resizeBlocksIn plan.geom dind
      ((backupGroups plan.geom).take (plan.geom.blockSize / 4))) := by
  have hread : ∀ {block : Nat} {buf : List UInt8}, block < plan.geom.blocksCount →
      (∀ g < plan.geom.groupCount, plan.geom.hasSuper g = true →
        block ≠ plan.geom.groupFirstBlock g) →
      Leaves plan.geom.blockSize block (· = buf) (writeFiles plan) →
      fs.readBlock block = .ok buf := by
    intro block buf hblock hfront hfiles
    obtain ⟨_, hread, -, rfl⟩ := hfs.read hrun hcovers hsize h.blockSize_pos hblock
      (h.leaves_of_files hfront hfiles)
    exact hread
  have hplace := h.dind_free hdind
  have hdindRead : fs.readBlock dind = .ok (resizeDindContents plan.geom) :=
    hread hplace.lt_blocksCount (fun g hg hsuper => h.free_ne_front hplace hg hsuper)
      (h.leaves_dind hdind hbeyond hfree)
  have hcopies : ∀ off < plan.geom.reservedGdtBlocks, fs.readBlock
      (reservedGdtBlock plan.geom off) = .ok (reservedGdtContents plan.geom off) := by
    intro off hoff
    have hcount := h.computed.groupCount_pos
    obtain ⟨hm, hroom⟩ := h.classic_of_reserved hreserved
    have htable := (h.holdsFront 0 hcount).table h.computed hm
      (plan.geom.hasSuper_le_one (Nat.zero_le 1))
    refine hread ?_ (fun g hg hsuper heq => ?_) (h.leaves_reserved hdind hoff)
    · rw [h.reservedGdtBlock_eq, reservedAt]
      omega
    · rw [h.reservedGdtBlock_eq, reservedAt, Geometry.groupFirstBlock, Geometry.groupFirstBlock]
        at heq
      rcases Nat.eq_zero_or_pos g with rfl | hpos
      · omega
      · have := Nat.mul_le_mul_right plan.geom.blocksPerGroup hpos
        omega
  have hfits := h.spansFit hfs.blockSize
  have hwalk := @OverDind.walkBlocks fs inode dind hover hfits
  have hpos : dind ≠ 0 := by
    have := hplace.firstDataBlock_lt h.computed.blocksPerGroup_pos
    omega
  rw [Nat.mod_eq_of_lt hlt, if_neg hpos] at hwalk
  unfold SpansFit at hfits
  obtain ⟨hok, hperm⟩ := @Plan.Sound.walk_dind plan h hreserved fs dind (ndirBlocks + fs.perBlock)
    hfs.blockSize hgroups hcopies hper hdindRead (by omega)
  rw [reachedBlocks, hwalk]
  exact ⟨hok, hperm⟩

end Mapped

/-- The resize inode maps the reserved descriptor blocks and their copies, and counts them, exactly
when the backup groups are no more than a block has pointers for. Its double indirect block has
to stand in the end: the formatter's inodes are written last. -/
theorem resizeMapped_iff {dev : Device} {params : Params} {ambient : Ambient} {p : Plan}
    (htyped : params.Typed) (hsector : dev.logicalSectorSize < 2 ^ 32) (hsize : dev.size < 2 ^ 64)
    (hplan : plan dev.size (onDevice params dev) ambient = .ok p)
    (hresize : p.geom.features.compat.contains CompatFeatures.resizeInode = true)
    (hreserved : 0 < p.geom.reservedGdtBlocks) :
    ∃ dind inode, p.resizeDind = some dind ∧
      readBack p Ino.resize (resizeInode p) = .ok inode ∧
      (FewGroups dev.size (onDevice params dev) → dind < 2 ^ 32) ∧
      (∀ dev' fs freeBlocks freeInodes,
        withSuperblock dev' (buildSuperblock p freeBlocks freeInodes) = .ok fs → Mounts p dev' fs) ∧
      (¬HoldsInodes p dind → ∀ chunkBlocks schedule report dev' fs,
        writePlan p chunkBlocks schedule dev = (.ok report, dev') → Mounts p dev' fs →
          (ResizeMapped fs p.geom dind inode ↔
            dind < 2 ^ 32 ∧ (backupGroups p.geom).length ≤ p.geom.blockSize / 4)) := by
  have htyped := onDevice_typed htyped hsector
  obtain ⟨hgeom, journal, orphan, hmade⟩ := plan_made hplan
  have h := plan_sound htyped hplan
  obtain ⟨req, start, descSize, s, grp, hreq, hfrom⟩ := compute_from hgeom
  obtain ⟨hgroups, hper⟩ := groups_lt_of_reserved hfrom hreserved
  have hsome := hmade.resizeDind
  rw [hresize, decide_eq_true hreserved] at hsome
  obtain ⟨dind, hdind⟩ := Option.isSome_iff_exists.mp hsome
  have hinodeSize : Inode.Encodable p.geom.inodeSize := by
    obtain ⟨_, hrequest, hfin⟩ := hfrom.made
    obtain ⟨k, hk, hlow⟩ := hrequest.inode_pow
    rw [hfin.inodeSize, hk]
    exact Inode.encodable_two_pow hlow
  obtain ⟨inode, hok, hover, hblocks⟩ := resizeInode_read hdind hinodeSize
  have hplace := h.dind_free hdind
  refine ⟨dind, inode, hdind, hok, fun hfew => ?_, fun _ _ _ _ hfs => mounts_of_superblock hplan hfs,
    fun hfree chunkBlocks schedule report dev' fs hrun hfs => ⟨fun hmapped => ?_, ?_⟩⟩
  · have := blocks_le_groups htyped hreq hfrom hfew
    have := hplace.lt_blocksCount
    omega
  · have hlt : dind < 2 ^ 32 :=
      hover.reached_lt (h.spansFit hfs.blockSize) hmapped.ends dind
        (hmapped.reached.mem_iff.mpr List.mem_cons_self)
    refine ⟨hlt, ?_⟩
    have hreached := (h.reached_of_written hreserved hgroups hper hdind hlt
      (plan_beyond hplan dind hdind) hfree hover hrun hfs hfrom.blocks_le hsize).2
    -- As many copies were listed as there are backup groups.
    have hlen := hreached.length_eq.symm.trans hmapped.reached.length_eq
    rw [length_resizeBlocksIn, length_resizeBlocksIn, List.length_take] at hlen
    have := Nat.eq_of_mul_eq_mul_left hreserved (Nat.add_left_cancel hlen)
    omega
  · intro ⟨hlt, hfits⟩
    obtain ⟨hends, hreached⟩ := h.reached_of_written hreserved hgroups hper hdind hlt
      (plan_beyond hplan dind hdind) hfree hover hrun hfs hfrom.blocks_le hsize
    rw [List.take_of_length_le hfits] at hreached
    refine ⟨hends, hreached, hreached.nodup_iff.mpr (h.nodup_resizeBlocksIn hreserved hplace),
      fun g hg off hoff => ?_, ?_⟩
    · obtain ⟨hg, hsuper⟩ := super_of_mem_backups h.computed.groupCount_pos hg
      obtain ⟨hm, hroom⟩ := h.classic_of_reserved hreserved
      have htable := (h.holdsFront g hg).table h.computed hm hsuper
      rw [InReserved, reservedAt, Geometry.groupLastBlock]
      omega
    · rw [hblocks, Nat.mod_eq_of_lt (h.resizeInodeBlocks_lt hreserved hgroups), hreached.length_eq,
        length_resizeBlocksIn, sectorsPerBlock, Nat.mul_assoc, Nat.div_mul_cancel]
      · rfl
      · obtain ⟨k, hk, hlow, -⟩ := h.blockSize
        rw [hk]
        exact pow_dvd_pow 2 (by omega : 9 ≤ k)

/-- Without `sparse_super` every group is a backup group: 258 groups of 368 one-kilobyte blocks. -/
def wideParams : Params :=
  { blockSize := some 1024, blocksPerGroup := some 368, flexBgSize := some 1,
    inodesCount := some 4128, inodeSize := some 128, journal := .none,
    featureSpec := some "^sparse_super" }

theorem wideParams_typed : wideParams.Typed :=
  { Params.typed_default with
    blockSize := fun n hn => by cases hn; decide
    blocksPerGroup := fun n hn => by cases hn; decide
    flexBgSize := fun n hn => by cases hn; decide
    inodesCount := fun n hn => by cases hn; decide
    inodeSize := fun n hn => by cases hn; decide
    journal := fun n hn => nomatch hn }

def wideDevice : Device := .ofChunks (94945 * 1024) []

def wide : Geometry where
  blockSize := 1024
  logBlockSize := 0
  blocksCount := 94945
  firstDataBlock := 1
  blocksPerGroup := 368
  rBlocksCount := 4747
  inodesCount := 4128
  inodesPerGroup := 16
  inodeSize := 128
  itableBlocksPerGroup := 2
  groupCount := 258
  descSize := 64
  descBlocks := 17
  reservedGdtBlocks := 256
  logGroupsPerFlex := 0
  metaBg := false
  firstMetaBg := 0
  features := { compat := 0x38, incompat := 0x22c2, roCompat := 0x46a }

theorem wide_computed :
    compute wideDevice.size (onDevice wideParams wideDevice) = .ok wide := by
  decide +kernel

theorem wide_planned :
    (Format.plan wideDevice.size (onDevice wideParams wideDevice) {}).toOption.any (fun plan =>
      (writeFront plan).result.isOk && (writeFiles plan).result.isOk &&
        decide (plan.resizeDind = some 292) && decide (plan.orphanInode = none)) = true := by
  decide +kernel

/-- Behind its superblock copy and its descriptors each group has room for its own metadata. -/
theorem wide_placed : ∀ g < 258, (wide.placeFlex (wide.flexFirstGroup g)).isOk = true := by
  intro g hg
  have hsuper : wide.hasSuper g = true := by
    unfold Geometry.hasSuper hasSuperFor
    exact if_pos (by decide)
  rw [show wide.flexFirstGroup g = g from rfl]
  refine placeFlex_of_room (by decide) (hasRoom_of_front (by decide) hg rfl ?_ ?_)
  · rw [Geometry.superOverhead, Geometry.descBlocksInGroup, Geometry.groupHasDesc, hsuper]
    show 1 + (17 + 256) + 4 ≤ 368
    decide
  · show 1 + g * 368 + 368 ≤ 94945
    omega

theorem wide_written : ∃ plan report dev' fs,
    Format.plan wideDevice.size (onDevice wideParams wideDevice) {} = .ok plan ∧
      plan.geom = wide ∧ plan.resizeDind = some 292 ∧ ¬HoldsInodes plan 292 ∧
      writePlan plan gdtChunkBlocks (fun _ => []) wideDevice = (.ok report, dev') ∧
      withSuperblock dev' (buildSuperblock plan report.freeBlocksCount report.freeInodesCount) =
        .ok fs := by
  have htyped : (onDevice wideParams wideDevice).Typed :=
    onDevice_typed wideParams_typed (by decide)
  have hok := wide_planned
  cases hplan : Format.plan wideDevice.size (onDevice wideParams wideDevice) {} with
  | error e =>
    rw [hplan] at hok
    cases hok
  | ok plan =>
    rw [hplan] at hok
    simp only [Except.toOption, Option.any_some, Bool.and_eq_true, decide_eq_true_eq] at hok
    obtain ⟨⟨⟨hfront, hfiles⟩, hdind⟩, horphan⟩ := hok
    obtain ⟨geom, hgeom, -, hfor⟩ := plan_ok hplan
    obtain rfl : wide = geom := Except.ok.inj (wide_computed.symm.trans hgeom)
    have hgeom := hfor.geom
    obtain ⟨report, dev', fs, hrun, hfs⟩ := written_of_plan htyped hplan (by decide)
      (by rw [hgeom]; decide) (by rw [hgeom]; decide) (by rw [hgeom]; exact wide_placed)
      (copiesFit_of_classic (plan_sound htyped hplan) (by rw [hgeom]; rfl) _) hfront hfiles
    refine ⟨plan, report, dev', fs, rfl, hgeom, hdind, ?_, hrun, hfs⟩
    rintro ⟨lay, hlay, inum, hinum, hblock⟩
    have htable : (wide.group 0).toOption.all (fun lay => lay.inodeTable = 277) = true := by
      decide +kernel
    rw [hgeom] at hlay
    rw [hlay] at htable
    have htable : lay.inodeTable = 277 := of_decide_eq_true htable
    rw [writtenInodes, horphan, Option.toList_none, List.append_nil] at hinum
    have hinum := (List.mem_range'_1.mp hinum).2
    rw [inodeBlock, htable, hgeom] at hblock
    have hblock : 292 = 277 + (inum - 1) * 128 / 1024 := hblock
    omega

/-- The reserved blocks list 256 of the 257 groups with copies, and `i_blocks` counts all. -/
theorem wide_not_mapped : ∃ plan report dev' fs inode,
    Format.plan wideDevice.size (onDevice wideParams wideDevice) {} = .ok plan ∧
      plan.geom.features.compat.contains CompatFeatures.resizeInode = true ∧
      0 < plan.geom.reservedGdtBlocks ∧ plan.resizeDind = some 292 ∧
      writePlan plan gdtChunkBlocks (fun _ => []) wideDevice = (.ok report, dev') ∧
      withSuperblock dev' (buildSuperblock plan report.freeBlocksCount report.freeInodesCount) =
        .ok fs ∧
      readBack plan Ino.resize (resizeInode plan) = .ok inode ∧
      ¬ResizeMapped fs plan.geom 292 inode := by
  obtain ⟨plan, report, dev', fs, hplan, hgeom, hdind, hfree, hrun, hfs⟩ := wide_written
  have htyped : (onDevice wideParams wideDevice).Typed :=
    onDevice_typed wideParams_typed (by decide)
  have h := plan_sound htyped hplan
  have hreserved : 0 < plan.geom.reservedGdtBlocks := by rw [hgeom]; decide
  obtain ⟨inode, hok, hover, -⟩ := resizeInode_read hdind (by rw [hgeom]; decide)
  refine ⟨plan, report, dev', fs, inode, hplan, by rw [hgeom]; decide, hreserved, hdind, hrun, hfs,
    hok, fun hmapped => ?_⟩
  have hreached := (h.reached_of_written hreserved (by rw [hgeom]; decide) (by rw [hgeom]; decide)
    hdind (by decide) (plan_beyond hplan 292 hdind) hfree hover hrun (mounts_of_superblock hplan hfs)
    (by rw [hgeom]; decide) (by decide)).2
  have hlen := hreached.length_eq.symm.trans hmapped.reached.length_eq
  have hbackups : (backupGroups wide).length = 257 := by decide +kernel
  rw [length_resizeBlocksIn, length_resizeBlocksIn, List.length_take, hgeom, hbackups] at hlen
  exact absurd hlen (by decide)

theorem resizeMapped_iff_wide : ∃ plan report dev' fs inode,
    Format.plan wideDevice.size (onDevice wideParams wideDevice) {} = .ok plan ∧
      writePlan plan gdtChunkBlocks (fun _ => []) wideDevice = (.ok report, dev') ∧
      Mounts plan dev' fs ∧ readBack plan Ino.resize (resizeInode plan) = .ok inode ∧
      (ResizeMapped fs plan.geom 292 inode ↔
        292 < 2 ^ 32 ∧ (backupGroups plan.geom).length ≤ plan.geom.blockSize / 4) := by
  obtain ⟨plan, report, dev', fs, hplan, hgeom, hdind, hfree, hrun, hfs⟩ := wide_written
  obtain ⟨dind, inode, hdind', hok, -, hmounts, hiff⟩ := resizeMapped_iff wideParams_typed
    (by decide) (by decide) hplan (by rw [hgeom]; decide) (by rw [hgeom]; decide)
  obtain rfl : 292 = dind := Option.some.inj (hdind.symm.trans hdind')
  have hmounts := hmounts _ _ _ _ hfs
  exact ⟨plan, report, dev', fs, inode, hplan, hrun, hmounts, hok,
    hiff hfree _ _ _ _ _ hrun hmounts⟩

end MkfsExt4.Format
