/-
  What a format leaves in a block. The formatter reads nothing back, so a block holds in the end
  what the last operation on it put there. `Leaves` says so of a command: what comes before it
  does not matter, and what comes after it has to skip the block.
-/
import MkfsExt4.Format.Bounds
import MkfsExt4.Format.Cells

namespace MkfsExt4.Format

open Lib.Store Lib.Trace Layout

variable {α β : Type} {bs block : Nat} {Q : List UInt8 → Prop}

/-- A run of blocks without `block` in it. -/
def Beside (block start len : Nat) : Prop := ¬(start ≤ block ∧ block < start + len)

/-- No operation of `m` is on the block. -/
def Skips (bs block : Nat) (m : FormatM α) : Prop := Issues (Op.On bs (Beside block)) m

/-- The bytes of a block, once some operations were made over `bytes`. -/
def blockAfter (bs block : Nat) (ops : List Op) (bytes : Nat → UInt8) : List UInt8 :=
  Lib.Store.window (fun p => lastPut ops p (bytes p)) (block * bs) bs

/-- Where `m` ends well, the block is left with `Q`, whatever it held. -/
def Leaves (bs block : Nat) (Q : List UInt8 → Prop) (m : FormatM α) : Prop :=
  ∀ a, m.result = .ok a → ∀ bytes, Q (blockAfter bs block m.trace bytes)

/-! ## Operations in turn -/

theorem lastPut_append (ops ops' : List Op) (p : Nat) (b : UInt8) :
    lastPut (ops ++ ops') p b = lastPut ops' p (lastPut ops p b) := List.foldl_append

theorem lastPut_of_none {ops : List Op} {p : Nat} (h : ∀ op ∈ ops, op.puts p = none) (b : UInt8) :
    lastPut ops p b = b := by
  rcases lastPut_cases ops p b with ⟨op, hop, hv⟩ | ⟨-, hkeep⟩
  · rw [h op hop] at hv
    cases hv
  · exact hkeep

theorem blockAfter_append (ops ops' : List Op) (bytes : Nat → UInt8) :
    blockAfter bs block (ops ++ ops') bytes =
      blockAfter bs block ops' fun p => lastPut ops p (bytes p) := by
  unfold blockAfter
  simp only [lastPut_append]

/-- An operation beside the block puts nothing in it. -/
theorem Op.puts_of_beside {op : Op} (hbs : 0 < bs) (h : op.On bs (Beside block)) {p : Nat}
    (hp : p / bs = block) : op.puts p = none := by
  cases op with
  | flush => rfl
  | write offset buf =>
    obtain ⟨start, len, -, hspan, hbeside⟩ := h _ rfl
    obtain ⟨rfl, hlen⟩ := Prod.mk.inj hspan
    rw [Op.puts, hlen, if_neg]
    rw [within_blocks hbs, hp]
    exact hbeside
  | zero offset len =>
    obtain ⟨start, n, -, hspan, hbeside⟩ := h _ rfl
    obtain ⟨rfl, rfl⟩ := Prod.mk.inj hspan
    rw [Op.puts, if_neg]
    rw [within_blocks hbs, hp]
    exact hbeside

theorem blockAfter_of_beside {ops : List Op} (hbs : 0 < bs)
    (h : ∀ op ∈ ops, op.On bs (Beside block)) (bytes : Nat → UInt8) :
    blockAfter bs block ops bytes = Lib.Store.window bytes (block * bs) bs := by
  refine window_congr fun p hlow hhigh => ?_
  have hp : p / bs = block := Nat.div_eq_of_lt_le hlow (by rw [Nat.succ_mul]; exact hhigh)
  exact lastPut_of_none (fun op hop => Op.puts_of_beside hbs (h op hop) hp) _

/-- A block written whole. -/
theorem blockAfter_write (buf : List UInt8) (hbuf : buf.length = bs) (bytes : Nat → UInt8) :
    blockAfter bs block [.write (block * bs) buf] bytes = buf := by
  have hbytes : (fun p => lastPut [Op.write (block * bs) buf] p (bytes p)) =
      overlay bytes (block * bs) buf := by
    funext p
    rw [overlay_apply _ _ _ _ 0]
    show ((Op.write (block * bs) buf).puts p).getD (bytes p) = _
    rw [Op.puts]
    split <;> rfl
  have hwindow := window_overlay bytes (block * bs) buf
  rw [blockAfter, hbytes]
  rwa [hbuf] at hwindow

/-! ## Commands in turn -/

theorem Leaves.mono {R : List UInt8 → Prop} {m : FormatM α} (h : Leaves bs block Q m)
    (hQ : ∀ buf, Q buf → R buf) : Leaves bs block R m := fun a ha bytes => hQ _ (h a ha bytes)

/-- What comes before does not matter. -/
theorem leaves_last {m : FormatM α} {f : α → FormatM β}
    (h : ∀ a, m.result = .ok a → Leaves bs block Q (f a)) : Leaves bs block Q (m >>= f) := by
  intro b hb bytes
  obtain ⟨a, ha, hfa, htrace⟩ := bind_ok hb
  rw [htrace, blockAfter_append]
  exact h a ha b hfa _

/-- What comes after skips the block. -/
theorem leaves_first {m : FormatM α} {f : α → FormatM β} (hbs : 0 < bs)
    (h : Leaves bs block Q m) (hskip : ∀ a, m.result = .ok a → Skips bs block (f a)) :
    Leaves bs block Q (m >>= f) := by
  intro b hb bytes
  obtain ⟨a, ha, hfa, htrace⟩ := bind_ok hb
  rw [htrace, blockAfter_append, blockAfter_of_beside hbs (hskip a ha)]
  exact h a ha bytes

theorem leaves_forSome {o : Option α} {f : α → FormatM Unit} {a : α} (ha : o = some a)
    (h : Leaves bs block Q (f a)) : Leaves bs block Q (forSome o f) := by
  rw [ha]
  exact h

theorem leaves_writeBlock {plan : Plan} {buf : List UInt8} (hbuf : buf.length = plan.geom.blockSize)
    (hQ : Q buf) : Leaves plan.geom.blockSize block Q (writeBlock plan block buf) := by
  intro _ _ bytes
  have hafter := @blockAfter_write _ block buf hbuf bytes
  exact hafter.symm ▸ hQ

/-- A loop one of whose steps leaves the block with `Q`, while every other does so too or skips
it. -/
theorem leaves_forM {f : α → FormatM PUnit} {xs : List α} (hbs : 0 < bs)
    (h : ∃ x ∈ xs, Leaves bs block Q (f x))
    (hall : ∀ x ∈ xs, Leaves bs block Q (f x) ∨ Skips bs block (f x)) :
    Leaves bs block Q (xs.forM f) := by
  induction xs with
  | nil =>
    obtain ⟨x, hx, -⟩ := h
    cases hx
  | cons y ys ih =>
    have hrest := fun x hx => hall x (List.mem_cons_of_mem y hx)
    by_cases hlater : ∃ x ∈ ys, Leaves bs block Q (f x)
    · exact leaves_last fun _ _ => ih hlater hrest
    · have hskip : Skips bs block (ys.forM f) := issues_forM fun x hx =>
        (hrest x hx).resolve_left fun hleaves => hlater ⟨x, hx, hleaves⟩
      obtain ⟨x, hx, hleaves⟩ := h
      rcases List.mem_cons.mp hx with rfl | hx
      · exact leaves_first hbs hleaves fun _ _ => hskip
      · exact absurd ⟨x, hx, hleaves⟩ hlater

/-! ## What a block is skipped by -/

section Skips

variable {plan : Plan}

theorem skips_writeBlock {other : Nat} {buf : List UInt8}
    (hbuf : buf.length = plan.geom.blockSize) (hne : block ≠ other) :
    Skips plan.geom.blockSize block (writeBlock plan other buf) :=
  issues_writeBlock hbuf (by unfold Beside; omega)

theorem skips_writeIndirect {map : IndirectMap} (h : ∀ c ∈ map.blocks, block ≠ c.1) :
    Skips plan.geom.blockSize block (writeIndirect plan map) :=
  issues_forM fun c hc => skips_writeBlock (length_pointerBlock _ _) (h c hc)

theorem skips_writeResizeInodeBlocks {dind : Nat} (hdind : block ≠ dind)
    (hreserved : ∀ off < plan.geom.reservedGdtBlocks, block ≠ reservedGdtBlock plan.geom off) :
    Skips plan.geom.blockSize block (writeResizeInodeBlocks plan dind) :=
  issues_then (issues_forM fun off hoff => skips_writeBlock (length_pointerBlock _ _)
    (hreserved off (List.mem_range.mp hoff))) (skips_writeBlock (length_resizeDindContents _) hdind)

theorem skips_writeOrphanFile {inum : Nat} (hruns : block ∉ blocksOf plan.orphanRuns)
    (hleaf : ∀ leaf ∈ plan.orphanExtentLeaf, block ≠ leaf)
    (hmap : ∀ c ∈ plan.orphanIndirect.blocks, block ≠ c.1) :
    Skips plan.geom.blockSize block (writeOrphanFile plan inum) := by
  refine issues_then (issues_forM fun b hb => skips_writeBlock (length_orphanBlock plan inum b) ?_) ?_
  · rintro rfl
    exact hruns hb
  · refine issues_then (issues_forSome fun leaf hsome => ?_) (skips_writeIndirect hmap)
    refine issues_bind (issues_ofExcept _) fun buf hbuf => ?_
    exact skips_writeBlock (length_extentLeafBlock hbuf) (hleaf leaf hsome)

/-- The superblocks are at the fronts of groups, the primary one past the boot block. -/
theorem skips_writeSuperblocks {free : Nat × Nat} (hfirst : plan.geom.firstDataBlock =
      if plan.geom.blockSize = 1024 then 1 else 0)
    (hfront : ∀ g < plan.geom.groupCount, plan.geom.hasSuper g = true →
      block ≠ plan.geom.groupFirstBlock g) (hcount : 0 < plan.geom.groupCount) :
    Skips plan.geom.blockSize block (writeSuperblocks plan free) := by
  have hprimary : block ≠ (primarySuperblockBlock
      (buildSuperblock plan free.1 free.2).encode plan.geom.blockSize).1 := by
    have hzero := hfront 0 hcount (plan.geom.hasSuper_le_one (Nat.zero_le 1))
    rw [Geometry.groupFirstBlock_zero, hfirst] at hzero
    unfold primarySuperblockBlock
    have hlen : superblockOffset = 1024 := rfl
    split
    · next h => rwa [if_pos (h.trans hlen)] at hzero
    · next h => rwa [if_neg fun heq => h (heq.trans hlen.symm)] at hzero
  refine issues_then (skips_writeBlock (primarySuperblockBlock_spec _ _).1 hprimary)
    (issues_then (issues_forM fun g hg => ?_) (issues_emit nofun))
  obtain ⟨hg, hback⟩ := List.mem_filter.mp hg
  refine skips_writeBlock ((length_splice _ _ _).trans (List.length_replicate ..)) ?_
  exact hfront g (List.mem_range.mp hg) (Bool.and_eq_true_iff.mp hback).2

end Skips

/-! ## The reserved inodes -/

/-- The block of a table that an inode is in. -/
def inodeBlock (plan : Plan) (table inum : Nat) : Nat :=
  table + (inum - 1) * plan.geom.inodeSize / plan.geom.blockSize

/-- The inodes the formatter writes. -/
def writtenInodes (plan : Plan) : List Nat := List.range' 1 11 ++ plan.orphanInode.toList

/-- A block of group 0's table that the formatter's inodes go to. -/
def HoldsInodes (plan : Plan) (block : Nat) : Prop :=
  ∃ lay, plan.geom.group 0 = .ok lay ∧ ∃ inum ∈ writtenInodes plan,
    block = inodeBlock plan lay.inodeTable inum

theorem reservedInodes_inums {plan : Plan} {inodes : List (Nat × Inode)}
    (h : reservedInodes plan = .ok inodes) (inum : Nat) :
    inum ∈ inodes.map Prod.fst ↔ inum ∈ writtenInodes plan := by
  obtain ⟨lostFound, -, h⟩ := Lib.Hoare.bind_ok h
  obtain rfl := Except.ok.inj h
  have hfixed : inum ∈ [Ino.bad, Ino.root, Ino.usrQuota, Ino.grpQuota, Ino.bootLoader,
      Ino.undelDir, Ino.exclude, Ino.replica, Ino.resize, Ino.journal, goodOldFirstIno] ↔
      inum ∈ List.range' 1 11 := by
    simp only [List.mem_range'_1, List.mem_cons, List.not_mem_nil, or_false, Ino.bad, Ino.root,
      Ino.usrQuota, Ino.grpQuota, Ino.bootLoader, Ino.undelDir, Ino.exclude, Ino.replica, Ino.resize,
      Ino.journal, goodOldFirstIno]
    omega
  rw [writtenInodes, List.mem_append, ← hfixed, List.map_append, List.mem_append]
  refine or_congr Iff.rfl ?_
  rw [List.map_map]
  exact iff_of_eq (congrArg (inum ∈ ·) (List.map_id _))

section Gathered

variable {plan : Plan} {table : Nat} {P : List UInt8 → Prop}

/-- What an inode's bytes do to a block of the table. -/
def withInode (plan : Plan) (e : Nat × Inode) (buf : List UInt8) : List UInt8 :=
  splice buf ((e.1 - 1) * plan.geom.inodeSize % plan.geom.blockSize)
    (e.2.encodeWithCsum plan.geom.inodeSize (plan.csumScheme = .crc32c) plan.csumSeed e.1)

/-- Every block gathered is one of an inode, and holds what is kept by putting inodes in. -/
theorem gathered_inv {inodes : List (Nat × Inode)} {blocks : List (Nat × List UInt8)}
    (hzero : P (List.replicate plan.geom.blockSize 0))
    (hstep : ∀ e ∈ inodes, ∀ buf, P buf → P (withInode plan e buf)) (h : ∀ c ∈ blocks, P c.2) :
    ∀ c ∈ inodes.foldl (gatherInode plan table) blocks, P c.2 ∧
      (c.1 ∈ blocks.map Prod.fst ∨ ∃ e ∈ inodes, c.1 = inodeBlock plan table e.1) := by
  induction inodes generalizing blocks with
  | nil => exact fun c hc => ⟨h c hc, Or.inl (List.mem_map_of_mem hc)⟩
  | cons e inodes ih =>
    intro c hc
    rw [List.foldl_cons] at hc
    obtain ⟨hP, hkey⟩ := ih (fun e' he' => hstep e' (List.mem_cons_of_mem e he')) (fun c' hc' => by
      rcases Lib.SortedMap.mem_of_mem_insert hc' with rfl | hc'
      · refine hstep e List.mem_cons_self _ ?_
        cases hfound : blocks.lookup (inodeBlock plan table e.1) with
        | none =>
          rw [inodeBlock] at hfound
          rw [hfound]
          exact hzero
        | some buf =>
          rw [inodeBlock] at hfound
          rw [hfound]
          exact h _ (Lib.SortedMap.mem_of_lookup hfound)
      · exact h c' hc') c hc
    refine ⟨hP, ?_⟩
    rcases hkey with hkey | ⟨e', he', heq⟩
    · rcases Lib.SortedMap.mem_keys_insert.mp hkey with heq | hkey
      · exact Or.inr ⟨e, List.mem_cons_self, heq⟩
      · exact Or.inl hkey
    · exact Or.inr ⟨e', List.mem_cons_of_mem e he', heq⟩

/-- No block of an inode is left out. -/
theorem gathered_mem {inodes : List (Nat × Inode)} {blocks : List (Nat × List UInt8)} {b : Nat}
    (h : b ∈ blocks.map Prod.fst ∨ ∃ e ∈ inodes, b = inodeBlock plan table e.1) :
    b ∈ (inodes.foldl (gatherInode plan table) blocks).map Prod.fst := by
  induction inodes generalizing blocks with
  | nil => exact h.resolve_right fun ⟨e, he, _⟩ => nomatch he
  | cons e inodes ih =>
    rw [List.foldl_cons]
    refine ih ?_
    rcases h with hkey | ⟨e', he', heq⟩
    · exact Or.inl (Lib.SortedMap.mem_keys_insert.mpr (Or.inr hkey))
    · rcases List.mem_cons.mp he' with rfl | he'
      · exact Or.inl (Lib.SortedMap.mem_keys_insert.mpr (Or.inl heq))
      · exact Or.inr ⟨e', he', heq⟩

theorem skips_writeReservedInodes (h : ¬HoldsInodes plan block) :
    Skips plan.geom.blockSize block (writeReservedInodes plan) := by
  refine issues_bind (issues_ofExcept _) fun lay hlay => ?_
  refine issues_bind (issues_ofExcept _) fun inodes hinodes => issues_forM fun c hc => ?_
  obtain ⟨hlen, hkey⟩ := @gathered_inv plan lay.inodeTable
    (fun buf => buf.length = plan.geom.blockSize) inodes [] (List.length_replicate ..)
    (fun e _ buf hbuf => (length_splice _ _ _).trans hbuf) nofun c hc
  obtain ⟨e, he, heq⟩ := hkey.resolve_left nofun
  refine skips_writeBlock hlen fun hblock => h ⟨lay, returned_ok hlay, e.1, ?_, hblock.trans heq⟩
  exact (reservedInodes_inums (returned_ok hinodes) e.1).mp (List.mem_map_of_mem he)

/-- A block of the table holds in the end what putting inodes in keeps. -/
theorem leaves_writeReservedInodes (h : HoldsInodes plan block)
    (hP : ∀ buf, P buf → buf.length = plan.geom.blockSize)
    (hzero : P (List.replicate plan.geom.blockSize 0))
    (hstep : ∀ inodes, reservedInodes plan = .ok inodes →
      ∀ e ∈ inodes, ∀ buf, P buf → P (withInode plan e buf)) (hbs : 0 < plan.geom.blockSize) :
    Leaves plan.geom.blockSize block P (writeReservedInodes plan) := by
  obtain ⟨lay, hlay, inum, hinum, hblock⟩ := h
  refine leaves_last fun lay' hlay' => ?_
  obtain rfl : lay = lay' := Except.ok.inj (hlay.symm.trans (returned_ok hlay'))
  refine leaves_last fun inodes hinodes => ?_
  have hkeep := @gathered_inv plan lay.inodeTable P inodes [] hzero
    (hstep inodes (returned_ok hinodes)) nofun
  have hwrite : ∀ c ∈ inodes.foldl (gatherInode plan lay.inodeTable) [], c.1 = block →
      Leaves plan.geom.blockSize block P (writeBlock plan c.1 c.2) := by
    rintro c hc rfl
    exact leaves_writeBlock (hP _ (hkeep c hc).1) (hkeep c hc).1
  refine leaves_forM hbs ?_ fun c hc => ?_
  · obtain ⟨e, he, rfl⟩ := List.mem_map.mp
      ((reservedInodes_inums (returned_ok hinodes) inum).mpr hinum)
    obtain ⟨c, hc, hkey⟩ := List.mem_map.mp (@gathered_mem plan lay.inodeTable inodes [] block
      (Or.inr ⟨e, he, hblock⟩))
    exact ⟨c, hc, hwrite c hc hkey⟩
  · by_cases hkey : c.1 = block
    · exact Or.inl (hwrite c hc hkey)
    · exact Or.inr (skips_writeBlock (hP _ (hkeep c hc).1) fun heq => hkey heq.symm)

end Gathered

/-! ## The files, and all of it -/

section Whole

variable {plan : Plan} {chunkBlocks : Nat} {schedule : Nat → List Nat}

/-- Once the files are written only the superblocks are left. -/
theorem leaves_writeFilesystemChunked (hbs : 0 < plan.geom.blockSize)
    (h : Leaves plan.geom.blockSize block Q (writeFiles plan))
    (hskip : ∀ free, Skips plan.geom.blockSize block (writeSuperblocks plan free)) :
    Leaves plan.geom.blockSize block Q (writeFilesystemChunked plan chunkBlocks schedule) := by
  refine leaves_first hbs ?_ fun free _ => issues_then (hskip free) (issues_pure _)
  refine leaves_last fun _ _ => leaves_last fun free _ => ?_
  exact leaves_first hbs h fun _ _ => issues_pure _

end Whole

/-! ## The device in the end -/

/-- A device with operations on it. -/
def afterOps (ops : List Op) (dev : Device) : Device :=
  { dev with bytes := fun p => lastPut ops p (dev.bytes p) }

section Taken

variable {plan : Plan} {chunkBlocks : Nat} {schedule : Nat → List Nat} {dev dev' : Device}
  {report : Report} (hrun : writePlan plan chunkBlocks schedule dev = (.ok report, dev'))

include hrun

/-- A format that was taken by the device has left its operations on it. -/
theorem device_of_writePlan :
    (writeFilesystemChunked plan chunkBlocks schedule).result = .ok report ∧
      dev' = afterOps (writeFilesystemChunked plan chunkBlocks schedule).trace dev := by
  unfold writePlan at hrun
  dsimp only at hrun
  split at hrun
  · cases hrun
  next after hops =>
  obtain ⟨hresult, rfl⟩ := Prod.mk.inj hrun
  rw [runOps_of_fits (fits_of_runOps hops)] at hops
  exact ⟨hresult, (Prod.mk.inj hops).2.symm⟩

theorem size_of_writePlan : dev'.size = dev.size := by
  rw [(device_of_writePlan hrun).2]
  rfl

theorem Leaves.of_writePlan
    (h : Leaves bs block Q (writeFilesystemChunked plan chunkBlocks schedule)) :
    dev'.size = dev.size ∧ Q (Lib.Store.window dev'.bytes (block * bs) bs) := by
  obtain ⟨hresult, rfl⟩ := device_of_writePlan hrun
  exact ⟨rfl, h report hresult dev.bytes⟩

end Taken

end MkfsExt4.Format
