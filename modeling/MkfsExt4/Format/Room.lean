/-
  When planning goes through. With extents every block after `lost+found` can be anywhere, so a
  plan is made whenever as many blocks are free as it places (`planBlocks_of_room`).
-/
import MkfsExt4.Format.Pieces
import MkfsExt4.Format.Planned

namespace MkfsExt4.Format

open Lib.Hoare Layout

namespace Allocator

/-- How many blocks are free. -/
def room (a : Allocator) : Nat := (a.freeBetween a.firstDataBlock a.blocksCount).length

variable {a a' : Allocator} {runs : List Run}

theorem room_le (h : Extends a a' runs) : a.room ≤ a'.room + total runs := by
  have hcount : a'.blocksCount = a.blocksCount := by rw [h.eq]
  have hfirst : a'.firstDataBlock = a.firstDataBlock := by rw [h.eq]
  rw [room, room, ← length_blocksOf, ← List.length_append, hcount, hfirst]
  have hnodup : (a.freeBetween a.firstDataBlock a.blocksCount).Nodup :=
    List.Nodup.filter _ List.nodup_range'
  refine (List.subperm_of_subset hnodup fun b hb => ?_).length_le
  rw [mem_freeBetween] at hb
  rw [List.mem_append, mem_freeBetween]
  by_cases hin : b ∈ blocksOf runs
  · exact Or.inr hin
  · refine Or.inl ⟨hb.1, hb.2.1, Bool.eq_false_iff.mpr fun ht => ?_⟩
    rcases (h.taken_iff b).mp ht with ht | ht
    · rw [hb.2.2] at ht
      cases ht
    · exact hin ht

theorem room_eq_zero (h : ∀ b, a.firstDataBlock ≤ b → b < a.blocksCount → a.taken b = true) :
    a.room = 0 := by
  rw [room, freeBetween_none h]
  rfl

end Allocator

/-- A run request is met when that many blocks are free, and leaves the others. -/
theorem allocRuns_of_room {goal count : Nat} {a : Allocator} (h : count ≤ a.room) :
    ∃ runs a', exec (allocRuns goal count) a = (.ok runs, a') ∧ a.room ≤ a'.room + count := by
  obtain ⟨runs, a', hext, ⟨hok, htotal, -⟩ | ⟨-, hshort, htaken⟩⟩ := allocRuns_cases goal count a
  · exact ⟨runs, a', hok, htotal ▸ Allocator.room_le hext⟩
  · have hle := Allocator.room_le hext
    have hcount : a'.blocksCount = a.blocksCount := by rw [hext.eq]
    have hfirst : a'.firstDataBlock = a.firstDataBlock := by rw [hext.eq]
    have hzero : a'.room = 0 := Allocator.room_eq_zero (by rwa [hcount, hfirst])
    omega

theorem alloc_of_room {goal : Nat} {a : Allocator} (h : 1 ≤ a.room) :
    ∃ b a', exec (alloc goal 1) a = (.ok b, a') ∧ a.room ≤ a'.room + 1 := by
  rcases alloc_cases goal 1 a with ⟨start, hok, -, -⟩ | ⟨-, hnone⟩
  · exact ⟨start, _, hok, Allocator.room_le (alloc_ok hok)⟩
  · have hzero : a.room = 0 := by
      refine Allocator.room_eq_zero fun b hlow hhigh => ?_
      obtain ⟨c, hc, hc', htaken⟩ := scan_none hnone (by omega) hlow hhigh
      rwa [show b = c by omega]
    omega

theorem allocIf_of_room {wanted : Bool} {goal : Nat} {a : Allocator} (h : 1 ≤ a.room) :
    ∃ block a', exec (allocIf wanted goal) a = (.ok block, a') ∧ a.room ≤ a'.room + 1 := by
  unfold allocIf
  split
  · obtain ⟨b, a', hok, hroom⟩ := @alloc_of_room goal a h
    exact ⟨some b, a', by rw [exec_bind_of_ok hok]; rfl, hroom⟩
  · exact ⟨none, a, rfl, Nat.le_succ _⟩

theorem planJournal_of_room {geom : Geometry} {blocks : Nat} {a : Allocator}
    (h : blocks ≤ a.room) : ∃ file a',
      exec (planJournal geom true blocks) a = (.ok file, a') ∧ a.room ≤ a'.room + blocks := by
  unfold planJournal
  split
  · exact ⟨{}, a, rfl, Nat.le_add_right _ _⟩
  · obtain ⟨runs, a', hok, hroom⟩ := @allocRuns_of_room (midpointJournalBlock geom a) blocks a h
    refine ⟨{ runs, extents := journalExtentsOf 0 runs }, a', ?_, hroom⟩
    rw [if_pos rfl, exec_bind_of_ok (show exec get a = (.ok a, a) from rfl), exec_bind_of_ok hok]
    rfl

theorem planOrphan_of_room {geom : Geometry} {blocks : Nat} {a : Allocator}
    (h : blocks ≤ a.room) : ∃ file a',
      exec (planOrphan geom true blocks) a = (.ok file, a') ∧ a.room ≤ a'.room + blocks := by
  unfold planOrphan
  split
  · exact ⟨{}, a, rfl, Nat.le_add_right _ _⟩
  · obtain ⟨runs, a', hok, hroom⟩ := @allocRuns_of_room geom.firstDataBlock blocks a h
    refine ⟨{ runs, extents := orphanExtentsOf 0 runs }, a', ?_, hroom⟩
    rw [exec_bind_of_ok hok]
    rfl

/-- The extents of a file without a leaf fit its inode. -/
theorem fileIBlock_of_leaf {file : FilePlan} {leaf : Option Nat} {a : Allocator}
    (h : leaf.isSome = decide (ExtentHeader.maxEntries Extent.inlineLen false <
      file.extents.length)) : ∃ iblock, exec (fileIBlock true file leaf) a = (.ok iblock, a) := by
  unfold fileIBlock
  split
  · exact ⟨_, rfl⟩
  · cases leaf with
    | some l => exact ⟨_, rfl⟩
    | none =>
      have hfew := of_decide_eq_false h.symm
      rw [if_pos rfl, journalInodeIBlock, Extent.buildInline, if_neg hfew]
      exact ⟨_, rfl⟩

/-- Once the directories are placed, a plan with extents is made if the blocks left are enough
for the journal, the orphan file and three blocks more: MMP and two leaves. -/
theorem planBlocks_of_room {geom : Geometry} {params : Params} {ambient : Ambient}
    (hext : usesExtents geom = true)
    (hdirs : (exec (placeDirs geom) (newAllocator geom)).1 = .ok ())
    (hroom : journalBlocksFor geom params + orphanBlocksFor geom + 3 ≤ (atJournal geom).room) :
    ∃ p, (exec (planBlocks geom params ambient) (newAllocator geom)).1 = .ok p := by
  have hplaced : exec (placeDirs geom) (newAllocator geom) = (.ok (), atJournal geom) :=
    Prod.ext hdirs rfl
  obtain ⟨root, a1, hroot, h⟩ := exec_bind_ok hplaced
  obtain ⟨lostFound, a2, hlost, h⟩ := exec_bind_ok h
  obtain ⟨dind, a3, hdind, h⟩ := exec_bind_ok h
  obtain ⟨-, rfl⟩ := exec_pure_ok h
  obtain ⟨journal, a4, hjournal, hroom4⟩ :=
    @planJournal_of_room geom (journalBlocksFor geom params) (atJournal geom) (by omega)
  obtain ⟨orphan, a5, horphan, hroom5⟩ :=
    @planOrphan_of_room geom (orphanBlocksFor geom) a4 (by omega)
  obtain ⟨mmp, a6, hmmp, hroom6⟩ := @allocIf_of_room
    (geom.features.incompat.contains IncompatFeatures.mmp) (geom.blocksCount / 2) a5 (by omega)
  obtain ⟨jleaf, a7, hjleaf, hroom7⟩ := @allocIf_of_room
    (true && decide (ExtentHeader.maxEntries Extent.inlineLen false < journal.extents.length))
    geom.firstDataBlock a6 (by omega)
  obtain ⟨oleaf, a8, holeaf, -⟩ := @allocIf_of_room
    (true && decide (ExtentHeader.maxEntries Extent.inlineLen false < orphan.extents.length))
    geom.firstDataBlock a7 (by omega)
  obtain ⟨oblock, hoblock⟩ := @fileIBlock_of_leaf orphan oleaf a8 (allocIf_isSome holeaf)
  obtain ⟨jblock, hjblock⟩ := @fileIBlock_of_leaf journal jleaf a8 (allocIf_isSome hjleaf)
  have hbit : geom.features.incompat.contains IncompatFeatures.extents = true := hext
  rw [orphanBlocksFor] at horphan
  have hjleaf : exec (planLeaf geom true journal) a6 = (.ok jleaf, a7) := hjleaf
  have holeaf : exec (planLeaf geom true orphan) a7 = (.ok oleaf, a8) := holeaf
  unfold planBlocks
  dsimp only
  rw [hbit, exec_bind_of_ok hroot, exec_bind_of_ok hlost, exec_bind_of_ok hdind,
    exec_bind_of_ok hjournal, exec_bind_of_ok horphan, exec_bind_of_ok hmmp,
    exec_bind_of_ok hjleaf, exec_bind_of_ok holeaf, exec_bind_of_ok hoblock,
    exec_bind_of_ok hjblock]
  exact ⟨_, rfl⟩

theorem plan_of_room {deviceSize : Nat} {params : Params} {ambient : Ambient} {geom : Geometry}
    (hgeom : compute deviceSize params = .ok geom) (hext : usesExtents geom = true)
    (hdirs : (exec (placeDirs geom) (newAllocator geom)).1 = .ok ())
    (hroom : journalBlocksFor geom params + orphanBlocksFor geom + 3 ≤ (atJournal geom).room) :
    ∃ p, plan deviceSize params ambient = .ok p := by
  rw [plan, bind_of_ok hgeom]
  exact planBlocks_of_room hext hdirs hroom

end MkfsExt4.Format
