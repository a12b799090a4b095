/-
  The order in which planning hands blocks out (`plan` of `src/format.rs`): the directories, the
  resize inode's block, the journal, the orphan file, the MMP block, and last the leaves that files
  in many pieces need. No block goes to two of them, so that what writes one of them skips the
  others.
-/
import Mathlib.Data.List.Nodup
import Mathlib.Data.List.Pairwise
import MkfsExt4.Format.Kept
import MkfsExt4.Format.Planned

namespace MkfsExt4.Format

open Lib.Hoare Lib.Trace Layout

/-- What the blocks of a plan are handed out for. -/
inductive Use where
  | dirs
  | resize
  | journal
  | orphan
  | mmp
  | journalLeaf
  | orphanLeaf
deriving DecidableEq

/-- The uses in the order of planning. -/
def uses : List Use := [.dirs, .resize, .journal, .orphan, .mmp, .journalLeaf, .orphanLeaf]

/-- The blocks handed out for a use, with those of the journal and of the orphan file given. -/
def Plan.blocksFor (plan : Plan) (journal orphan : List Nat) : Use → List Nat
  | .dirs => plan.rootBlock :: plan.lostFound
  | .resize => plan.resizeDind.toList
  | .journal => journal
  | .orphan => orphan
  | .mmp => plan.mmpBlock.toList
  | .journalLeaf => plan.journalExtentLeaf.toList
  | .orphanLeaf => plan.orphanExtentLeaf.toList

/-- The blocks of a plan by use: the data of a file and the blocks of its map are among its own. -/
structure Plan.Ordered (plan : Plan) (journal orphan : List Nat) : Prop where
  runs : blocksOf plan.runs = uses.flatMap (plan.blocksFor journal orphan)
  nodup : (blocksOf plan.runs).Nodup
  journalRuns : ∀ b ∈ blocksOf plan.journalRuns, b ∈ journal
  journalIndirect : ∀ c ∈ plan.journalIndirect.blocks, c.1 ∈ journal
  orphanRuns : ∀ b ∈ blocksOf plan.orphanRuns, b ∈ orphan
  orphanIndirect : ∀ c ∈ plan.orphanIndirect.blocks, c.1 ∈ orphan

theorem plan_ordered {deviceSize : Nat} {params : Params} {ambient : Ambient} {p : Plan}
    (h : plan deviceSize params ambient = .ok p) : ∃ journal orphan, p.Ordered journal orphan := by
  obtain ⟨geom, a, -, h⟩ := plan_run h
  unfold planBlocks at h
  dsimp only at h
  obtain ⟨root, a1, hroot, h⟩ := exec_bind_ok h
  obtain ⟨lostFound, a2, hlost, h⟩ := exec_bind_ok h
  obtain ⟨dind, a3, hdind, h⟩ := exec_bind_ok h
  obtain ⟨journal, a4, hjournal, h⟩ := exec_bind_ok h
  obtain ⟨orphan, a5, horphan, h⟩ := exec_bind_ok h
  obtain ⟨mmp, a6, hmmp, h⟩ := exec_bind_ok h
  obtain ⟨jleaf, a7, hjleaf, h⟩ := exec_bind_ok h
  obtain ⟨oleaf, a8, holeaf, h⟩ := exec_bind_ok h
  obtain ⟨oblock, a9, hoblock, h⟩ := exec_bind_ok h
  obtain ⟨jblock, a10, hjblock, h⟩ := exec_bind_ok h
  obtain ⟨a11, a12, hget, hlast⟩ := exec_bind_ok h
  cases hget
  obtain ⟨rfl, rfl⟩ := exec_pure_ok hlast
  obtain rfl := fileIBlock_ok hoblock
  obtain rfl := fileIBlock_ok hjblock
  obtain ⟨r3, e3, b3⟩ := allocIf_extends hdind
  obtain ⟨r4, e4, d4, i4⟩ := planJournal_ok hjournal
  obtain ⟨r5, e5, d5, i5⟩ := planOrphan_ok horphan
  obtain ⟨r6, e6, b6⟩ := allocIf_extends hmmp
  obtain ⟨r7, e7, b7⟩ := allocIf_extends hjleaf
  obtain ⟨r8, e8, b8⟩ := allocIf_extends holeaf
  have hext := (alloc_ok hroot).trans ((alloc_ok hlost).trans (e3.trans (e4.trans (e5.trans
    (e6.trans (e7.trans e8))))))
  have hruns := congrArg Allocator.runs hext.eq
  simp only [newAllocator, List.nil_append] at hruns
  refine ⟨blocksOf r4, blocksOf r5, ?_, ?_, fun b hb => d4.mem hb, i4, fun b hb => d5.mem hb, i5⟩
  · dsimp only
    rw [hruns]
    simp only [uses, Plan.blocksFor, Plan.lostFound, List.flatMap_cons, List.flatMap_nil,
      blocksOf_append, blocksOf_cons, Run.blocks, b3, b6, b7, b8, List.cons_append,
      List.nil_append, List.append_nil]
    rfl
  · dsimp only
    rw [hruns]
    exact hext.nodup

section Ordered

variable {plan : Plan} {journal orphan : List Nat} (h : plan.Ordered journal orphan)

include h

/-- A block has one use. -/
theorem Plan.Ordered.one_use {u v : Use} {b : Nat} (hu : b ∈ plan.blocksFor journal orphan u)
    (hv : b ∈ plan.blocksFor journal orphan v) : u = v := by
  have hall : ∀ w : Use, w ∈ uses := by
    intro w
    cases w <;> decide
  have hnodup := h.nodup
  rw [h.runs, List.nodup_flatMap] at hnodup
  by_contra hne
  have hsymm : Std.Symm (Function.onFun List.Disjoint (plan.blocksFor journal orphan)) :=
    ⟨fun _ _ hdisjoint _ hb hb' => hdisjoint hb' hb⟩
  exact (hnodup.2.forall (hall u) (hall v) hne) hu hv

/-- What has no use is none of the blocks handed out. -/
theorem Plan.Ordered.no_use {b : Nat} (hb : b ∉ blocksOf plan.runs) (u : Use) :
    b ∉ plan.blocksFor journal orphan u := by
  intro hu
  rw [h.runs] at hb
  refine hb (List.mem_flatMap.mpr ⟨u, ?_, hu⟩)
  cases u <;> decide

end Ordered

/-! ## What writes one use skips the others -/

section Skips

variable {plan : Plan} {journal orphan : List Nat} {block : Nat}

theorem skips_zeroJournal {first : Bool} {runs : List Run} (hruns : block ∉ blocksOf runs) :
    Skips plan.geom.blockSize block (zeroJournal plan first runs) := by
  induction runs generalizing first with
  | nil => exact issues_pure _
  | cons r runs ih =>
    rw [blocksOf_cons, List.mem_append, not_or, Run.mem_blocks] at hruns
    refine issues_then (issues_onlyIf fun hlen => issues_zeroBlocks hlen ?_) (ih hruns.2)
    unfold Beside
    cases first <;> simp at hlen ⊢ <;> omega

theorem skips_dirs (hpos : 0 < plan.lostFoundBlocks)
    (hdirs : block ∉ plan.blocksFor journal orphan .dirs) :
    Skips plan.geom.blockSize block (writeRootAndLostFound plan) := by
  have hne : ∀ b ∈ plan.rootBlock :: plan.lostFound, block ≠ b := fun b hb heq => hdirs (heq ▸ hb)
  have hlost : ∀ i < plan.lostFoundBlocks, block ≠ plan.lostFoundStart + i := fun i hi =>
    hne _ (List.mem_cons_of_mem _ (List.mem_range'_1.mpr ⟨Nat.le_add_right _ _,
      Nat.add_lt_add_left hi _⟩))
  refine issues_bind (issues_ofExcept _) fun root hroot => ?_
  refine issues_then (skips_writeBlock (length_dirBlock plan (returned_ok hroot))
    (hne _ List.mem_cons_self)) ?_
  refine issues_bind (issues_ofExcept _) fun first hfirst => ?_
  refine issues_then (skips_writeBlock (length_dirBlock plan (returned_ok hfirst))
    (hlost 0 hpos)) (issues_forM fun i hi => ?_)
  have hi := List.mem_range'_1.mp hi
  exact skips_writeBlock (length_emptyDirBlock plan) (hlost i (by omega))

theorem skips_resize (hdind : block ∉ plan.blocksFor journal orphan .resize)
    (hreserved : ∀ off < plan.geom.reservedGdtBlocks, block ≠ reservedGdtBlock plan.geom off) :
    Skips plan.geom.blockSize block (forSome plan.resizeDind (writeResizeInodeBlocks plan)) :=
  issues_forSome fun _ hsome => skips_writeResizeInodeBlocks
    (fun heq => hdind (heq ▸ Option.mem_toList.mpr hsome)) hreserved

theorem skips_mmp (hmmp : block ∉ plan.blocksFor journal orphan .mmp) :
    Skips plan.geom.blockSize block
      (forSome plan.mmpBlock fun b => writeBlock plan b (mmpContents plan)) :=
  issues_forSome fun _ hsome => skips_writeBlock (length_mmpContents plan) fun heq =>
    hmmp (heq ▸ Option.mem_toList.mpr hsome)

variable (h : plan.Ordered journal orphan)

include h

theorem Plan.Ordered.skips_orphan (horphan : block ∉ plan.blocksFor journal orphan .orphan)
    (hleaf : block ∉ plan.blocksFor journal orphan .orphanLeaf) :
    Skips plan.geom.blockSize block (forSome plan.orphanInode (writeOrphanFile plan)) :=
  issues_forSome fun _ _ => skips_writeOrphanFile (fun hb => horphan (h.orphanRuns block hb))
    (fun _ hsome heq => hleaf (heq ▸ Option.mem_toList.mpr hsome))
    fun c hc heq => horphan (heq ▸ h.orphanIndirect c hc)

variable (hlaid : plan.Laid)

include hlaid

theorem Plan.Ordered.skips_journal (hjournal : block ∉ plan.blocksFor journal orphan .journal)
    (hleaf : block ∉ plan.blocksFor journal orphan .journalLeaf) :
    Skips plan.geom.blockSize block (forSome plan.journalStart (writeJournal plan)) := by
  refine issues_forSome fun start hstart => ?_
  have hmem : start ∈ blocksOf plan.journalRuns := by
    apply List.mem_of_mem_head?
    rw [← hlaid.journalStart]
    exact hstart
  refine issues_then (skips_writeBlock (length_journalSuperblock plan) fun heq =>
    hjournal (heq ▸ h.journalRuns start hmem)) ?_
  refine issues_then (issues_onlyIf fun _ => skips_zeroJournal fun hb =>
    hjournal (h.journalRuns block hb)) ?_
  refine issues_then (issues_forSome fun leaf hsome => ?_)
    (skips_writeIndirect fun c hc heq => hjournal (heq ▸ h.journalIndirect c hc))
  refine issues_bind (issues_ofExcept _) fun buf hbuf => ?_
  exact skips_writeBlock (length_journalLeafBlock plan hbuf) fun heq =>
    hleaf (heq ▸ Option.mem_toList.mpr hsome)

/-- The files leave alone what is neither handed out nor reserved nor under the first inodes. -/
theorem Plan.Ordered.skips_writeFiles (hpos : 0 < plan.lostFoundBlocks)
    (hruns : block ∉ blocksOf plan.runs) (hinodes : ¬HoldsInodes plan block)
    (hreserved : ∀ off < plan.geom.reservedGdtBlocks, block ≠ reservedGdtBlock plan.geom off) :
    Skips plan.geom.blockSize block (writeFiles plan) := by
  have hno := h.no_use hruns
  exact issues_then (skips_dirs hpos (hno _)) (issues_then (h.skips_journal hlaid (hno _)
    (hno _)) (issues_then (skips_resize (hno _) hreserved) (issues_then
    (h.skips_orphan (hno _) (hno _)) (issues_then (skips_mmp (hno _))
      (skips_writeReservedInodes hinodes)))))

end Skips

end MkfsExt4.Format
