/-
  Truncating the pointers of `i_block` (`truncate_indirect` of `src/orphan.rs`), against
  `walk_indirect` of `src/fs.rs`.
-/
import MkfsExt4.Orphan.Indirect
import MkfsExt4.Orphan.Truncate

namespace MkfsExt4

open Lib.Store Lib.Endian Lib.Hoare Lib.Pruning

namespace Orphan

open Filesystem

variable {fs fs' : Filesystem} {cut n : Nat} {held : List Held}

/-! ## Direct pointers -/

/-- The data blocks direct pointers name. -/
def directHeld (pointer : Nat → Nat) (is : List Nat) : List Held :=
  ((is.map fun i => (i, pointer i)).filter fun p => p.2 ≠ 0).map fun p =>
    { ref := dataRef p.1 p.2 }

theorem directHeld_cons (pointer : Nat → Nat) (i : Nat) (is : List Nat) :
    directHeld pointer (i :: is) =
      (if pointer i = 0 then [] else [{ ref := dataRef i (pointer i) }]) ++
        directHeld pointer is := by
  rw [directHeld, List.map_cons, List.filter_cons]
  by_cases hzero : pointer i = 0
  · rw [if_pos hzero, if_neg (by simpa using hzero)]
    rfl
  · rw [if_neg hzero, if_pos (by simpa using hzero)]
    rfl

/-- The direct pointers past the cut set to zero. -/
theorem directHeld_pruned {pointer pointer' : Nat → Nat} {is : List Nat}
    (h : ∀ i ∈ is, pointer' i = if cut ≤ i then 0 else pointer i) :
    Pruned Held.pos Held.cell cut (directHeld pointer is) (directHeld pointer' is)
      ((is.filter fun i => cut ≤ i ∧ pointer i ≠ 0).map pointer) := by
  induction is with
  | nil => exact Pruned.nil
  | cons i is ih =>
    have hi := h i List.mem_cons_self
    have ih := ih fun j hj => h j (List.mem_cons_of_mem i hj)
    rw [directHeld_cons, directHeld_cons, List.filter_cons]
    by_cases hzero : pointer i = 0
    · have hi' : pointer' i = 0 := by rw [hi, hzero, ite_self]
      rw [if_pos hzero, if_pos hi', if_neg (by simp [hzero])]
      exact ih
    · rw [if_neg hzero]
      by_cases hcut : cut ≤ i
      · rw [if_pos hcut] at hi
        rw [if_pos hi, if_pos (by simpa using ⟨hcut, hzero⟩), List.map_cons]
        have hcell : [pointer i].Perm
            (([{ ref := dataRef i (pointer i) }] : List Held).map Held.cell) := List.Perm.refl _
        refine Pruned.append_drop (fun x hx m hm => ?_) hcell ih
        obtain rfl := List.mem_singleton.mp hx
        obtain rfl := Option.some.inj hm
        exact hcut
      · rw [if_neg hcut] at hi
        rw [hi, if_neg hzero, if_neg (by simp [hcut])]
        refine Pruned.append_keep (fun x hx m hm => ?_) ih
        obtain rfl := List.mem_singleton.mp hx
        obtain rfl := Option.some.inj hm
        exact Nat.not_le.mp hcut

theorem getD_set_self (ps : List Nat) (i : Nat) : (ps.set i 0).getD i 0 = 0 := by
  rw [List.getD_eq_getElem?_getD, List.getElem?_set_self']
  cases ps[i]? <;> rfl

theorem getD_set_ne {ps : List Nat} {i j : Nat} (h : i ≠ j) :
    (ps.set j 0).getD i 0 = ps.getD i 0 := by
  rw [List.getD_eq_getElem?_getD, List.getElem?_set_ne h.symm, ← List.getD_eq_getElem?_getD]

/-- Pointers set to zero one after another. -/
theorem getD_foldl_set (is ps : List Nat) (i : Nat) :
    (is.foldl (fun ps i => ps.set i 0) ps).getD i 0 = if i ∈ is then 0 else ps.getD i 0 := by
  induction is generalizing ps with
  | nil => rfl
  | cons j is ih =>
    rw [List.foldl_cons, ih]
    by_cases hin : i ∈ is
    · rw [if_pos hin, if_pos (List.mem_cons_of_mem j hin)]
    · rw [if_neg hin]
      by_cases heq : i = j
      · subst heq
        rw [if_pos List.mem_cons_self, getD_set_self]
      · rw [if_neg (by simp [heq, hin]), getD_set_ne heq]

theorem length_foldl_set (is ps : List Nat) :
    (is.foldl (fun ps i => ps.set i 0) ps).length = ps.length := by
  induction is generalizing ps with
  | nil => rfl
  | cons i is ih => rw [List.foldl_cons, ih, List.length_set]

theorem lt_of_mem_foldl_set {is ps : List Nat} {bound : Nat} (hpos : 0 < bound)
    (h : ∀ p ∈ ps, p < bound) : ∀ p ∈ is.foldl (fun ps i => ps.set i 0) ps, p < bound := by
  induction is generalizing ps with
  | nil => exact h
  | cons i is ih =>
    refine ih fun p hp => ?_
    rcases List.mem_or_eq_of_mem_set hp with hp | rfl
    · exact h p hp
    · exact hpos

/-! ## The slots of indirect blocks -/

/-- The tree under a slot of `i_block`. -/
def SlotTree (fs : Filesystem) (slot : Nat × Nat × Nat) (p : Nat) (held : List Held) : Prop :=
  fs.IndirectTree slot.2.1 slot.2.2 p held

theorem SlotTree.frames : Frames SlotTree :=
  fun _ _ _ _ _ _ hfs htree hother => IndirectTree.touched hfs htree hother

/-- The pointers as truncation has them: 15 of them, each a block number, the direct ones as they
    were. -/
structure PointersInv (n : Nat) (direct : List Nat) (fs : Filesystem)
    (acc : List Nat × List Nat) : Prop where
  perBlock : fs.perBlock = n
  length : acc.1.length = nBlocks
  lt : ∀ p ∈ acc.1, p < 2 ^ 32
  direct : ∀ i < ndirBlocks, acc.1.getD i 0 = direct.getD i 0

/-- The pointer in a slot. -/
def slotPointer (acc : List Nat × List Nat) (slot : Nat × Nat × Nat) : Nat := acc.1.getD slot.1 0

theorem mem_indirectSlots {slot : Nat × Nat × Nat} (h : slot ∈ indirectSlots n) :
    ndirBlocks ≤ slot.1 ∧ slot.1 < nBlocks ∧ ∃ depth, slot.2.1 = depth + 1 := by
  simp only [indirectSlots, List.mem_cons, List.not_mem_nil, or_false] at h
  rcases h with rfl | rfl | rfl
  · exact ⟨(by decide : 12 ≤ 12), (by decide : 12 < 15), 0, rfl⟩
  · exact ⟨(by decide : 12 ≤ 13), (by decide : 13 < 15), 1, rfl⟩
  · exact ⟨(by decide : 12 ≤ 14), (by decide : 14 < 15), 2, rfl⟩

/-- A slot is known by its number. -/
theorem indirectSlots_inj {slot slot' : Nat × Nat × Nat} (h : slot ∈ indirectSlots n)
    (h' : slot' ∈ indirectSlots n) (heq : slot.1 = slot'.1) : slot = slot' := by
  have hnodup : ((indirectSlots n).map Prod.fst).Nodup :=
    (by decide : [ndirBlocks, ndirBlocks + 1, ndirBlocks + 2].Nodup)
  exact List.inj_on_of_nodup_map hnodup h h' heq

theorem truncateRoot_turn {direct : List Nat} {acc acc' : List Nat × List Nat}
    {slot : Nat × Nat × Nat} (hslot : slot ∈ indirectSlots n) (hinv : PointersInv n direct fs acc)
    (hrooted : Rooted slotPointer SlotTree fs acc slot held)
    (hnodup : (held.map Held.cell).Nodup)
    (hrun : exec (truncateRoot cut n acc slot) fs = (.ok acc', fs')) :
    PointersInv n direct fs' acc' ∧ ∃ held' more, Turn slotPointer Prod.snd SlotTree cut
      (indirectSlots n) fs fs' acc acc' slot held held' more := by
  obtain ⟨hdir, hlt, depth, hdepth⟩ := mem_indirectSlots hslot
  unfold truncateRoot at hrun
  obtain ⟨_, fs₀, hspan, hturn⟩ := exec_bind_ok hrun
  rw [(reading_ok hspan).2] at hturn
  dsimp only at hturn
  split at hturn
  · next hkeep =>
    obtain ⟨rfl, rfl⟩ := exec_pure_ok hturn
    refine ⟨hinv, held, [], fun _ _ _ => rfl, hrooted,
      hrooted.keep fun hne htree x hx m hm => ?_, (List.append_nil _).symm, Touches.refl _ _⟩
    have hbefore := hkeep.resolve_left hne
    have := (IndirectTree.within htree x hx m hm).2
    rw [hinv.perBlock] at this
    omega
  · next hpast =>
    have hne : slotPointer acc slot ≠ 0 := (not_or.mp hpast).1
    obtain ⟨⟨empty, gone⟩, fs₁, hblock, hrest⟩ := exec_bind_ok hturn
    have htree : fs.IndirectTree slot.2.1 slot.2.2 (slotPointer acc slot) held :=
      hrooted.tree_of_ne hne
    rw [hdepth] at htree hblock
    obtain ⟨held', htrim⟩ := truncateIndirectBlock_trims cut n depth hinv.perBlock htree hnodup
      hblock
    have hn : fs₁.perBlock = n := htrim.touches.perBlock.trans hinv.perBlock
    have hleft := htrim.left
    have hpruned := htrim.pruned
    cases empty with
    | true =>
      obtain ⟨rfl, rfl⟩ := exec_pure_ok hrest
      obtain rfl : held' = [] := hleft
      have hother : ∀ {i : Nat}, i ≠ slot.1 → (acc.1.set slot.1 0).getD i 0 = acc.1.getD i 0 :=
        fun hi => getD_set_ne hi
      refine ⟨⟨hn, by rw [List.length_set]; exact hinv.length, fun p hp => ?_, fun i hi => ?_⟩, [],
        gone ++ [slotPointer acc slot], fun j hj hne => ?_, ?_, hpruned, rfl, htrim.touches⟩
      · rcases List.mem_or_eq_of_mem_set hp with hp | rfl
        · exact hinv.lt p hp
        · exact Nat.two_pow_pos 32
      · exact (hother (by omega)).trans (hinv.direct i hi)
      · exact hother fun heq => hne (indirectSlots_inj hj hslot heq)
      · exact Rooted.hole (getD_set_self acc.1 slot.1)
    | false =>
      obtain ⟨rfl, rfl⟩ := exec_pure_ok hrest
      rw [← hdepth] at hleft
      exact ⟨⟨hn, hinv.length, hinv.lt, hinv.direct⟩, held', gone, fun _ _ _ => rfl,
        Rooted.of_tree hne hleft, hpruned, rfl, htrim.touches⟩

/-! ## Walking -/

/-- A walk of a map that ended well is one of each slot. -/
theorem walkIndirect_ok_iff {inode : Inode} {refs : List BlockRef} :
    fs.walkIndirect inode = (refs, .ok ()) ↔ ∃ rs, List.Forall₂ (fun slot r =>
      fs.walkIndirectSlot inode.blockPointers slot.1 slot.2.1 slot.2.2 = (r, .ok ()))
      (indirectSlots fs.perBlock) rs ∧
      refs = (directHeld (fun i => inode.blockPointers.getD i 0)
        (List.range ndirBlocks)).map Held.ref ++ rs.flatten := by
  constructor
  · intro h
    rw [walkIndirect] at h
    obtain ⟨_, r1, r2, h1, h2, rfl⟩ := Walk.andThen_ok h
    obtain rfl := Walk.visit_ok h1
    obtain ⟨_, r3, r4, h3, h4, rfl⟩ := Walk.andThen_ok h2
    obtain ⟨_, r5, r6, h5, h6, rfl⟩ := Walk.andThen_ok h4
    refine ⟨[r3, r5, r6], .cons h3 (.cons h5 (.cons h6 .nil)), ?_⟩
    rw [directHeld, List.map_map]
    simp only [List.flatten_cons, List.flatten_nil, List.append_nil]
    rfl
  · rintro ⟨rs, hrs, heq⟩
    cases hrs with
    | cons h1 hrs => cases hrs with
      | cons h2 hrs => cases hrs with
        | cons h3 hrs =>
          cases hrs
          dsimp only at h1 h2 h3
          rw [heq, walkIndirect, Walk.andThen_of_ok rfl, h1, Walk.andThen_of_ok rfl, h2,
            Walk.andThen_of_ok rfl, h3, directHeld, List.map_map]
          simp only [List.flatten_cons, List.flatten_nil, List.append_nil]
          rfl

/-- What a slot holds is what a walk of it visits. -/
theorem walkIndirectSlot_rooted {pointers : List Nat} {slot : Nat × Nat × Nat}
    (hslot : slot ∈ indirectSlots n) (gone : List Nat)
    (hfits : slot.2.2 + fs.perBlock ^ slot.2.1 < 2 ^ 64) :
    (∀ {refs : List BlockRef},
      fs.walkIndirectSlot pointers slot.1 slot.2.1 slot.2.2 = (refs, .ok ()) →
      ∃ held, Rooted slotPointer SlotTree fs (pointers, gone) slot held ∧
        refs.Perm (held.map Held.ref)) ∧
    ∀ {held : List Held}, Rooted slotPointer SlotTree fs (pointers, gone) slot held →
      ∃ refs, fs.walkIndirectSlot pointers slot.1 slot.2.1 slot.2.2 = (refs, .ok ()) ∧
        refs.Perm (held.map Held.ref) := by
  obtain ⟨-, -, depth, hdepth⟩ := mem_indirectSlots hslot
  by_cases hzero : pointers.getD slot.1 0 = 0
  · have hwalk : fs.walkIndirectSlot pointers slot.1 slot.2.1 slot.2.2 = .done () := by
      rw [walkIndirectSlot]
      refine (if_pos hzero).trans ?_
      rw [panicIf, if_neg (Nat.not_le.mpr hfits)]
      rfl
    rw [hwalk]
    constructor
    · intro refs h
      obtain rfl : [] = refs := (Prod.mk.inj h).1
      exact ⟨[], Rooted.hole hzero, List.Perm.refl _⟩
    · intro held h
      unfold Rooted at h
      rw [if_pos (show slotPointer (pointers, gone) slot = 0 from hzero)] at h
      subst h
      exact ⟨[], rfl, List.Perm.refl _⟩
  · have hwalk : fs.walkIndirectSlot pointers slot.1 slot.2.1 slot.2.2 =
        (Walk.visit [mapRef (pointers.getD slot.1 0)]).andThen fun _ =>
          fs.walkIndirectLevel (depth + 1) (pointers.getD slot.1 0) slot.2.2 := by
      rw [walkIndirectSlot, ← hdepth]
      exact if_neg hzero
    rw [hwalk]
    constructor
    · intro refs h
      obtain ⟨_, r1, r2, h1, h2, rfl⟩ := Walk.andThen_ok h
      obtain rfl := Walk.visit_ok h1
      obtain ⟨held, htree, hperm⟩ := exists_tree_of_walk h2
      refine ⟨held, Rooted.of_tree hzero ?_, hperm⟩
      unfold SlotTree
      rw [hdepth]
      exact htree
    · intro held h
      have htree := Rooted.tree_of_ne h hzero
      unfold SlotTree at htree
      rw [hdepth] at htree hfits
      obtain ⟨refs, hlevel, hperm⟩ := walkIndirectLevel_tree htree hfits
      refine ⟨_, ?_, hperm⟩
      rw [Walk.andThen_of_ok rfl]
      exact congrArg (fun w : Walk Unit => (mapRef (pointers.getD slot.1 0) :: w.1, w.2)) hlevel

/-- Walks of the slots that ended well have counted what they cover. -/
theorem walkSlots_within {pointers : List Nat} {slots : List (Nat × Nat × Nat)}
    {rs : List (List BlockRef)} (hsub : slots ⊆ indirectSlots n)
    (h : List.Forall₂ (fun slot r =>
      fs.walkIndirectSlot pointers slot.1 slot.2.1 slot.2.2 = (r, .ok ())) slots rs) :
    ∀ slot ∈ slots, slot.2.2 + fs.perBlock ^ slot.2.1 < 2 ^ 64 := by
  induction h with
  | nil => exact nofun
  | @cons slot r slots rs hhead _ ih =>
    obtain ⟨hslot, hsub⟩ := List.cons_subset.mp hsub
    refine List.forall_mem_cons.mpr ⟨?_, ih hsub⟩
    obtain ⟨-, -, depth, hdepth⟩ := mem_indirectSlots hslot
    rw [hdepth] at hhead ⊢
    exact walkIndirectSlot_within hhead

/-- What the slots hold is what walks of them visit. -/
theorem walkSlots_parts {pointers gone : List Nat}
    (hfits : ∀ slot ∈ indirectSlots n, slot.2.2 + fs.perBlock ^ slot.2.1 < 2 ^ 64) :
    (∀ {rs : List (List BlockRef)}, List.Forall₂ (fun slot r =>
        fs.walkIndirectSlot pointers slot.1 slot.2.1 slot.2.2 = (r, .ok ())) (indirectSlots n) rs →
      ∃ parts, List.Forall₂ (Rooted slotPointer SlotTree fs (pointers, gone)) (indirectSlots n)
        parts ∧ rs.flatten.Perm (parts.flatten.map Held.ref)) ∧
    ∀ {parts : List (List Held)}, List.Forall₂ (Rooted slotPointer SlotTree fs (pointers, gone))
        (indirectSlots n) parts →
      ∃ rs, List.Forall₂ (fun slot r =>
        fs.walkIndirectSlot pointers slot.1 slot.2.1 slot.2.2 = (r, .ok ())) (indirectSlots n) rs ∧
        rs.flatten.Perm (parts.flatten.map Held.ref) := by
  generalize hslots : indirectSlots n = slots
  have hmem : ∀ slot ∈ slots, slot ∈ indirectSlots n := fun slot h => hslots ▸ h
  clear hslots
  induction slots with
  | nil =>
    refine ⟨fun h => ⟨[], .nil, ?_⟩, fun h => ⟨[], .nil, ?_⟩⟩
    · cases h
      exact List.Perm.refl _
    · cases h
      exact List.Perm.refl _
  | cons slot slots ih =>
    obtain ⟨ih, ih'⟩ := ih fun s hs => hmem s (List.mem_cons_of_mem slot hs)
    obtain ⟨hone, hone'⟩ := @walkIndirectSlot_rooted fs n pointers slot
      (hmem slot List.mem_cons_self) gone (hfits slot (hmem slot List.mem_cons_self))
    constructor
    · intro rs h
      cases h with
      | cons hhead htail =>
        obtain ⟨part, hpart, hperm⟩ := hone hhead
        obtain ⟨parts, hparts, hperms⟩ := ih htail
        refine ⟨part :: parts, .cons hpart hparts, ?_⟩
        rw [List.flatten_cons, List.flatten_cons, List.map_append]
        exact hperm.append hperms
    · intro parts h
      cases h with
      | cons hhead htail =>
        obtain ⟨r, hr, hperm⟩ := hone' hhead
        obtain ⟨rs, hrs, hperms⟩ := ih' htail
        refine ⟨r :: rs, .cons hr hrs, ?_⟩
        rw [List.flatten_cons, List.flatten_cons, List.map_append]
        exact hperm.append hperms

theorem blockPointers_setBlockPointers {inode : Inode} {pointers : List Nat}
    (hblock : inode.block.length = iBlockLen) (hlen : pointers.length = nBlocks)
    (hlt : ∀ p ∈ pointers, p < 2 ^ 32) :
    (inode.setBlockPointers pointers).blockPointers = pointers := by
  refine getU32s_of_slice hlen hlt ?_
  have hbytes := length_flatMap_toLe 4 pointers
  rw [hlen] at hbytes
  show slice (putU32s inode.block 0 pointers) 0 (4 * nBlocks) = _
  rw [putU32s_eq]
  exact slice_splice hbytes (by rw [hblock]; decide)

/-- The block numbers of `i_block`. -/
theorem blockPointers_typed (inode : Inode) :
    inode.blockPointers.length = nBlocks ∧ ∀ p ∈ inode.blockPointers, p < 2 ^ 32 := by
  refine ⟨by rw [Inode.blockPointers, getU32s, List.length_map, List.length_range], ?_⟩
  intro p hp
  obtain ⟨i, -, rfl⟩ := List.mem_map.mp hp
  exact getU32_lt _ _

/-- The pointers once the direct ones past the cut are zero. -/
theorem getD_cleared (ps : List Nat) (i : Nat) :
    (((List.range ndirBlocks).filter fun i => cut ≤ i ∧ ps.getD i 0 ≠ 0).foldl
      (fun ps i => ps.set i 0) ps).getD i 0 =
      if i < ndirBlocks ∧ cut ≤ i then 0 else ps.getD i 0 := by
  rw [getD_foldl_set]
  by_cases hin : i < ndirBlocks ∧ cut ≤ i
  · rw [if_pos hin]
    by_cases hzero : ps.getD i 0 = 0
    · rw [hzero, ite_self]
    · rw [if_pos]
      exact List.mem_filter.mpr ⟨List.mem_range.mpr hin.1, decide_eq_true ⟨hin.2, hzero⟩⟩
  · rw [if_neg hin, if_neg fun hmem => hin ?_]
    obtain ⟨hrange, hcut⟩ := List.mem_filter.mp hmem
    exact ⟨List.mem_range.mp hrange, (of_decide_eq_true hcut).1⟩

theorem nodup_indirectSlots (n : Nat) : (indirectSlots n).Nodup :=
  List.Nodup.of_map Prod.fst (by decide : [ndirBlocks, ndirBlocks + 1, ndirBlocks + 2].Nodup)

/-- Truncating an indirect map leaves a map of what was before the cut, each block at its place;
    what it no longer holds is freed. -/
theorem truncateIndirect_exact {inode inode' : Inode} {refs : List BlockRef} {freed : List Nat}
    (hblock : inode.block.length = iBlockLen) (hwalk : fs.walkIndirect inode = (refs, .ok ()))
    (hnodup : (refs.map BlockRef.physical).Nodup)
    (hrun : exec (truncateIndirect inode cut) fs = (.ok (inode', freed), fs')) :
    ∃ refs', inode' = { inode with block := inode'.block } ∧
      fs'.walkIndirect inode' = (refs', .ok ()) ∧
      Pruned BlockRef.logical BlockRef.physical cut refs refs' freed ∧
      ∀ b ∈ freed, b ∉ refs'.map BlockRef.physical := by
  obtain ⟨rs, hrs, hrefs⟩ := walkIndirect_ok_iff.mp hwalk
  obtain ⟨hlen, hlt⟩ := blockPointers_typed inode
  unfold truncateIndirect at hrun
  obtain ⟨n, fs₁, hread, hrest⟩ := exec_bind_ok hrun
  obtain ⟨hn, rfl⟩ := reading_ok hread
  have hn : fs₁.perBlock = n := Except.ok.inj hn
  rw [hn] at hrs
  dsimp only at hrest
  obtain ⟨⟨ps, gone⟩, fs₂, hloop, hend⟩ := exec_bind_ok hrest
  obtain ⟨heq, rfl⟩ := exec_pure_ok hend
  obtain ⟨rfl, rfl⟩ := Prod.mk.inj heq
  have hcleared := @getD_cleared cut inode.blockPointers
  generalize hdirect : (List.range ndirBlocks).filter
    (fun i => decide (cut ≤ i ∧ inode.blockPointers.getD i 0 ≠ 0)) = direct at hloop hcleared
  generalize hps : direct.foldl (fun ps i => ps.set i 0) inode.blockPointers = ps₁
    at hloop hcleared
  -- the map as it was, direct pointers and slots
  have hfits := walkSlots_within (List.Subset.refl _) hrs
  obtain ⟨parts, hparts, hperm⟩ :=
    (@walkSlots_parts fs₁ n inode.blockPointers (direct.map fun i =>
      inode.blockPointers.getD i 0) hfits).1 hrs
  have hheld : refs.Perm ((directHeld (fun i => inode.blockPointers.getD i 0)
      (List.range ndirBlocks) ++ parts.flatten).map Held.ref) := by
    rw [hrefs, List.map_append]
    exact hperm.append_left _
  have hcells := ((hheld.map BlockRef.physical).nodup_iff).mp hnodup
  rw [List.map_map, List.map_append] at hcells
  have hparts₁ : List.Forall₂ (Rooted slotPointer SlotTree fs₁
      (ps₁, direct.map fun i => inode.blockPointers.getD i 0)) (indirectSlots n) parts := by
    refine forall₂_imp_of_subset hparts fun hslot _ hrooted => hrooted.congr ?_
    exact (hcleared _).trans (if_neg fun h => Nat.not_lt.mpr (mem_indirectSlots hslot).1 h.1)
  have hinv : PointersInv n ps₁ fs₁ (ps₁, direct.map fun i => inode.blockPointers.getD i 0) := by
    refine ⟨hn, ?_, ?_, fun _ _ => rfl⟩
    · rw [← hps, length_foldl_set, hlen]
    · rw [← hps]
      exact lt_of_mem_foldl_set (Nat.two_pow_pos 32) hlt
  have hstep : ∀ {fs fs' : Filesystem} {acc acc' : List Nat × List Nat} {held : List Held},
      ∀ slot ∈ indirectSlots n, PointersInv n ps₁ fs acc →
      Rooted slotPointer SlotTree fs acc slot held → (held.map Held.cell).Nodup →
      exec (truncateRoot cut n acc slot) fs = (.ok acc', fs') →
      PointersInv n ps₁ fs' acc' ∧ ∃ held' more, Turn slotPointer Prod.snd SlotTree cut
        (indirectSlots n) fs fs' acc acc' slot held held' more :=
    fun _ hslot => truncateRoot_turn hslot
  obtain ⟨parts', more, hparts', hpruned, hmore, -, hinv', -⟩ := foldlM_trims SlotTree.frames hstep
    (List.Subset.refl _) (nodup_indirectSlots n) hinv hparts₁ (List.nodup_append.mp hcells).2.1 hloop
  have hpointers := blockPointers_setBlockPointers hblock hinv'.length hinv'.lt
  have hfits' : ∀ slot ∈ indirectSlots n, slot.2.2 + fs'.perBlock ^ slot.2.1 < 2 ^ 64 := by
    rw [hn] at hfits
    rwa [hinv'.perBlock]
  obtain ⟨rs', hrs', hperm'⟩ := (walkSlots_parts hfits').2 hparts'
  have hzeroed : ∀ i ∈ List.range ndirBlocks, ps.getD i 0 =
      if cut ≤ i then 0 else inode.blockPointers.getD i 0 := by
    intro i hi
    have hi := List.mem_range.mp hi
    rw [show ps.getD i 0 = ps₁.getD i 0 from hinv'.direct i hi, hcleared i]
    exact if_congr (and_iff_right hi) rfl rfl
  have hall := (directHeld_pruned hzeroed).append hpruned
  rw [hdirect, ← hmore] at hall
  have hheld' : ((directHeld (fun i => ps.getD i 0) (List.range ndirBlocks)).map Held.ref ++
      rs'.flatten).Perm ((directHeld (fun i => ps.getD i 0) (List.range ndirBlocks) ++
        parts'.flatten).map Held.ref) := by
    rw [List.map_append]
    exact hperm'.append_left _
  have hmapped : Pruned BlockRef.logical BlockRef.physical cut _ _ freed := hall.map rfl rfl
  have hfinal := hmapped.perm hheld.symm hheld'.symm (List.Perm.refl _)
  refine ⟨_, rfl, walkIndirect_ok_iff.mpr ⟨rs', ?_, ?_⟩, hfinal, hfinal.disjoint hnodup⟩
  · rw [hpointers, hinv'.perBlock]
    exact hrs'
  · rw [hpointers]

/-- A file of two blocks with a hole between them. -/
def mapInode : Inode where
  mode := 0x81a4
  block := [6, 0, 0, 0, 0, 0, 0, 0, 8] ++ List.replicate 51 0

/-- A cut in the hole. -/
theorem truncateIndirect_hole : ∃ inode' fs' refs',
    exec (truncateIndirect mapInode 1) treeFs = (.ok (inode', [8]), fs') ∧
      fs'.walkIndirect inode' = (refs', .ok ()) ∧
      Pruned BlockRef.logical BlockRef.physical 1 [dataRef 0 6, dataRef 2 8] refs' [8] := by
  have hwalk : treeFs.walkIndirect mapInode = ([dataRef 0 6, dataRef 2 8], .ok ()) := by
    decide +kernel
  have hruns : (exec (truncateIndirect mapInode 1) treeFs).1.toOption.map Prod.snd = some [8] := by
    decide +kernel
  rcases hrun : exec (truncateIndirect mapInode 1) treeFs with ⟨_ | ⟨inode', freed⟩, fs'⟩
  · rw [hrun] at hruns
    cases hruns
  · rw [hrun] at hruns
    obtain rfl : freed = [8] := Option.some.inj hruns
    obtain ⟨refs', -, hwalk', hpruned, -⟩ :=
      truncateIndirect_exact (by decide) hwalk (by decide) hrun
    exact ⟨inode', fs', refs', rfl, hwalk', hpruned⟩

end Orphan

end MkfsExt4
