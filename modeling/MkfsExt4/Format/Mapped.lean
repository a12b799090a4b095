/-
  The maps `alloc_indirect_file` and `build_indirect` of `src/format.rs` build, read back.

  Each builder fills the direct pointers, then one tree after another, and a tree's indirect
  blocks one after another: the shape `MapParts.Held` of `Read.Pointers`. So a map that is
  written out resolves to the blocks it was built for, and a walk visits them and the map's own
  blocks (`indirect_maps_resolve`).
-/
import MkfsExt4.Format.Allocations
import MkfsExt4.Format.Cells
import MkfsExt4.Format.Planned
import MkfsExt4.Read.Pointers
import MkfsExt4.Read.Resolve

namespace MkfsExt4.Format

open Lib.Store Lib.Hoare Layout Filesystem

/-! ## What is left for the next part -/

/-- Part of the blocks `rest` goes under `root`, `level` levels up, the indirect blocks being
those of `blks`; `after` is what does not fit. -/
def Yields (n level : Nat) (rest : List Nat) (root : Nat) (blks : List (Nat × List Nat))
    (after : List Nat) : Prop :=
  ∃ data, rest = data ++ after ∧ (after ≠ [] → data.length = n ^ level) ∧
    ∀ blocks, blks ⊆ blocks → (∀ c ∈ blks, 0 < c.1) →
      ∃ owned, owned.Perm (blks.map Prod.fst) ∧ Filesystem.Slot n blocks level root data owned

theorem Yields.nothing (n level : Nat) : Yields n level [] 0 [] [] :=
  ⟨[], rfl, fun h => absurd rfl h, fun _ _ _ => ⟨[], List.Perm.refl _, by
    rw [Filesystem.Slot, if_pos rfl]
    exact ⟨rfl, rfl⟩⟩⟩

/-! ## The pointers of an inode -/

theorem pointersOf_direct {direct : List Nat} (ind dind tind : Nat)
    (hvalid : ∀ b ∈ direct, b < 2 ^ 32) {i : Nat} (hi : i < ndirBlocks) :
    (IndirectMap.pointersOf direct ind dind tind).getD i 0 = direct[i]?.getD 0 := by
  rw [IndirectMap.pointersOf, List.getD_eq_getElem?_getD, List.getElem?_map, List.append_assoc]
  rcases Nat.lt_or_ge i direct.length with hlt | hge
  · rw [List.getElem?_append_left hlt, List.getElem?_eq_getElem hlt]
    exact Nat.mod_eq_of_lt (hvalid _ (List.getElem_mem hlt))
  · rw [List.getElem?_append_right hge, List.getElem?_append_left
      (by rw [List.length_replicate]; omega), List.getElem?_replicate_of_lt (by omega),
      List.getElem?_eq_none hge]
    rfl

theorem pointersOf_root {direct : List Nat} (ind dind tind : Nat)
    (hlen : direct.length ≤ ndirBlocks) (k : Nat) :
    (IndirectMap.pointersOf direct ind dind tind).getD (ndirBlocks + k) 0 =
      [ind, dind, tind].getD k 0 % 2 ^ 32 := by
  have hfirst : (direct ++ List.replicate (ndirBlocks - direct.length) 0).length = ndirBlocks := by
    rw [List.length_append, List.length_replicate]
    omega
  rw [IndirectMap.pointersOf, List.getD_eq_getElem?_getD, List.getElem?_map,
    List.getElem?_append_right (by omega), hfirst, Nat.add_sub_cancel_left,
    List.getD_eq_getElem?_getD]
  cases [ind, dind, tind][k]? <;> rfl

theorem pointersOf_fits {direct : List Nat} (ind dind tind : Nat)
    (hlen : direct.length ≤ ndirBlocks) :
    (IndirectMap.pointersOf direct ind dind tind).length = nBlocks ∧
      ∀ p ∈ IndirectMap.pointersOf direct ind dind tind, p < 2 ^ 32 := by
  refine ⟨?_, fun p hp => ?_⟩
  · simp only [IndirectMap.pointersOf, List.length_map, List.length_append, List.length_replicate,
      List.length_cons, List.length_nil, ndirBlocks, nBlocks] at hlen ⊢
    omega
  · obtain ⟨q, -, rfl⟩ := List.mem_map.mp hp
    exact Nat.mod_lt _ (by decide)

/-- The pointer to a tree fits its slot. -/
theorem slot_root_mod {n level root : Nat} {blocks : List (Nat × List Nat)}
    {data owned : List Nat} (h : Filesystem.Slot n blocks level root data owned)
    (hvalid : ∀ b ∈ data ++ owned, 0 < b ∧ b < 2 ^ 32) : root % 2 ^ 32 = root := by
  unfold Filesystem.Slot at h
  split at h
  · next hzero => rw [hzero, Nat.zero_mod]
  · exact Nat.mod_eq_of_lt (hvalid root h.root_mem).2

/-- A map holds the parts of `m`, and its pointers fill an inode's. -/
structure IndirectMap.Holds (map : IndirectMap) (blockSize : Nat) (m : MapParts) : Prop where
  held : m.Held (blockSize / 4) map.blocks map.pointers
  length : map.pointers.length = nBlocks
  lt : ∀ p ∈ map.pointers, p < 2 ^ 32

/-- The pointers a builder stores hold what it built. -/
theorem held_of_slots {m : MapParts} {blockSize ind dind tind : Nat}
    {blocks : List (Nat × List Nat)}
    (hvalid : ∀ b ∈ m.data ++ m.owned, 0 < b ∧ b < 2 ^ 32)
    (hlen : m.direct.length ≤ ndirBlocks)
    (single : Filesystem.Slot (blockSize / 4) blocks 1 ind m.single m.ind)
    (double : Filesystem.Slot (blockSize / 4) blocks 2 dind m.double m.dind)
    (triple : Filesystem.Slot (blockSize / 4) blocks 3 tind m.triple m.tind)
    (direct_full : m.single ≠ [] → m.direct.length = ndirBlocks)
    (single_full : m.double ≠ [] → (m.direct ++ m.single).length = ndirBlocks + blockSize / 4)
    (double_full : m.triple ≠ [] → (m.direct ++ m.single ++ m.double).length =
      ndirBlocks + blockSize / 4 + (blockSize / 4) ^ 2) :
    ({ pointers := IndirectMap.pointersOf m.direct ind dind tind, blocks } : IndirectMap).Holds
      blockSize m := by
  have hmem : ∀ b, b ∈ m.direct ∨ b ∈ m.single ++ m.ind ∨ b ∈ m.double ++ m.dind ∨
      b ∈ m.triple ++ m.tind → b ∈ m.data ++ m.owned := fun _ => MapParts.mem_of_part
  have hind := slot_root_mod single fun b hb => hvalid b (hmem b (Or.inr (Or.inl hb)))
  have hdind := slot_root_mod double fun b hb => hvalid b (hmem b (Or.inr (Or.inr (Or.inl hb))))
  have htind := slot_root_mod triple fun b hb => hvalid b (hmem b (Or.inr (Or.inr (Or.inr hb))))
  obtain ⟨hpointers, hfit⟩ := pointersOf_fits ind dind tind hlen
  refine ⟨⟨hlen, fun i hi => ?_, ?_, ?_, ?_, direct_full, single_full, double_full⟩, hpointers,
    hfit⟩
  · exact pointersOf_direct ind dind tind (fun b hb => (hvalid b (hmem b (Or.inl hb))).2) hi
  · have hroot := pointersOf_root ind dind tind hlen 0
    rw [Nat.add_zero] at hroot
    rw [hroot]
    exact hind.symm ▸ single
  · rw [pointersOf_root ind dind tind hlen 1]
    exact hdind.symm ▸ double
  · rw [pointersOf_root ind dind tind hlen 2]
    exact htind.symm ▸ triple

section BuildIndirect

variable {allocOne : AllocM Nat} {n : Nat} {rest after : List Nat} {a a' : Allocator}

theorem mapChildren_fills {slots : Nat} {children : List (Nat × List Nat)} (hslots : slots ≤ n)
    (h : exec (mapChildren allocOne n slots rest) a = (.ok (children, after), a')) :
    ∃ data, rest = data ++ after ∧ children.length ≤ slots ∧
      (after ≠ [] → data.length = slots * n) ∧
      ∀ blocks, children ⊆ blocks → Fills (Subtree n blocks 1) (n ^ 1) (children.map Prod.fst)
        data (children.map Prod.fst) := by
  induction slots generalizing rest children a with
  | zero =>
    cases h
    exact ⟨[], rfl, Nat.le_refl _, fun _ => (Nat.zero_mul n).symm, fun _ _ => .nil⟩
  | succ slots ih =>
    rw [mapChildren] at h
    split at h
    · next hempty =>
      cases h
      exact ⟨[], rfl, Nat.zero_le _, fun hne => absurd (List.isEmpty_iff.mp hempty) hne,
        fun _ _ => .nil⟩
    · next hne =>
      obtain ⟨ind, a1, hind, hrest⟩ := exec_bind_ok h
      obtain ⟨⟨more, after'⟩, a2, hmore, hrest⟩ := exec_bind_ok hrest
      cases hrest
      obtain ⟨data, hdata, hlen, hfull, hfills⟩ := ih (by omega) hmore
      rw [List.isEmpty_iff] at hne
      have hpos := List.length_pos_iff.mpr hne
      refine ⟨rest.take n ++ data, ?_, Nat.succ_le_succ hlen, fun hafter => ?_, ?_⟩
      · rw [List.append_assoc, ← hdata, List.take_append_drop]
      · have hdrop := congrArg List.length hdata
        have hafter' := List.length_pos_iff.mpr hafter
        rw [List.length_append, List.length_drop] at hdrop
        rw [List.length_append, List.length_take, hfull hafter, Nat.succ_mul]
        omega
      · intro blocks hsub
        refine .cons (o := [ind]) (subtree_one (hsub List.mem_cons_self)
          (List.length_take_le _ _)) ?_ ?_ (hfills blocks fun c hc =>
          hsub (List.mem_cons_of_mem _ hc))
        · rw [List.length_take]
          omega
        · intro hmore
          have hdrop := congrArg List.length hdata
          have hmore' := List.length_pos_iff.mpr hmore
          rw [List.length_append, List.length_drop] at hdrop
          rw [List.length_take, pow_one]
          omega

theorem mapGrandchildren_fills {slots : Nat} {blks : List (Nat × List Nat)} {dinds : List Nat}
    (hslots : slots ≤ n)
    (h : exec (mapGrandchildren allocOne n slots rest) a = (.ok (blks, dinds, after), a')) :
    ∃ data, rest = data ++ after ∧ dinds.length ≤ slots ∧
      (after ≠ [] → data.length = slots * n ^ 2) ∧
      ∀ blocks, blks ⊆ blocks → ∃ owned, owned.Perm (blks.map Prod.fst) ∧
        Fills (Subtree n blocks 2) (n ^ 2) dinds data owned := by
  induction slots generalizing rest blks dinds a with
  | zero =>
    cases h
    exact ⟨[], rfl, Nat.le_refl _, fun _ => (Nat.zero_mul _).symm,
      fun _ _ => ⟨[], List.Perm.refl _, .nil⟩⟩
  | succ slots ih =>
    rw [mapGrandchildren] at h
    split at h
    · next hempty =>
      cases h
      exact ⟨[], rfl, Nat.zero_le _, fun hne => absurd (List.isEmpty_iff.mp hempty) hne,
        fun _ _ => ⟨[], List.Perm.refl _, .nil⟩⟩
    · next hne =>
      obtain ⟨dind, a1, hdind, hrest⟩ := exec_bind_ok h
      obtain ⟨⟨children, rest1⟩, a2, hchildren, hrest⟩ := exec_bind_ok hrest
      obtain ⟨⟨more, dinds', after'⟩, a3, hmore, hrest⟩ := exec_bind_ok hrest
      cases hrest
      obtain ⟨d, rfl, hlen, hfull, hfills⟩ := mapChildren_fills (Nat.le_refl n) hchildren
      obtain ⟨data, rfl, hlen', hfull', hfills'⟩ := ih (by omega) hmore
      rw [List.isEmpty_iff] at hne
      have hdpos : 0 < d.length := by
        refine List.length_pos_iff.mpr fun hnil => ?_
        subst hnil
        have hlen := hfull hne
        have hmul := Nat.mul_pos (Nat.lt_of_lt_of_le (Nat.succ_pos slots) hslots)
          (Nat.lt_of_lt_of_le (Nat.succ_pos slots) hslots)
        rw [← hlen] at hmul
        cases hmul
      refine ⟨d ++ data, List.append_assoc _ _ _ |>.symm, Nat.succ_le_succ hlen', ?_, ?_⟩
      · intro hafter
        rw [List.length_append, hfull' hafter, hfull (List.append_ne_nil_of_right_ne_nil _ hafter),
          Nat.succ_mul, pow_two]
        exact Nat.add_comm _ _
      · intro blocks hsub
        obtain ⟨hsub1, hsub2⟩ := List.append_subset.mp hsub
        obtain ⟨hdmem, hsub3⟩ := List.cons_subset.mp hsub2
        obtain ⟨owned, hperm, hmore⟩ := hfills' blocks hsub3
        refine ⟨(dind :: children.map Prod.fst) ++ owned, ?_, ?_⟩
        · rw [List.map_append, List.map_cons]
          exact List.perm_middle.symm.trans (List.Perm.append_left _ (hperm.cons dind))
        · refine .cons ⟨children.map Prod.fst, children.map Prod.fst, hdmem,
            (List.length_map _).trans_le hlen, rfl, hfills blocks hsub1⟩ hdpos (fun hdata => ?_)
            hmore
          rw [hfull (List.append_ne_nil_of_left_ne_nil hdata _), pow_two]

theorem mapSingle_yields {ind : Nat} {blks : List (Nat × List Nat)}
    (h : exec (mapSingle allocOne n rest) a = (.ok (ind, blks, after), a')) :
    Yields n 1 rest ind blks after := by
  unfold mapSingle at h
  split at h
  · next hempty =>
    cases h
    rw [List.isEmpty_iff.mp hempty]
    exact Yields.nothing n 1
  · obtain ⟨b, a1, hb, hrest⟩ := exec_bind_ok h
    cases hrest
    refine ⟨rest.take n, (List.take_append_drop n rest).symm, fun hafter => ?_, ?_⟩
    · have hpos := List.length_pos_iff.mpr hafter
      rw [List.length_drop] at hpos
      rw [List.length_take, pow_one]
      omega
    · intro blocks hsub hpos
      refine ⟨[ind], List.Perm.refl _, ?_⟩
      rw [Filesystem.Slot, if_neg (Nat.pos_iff_ne_zero.mp (hpos _ List.mem_cons_self))]
      exact subtree_one (hsub List.mem_cons_self) (List.length_take_le _ _)

theorem mapDouble_yields {dind : Nat} {blks : List (Nat × List Nat)}
    (h : exec (mapDouble allocOne n rest) a = (.ok (dind, blks, after), a')) :
    Yields n 2 rest dind blks after := by
  unfold mapDouble at h
  split at h
  · next hempty =>
    cases h
    rw [List.isEmpty_iff.mp hempty]
    exact Yields.nothing n 2
  · obtain ⟨b, a1, hb, hrest⟩ := exec_bind_ok h
    obtain ⟨⟨children, rest1⟩, a2, hchildren, hrest⟩ := exec_bind_ok hrest
    cases hrest
    obtain ⟨data, hdata, hlen, hfull, hfills⟩ := mapChildren_fills (Nat.le_refl n) hchildren
    refine ⟨data, hdata, fun hafter => (hfull hafter).trans (pow_two n).symm, ?_⟩
    intro blocks hsub hpos
    obtain ⟨hsub1, hsub2⟩ := List.append_subset.mp hsub
    refine ⟨dind :: children.map Prod.fst, ?_, ?_⟩
    · rw [List.map_append]
      exact @List.perm_append_comm _ [dind] _
    · rw [Filesystem.Slot, if_neg (Nat.pos_iff_ne_zero.mp (hpos _ (List.mem_append_right _
        List.mem_cons_self)))]
      exact ⟨_, _, hsub2 List.mem_cons_self, (List.length_map _).trans_le hlen, rfl,
        hfills blocks hsub1⟩

theorem mapTriple_yields {tind : Nat} {blks : List (Nat × List Nat)}
    (h : exec (mapTriple allocOne n rest) a = (.ok (tind, blks, after), a')) :
    Yields n 3 rest tind blks after := by
  unfold mapTriple at h
  split at h
  · next hempty =>
    cases h
    rw [List.isEmpty_iff.mp hempty]
    exact Yields.nothing n 3
  · obtain ⟨b, a1, hb, hrest⟩ := exec_bind_ok h
    obtain ⟨⟨blks1, dinds, rest1⟩, a2, hmore, hrest⟩ := exec_bind_ok hrest
    cases hrest
    obtain ⟨data, hdata, hlen, hfull, hfills⟩ := mapGrandchildren_fills (Nat.le_refl n) hmore
    refine ⟨data, hdata, fun hafter => (hfull hafter).trans ?_, ?_⟩
    · rw [pow_succ n 2, Nat.mul_comm]
    intro blocks hsub hpos
    obtain ⟨hsub1, hsub2⟩ := List.append_subset.mp hsub
    obtain ⟨owned, hperm, hfills⟩ := hfills blocks hsub1
    refine ⟨tind :: owned, ?_, ?_⟩
    · rw [List.map_append]
      exact (hperm.cons tind).trans (@List.perm_append_comm _ [tind] _)
    · rw [Filesystem.Slot, if_neg (Nat.pos_iff_ne_zero.mp (hpos _ (List.mem_append_right _
        List.mem_cons_self)))]
      exact ⟨dinds, owned, hsub2 List.mem_cons_self, hlen, rfl, hfills⟩

/-- A map built for `blocks`: its parts. -/
theorem buildIndirect_parts {blocks : List Nat} {blockSize : Nat} {map : IndirectMap}
    (h : exec (buildIndirect blocks blockSize allocOne) a = (.ok map, a'))
    (hvalid : ∀ b ∈ blocks ++ map.blocks.map Prod.fst, 0 < b ∧ b < 2 ^ 32) :
    ∃ m : MapParts, m.data = blocks ∧ m.owned.Perm (map.blocks.map Prod.fst) ∧
      map.Holds blockSize m := by
  obtain ⟨⟨ind, single, rest1⟩, a1, hsingle, hrest⟩ := exec_bind_ok h
  obtain ⟨⟨dind, double, rest2⟩, a2, hdouble, hrest⟩ := exec_bind_ok hrest
  obtain ⟨⟨tind, triple, rest3⟩, a3, htriple, hrest⟩ := exec_bind_ok hrest
  obtain ⟨d1, hd1, hfull1, hslot1⟩ := mapSingle_yields hsingle
  obtain ⟨d2, hd2, hfull2, hslot2⟩ := mapDouble_yields hdouble
  obtain ⟨d3, hd3, hfull3, hslot3⟩ := mapTriple_yields htriple
  dsimp only at hrest hd1 hd2 hd3
  split at hrest
  · cases hrest
  · next hnone =>
    cases hrest
    obtain rfl : rest3 = [] := by simpa using hnone
    rw [List.append_nil] at hd3
    subst hd3
    subst hd2
    have hpos : ∀ c ∈ single ++ double ++ triple, 0 < c.1 := fun c hc =>
      (hvalid c.1 (List.mem_append_right _ (List.mem_map_of_mem hc))).1
    obtain ⟨o1, hperm1, hs1⟩ := hslot1 (single ++ double ++ triple) (by simp)
      fun c hc => hpos c (by simp [hc])
    obtain ⟨o2, hperm2, hs2⟩ := hslot2 (single ++ double ++ triple) (by simp)
      fun c hc => hpos c (by simp [hc])
    obtain ⟨o3, hperm3, hs3⟩ := hslot3 (single ++ double ++ triple) (by simp)
      fun c hc => hpos c (by simp [hc])
    have hdata : (MapParts.mk (blocks.take ndirBlocks) d1 d2 rest2 o1 o2 o3).data = blocks := by
      rw [MapParts.data, List.append_assoc, List.append_assoc, ← hd1, List.take_append_drop]
    have howned : (MapParts.mk (blocks.take ndirBlocks) d1 d2 rest2 o1 o2 o3).owned.Perm
        ((single ++ double ++ triple).map Prod.fst) := by
      rw [List.map_append, List.map_append]
      exact (hperm1.append hperm2).append hperm3
    have hlong : d1 ++ (d2 ++ rest2) ≠ [] → (blocks.take ndirBlocks).length = ndirBlocks := by
      intro hne
      rw [← hd1] at hne
      have hlen := List.length_pos_iff.mpr hne
      rw [List.length_drop] at hlen
      rw [List.length_take]
      omega
    refine ⟨_, hdata, howned,
      held_of_slots (m := ⟨blocks.take ndirBlocks, d1, d2, rest2, o1, o2, o3⟩) ?_
        (List.length_take_le _ _) hs1 hs2 hs3 ?_ ?_ ?_⟩
    · intro b hb
      refine hvalid b ?_
      rw [List.mem_append, hdata, howned.mem_iff] at hb
      exact List.mem_append.mpr hb
    · exact fun hne => hlong (by simp [hne])
    · intro hne
      have h1 := hfull1 (by simp [hne])
      rw [pow_one] at h1
      rw [List.length_append, hlong (by simp [hne]), h1]
    · intro hne
      have h1 := hfull1 (by simp [hne])
      rw [pow_one] at h1
      rw [List.length_append, List.length_append, hlong (by simp [hne]), h1, hfull2 hne]

end BuildIndirect

/-! ## Blocks taken one by one -/

section AllocIndirectFile

variable {a a' : Allocator} {cursor n : Nat}

/-- The children of the double indirect block: as many blocks of data as are needed or fit. -/
theorem takeChildren_fills {slots need : Nat} {children : List (Nat × List Nat)}
    (hslots : slots ≤ n) (h : exec (takeChildren n slots need cursor) a = (.ok children, a')) :
    children.length ≤ slots ∧ (children.flatMap Prod.snd).length ≤ need ∧
      ∀ blocks, children ⊆ blocks → Fills (Subtree n blocks 1) (n ^ 1) (children.map Prod.fst)
        (children.flatMap Prod.snd) (children.map Prod.fst) := by
  induction slots generalizing need cursor children a with
  | zero =>
    cases h
    exact ⟨Nat.le_refl _, Nat.zero_le _, fun _ _ => .nil⟩
  | succ slots ih =>
    rw [takeChildren] at h
    split at h
    · cases h
      exact ⟨Nat.zero_le _, Nat.zero_le _, fun _ _ => .nil⟩
    · next hneed =>
      obtain ⟨⟨child, c⟩, a1, htake, hrest⟩ := exec_bind_ok h
      obtain ⟨⟨entries, c'⟩, a2, hentries, hrest⟩ := exec_bind_ok hrest
      obtain ⟨more, a3, hmore, hrest⟩ := exec_bind_ok hrest
      cases hrest
      obtain ⟨hlen, -⟩ := takeData_ok hentries
      obtain ⟨hcount, htotal, hfills⟩ := ih (by omega) hmore
      refine ⟨Nat.succ_le_succ hcount, ?_, fun blocks hsub => ?_⟩
      · rw [List.flatMap_cons, List.length_append]
        dsimp only
        omega
      · obtain ⟨hmem, hsub⟩ := List.cons_subset.mp hsub
        rw [List.map_cons, List.flatMap_cons]
        refine .cons (o := [child]) (subtree_one hmem ?_) ?_ (fun hne => ?_) (hfills blocks hsub)
        · dsimp only
          omega
        · dsimp only
          omega
        · have hpos := List.length_pos_iff.mpr hne
          rw [pow_one]
          dsimp only
          omega

theorem children_perm (children : List (Nat × List Nat)) :
    (children.flatMap fun c => c.1 :: c.2).Perm
      (children.flatMap Prod.snd ++ children.map Prod.fst) := by
  induction children with
  | nil => exact List.Perm.refl _
  | cons c children ih =>
    refine List.perm_iff_count.mpr fun b => ?_
    have hcount := ih.count_eq b
    simp only [List.flatMap_cons, List.map_cons, List.cons_append, List.count_cons,
      List.count_append] at hcount ⊢
    omega

/-- A file allocated with its map: the parts of the map, and the blocks of them all. -/
theorem allocIndirectFile_parts {goal count blockSize : Nat} {data : List Nat} {map : IndirectMap}
    (h : exec (allocIndirectFile goal count blockSize) a = (.ok (data, map), a')) :
    ∃ (m : MapParts) (runs : List Run), Extends a a' runs ∧
      (blocksOf runs).Perm (m.data ++ m.owned) ∧ m.data = data ∧ data.length = count ∧
      m.owned.Perm (map.blocks.map Prod.fst) ∧
      ((∀ b ∈ m.data ++ m.owned, 0 < b ∧ b < 2 ^ 32) → map.Holds blockSize m) := by
  obtain ⟨⟨direct, c1⟩, a1, hdirect, hrest⟩ := exec_bind_ok h
  obtain ⟨hlen1, runs1, hext1, hblocks1⟩ := takeData_ok hdirect
  dsimp only at hrest
  split at hrest
  · next hfew =>
    cases hrest
    refine ⟨⟨data, [], [], [], [], [], []⟩, runs1, hext1, ?_, ?_, ?_, List.Perm.refl _,
      ?_⟩
    · rw [hblocks1]
      simp [MapParts.data, MapParts.owned]
    · simp [MapParts.data]
    · omega
    · intro hvalid
      refine held_of_slots hvalid (by dsimp only; omega) ?_ ?_ ?_ (absurd rfl) (absurd rfl)
        (absurd rfl) <;> exact ⟨rfl, rfl⟩
  · next hmany =>
    obtain ⟨⟨ind, c2⟩, a2, hind, hrest⟩ := exec_bind_ok hrest
    obtain ⟨⟨entries, c3⟩, a3, hentries, hrest⟩ := exec_bind_ok hrest
    obtain ⟨hlen3, runs3, hext3, hblocks3⟩ := takeData_ok hentries
    have hext := hext1.trans ((take_ok hind).trans hext3)
    have hsingle : ∀ blocks, (ind, entries) ∈ blocks → 0 < ind →
        Filesystem.Slot (blockSize / 4) blocks 1 ind entries [ind] := by
      intro blocks hmem hpos
      rw [Filesystem.Slot, if_neg (Nat.pos_iff_ne_zero.mp hpos)]
      exact subtree_one hmem (by omega)
    dsimp only at hrest hlen1 hlen3
    split at hrest
    · next henough =>
      cases hrest
      refine ⟨⟨direct, entries, [], [], [ind], [], []⟩, _, hext, ?_, ?_, ?_,
        List.Perm.refl _, ?_⟩
      · simp only [blocksOf_append, blocksOf_cons, blocksOf_nil, Run.blocks_one, hblocks1, hblocks3,
          MapParts.data, MapParts.owned, List.append_nil, List.append_assoc]
        exact List.Perm.append_left _ List.perm_append_comm
      · simp [MapParts.data]
      · rw [List.length_append] at henough ⊢
        omega
      · intro hvalid
        refine held_of_slots hvalid (by dsimp only; omega) (hsingle _ List.mem_cons_self ?_) ?_ ?_
          (fun _ => by dsimp only; omega) (absurd rfl) (absurd rfl)
        · exact (hvalid ind (MapParts.mem_of_part (Or.inr (Or.inl (by simp))))).1
        · exact ⟨rfl, rfl⟩
        · exact ⟨rfl, rfl⟩
    · next hshort =>
      obtain ⟨⟨dind, c4⟩, a4, hdind, hrest⟩ := exec_bind_ok hrest
      obtain ⟨children, a5, hchildren, hrest⟩ := exec_bind_ok hrest
      obtain ⟨runs5, hext5, hblocks5⟩ := takeChildren_ok hchildren
      obtain ⟨hcount, htotal, hfills⟩ := takeChildren_fills (Nat.le_refl _) hchildren
      dsimp only at hrest
      split at hrest
      · cases hrest
      · next hall =>
        cases hrest
        refine ⟨⟨direct, entries, children.flatMap Prod.snd, [], [ind],
          dind :: children.map Prod.fst, []⟩, _,
          hext.trans ((take_ok hdind).trans hext5), ?_, ?_, ?_, ?_, ?_⟩
        · refine List.perm_iff_count.mpr fun b => ?_
          have hperm := (children_perm children).count_eq b
          simp only [blocksOf_append, blocksOf_cons, Run.blocks_one, hblocks1,
            hblocks3, hblocks5, MapParts.data, MapParts.owned, List.append_nil, List.cons_append,
            List.nil_append, List.count_cons, List.count_append] at hperm ⊢
          omega
        · simp [MapParts.data]
        · rw [List.length_append, List.length_append] at hall ⊢
          rw [List.length_append] at hshort htotal
          omega
        · simp only [MapParts.owned, List.append_nil, List.cons_append, List.nil_append,
            List.map_cons, List.map_append]
          exact (@List.perm_append_comm _ [dind] _).cons ind
        · intro hvalid
          have hdpos := hvalid dind (MapParts.mem_of_part (Or.inr (Or.inr (Or.inl (by simp)))))
          have hipos := hvalid ind (MapParts.mem_of_part (Or.inr (Or.inl (by simp))))
          refine held_of_slots hvalid (by dsimp only; omega) (hsingle _ List.mem_cons_self hipos.1)
            ?_ ⟨rfl, rfl⟩ (fun _ => by dsimp only; omega) (fun _ => ?_) (absurd rfl)
          · rw [Filesystem.Slot, if_neg (Nat.pos_iff_ne_zero.mp hdpos.1)]
            refine ⟨children.map Prod.fst, children.map Prod.fst, ?_, ?_, rfl, hfills _ ?_⟩
            · exact List.mem_cons_of_mem _ (List.mem_append_right _ List.mem_cons_self)
            · exact (List.length_map _).trans_le hcount
            · exact fun c hc => List.mem_cons_of_mem _ (List.mem_append_left _ hc)
          · rw [List.length_append] at hshort ⊢
            dsimp only
            omega

end AllocIndirectFile

/-! ## Maps read back -/

/-- What writing a map out asks of the device. -/
def mapWrites (blockSize : Nat) (map : IndirectMap) : List Op :=
  map.blocks.map fun c => .write (c.1 * blockSize) (pointerBlock blockSize c.2)

theorem write_ok {offset : Nat} {buf : List UInt8} {dev dev' : Device}
    (h : Op.run (.write offset buf) dev = .ok dev') :
    offset + buf.length ≤ dev.size ∧ dev' = { dev with bytes := overlay dev.bytes offset buf } := by
  have hfit := Op.fits_of_run h (offset, buf.length) rfl
  simp only [Op.run, Device.writeAt, checkBounds] at h
  rw [if_pos hfit] at h
  exact ⟨hfit, (Except.ok.inj h).symm⟩

theorem blocks_disjoint {b b' size : Nat} (h : b ≠ b') :
    b * size + size ≤ b' * size ∨ b' * size + size ≤ b * size := by
  rcases Nat.lt_or_gt_of_ne h with hlt | hgt
  · exact Or.inl (Nat.succ_mul b size ▸ Nat.mul_le_mul_right size hlt)
  · exact Or.inr (Nat.succ_mul b' size ▸ Nat.mul_le_mul_right size hgt)

/-- Different blocks written whole, one after another, hold what was written, and the others
what they held. -/
theorem window_writes {size : Nat} {ws : List (Nat × List UInt8)} {dev dev' : Device}
    (hlen : ∀ w ∈ ws, w.2.length = size) (hnodup : (ws.map Prod.fst).Nodup)
    (h : runOps (ws.map fun w => .write (w.1 * size) w.2) dev = (.ok (), dev')) :
    dev'.size = dev.size ∧
      (∀ w ∈ ws, w.1 * size + size ≤ dev.size ∧
        Lib.Store.window dev'.bytes (w.1 * size) size = w.2) ∧
      ∀ b ∉ ws.map Prod.fst, Lib.Store.window dev'.bytes (b * size) size =
        Lib.Store.window dev.bytes (b * size) size := by
  induction ws generalizing dev with
  | nil =>
    cases h
    exact ⟨rfl, nofun, fun _ _ => rfl⟩
  | cons w ws ih =>
    have hw := hlen w List.mem_cons_self
    rw [List.map_cons, runOps] at h
    cases hrun : Op.run (.write (w.1 * size) w.2) dev with
    | error e =>
      rw [hrun] at h
      cases h
    | ok mid =>
      rw [hrun] at h
      obtain ⟨hin, rfl⟩ := write_ok hrun
      rw [hw] at hin
      rw [List.map_cons, List.nodup_cons] at hnodup
      obtain ⟨hsize, hhold, hrest⟩ := ih (fun x hx => hlen x (List.mem_cons_of_mem w hx)) hnodup.2 h
      refine ⟨hsize, fun x hx => ?_, fun b hb => ?_⟩
      · rcases List.mem_cons.mp hx with rfl | hx
        · refine ⟨hin, (hrest x.1 hnodup.1).trans ?_⟩
          have hread := window_overlay dev.bytes (x.1 * size) x.2
          rwa [hw] at hread
        · exact hhold x hx
      · rw [List.map_cons, List.mem_cons, not_or] at hb
        refine (hrest b hb.2).trans (window_overlay_disjoint _ _ ?_)
        rw [hw]
        exact blocks_disjoint hb.1

/-- Once `map` is written out, an inode that holds it maps `data`, block by block, and nothing
past it, and a walk of the inode visits `data` and the blocks of the map. -/
def ResolvesTo (blockSize : Nat) (map : IndirectMap) (data : List Nat) : Prop :=
  ∀ (fs : Filesystem) (dev : Device) (inode : Inode), fs.blockSize = blockSize →
    (∀ c ∈ map.blocks, c.1 < fs.superblock.blocksCount) →
    runOps (mapWrites blockSize map) fs.device = (.ok (), dev) →
    inode.hasBlockMap = true → inode.usesExtents = false → inode.inlineData = false →
    inode.block = pointerIBlock map →
    (∀ k, { fs with device := dev }.resolveBlock inode k = .ok data[k]?) ∧
      ∃ refs, { fs with device := dev }.walkBlocks inode = (refs, .ok ()) ∧
        refs.Perm (dataRefs 0 data ++ map.blocks.map fun c => mapRef c.1)

theorem blockPointers_pointerIBlock {map : IndirectMap} {inode : Inode}
    (hblock : inode.block = pointerIBlock map) (hlen : map.pointers.length = nBlocks)
    (hlt : ∀ p ∈ map.pointers, p < 2 ^ 32) : inode.blockPointers = map.pointers := by
  rw [Inode.blockPointers, hblock]
  refine getU32s_of_slice hlen hlt ?_
  show slice (putU32s (List.replicate iBlockLen 0) 0 map.pointers) 0 (4 * nBlocks) = _
  have hbytes := length_flatMap_toLe 4 map.pointers
  rw [hlen] at hbytes
  rw [putU32s_eq]
  exact slice_splice hbytes (by rw [List.length_replicate]; decide)

/-- A map with the parts of `m` in it resolves to the data of `m`. -/
theorem resolvesTo_of_held {blockSize : Nat} {map : IndirectMap} {m : MapParts}
    (hholds : map.Holds blockSize m) (howned : m.owned.Perm (map.blocks.map Prod.fst))
    (hnodup : (map.blocks.map Prod.fst).Nodup)
    (hvalid : ∀ b ∈ m.data ++ m.owned, 0 < b ∧ b < 2 ^ 32) (hfits : SpansFit (blockSize / 4)) :
    ResolvesTo blockSize map m.data := by
  intro fs dev inode hsize hin hwrites hmap hext hinline hblock
  have hwrote := @window_writes blockSize (map.blocks.map fun c => (c.1, pointerBlock blockSize c.2))
    fs.device dev (fun w hw => by
      obtain ⟨c, -, rfl⟩ := List.mem_map.mp hw
      exact length_pointerBlock _ _) (by rwa [List.map_map]) (by rwa [List.map_map])
  obtain ⟨hdev, hhold, -⟩ := hwrote
  generalize hfs : { fs with device := dev } = fs'
  have hsize' : fs'.blockSize = blockSize := by rw [← hsize, ← hfs]; rfl
  have hread : ∀ c ∈ map.blocks, fs'.readBlock c.1 =
      .ok (putU32s (List.replicate fs'.blockSize 0) 0 c.2) := by
    intro c hc
    obtain ⟨hinside, hwindow⟩ := hhold _ (List.mem_map_of_mem hc)
    have hc32 := (hvalid c.1 (List.mem_append_right _
      (howned.mem_iff.mpr (List.mem_map_of_mem hc)))).2
    have hnear := fs'.not_tooFar hc32
    have hcount : c.1 < fs'.superblock.blocksCount := by rw [← hfs]; exact hin c hc
    refine readBlock_ok_iff.mpr ⟨hcount, ?_, ?_, ?_⟩
    · exact Nat.not_le.mp fun hfar => hnear ⟨hcount, hfar⟩
    · rw [hsize', ← hfs]
      exact hdev.symm ▸ hinside
    · rw [hsize', ← hfs]
      exact hwindow.symm
  have hheld := hholds.held
  rw [← blockPointers_pointerIBlock hblock hholds.length hholds.lt] at hheld
  have hper : fs'.perBlock = blockSize / 4 := by rw [perBlock, hsize']
  rw [← hper] at hheld hfits
  obtain ⟨hok, hperm⟩ := hheld.walk hread hvalid hfits
  have hwalk : fs'.walkBlocks inode = ((fs'.walkIndirect inode).1, .ok ()) := by
    rw [walkBlocks, if_neg (by simp [hmap, hinline]), hext, if_neg Bool.false_ne_true, ← hok]
  have hrefs : (fs'.walkIndirect inode).1.Perm
      (dataRefs 0 m.data ++ map.blocks.map fun c => mapRef c.1) := by
    refine hperm.trans (List.Perm.append_left _ ?_)
    have hmaps := howned.map mapRef
    rwa [List.map_map] at hmaps
  refine ⟨fun k => ?_, _, hwalk, hrefs⟩
  have hmem : ∀ p, dataRef k p ∈ (fs'.walkIndirect inode).1 ↔ m.data[k]? = some p := by
    intro p
    rw [hrefs.mem_iff, List.mem_append, mem_dataRefs, Nat.sub_zero]
    refine ⟨fun h => h.elim And.right fun hp => ?_, fun h => Or.inl ⟨Nat.zero_le k, h⟩⟩
    obtain ⟨c, -, heq⟩ := List.mem_map.mp hp
    exact absurd heq.symm (dataRef_ne_mapRef k p c.1)
  obtain ⟨hsome, hnone⟩ := walk_agrees hmap hinline (fun h => absurd h (by rw [hext]; decide))
    hwalk k
  cases hk : m.data[k]? with
  | none => exact hnone.mpr fun p hp => by rw [(hmem p).mp hp] at hk; cases hk
  | some p => exact (hsome p).mpr ((hmem p).mpr hk)

/-! ## What was allocated is what is mapped -/

/-- Every block handed out has a number an indirect map can hold: not 0, and 32 bits. -/
structure Addressable (a : Allocator) : Prop where
  zero : a.taken 0 = true
  count : a.blocksCount ≤ 2 ^ 32

theorem Addressable.fits {a a' : Allocator} {runs : List Run} (ha : Addressable a)
    (h : Extends a a' runs) : ∀ b ∈ blocksOf runs, 0 < b ∧ b < 2 ^ 32 := by
  intro b hb
  refine ⟨Nat.pos_of_ne_zero ?_, Nat.lt_of_lt_of_le (h.lt b hb) ha.count⟩
  rintro rfl
  have hfree := h.free 0 hb
  rw [ha.zero] at hfree
  cases hfree

/-- Without extents there is no 64bit, so planning hands out 32-bit block numbers. -/
theorem Reached.addressable {deviceSize : Nat} {params : Params} {geom : Geometry} {a : Allocator}
    (h : Reached geom a) (hgeom : compute deviceSize params = .ok geom)
    (hext : usesExtents geom = false) : Addressable a := by
  obtain ⟨runs, hruns⟩ := h
  obtain ⟨m, hsettled⟩ := compute_settled hgeom
  obtain ⟨req, start, descSize, s, grp, -, hfrom⟩ := compute_from hgeom
  obtain ⟨descSize, -, hfinished⟩ := hfrom.made
  refine ⟨(hruns.taken_iff 0).mpr (Or.inl ?_), ?_⟩
  · simp only [Allocator.taken, newAllocator, metadataProbe_zero (compute_ok hgeom), Bool.true_or]
  · rw [hruns.eq]
    rcases hfinished.blocks_fit with hfew | hwide
    · exact Nat.le_of_lt hfew
    · have hno := hsettled.normal.sixtyFourBit hwide
      rw [usesExtents] at hext
      rw [hext] at hno
      cases hno

/-- The block sizes that format takes leave the numbers of an indirect map within 64 bits. -/
theorem spansFit_of_compute {deviceSize : Nat} {params : Params} {geom : Geometry}
    (hgeom : compute deviceSize params = .ok geom) : SpansFit (geom.blockSize / 4) := by
  obtain ⟨req, start, descSize, s, grp, -, hfrom⟩ := compute_from hgeom
  obtain ⟨k, hk, -, hle⟩ := hfrom.blockSize_pow
  refine spansFit_of_le ?_
  rw [hk]
  exact Nat.pow_le_pow_right Nat.two_pos (by omega)

section Resolves

variable {blockSize : Nat} {map : IndirectMap} {a a' : Allocator} (ha : Addressable a)
  (hfits : SpansFit (blockSize / 4))

include ha hfits

theorem allocIndirectFile_resolves {goal count : Nat} {data : List Nat}
    (h : exec (allocIndirectFile goal count blockSize) a = (.ok (data, map), a')) :
    data.length = count ∧ (data ++ map.blocks.map Prod.fst).Nodup ∧
      ResolvesTo blockSize map data := by
  obtain ⟨m, runs, hext, hperm, rfl, hlen, howned, hheld⟩ := allocIndirectFile_parts h
  have hvalid : ∀ b ∈ m.data ++ m.owned, 0 < b ∧ b < 2 ^ 32 :=
    fun b hb => ha.fits hext b (hperm.mem_iff.mpr hb)
  have hnodup : (m.data ++ map.blocks.map Prod.fst).Nodup :=
    ((hperm.trans (List.Perm.append_left _ howned)).nodup_iff).mp hext.nodup
  exact ⟨hlen, hnodup,
    resolvesTo_of_held (hheld hvalid) howned hnodup.of_append_right hvalid hfits⟩

theorem buildIndirect_resolves {allocOne : AllocM Nat} (hone : AllocatesOne allocOne)
    {blocks : List Nat} (htaken : ∀ b ∈ blocks, a.taken b = true ∧ 0 < b ∧ b < 2 ^ 32)
    (hblocks : blocks.Nodup)
    (h : exec (buildIndirect blocks blockSize allocOne) a = (.ok map, a')) :
    (blocks ++ map.blocks.map Prod.fst).Nodup ∧ ResolvesTo blockSize map blocks := by
  obtain ⟨runs, hext, hperm⟩ := buildIndirect_owns hone h
  have hnodup : (blocks ++ map.blocks.map Prod.fst).Nodup := by
    rw [List.nodup_append', ← hperm.nodup_iff]
    refine ⟨hblocks, hext.nodup, fun b hb hb' => ?_⟩
    have hfree := hext.free b (hperm.mem_iff.mpr hb')
    rw [(htaken b hb).1] at hfree
    cases hfree
  have hvalid : ∀ b ∈ blocks ++ map.blocks.map Prod.fst, 0 < b ∧ b < 2 ^ 32 := by
    intro b hb
    rcases List.mem_append.mp hb with hb | hb
    · exact (htaken b hb).2
    · exact ha.fits hext b (hperm.mem_iff.mpr hb)
  obtain ⟨m, rfl, howned, hholds⟩ := buildIndirect_parts h hvalid
  refine ⟨hnodup, resolvesTo_of_held hholds howned hnodup.of_append_right (fun b hb => ?_) hfits⟩
  exact hvalid b (((List.Perm.append_left _ howned).mem_iff).mp hb)

end Resolves

/-- Whatever its length, a file allocated with its map is found through that map, and so is one
mapped after its blocks were chosen. Planning without extents meets what both ask of the allocator
and of the block size. -/
theorem indirect_maps_resolve {blockSize : Nat} {a : Allocator} (ha : Addressable a)
    (hfits : SpansFit (blockSize / 4)) :
    (∀ (goal count : Nat) (data : List Nat) (map : IndirectMap) (a' : Allocator),
      exec (allocIndirectFile goal count blockSize) a = (.ok (data, map), a') →
        data.length = count ∧ (data ++ map.blocks.map Prod.fst).Nodup ∧
          (map.blocks.map Prod.fst).length = map.overhead ∧ ResolvesTo blockSize map data) ∧
    (∀ (allocOne : AllocM Nat) (blocks : List Nat) (map : IndirectMap) (a' : Allocator),
      AllocatesOne allocOne → blocks.Nodup →
        (∀ b ∈ blocks, a.taken b = true ∧ 0 < b ∧ b < 2 ^ 32) →
        exec (buildIndirect blocks blockSize allocOne) a = (.ok map, a') →
        (blocks ++ map.blocks.map Prod.fst).Nodup ∧
          (map.blocks.map Prod.fst).length = map.overhead ∧ ResolvesTo blockSize map blocks) ∧
    ∀ (deviceSize : Nat) (params : Params) (geom : Geometry) (a : Allocator),
      compute deviceSize params = .ok geom → usesExtents geom = false → Reached geom a →
        Addressable a ∧ SpansFit (geom.blockSize / 4) := by
  refine ⟨fun goal count data map a' h => ?_,
    fun allocOne blocks map a' hone hnodup htaken h => ?_,
    fun deviceSize params geom a hgeom hext hreached =>
      ⟨hreached.addressable hgeom hext, spansFit_of_compute hgeom⟩⟩
  · obtain ⟨hlen, hdistinct, hresolves⟩ := allocIndirectFile_resolves ha hfits h
    exact ⟨hlen, hdistinct, List.length_map _, hresolves⟩
  · obtain ⟨hdistinct, hresolves⟩ := buildIndirect_resolves ha hfits hone htaken hnodup h
    exact ⟨hdistinct, List.length_map _, hresolves⟩

/-- 1000 blocks of 1 KiB, of which a file of 300 has been given its own. -/
def givenAllocator : Allocator where
  blocksCount := 1000
  firstDataBlock := 1
  blockSize := 1024
  runs := [⟨100, 300⟩]
  metadata := fun b => decide (b < 100)

/-- The file's last 32 blocks are behind a double indirect block. -/
theorem indirect_maps_resolve_given : ∃ map a',
    exec (buildIndirect (List.range' 100 300) 1024 (alloc 400 1)) givenAllocator = (.ok map, a') ∧
      map.overhead = 3 ∧ ResolvesTo 1024 map (List.range' 100 300) := by
  have hbuilt : (exec (buildIndirect (List.range' 100 300) 1024 (alloc 400 1))
      givenAllocator).1.toOption.any (fun map => map.overhead == 3) = true := by decide +kernel
  rcases hrun : exec (buildIndirect (List.range' 100 300) 1024 (alloc 400 1))
    givenAllocator with ⟨_ | map, a'⟩
  · rw [hrun] at hbuilt
    cases hbuilt
  · rw [hrun] at hbuilt
    have hgiven : Addressable givenAllocator := ⟨by decide, by decide⟩
    refine ⟨map, a', rfl, eq_of_beq hbuilt, ((indirect_maps_resolve hgiven (by decide)).2.1 _ _ map a'
      (allocatesOne_alloc 400) List.nodup_range' (fun b hb => ?_) hrun).2.2⟩
    obtain ⟨hlo, hhi⟩ := List.mem_range'_1.mp hb
    refine ⟨?_, by omega, by omega⟩
    have hrun : Run.contains ⟨100, 300⟩ b = true := by
      rw [Run.contains, Bool.and_eq_true]
      exact ⟨decide_eq_true hlo, decide_eq_true hhi⟩
    rw [Allocator.taken, givenAllocator, List.any_cons, hrun, Bool.true_or, Bool.or_true]

end MkfsExt4.Format
