/-
  The placement of one flex group, of any geometry (`place_flex` of `src/layout.rs`).

  Its two loops end from every cursor (`skipStep_ends`, `tableStep_ends`). What it returns lies
  inside the filesystem and in order, one run behind another (`placeFlex_laid`), also when the
  inode tables have no blocks. It avoids what `in_super_region` reports; of the superblock and
  descriptor regions that is all of them while each stays in its group, and otherwise it depends
  on where the runs come to lie (`placeFlex_sound_iff`).
-/
import MkfsExt4.Layout.Overlap
import MkfsExt4.Lib.Loop

namespace MkfsExt4.Layout

open Lib.FirstFit Lib.Hoare Lib.Loop

namespace Geometry

variable (geom : Geometry)

/-! ## The loops -/

/-- A turn of the loop that skips what `in_super_region` reports. -/
def skipStep (cursor : Nat) : Nat ⊕ Nat :=
  if cursor < geom.blocksCount ∧ geom.inSuperRegion cursor then .inl (cursor + 1) else .inr cursor

/-- A turn of the loop that looks for an inode table: skip, then restart past the first block in
    the way. -/
def tableStep (cursor : Nat) : Nat ⊕ Except Error Nat :=
  let cursor := geom.skipSuper (geom.blocksCount - cursor) cursor
  let needed := cursor + geom.itableBlocksPerGroup
  if geom.blocksCount < needed then
    .inr (.error (.deviceTooSmall geom.blocksCount needed geom.blockSize))
  else
    match geom.findSuper geom.itableBlocksPerGroup cursor with
    | none => .inr (.ok cursor)
    | some blocked => .inl (blocked + 1)

variable {geom}

theorem skipStep_ends {fuel c : Nat} (hfuel : geom.blocksCount ≤ c + fuel) :
    Ends geom.skipStep c (geom.skipSuper fuel c) := by
  induction fuel generalizing c with
  | zero =>
    refine .stop (if_neg fun h => ?_)
    have := h.1
    omega
  | succ fuel ih =>
    unfold skipSuper
    split
    · next h => exact .turn (if_pos h) (ih (by omega))
    · next h => exact .stop (if_neg h)

theorem tableStep_ends {fuel c : Nat} (hfuel : geom.blocksCount < c + fuel) :
    Ends geom.tableStep c (geom.takeTable fuel c) := by
  induction fuel generalizing c with
  | zero =>
    refine .stop ?_
    have hskip : geom.skipSuper (geom.blocksCount - c) c = c := by
      rw [Nat.sub_eq_zero_of_le (by omega)]
      rfl
    unfold tableStep takeTable
    dsimp only
    rw [hskip, if_pos (by omega)]
  | succ fuel ih =>
    have hle := (skipSuper_spec geom (geom.blocksCount - c) c).1
    unfold takeTable
    dsimp only
    split
    · next hlong =>
      refine .stop ?_
      unfold tableStep
      dsimp only
      rw [if_pos hlong]
    · next hshort =>
      split
      · next hfind =>
        refine .stop ?_
        unfold tableStep
        dsimp only
        rw [if_neg hshort, hfind]
      · next blocked hfind =>
        have hstep : geom.tableStep c = .inl (blocked + 1) := by
          unfold tableStep
          dsimp only
          rw [if_neg hshort, hfind]
        have hblocked := (findSuper_some hfind).1
        exact .turn hstep (ih (by omega))

/-! ## What a placement takes -/

variable (geom) in
/-- The blocks of a placement: block bitmaps, inode bitmaps and inode tables, as runs. -/
def placedRuns (placement : List (Nat × Nat × Nat)) : List (Nat × Nat) :=
  placement.map (fun p => (p.1, 1)) ++ (placement.map (fun p => (p.2.1, 1)) ++
    placement.map fun p => (p.2.2, geom.itableBlocksPerGroup))

variable (geom) in
/-- A run may be placed: nothing in it is reported, and it ends in the filesystem. -/
def Allowed (s len : Nat) : Prop := Clear geom.Free s len ∧ s + len ≤ geom.blocksCount

theorem takeOne_allowed {c s : Nat} (h : geom.takeOne c = .ok s) : c ≤ s ∧ geom.Allowed s 1 := by
  have first := takeOne_ok h
  exact ⟨first.le, first.clear, (clear_one.mp first.clear).lt_blocksCount⟩

theorem takeTable_allowed {fuel c s : Nat} (h : geom.takeTable fuel c = .ok s) :
    c ≤ s ∧ geom.Allowed s geom.itableBlocksPerGroup := by
  induction fuel generalizing c with
  | zero => cases h
  | succ fuel ih =>
    have hle := (skipSuper_spec geom (geom.blocksCount - c) c).1
    simp only [takeTable] at h
    split at h
    · cases h
    · next hshort =>
      split at h
      · next hfind =>
        cases h
        exact ⟨hle, findSuper_none hfind, Nat.le_of_not_lt hshort⟩
      · next blocked hfind =>
        have hblocked := (findSuper_some hfind).1
        obtain ⟨hlo, hallowed⟩ := ih h
        exact ⟨by omega, hallowed⟩

theorem takeAll_laid {take : Nat → Except Error Nat} {len : Nat}
    (htake : ∀ c s, take c = .ok s → c ≤ s ∧ geom.Allowed s len) {count c e : Nat}
    {starts : List Nat} (h : takeAll take len count c = .ok (starts, e)) :
    Laid geom.Allowed c (List.replicate count len) starts e := by
  induction count generalizing c starts with
  | zero =>
    cases h
    exact .nil _
  | succ count ih =>
    obtain ⟨s, hs, h⟩ := bind_ok h
    obtain ⟨⟨rest, e'⟩, hrest, h⟩ := bind_ok h
    cases h
    exact .cons (htake c s hs).1 (htake c s hs).2 (ih hrest)

theorem zip_replicate_eq {m : Nat} {xs : List Nat} (h : xs.length = m) (v : Nat) :
    xs.zip (List.replicate m v) = xs.map fun x => (x, v) := by
  have hconst := List.map_const (l := xs) (b := v)
  rw [← h, ← hconst]
  exact List.map_prod_left_eq_zip.symm

theorem placedRuns_zip {bbs ibs its : List Nat} {m : Nat} (hbb : bbs.length = m)
    (hib : ibs.length = m) (hit : its.length = m) :
    geom.placedRuns (bbs.zip (ibs.zip its)) = (bbs ++ (ibs ++ its)).zip (geom.flexRuns m) := by
  have hpair : (ibs.zip its).length = m := by rw [List.length_zip, hib, hit, Nat.min_self]
  have hfst : (bbs.zip (ibs.zip its)).map Prod.fst = bbs := List.map_fst_zip (by omega)
  have hsnd : (bbs.zip (ibs.zip its)).map Prod.snd = ibs.zip its := List.map_snd_zip (by omega)
  have hib' : (ibs.zip its).map Prod.fst = ibs := List.map_fst_zip (by omega)
  have hit' : (ibs.zip its).map Prod.snd = its := List.map_snd_zip (by omega)
  generalize bbs.zip (ibs.zip its) = placement at hfst hsnd
  rw [← hsnd, List.map_map] at hib' hit'
  unfold placedRuns flexRuns
  rw [List.zip_append (by rw [hbb, List.length_replicate]),
    List.zip_append (by rw [hib, List.length_replicate]), zip_replicate_eq hbb,
    zip_replicate_eq hib, zip_replicate_eq hit, ← hfst, ← hib', ← hit', List.map_map,
    List.map_map, List.map_map]
  rfl

/-- What a placement takes, one run behind another. -/
theorem placeFlex_laid {f : Nat} {placement : List (Nat × Nat × Nat)}
    (h : geom.placeFlex f = .ok placement) :
    placement.length = geom.flexMembers f ∧ ∃ starts e,
      Laid geom.Allowed (geom.groupFirstBlock f) (geom.flexRuns (geom.flexMembers f)) starts e ∧
      geom.placedRuns placement = starts.zip (geom.flexRuns (geom.flexMembers f)) := by
  obtain ⟨⟨bbs, c1⟩, h1, h⟩ := bind_ok h
  obtain ⟨⟨ibs, c2⟩, h2, h⟩ := bind_ok h
  obtain ⟨⟨its, e⟩, h3, h⟩ := bind_ok h
  cases h
  have l1 := takeAll_laid (fun _ _ => takeOne_allowed) h1
  have l2 := takeAll_laid (fun _ _ => takeOne_allowed) h2
  have l3 := takeAll_laid (fun _ _ => takeTable_allowed) h3
  have hbb := l1.length_eq
  have hib := l2.length_eq
  have hit := l3.length_eq
  rw [List.length_replicate] at hbb hib hit
  refine ⟨?_, _, e, l1.append (l2.append l3), placedRuns_zip hbb hib hit⟩
  rw [List.length_zip, List.length_zip, hbb, hib, hit, Nat.min_self, Nat.min_self]

variable (geom) in
/-- The runs of a flex group that take blocks, in the order they are placed. -/
def takenRuns (f : Nat) : List Nat := (geom.flexRuns (geom.flexMembers f)).filter (0 < ·)

/-- The blocks a placement takes are those of a first fit. -/
theorem placeFlex_greedy {f : Nat} {placement : List (Nat × Nat × Nat)}
    (h : geom.placeFlex f = .ok placement) : ∃ starts e,
      Greedy geom.Free (geom.groupFirstBlock f) (geom.takenRuns f) starts e ∧
      ∀ b, (∃ r ∈ geom.placedRuns placement, Within r b) ↔
        ∃ r ∈ starts.zip (geom.takenRuns f), Within r b := by
  by_cases hlen : 0 < geom.itableBlocksPerGroup
  · obtain ⟨bbs, ibs, its, e, hplaced, rfl⟩ := placeFlex_ok hlen h
    have hall : geom.takenRuns f = geom.flexRuns (geom.flexMembers f) := by
      refine List.filter_eq_self.mpr fun len hmem => decide_eq_true ?_
      simp only [flexRuns, List.mem_append, List.mem_replicate] at hmem
      omega
    refine ⟨_, e, hall ▸ hplaced.greedy, fun b => ?_⟩
    rw [placedRuns_zip hplaced.blockBitmaps_length hplaced.inodeBitmaps_length
      hplaced.inodeTables_length, hall]
  · -- The tables have no blocks: what is taken are the bitmaps.
    obtain ⟨⟨bbs, c1⟩, h1, h⟩ := bind_ok h
    obtain ⟨⟨ibs, c2⟩, h2, h⟩ := bind_ok h
    obtain ⟨⟨its, e⟩, h3, h⟩ := bind_ok h
    cases h
    have g1 := takeAll_ok (fun c s => takeOne_ok) h1
    have g2 := takeAll_ok (fun c s => takeOne_ok) h2
    have hbb := g1.length_eq
    have hib := g2.length_eq
    have hit := (takeAll_laid (fun _ _ => takeTable_allowed) h3).length_eq
    rw [List.length_replicate] at hbb hib hit
    have htaken : geom.takenRuns f = List.replicate (geom.flexMembers f) 1 ++
        List.replicate (geom.flexMembers f) 1 := by
      simp [takenRuns, flexRuns, Nat.eq_zero_of_not_pos hlen]
    refine ⟨_, c2, htaken ▸ g1.append g2, fun b => ?_⟩
    have hempty : ∀ r ∈ its.zip (List.replicate (geom.flexMembers f) geom.itableBlocksPerGroup),
        ¬ Within r b := by
      intro r hr hin
      rw [zip_replicate_eq hit] at hr
      obtain ⟨s, -, rfl⟩ := List.mem_map.mp hr
      unfold Within at hin
      omega
    rw [placedRuns_zip hbb hib hit, htaken, flexRuns, ← List.append_assoc, ← List.append_assoc,
      List.zip_append (by simp [hbb, hib])]
    constructor
    · rintro ⟨r, hr, hin⟩
      rcases List.mem_append.mp hr with hr | hr
      · exact ⟨r, hr, hin⟩
      · exact absurd hin (hempty r hr)
    · rintro ⟨r, hr, hin⟩
      exact ⟨r, List.mem_append_left _ hr, hin⟩

variable (geom) in
/-- A placement of the flex group from `f` on is sound: one of each for every member, no two runs
    with a block in common, all of them between the flex group's first block and the end of the
    filesystem, and no block of a superblock or descriptor region in any. -/
structure FlexSound (f : Nat) (placement : List (Nat × Nat × Nat)) : Prop where
  members : placement.length = geom.flexMembers f
  apart : (geom.placedRuns placement).Pairwise fun r r' => ∀ b, Within r b → ¬ Within r' b
  inside : ∀ r ∈ geom.placedRuns placement,
    geom.groupFirstBlock f ≤ r.1 ∧ r.1 + r.2 ≤ geom.blocksCount
  clear : ∀ r ∈ geom.placedRuns placement, ∀ b, Within r b →
    ∀ g < geom.groupCount, ¬ Within (geom.superRegion g) b

variable (geom) in
/-- Every block that a superblock or descriptor region has from the flex group's first block on
    is one that `in_super_region` reports, or one that the runs pass over: as many of them as fit
    before it on blocks that are not reported, with the next one, fit only past it. -/
def RegionsSpared (f : Nat) : Prop :=
  ∀ g < geom.groupCount, ∀ b, Within (geom.superRegion g) b → geom.groupFirstBlock f ≤ b →
    geom.inSuperRegion b = true ∨ Spared geom.Free (geom.groupFirstBlock f) (geom.takenRuns f) b

/-- A placement is sound exactly when the regions are spared; everything but the regions it
    avoids anyway. -/
theorem flexSound_iff {f : Nat} {placement : List (Nat × Nat × Nat)}
    (h : geom.placeFlex f = .ok placement) :
    geom.FlexSound f placement ↔ geom.RegionsSpared f := by
  obtain ⟨hmembers, starts, e, hlaid, hruns⟩ := placeFlex_laid h
  obtain ⟨starts', e', hgreedy, htaken⟩ := placeFlex_greedy h
  obtain ⟨hsorted, hbounds⟩ := hlaid.sorted
  rw [← hruns] at hsorted hbounds
  have hallowed : ∀ r ∈ geom.placedRuns placement, geom.Allowed r.1 r.2 := fun r hr =>
    hlaid.allowed_of_mem (hruns ▸ hr)
  -- A block is taken unless the runs pass over it.
  have hspared : ∀ b, geom.groupFirstBlock f ≤ b →
      ((∃ r ∈ geom.placedRuns placement, Within r b) ↔
        ¬ Spared geom.Free (geom.groupFirstBlock f) (geom.takenRuns f) b) := by
    intro b hb
    rw [htaken, ← hgreedy.spares_iff hb, not_forall]
    exact exists_congr fun r => by rw [Classical.not_imp, not_not]; rfl
  constructor
  · intro hsound g hg b hregion hb
    by_cases hrep : geom.inSuperRegion b = true
    · exact Or.inl hrep
    · refine Or.inr (by_contra fun hnot => ?_)
      obtain ⟨r, hr, hin⟩ := (hspared b hb).mpr hnot
      exact hsound.clear r hr b hin g hg hregion
  · intro hcond
    refine ⟨hmembers, hsorted.imp fun {r r'} hle b hin hin' => ?_, fun r hr => ?_,
      fun r hr b hin g hg hregion => ?_⟩
    · unfold Within at hin hin'
      omega
    · exact ⟨(hbounds r hr).1, (hallowed r hr).2⟩
    · have hlo := (hbounds r hr).1
      have hfree : geom.Free b := (hallowed r hr).1 b hin.1 hin.2
      have hb : geom.groupFirstBlock f ≤ b := Nat.le_trans hlo hin.1
      rcases hcond g hg b hregion hb with hrep | hspare
      · unfold Free at hfree
        rw [hrep] at hfree
        cases hfree
      · exact (hspared b hb).mp ⟨r, hr, hin⟩ hspare

/-- Regions that stay in their groups are reported. -/
theorem regionsSpared_of_fit (hcount : geom.groupCount < 2 ^ 32)
    (hfit : ∀ g < geom.groupCount, geom.superOverhead g ≤ geom.blocksPerGroup) (f : Nat) :
    geom.RegionsSpared f := by
  intro g hg b hregion _
  left
  by_contra hrep
  have hfree : geom.Free b := Bool.eq_false_iff.mpr hrep
  have hend := hfree.lt_blocksCount
  obtain ⟨hlo, hhi⟩ := hregion
  simp only [superRegion] at hlo hhi
  have hover := hfit g hg
  obtain ⟨i, rfl⟩ := Nat.exists_eq_add_of_le hlo
  have hpast := (free_iff hcount hg (by omega) hend).mp hfree
  omega

end Geometry

/-- `place_flex` ends, and places soundly whatever flex group has its regions spared. -/
theorem placeFlex_sound_iff (geom : Geometry) :
    (∀ cursor, Ends geom.skipStep cursor (geom.skipSuper (geom.blocksCount - cursor) cursor)) ∧
    (∀ cursor, Ends geom.tableStep cursor (geom.takeTable (geom.blocksCount + 1) cursor)) ∧
    ∀ f placement, geom.placeFlex f = .ok placement →
      (geom.FlexSound f placement ↔ geom.RegionsSpared f) := by
  refine ⟨fun cursor => Geometry.skipStep_ends (by omega), fun cursor =>
    Geometry.tableStep_ends (by omega), fun f placement h => Geometry.flexSound_iff h⟩

/-- Flex groups of two, whose regions stay in their groups. -/
theorem placeFlex_sound_roomy : ∃ placement, roomy.placeFlex 0 = .ok placement ∧
    (roomy.FlexSound 0 placement ↔ roomy.RegionsSpared 0) ∧ roomy.FlexSound 0 placement := by
  have hok : (roomy.placeFlex 0).isOk = true := by decide +kernel
  cases hplace : roomy.placeFlex 0 with
  | error e =>
    rw [hplace] at hok
    cases hok
  | ok placement =>
    have hiff := (placeFlex_sound_iff roomy).2.2 0 placement hplace
    have hfit : ∀ g < roomy.groupCount, roomy.superOverhead g ≤ roomy.blocksPerGroup := by
      decide +kernel
    exact ⟨placement, rfl, hiff, hiff.mpr (Geometry.regionsSpared_of_fit (by decide) hfit 0)⟩

/-! ### A descriptor table longer than a group -/

/-- Groups of eight blocks, with the whole table behind the superblock copies of the first. -/
def spillingGroups : Params :=
  { blockSize := some 1024, blocksPerGroup := some 8, inodesCount := some 2016,
    inodeSize := some 128, firstMetaBg := some 8 }

/-- 126 groups: a superblock copy and the table of eight blocks are nine, of the eight a group
    has. -/
def spilling : Geometry where
  blockSize := 1024
  logBlockSize := 0
  blocksCount := 1009
  firstDataBlock := 1
  blocksPerGroup := 8
  rBlocksCount := 50
  inodesCount := 2016
  inodesPerGroup := 16
  inodeSize := 128
  itableBlocksPerGroup := 2
  groupCount := 126
  descSize := 64
  descBlocks := 8
  reservedGdtBlocks := 0
  logGroupsPerFlex := 4
  metaBg := true
  firstMetaBg := 8
  features := { compat := 0x28, incompat := 0x22d2, roCompat := 0x46b }

/-- The first block bitmap is placed at block 17, the last of group 1's table. -/
theorem spilling_not_sound : compute (1009 * 1024) spillingGroups = .ok spilling ∧
    ∃ placement, spilling.placeFlex 0 = .ok placement ∧ ¬ spilling.FlexSound 0 placement := by
  have hfirst : (spilling.placeFlex 0).toOption.map (fun placement =>
      (spilling.placedRuns placement).head?) = some (some (17, 1)) := by
    decide +kernel
  refine ⟨by decide +kernel, ?_⟩
  cases hplace : spilling.placeFlex 0 with
  | error e =>
    rw [hplace] at hfirst
    cases hfirst
  | ok placement =>
    rw [hplace] at hfirst
    have hmem : (17, 1) ∈ spilling.placedRuns placement :=
      List.mem_of_head? (Option.some.inj hfirst)
    refine ⟨placement, rfl, fun hsound => ?_⟩
    exact hsound.clear _ hmem 17 (by decide) 1 (by decide) (by decide)

end MkfsExt4.Layout
