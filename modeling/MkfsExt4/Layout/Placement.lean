/-
  The placement of one flex group is a first fit.

  `place_flex` lays the bitmaps and inode tables of a flex group on the blocks that
  `in_super_region` leaves, each at the first place past the one before it. When it stops
  with an error no layout in that order exists at all.
-/
import MkfsExt4.Layout.Geometry
import MkfsExt4.Lib.FirstFit
import MkfsExt4.Lib.Hoare

namespace MkfsExt4.Layout

open Lib.FirstFit Lib.Hoare

namespace Geometry

variable (geom : Geometry)

/-- The blocks a placement may use. -/
def Free (block : Nat) : Prop := geom.inSuperRegion block = false

variable {geom}

theorem Free.lt_blocksCount {b : Nat} (h : geom.Free b) : b < geom.blocksCount := by
  unfold Free inSuperRegion at h
  split at h
  · cases h
  · omega

/-! ## One run -/

theorem skipSuper_spec (geom : Geometry) (fuel c : Nat) :
    c ≤ geom.skipSuper fuel c ∧
      (∀ b, c ≤ b → b < geom.skipSuper fuel c → ¬ geom.Free b) ∧
      (geom.blocksCount ≤ c + fuel →
        geom.blocksCount ≤ geom.skipSuper fuel c ∨ geom.Free (geom.skipSuper fuel c)) := by
  induction fuel generalizing c with
  | zero =>
    refine ⟨Nat.le_refl c, ?_, ?_⟩
    · intro b hb hb'
      exact absurd hb' (Nat.not_lt.mpr hb)
    · intro h
      exact Or.inl h
  | succ fuel ih =>
    simp only [skipSuper]
    split
    case isTrue h =>
      obtain ⟨hle, hskip, hstop⟩ := ih (c + 1)
      refine ⟨by omega, ?_, ?_⟩
      · intro b hb hb'
        rcases Nat.eq_or_lt_of_le hb with rfl | hlt
        · simp [Free, h.2]
        · exact hskip b hlt hb'
      · intro hfuel
        apply hstop
        omega
    case isFalse h =>
      refine ⟨Nat.le_refl c, ?_, ?_⟩
      · intro b hb hb'
        exact absurd hb' (Nat.not_lt.mpr hb)
      · intro _
        by_cases hc : c < geom.blocksCount
        · right
          simpa [Free, hc] using h
        · exact Or.inl (Nat.le_of_not_lt hc)

theorem takeOne_ok {c s : Nat} (h : geom.takeOne c = .ok s) : First geom.Free c 1 s := by
  obtain ⟨hle, hskip, hstop⟩ := skipSuper_spec geom (geom.blocksCount - c) c
  simp only [takeOne] at h
  split at h
  case isTrue => cases h
  case isFalse hlt =>
    cases h
    have hfree := (hstop (by omega)).resolve_left hlt
    refine ⟨hle, clear_one.mpr hfree, ?_⟩
    intro t hct ht
    by_contra hts
    exact hskip t hct (Nat.lt_of_not_le hts) (clear_one.mp ht)

theorem takeOne_error {c : Nat} {e : Error} (h : geom.takeOne c = .error e) :
    ∀ s, c ≤ s → ¬ Clear geom.Free s 1 := by
  obtain ⟨-, hskip, -⟩ := skipSuper_spec geom (geom.blocksCount - c) c
  simp only [takeOne] at h
  split at h
  case isFalse => cases h
  case isTrue hge =>
    intro s hs hclear
    have hfree := clear_one.mp hclear
    have hlt := hfree.lt_blocksCount
    exact hskip s hs (by omega) hfree

theorem findSuper_none {len s : Nat} (h : geom.findSuper len s = none) :
    Clear geom.Free s len := by
  induction len generalizing s with
  | zero =>
    intro b hb hb'
    omega
  | succ len ih =>
    simp only [findSuper] at h
    split at h
    case isTrue => cases h
    case isFalse hs =>
      intro b hb hb'
      rcases Nat.eq_or_lt_of_le hb with rfl | hlt
      · simpa [Free] using hs
      · exact ih h b hlt (by omega)

theorem findSuper_some {len s blocked : Nat} (h : geom.findSuper len s = some blocked) :
    s ≤ blocked ∧ blocked < s + len ∧ ¬ geom.Free blocked := by
  induction len generalizing s with
  | zero => cases h
  | succ len ih =>
    simp only [findSuper] at h
    split at h
    case isTrue hs =>
      cases h
      exact ⟨Nat.le_refl _, by omega, by simp [Free, hs]⟩
    case isFalse =>
      obtain ⟨hle, hlt, hnot⟩ := ih h
      exact ⟨by omega, by omega, hnot⟩

/-- A run of free blocks that starts at or after a cursor starts past every block that is
not free and that the run from the cursor would take in. -/
theorem lt_of_clear {c blocked len t : Nat} (hblocked : blocked < c + len)
    (hnot : ¬ geom.Free blocked) (hct : c ≤ t) (hclear : Clear geom.Free t len) :
    blocked < t := by
  by_contra hle
  exact hnot (hclear blocked (by omega) (by omega))

theorem skipSuper_le_of_clear {fuel c t len : Nat} (hlen : 0 < len) (hct : c ≤ t)
    (hclear : Clear geom.Free t len) : geom.skipSuper fuel c ≤ t := by
  obtain ⟨-, hskip, -⟩ := skipSuper_spec geom fuel c
  by_contra hlt
  exact hskip t hct (Nat.lt_of_not_le hlt) (hclear t (Nat.le_refl t) (by omega))

theorem takeTable_ok {fuel c s : Nat} (hlen : 0 < geom.itableBlocksPerGroup)
    (h : geom.takeTable fuel c = .ok s) : First geom.Free c geom.itableBlocksPerGroup s := by
  induction fuel generalizing c with
  | zero => cases h
  | succ fuel ih =>
    simp only [takeTable] at h
    have hle := (skipSuper_spec geom (geom.blocksCount - c) c).1
    split at h
    case isTrue => cases h
    case isFalse =>
      split at h
      case h_1 hfind =>
        cases h
        refine ⟨hle, findSuper_none hfind, ?_⟩
        intro t hct hclear
        exact skipSuper_le_of_clear hlen hct hclear
      case h_2 blocked hfind =>
        obtain ⟨hbl, hlt, hnot⟩ := findSuper_some hfind
        have first := ih h
        refine ⟨?_, first.clear, ?_⟩
        · have := first.le
          omega
        · intro t hct hclear
          apply first.least t _ hclear
          exact lt_of_clear hlt hnot (skipSuper_le_of_clear hlen hct hclear) hclear

theorem takeTable_error {fuel c : Nat} {e : Error} (hlen : 0 < geom.itableBlocksPerGroup)
    (hfuel : geom.blocksCount < c + fuel) (h : geom.takeTable fuel c = .error e) :
    ∀ s, c ≤ s → ¬ Clear geom.Free s geom.itableBlocksPerGroup := by
  -- A run of free blocks ends inside the filesystem.
  have hend : ∀ s, Clear geom.Free s geom.itableBlocksPerGroup →
      s + geom.itableBlocksPerGroup ≤ geom.blocksCount := by
    intro s hclear
    have hlast := hclear (s + geom.itableBlocksPerGroup - 1) (by omega) (by omega)
    have := hlast.lt_blocksCount
    omega
  induction fuel generalizing c with
  | zero =>
    intro s hs hclear
    have := hend s hclear
    omega
  | succ fuel ih =>
    simp only [takeTable] at h
    have hle := (skipSuper_spec geom (geom.blocksCount - c) c).1
    intro s hs hclear
    have hskip : geom.skipSuper (geom.blocksCount - c) c ≤ s :=
      skipSuper_le_of_clear hlen hs hclear
    split at h
    case isTrue hlt =>
      have := hend s hclear
      omega
    case isFalse =>
      split at h
      case h_1 => cases h
      case h_2 blocked hfind =>
        obtain ⟨hbl, hlt, hnot⟩ := findSuper_some hfind
        exact ih (by omega) h s (lt_of_clear hlt hnot hskip hclear) hclear

/-! ## A flex group -/

theorem takeAll_ok {take : Nat → Except Error Nat} {len : Nat}
    (htake : ∀ c s, take c = .ok s → First geom.Free c len s) {count c e : Nat}
    {starts : List Nat} (h : takeAll take len count c = .ok (starts, e)) :
    Greedy geom.Free c (List.replicate count len) starts e := by
  induction count generalizing c starts with
  | zero =>
    cases h
    exact .nil _
  | succ count ih =>
    obtain ⟨s, hs, h⟩ := bind_ok h
    obtain ⟨⟨rest, e'⟩, hrest, h⟩ := bind_ok h
    cases h
    exact .cons (htake c s hs) (ih hrest)

theorem takeAll_error {take : Nat → Except Error Nat} {len : Nat}
    (htake : ∀ c s, take c = .ok s → First geom.Free c len s)
    (hstuck : ∀ c e, take c = .error e → ∀ s, c ≤ s → ¬ Clear geom.Free s len)
    {count c hi : Nat} {e : Error} (h : takeAll take len count c = .error e) :
    ¬ Fits geom.Free c (List.replicate count len) hi := by
  induction count generalizing c with
  | zero => cases h
  | succ count ih =>
    rintro ⟨t, hct, hclear, hrest⟩
    rcases bind_error h with hnone | ⟨s, hs, h⟩
    · exact hstuck c e hnone t hct hclear
    · have hst : s ≤ t := (htake c s hs).least t hct hclear
      rcases bind_error h with hnone | ⟨_, -, h⟩
      · exact ih hnone (hrest.mono_start (Nat.add_le_add_right hst len))
      · cases h

/-- The runs of a flex group of `members` groups, in the order they are placed. -/
def flexRuns (geom : Geometry) (members : Nat) : List Nat :=
  List.replicate members 1 ++ (List.replicate members 1 ++
    List.replicate members geom.itableBlocksPerGroup)

/-- A placement of the flex group from `f` on, as `place_flex` makes it. -/
structure Placed (geom : Geometry) (f : Nat) (blockBitmaps inodeBitmaps inodeTables : List Nat)
    (e : Nat) : Prop where
  greedy : Greedy geom.Free (geom.groupFirstBlock f) (geom.flexRuns (geom.flexMembers f))
    (blockBitmaps ++ (inodeBitmaps ++ inodeTables)) e
  blockBitmaps_length : blockBitmaps.length = geom.flexMembers f
  inodeBitmaps_length : inodeBitmaps.length = geom.flexMembers f
  inodeTables_length : inodeTables.length = geom.flexMembers f

theorem placeFlex_ok (hlen : 0 < geom.itableBlocksPerGroup) {f : Nat}
    {placement : List (Nat × Nat × Nat)} (h : geom.placeFlex f = .ok placement) :
    ∃ bbs ibs its e, geom.Placed f bbs ibs its e ∧ placement = bbs.zip (ibs.zip its) := by
  obtain ⟨⟨bbs, c1⟩, h1, h⟩ := bind_ok h
  obtain ⟨⟨ibs, c2⟩, h2, h⟩ := bind_ok h
  obtain ⟨⟨its, e⟩, h3, h⟩ := bind_ok h
  cases h
  have g1 := takeAll_ok (fun c s => takeOne_ok) h1
  have g2 := takeAll_ok (fun c s => takeOne_ok) h2
  have g3 := takeAll_ok (fun c s => takeTable_ok hlen) h3
  refine ⟨bbs, ibs, its, e, ⟨g1.append (g2.append g3), ?_, ?_, ?_⟩, rfl⟩
  · simpa using g1.length_eq
  · simpa using g2.length_eq
  · simpa using g3.length_eq

theorem placeFlex_error (hlen : 0 < geom.itableBlocksPerGroup) {f hi : Nat} {e : Error}
    (h : geom.placeFlex f = .error e) :
    ¬ Fits geom.Free (geom.groupFirstBlock f) (geom.flexRuns (geom.flexMembers f)) hi := by
  intro hfits
  have hone : ∀ c s, geom.takeOne c = .ok s → First geom.Free c 1 s := fun _ _ => takeOne_ok
  rcases bind_error h with h | ⟨⟨bbs, c1⟩, h1, h⟩
  · exact takeAll_error hone (fun _ _ => takeOne_error) h hfits.of_append
  · have g1 := takeAll_ok hone h1
    have hfits := g1.fits_rest hfits
    rcases bind_error h with h | ⟨⟨ibs, c2⟩, h2, h⟩
    · exact takeAll_error hone (fun _ _ => takeOne_error) h hfits.of_append
    · have g2 := takeAll_ok hone h2
      have hfits := g2.fits_rest hfits
      rcases bind_error h with h | ⟨_, -, h⟩
      · have hstuck : ∀ c e, geom.takeTable (geom.blocksCount + 1) c = .error e →
            ∀ s, c ≤ s → ¬ Clear geom.Free s geom.itableBlocksPerGroup :=
          fun c _ => takeTable_error hlen (by omega)
        exact takeAll_error (fun _ _ => takeTable_ok hlen) hstuck h hfits
      · cases h

end Geometry

end MkfsExt4.Layout
