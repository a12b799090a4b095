/-
  Which groups carry a copy of the superblock.

  The rule is written three times: for the formatter (`has_super_for` of `src/layout.rs`), and
  in `src/fs.rs` for a superblock that is being opened and for the one that is. Each divides the
  factors 3, 5 and 7 out of the group number in a loop. Proved: the loop stops
  (`stripped_ends`), and what it leaves is 1 exactly for a power (`stripped_eq_one_iff`); the
  formatter's loop is the reader's (`stripFactor_eq`).
-/
import MkfsExt4.Fs.Filesystem
import MkfsExt4.Layout.Geometry
import MkfsExt4.Lib.Loop

namespace MkfsExt4

open Lib.Loop Layout Filesystem

/-! ## The division loop -/

/-- One turn: the number with one factor `base` less, or the number when the loop stops. -/
def stripTurn (base n : Nat) : Nat ⊕ Nat := if n % base = 0 then .inl (n / base) else .inr n

variable {base fuel n : Nat}

/-- What a turn leaves is less, and not 0: the loop would stay there. -/
theorem div_base (hbase : 1 < base) (hpos : 0 < n) (hdvd : n % base = 0) :
    0 < n / base ∧ n / base < n ∧ n = base * (n / base) := by
  have hsplit := (Nat.mul_div_cancel' (Nat.dvd_of_mod_eq_zero hdvd)).symm
  refine ⟨Nat.pos_of_ne_zero fun hzero => ?_, Nat.div_lt_self hpos hbase, hsplit⟩
  rw [hzero] at hsplit
  omega

theorem stripped_ends (hbase : 1 < base) (hpos : 0 < n) (hf : n ≤ fuel) :
    Ends (stripTurn base) n (stripped base fuel n) := by
  induction fuel generalizing n with
  | zero => omega
  | succ fuel ih =>
    rw [stripped]
    split_ifs with hdvd
    · obtain ⟨hleft, hless, -⟩ := div_base hbase hpos hdvd
      exact .turn (t := n / base) (if_pos hdvd) (ih hleft (by omega))
    · exact .stop (if_neg hdvd)

/-- Only the powers of `base` are divided down to 1. -/
theorem stripped_eq_one_iff (hbase : 1 < base) (hpos : 0 < n) (hf : n ≤ fuel) :
    stripped base fuel n = 1 ↔ ∃ k, n = base ^ k := by
  induction fuel generalizing n with
  | zero => omega
  | succ fuel ih =>
    rw [stripped]
    split_ifs with hdvd
    · obtain ⟨hleft, hless, hsplit⟩ := div_base hbase hpos hdvd
      rw [ih hleft (by omega)]
      constructor
      · rintro ⟨k, hk⟩
        exact ⟨k + 1, by rw [hsplit, hk, Nat.pow_succ, Nat.mul_comm]⟩
      · rintro ⟨k, hk⟩
        cases k with
        | zero =>
          rw [hk, Nat.pow_zero, Nat.mod_eq_of_lt hbase] at hdvd
          cases hdvd
        | succ k =>
          exact ⟨k, by rw [hk, Nat.pow_succ, Nat.mul_div_cancel _ (by omega)]⟩
    · constructor
      · rintro rfl
        exact ⟨0, (Nat.pow_zero base).symm⟩
      · rintro ⟨k, hk⟩
        cases k with
        | zero => rw [hk, Nat.pow_zero]
        | succ k => exact absurd (by rw [hk, Nat.pow_succ, Nat.mul_mod_left]) hdvd

/-- The formatter's loop is the reader's. -/
theorem stripFactor_eq (base fuel n : Nat) : stripFactor base fuel n = stripped base fuel n := by
  induction fuel generalizing n with
  | zero => rfl
  | succ fuel ih => rw [stripFactor, stripped, ih]

theorem isPowerOf_eq (hpos : 0 < n) : isPowerOf n base = decide (stripped base n n = 1) := by
  rw [isPowerOf, if_neg (Nat.pos_iff_ne_zero.mp hpos), stripFactor_eq]
  rfl

/-! ## The three tests -/

/-- The formatter and the readers apply one rule. -/
theorem hasSuperFor_eq (sb : Superblock) (compat incompat : Mask) (group : Nat) :
    hasSuperFor group { compat, incompat, roCompat := sb.featureRoCompat } =
      groupHasSuperFor sb group := by
  unfold hasSuperFor groupHasSuperFor
  refine if_congr Iff.rfl rfl ?_
  split_ifs with hfirst heven
  · rfl
  · rfl
  · have hpos : 0 < group := by omega
    simp only [isPowerOf_eq hpos]

/-- A power of an odd number is odd. -/
theorem odd_of_power {group : Nat} (h : ∃ base ∈ [3, 5, 7], ∃ k, group = base ^ k) :
    group % 2 = 1 := by
  obtain ⟨base, hbase, k, rfl⟩ := h
  have hodd : ∀ base ∈ [3, 5, 7], base % 2 = 1 := by decide
  rw [Nat.pow_mod, hodd base hbase, Nat.one_pow]

theorem groupHasSuperFor_iff {sb : Superblock} {group : Nat} :
    groupHasSuperFor sb group = true ↔
      sb.featureRoCompat.contains RoCompatFeatures.sparseSuper = false ∨ group = 0 ∨ group = 1 ∨
        ∃ base ∈ [3, 5, 7], ∃ k, group = base ^ k := by
  unfold groupHasSuperFor
  cases hsparse : sb.featureRoCompat.contains RoCompatFeatures.sparseSuper with
  | false => simp
  | true =>
    simp only [Bool.not_true, if_false, reduceCtorEq, false_or]
    split_ifs with hfirst heven
    · simp only [true_iff]
      omega
    · simp only [false_iff]
      rintro (rfl | rfl | hpower)
      · omega
      · omega
      · have := odd_of_power hpower
        omega
    · have hbases : ∀ base ∈ [3, 5, 7], 1 < base := by decide
      rw [List.any_eq_true]
      have hone : (∃ base ∈ [3, 5, 7], decide (stripped base group group = 1) = true) ↔
          ∃ base ∈ [3, 5, 7], ∃ k, group = base ^ k := by
        refine exists_congr fun base => and_congr_right fun hbase => ?_
        rw [decide_eq_true_eq, stripped_eq_one_iff (hbases base hbase) (by omega) (Nat.le_refl _)]
      rw [hone]
      refine ⟨fun h => Or.inr (Or.inr h), ?_⟩
      rintro (rfl | rfl | hpower)
      · omega
      · omega
      · exact hpower

/-- The three tests agree on every group, their loops stop, and with `sparse_super` the groups
    with a copy are 0, 1 and the powers of 3, 5 and 7. -/
theorem backup_tests_agree (fs : Filesystem) (compat incompat : Mask) (group : Nat) :
    fs.groupHasSuper group =
        hasSuperFor group { compat, incompat, roCompat := fs.superblock.featureRoCompat } ∧
      groupHasSuperFor fs.superblock group = fs.groupHasSuper group ∧
      (fs.groupHasSuper group = true ↔
        fs.superblock.featureRoCompat.contains RoCompatFeatures.sparseSuper = false ∨
          group = 0 ∨ group = 1 ∨ ∃ base ∈ [3, 5, 7], ∃ k, group = base ^ k) ∧
      ∀ base ∈ [3, 5, 7], group ≠ 0 →
        Ends (stripTurn base) group (stripped base group group) ∧
          Ends (stripTurn base) group (stripFactor base group group) := by
  refine ⟨(hasSuperFor_eq _ compat incompat group).symm, rfl, groupHasSuperFor_iff, ?_⟩
  intro base hbase hne
  have hbases : ∀ base ∈ [3, 5, 7], 1 < base := by decide
  have hends := stripped_ends (hbases base hbase) (Nat.pos_of_ne_zero hne) (Nat.le_refl group)
  rw [stripFactor_eq]
  exact ⟨hends, hends⟩

end MkfsExt4
