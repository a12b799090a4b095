/-
  Sets of numbers as lists of runs `(start, stop)`.

  `expand` lists the numbers of some runs. When each run ends before the next one starts they
  come in order, so that runs of the same numbers as a finite set list it sorted
  (`expand_eq_sort`) and have its size (`length_expand`). Nothing here is about a program.
-/
import Mathlib.Algebra.Order.Ring.Nat
import Mathlib.Data.Finset.Sort
import Mathlib.Data.List.Range
import Mathlib.Order.Interval.Finset.Nat

namespace Lib.Runs

variable {runs : List (ℕ × ℕ)} {b : ℕ}

/-- The numbers of some runs, one run after another. -/
def expand (runs : List (ℕ × ℕ)) : List ℕ := runs.flatMap fun p => List.range' p.1 (p.2 - p.1)

theorem mem_expand : b ∈ expand runs ↔ ∃ p ∈ runs, p.1 ≤ b ∧ b < p.2 := by
  simp only [expand, List.mem_flatMap, List.mem_range'_1]
  refine exists_congr fun p => and_congr_right fun _ => ?_
  omega

theorem length_expand (runs : List (ℕ × ℕ)) :
    (expand runs).length = (runs.map fun p => p.2 - p.1).sum := by
  simp only [expand, List.length_flatMap, List.length_range']

/-- Runs one behind another are listed in order. -/
theorem pairwise_expand (h : runs.Pairwise fun p q => p.2 ≤ q.1) :
    (expand runs).Pairwise (· < ·) := by
  induction runs with
  | nil => exact List.Pairwise.nil
  | cons p runs ih =>
    obtain ⟨hp, hrest⟩ := List.pairwise_cons.mp h
    rw [expand, List.flatMap_cons]
    refine List.pairwise_append.mpr ⟨List.pairwise_lt_range', ih hrest, fun a ha c hc => ?_⟩
    obtain ⟨q, hq, hqc, -⟩ := mem_expand.mp hc
    have hpq := hp q hq
    obtain ⟨hlo, hhi⟩ := List.mem_range'_1.mp ha
    omega

/-- Runs of the numbers of a finite set list it in order. -/
theorem expand_eq_sort (h : runs.Pairwise fun p q => p.2 ≤ q.1) {S : Finset ℕ}
    (hS : ∀ b, (∃ p ∈ runs, p.1 ≤ b ∧ b < p.2) ↔ b ∈ S) : expand runs = S.sort (· ≤ ·) := by
  have hlt := pairwise_expand h
  have hnodup : (expand runs).Nodup := hlt.imp Nat.ne_of_lt
  have hset : (expand runs).toFinset = S := by
    ext b
    rw [List.mem_toFinset, mem_expand, hS]
  rw [← hset]
  exact ((List.toFinset_sort (· ≤ ·) hnodup).mpr (hlt.imp Nat.le_of_lt)).symm

end Lib.Runs
