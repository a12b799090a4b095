/-
  Reports of how two filesystems differ (`src/compare.rs`).

  A difference has a place, a field, the two values as text and a significance. `push` keeps
  those the options ask for, up to their limit. Proved: with everything asked for and no limit a
  row of comparisons reports nothing exactly when none of them found a difference
  (`foldl_nil_iff`).
-/
import Mathlib.Tactic.Common

namespace MkfsExt4.Compare

/-- Whether a difference is worth acting on. -/
inductive Significance where
  | identity
  | incidental
  | structural
deriving DecidableEq, Repr

/-- Where a difference was found. -/
inductive Area where
  | superblock
  | features
  | groupDesc (group : Nat)
  | inode (inum : Nat)
  | directory (path : String)
deriving DecidableEq, Repr

/-- One field that differs. -/
structure Difference where
  area : Area
  field : String
  left : String
  right : String
  significance : Significance
deriving DecidableEq, Repr

/-- What to compare. A `limit` of zero is none. -/
structure CompareOptions where
  includeIdentity : Bool := false
  includeIncidental : Bool := false
  allGroups : Bool := true
  walkDirectories : Bool := true
  limit : Nat := 0

/-- Report everything. -/
def CompareOptions.everything : CompareOptions where
  includeIdentity := true
  includeIncidental := true

def CompareOptions.wants (options : CompareOptions) : Significance → Bool
  | .identity => options.includeIdentity
  | .incidental => options.includeIncidental
  | .structural => true

/-- The result of a comparison. -/
structure ComparisonReport where
  differences : List Difference := []
  truncated : Bool := false

namespace ComparisonReport

def push (report : ComparisonReport) (options : CompareOptions) (d : Difference) :
    ComparisonReport :=
  if !options.wants d.significance then report
  else if 0 < options.limit ∧ options.limit ≤ report.differences.length then
    { report with truncated := true }
  else { report with differences := report.differences ++ [d] }

/-- `if .. { report.push(..) }` -/
def pushIf (report : ComparisonReport) (options : CompareOptions) (found : Bool)
    (d : Difference) : ComparisonReport :=
  if found then report.push options d else report

/-- A structural difference for each of `names` that is not among `others`. -/
def pushMissing (report : ComparisonReport) (options : CompareOptions) (area : Area)
    (names others : List String) (left right : String) : ComparisonReport :=
  names.foldl (fun report name =>
    report.pushIf options (!others.contains name) ⟨area, name, left, right, .structural⟩) report

section Push

variable {report : ComparisonReport} {options : CompareOptions} {found : Bool} {d : Difference}

/-- What is wanted is added, if there is no limit. -/
theorem push_differences (hw : options.wants d.significance = true) (hl : options.limit = 0) :
    (report.push options d).differences = report.differences ++ [d] := by
  have hnot : ¬(0 < options.limit ∧ options.limit ≤ report.differences.length) := by omega
  rw [push, hw, if_neg (by decide), if_neg hnot]

theorem pushIf_nil_iff (hw : options.wants d.significance = true) (hl : options.limit = 0) :
    (report.pushIf options found d).differences = [] ↔
      report.differences = [] ∧ found = false := by
  cases found with
  | false => exact ⟨fun h => ⟨h, rfl⟩, And.left⟩
  | true =>
    rw [pushIf, if_pos rfl, push_differences hw hl]
    simp

/-- Over a row of comparisons, each of which reports in a report when it found something. -/
theorem foldl_nil_iff {α : Type} {f : ComparisonReport → α → ComparisonReport} {p : α → Prop}
    {xs : List α}
    (hf : ∀ x ∈ xs, ∀ report, (f report x).differences = [] ↔ report.differences = [] ∧ ¬p x) :
    (xs.foldl f report).differences = [] ↔ report.differences = [] ∧ ∀ x ∈ xs, ¬p x := by
  induction xs generalizing report with
  | nil => simp
  | cons x xs ih =>
    rw [List.foldl_cons, ih fun y hy => hf y (List.mem_cons_of_mem x hy),
      hf x List.mem_cons_self, and_assoc, List.forall_mem_cons]

/-- Nothing is missing exactly when all the names are among the others. -/
theorem pushMissing_nil_iff (hl : options.limit = 0) {area : Area} {names others : List String}
    {left right : String} :
    (report.pushMissing options area names others left right).differences = [] ↔
      report.differences = [] ∧ ∀ name ∈ names, name ∈ others := by
  have hturn : ∀ name ∈ names, ∀ report : ComparisonReport,
      (report.pushIf options (!others.contains name)
        ⟨area, name, left, right, .structural⟩).differences = [] ↔
        report.differences = [] ∧ ¬name ∉ others := by
    intro name _ report
    rw [pushIf_nil_iff rfl hl, Bool.not_eq_false', List.contains_iff_mem, not_not]
  rw [pushMissing, foldl_nil_iff hturn]
  simp only [not_not]

end Push

end ComparisonReport

end MkfsExt4.Compare
