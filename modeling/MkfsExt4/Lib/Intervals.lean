/-
  Intervals in order, and an index over them.

  An element `a` stands for the positions `start a, …, start a + len a - 1`.
  `Ordered start len lo hi as` says that the intervals of `as` are not empty, follow one another
  and lie in `lo..hi`. `Branches key child lo hi is as` says that `is` are the keys of an index
  over `as`: each child holds the part of `as` from its key to the next one's.
  Proved: a position is found by descending into the last child whose key is not past it
  (`Branches.find`). Nothing here is about a program.
-/
import Mathlib.Data.List.TakeWhile
import Mathlib.Tactic.Common

namespace Lib.Intervals

variable {α ι : Type} {start len : α → Nat}

/-- Whether `n` lies in the interval of `a`. -/
def covers (start len : α → Nat) (n : Nat) (a : α) : Bool :=
  decide (start a ≤ n ∧ n < start a + len a)

def Ordered (start len : α → Nat) : (lo hi : Nat) → List α → Prop
  | lo, hi, [] => lo ≤ hi
  | lo, hi, a :: as => lo ≤ start a ∧ 0 < len a ∧ Ordered start len (start a + len a) hi as

instance decidableOrdered : ∀ lo hi as, Decidable (Ordered start len lo hi as)
  | lo, hi, [] => inferInstanceAs (Decidable (lo ≤ hi))
  | lo, hi, a :: as =>
    have := decidableOrdered (start a + len a) hi as
    inferInstanceAs (Decidable (lo ≤ start a ∧ 0 < len a ∧ _))

namespace Ordered

theorem le {lo hi : Nat} {as : List α} (h : Ordered start len lo hi as) : lo ≤ hi := by
  induction as generalizing lo with
  | nil => exact h
  | cons a as ih =>
    obtain ⟨hlo, _, htail⟩ := h
    have := ih htail
    omega

theorem mono {lo lo' hi : Nat} {as : List α} (h : Ordered start len lo hi as) (hlo : lo' ≤ lo) :
    Ordered start len lo' hi as := by
  cases as with
  | nil => exact Nat.le_trans hlo h
  | cons a as => exact ⟨Nat.le_trans hlo h.1, h.2⟩

theorem append {lo mid hi : Nat} {as bs : List α} (h : Ordered start len lo mid as)
    (h' : Ordered start len mid hi bs) : Ordered start len lo hi (as ++ bs) := by
  induction as generalizing lo with
  | nil => exact h'.mono h
  | cons a as ih => exact ⟨h.1, h.2.1, ih h.2.2⟩

/-- Every interval lies in `lo..hi` and is not empty. -/
theorem mem {lo hi : Nat} {as : List α} (h : Ordered start len lo hi as) {a : α} (ha : a ∈ as) :
    lo ≤ start a ∧ 0 < len a ∧ start a + len a ≤ hi := by
  induction as generalizing lo with
  | nil => exact absurd ha List.not_mem_nil
  | cons b as ih =>
    obtain ⟨hlo, hpos, htail⟩ := h
    rcases List.mem_cons.mp ha with rfl | ha
    · exact ⟨hlo, hpos, htail.le⟩
    · obtain ⟨h1, h2, h3⟩ := ih htail ha
      exact ⟨by omega, h2, h3⟩

/-- Nothing covers a position outside. -/
theorem find_none {lo hi n : Nat} {as : List α} (h : Ordered start len lo hi as)
    (hn : n < lo ∨ hi ≤ n) : as.find? (covers start len n) = none := by
  rw [List.find?_eq_none]
  intro a ha hcov
  have hmem := h.mem ha
  have hin := of_decide_eq_true hcov
  omega

/-- No two intervals cover the same position. -/
theorem find_eq_some_iff {lo hi n : Nat} {as : List α} (h : Ordered start len lo hi as) {a : α} :
    as.find? (covers start len n) = some a ↔ a ∈ as ∧ covers start len n a = true := by
  refine ⟨fun hfind => ⟨List.mem_of_find?_eq_some hfind, List.find?_some hfind⟩, ?_⟩
  rintro ⟨ha, hcov⟩
  induction as generalizing lo with
  | nil => exact absurd ha List.not_mem_nil
  | cons b as ih =>
    obtain ⟨-, -, htail⟩ := h
    rcases List.mem_cons.mp ha with rfl | ha
    · exact List.find?_cons_of_pos hcov
    · rw [List.find?_cons_of_neg, ih htail ha]
      have hlater := (htail.mem ha).1
      have hin := of_decide_eq_true hcov
      rw [covers, decide_eq_true_iff]
      omega

/-- The starts are in order. -/
theorem pairwise {lo hi : Nat} {as : List α} (h : Ordered start len lo hi as) :
    as.Pairwise fun a b => start a ≤ start b := by
  induction as generalizing lo with
  | nil => exact List.Pairwise.nil
  | cons a as ih =>
    refine List.Pairwise.cons (fun b hb => ?_) (ih h.2.2)
    have := (h.2.2.mem hb).1
    omega

end Ordered

/-! ## An index -/

variable {key : ι → Nat} {child : Nat → Nat → ι → List α → Prop}

/-- The keys `is` of an index over `as`, `child lo hi i bs` saying that the child under `i` holds
    `bs`, of the positions `lo..hi`. -/
inductive Branches (key : ι → Nat) (child : Nat → Nat → ι → List α → Prop) :
    Nat → Nat → List ι → List α → Prop
  | nil {lo hi : Nat} : lo ≤ hi → Branches key child lo hi [] []
  | cons {lo mid hi : Nat} {i : ι} {is : List ι} {as bs : List α} :
    lo ≤ key i → child (key i) mid i as → Branches key child mid hi is bs →
    Branches key child lo hi (i :: is) (as ++ bs)

namespace Branches

/-- Every element is one of some child's. -/
theorem mem {lo hi : Nat} {is : List ι} {as : List α} (h : Branches key child lo hi is as)
    {a : α} (ha : a ∈ as) : ∃ lo hi i bs, child lo hi i bs ∧ a ∈ bs := by
  induction h with
  | nil => exact absurd ha List.not_mem_nil
  | cons _ hhead _ ih =>
    rcases List.mem_append.mp ha with ha | ha
    · exact ⟨_, _, _, _, hhead, ha⟩
    · exact ih ha

/-- Children that hold as much. -/
theorem imp {child' : Nat → Nat → ι → List α → Prop}
    (hchild : ∀ {lo hi : Nat} {i : ι} {as : List α}, child lo hi i as → child' lo hi i as)
    {lo hi : Nat} {is : List ι} {as : List α} (h : Branches key child lo hi is as) :
    Branches key child' lo hi is as := by
  induction h with
  | nil hle => exact .nil hle
  | cons hlo hhead _ ih => exact .cons hlo (hchild hhead) ih

theorem mono {lo lo' hi : Nat} {is : List ι} {as : List α} (h : Branches key child lo hi is as)
    (hlo : lo' ≤ lo) : Branches key child lo' hi is as := by
  cases h with
  | nil hle => exact .nil (Nat.le_trans hlo hle)
  | cons hkey hhead hrest => exact .cons (Nat.le_trans hlo hkey) hhead hrest

/-- Children that hold as much, of what is held here. -/
theorem imp_of_subset {child' : Nat → Nat → ι → List α → Prop} {lo hi : Nat} {is : List ι}
    {as : List α} (h : Branches key child lo hi is as)
    (hchild : ∀ {lo hi : Nat} {i : ι} {bs : List α}, bs ⊆ as → child lo hi i bs →
      child' lo hi i bs) : Branches key child' lo hi is as := by
  induction h with
  | nil hle => exact .nil hle
  | cons hlo hhead _ ih =>
    refine .cons hlo (hchild (List.subset_append_left _ _) hhead) (ih fun hsub => hchild ?_)
    exact List.Subset.trans hsub (List.subset_append_right _ _)

theorem le (hchild : ∀ {lo hi : Nat} {i : ι} {as : List α}, child lo hi i as → lo ≤ hi)
    {lo hi : Nat} {is : List ι} {as : List α} (h : Branches key child lo hi is as) : lo ≤ hi := by
  induction h with
  | nil hle => exact hle
  | cons hlo hhead _ ih => exact Nat.le_trans hlo (Nat.le_trans (hchild hhead) ih)

/-- What lies within its child's positions lies within all. -/
theorem within {pos : α → Option Nat}
    (hle : ∀ {lo hi : Nat} {i : ι} {as : List α}, child lo hi i as → lo ≤ hi)
    (hchild : ∀ {lo hi : Nat} {i : ι} {as : List α}, child lo hi i as →
      ∀ a ∈ as, ∀ n ∈ pos a, lo ≤ n ∧ n < hi)
    {lo hi : Nat} {is : List ι} {as : List α} (h : Branches key child lo hi is as) :
    ∀ a ∈ as, ∀ n ∈ pos a, lo ≤ n ∧ n < hi := by
  induction h with
  | nil => exact fun a ha => absurd ha List.not_mem_nil
  | cons hlo hhead hrest ih =>
    intro a ha n hn
    rcases List.mem_append.mp ha with ha | ha
    · have := hchild hhead a ha n hn
      have := hrest.le hle
      omega
    · have := ih a ha n hn
      have := hle hhead
      omega

/-- What is held, child by child. -/
theorem parts {lo hi : Nat} {is : List ι} {as : List α} (h : Branches key child lo hi is as) :
    ∃ parts, List.Forall₂ (fun i bs => ∃ lo hi, child lo hi i bs) is parts ∧
      as = parts.flatten := by
  induction h with
  | nil => exact ⟨[], .nil, rfl⟩
  | @cons _ _ _ i is as bs _ hhead _ ih =>
    obtain ⟨parts, hparts, rfl⟩ := ih
    exact ⟨as :: parts, .cons ⟨_, _, hhead⟩ hparts, rfl⟩

variable (hchild : ∀ {lo hi : Nat} {i : ι} {as : List α}, child lo hi i as →
  Ordered start len lo hi as)

include hchild

theorem ordered {lo hi : Nat} {is : List ι} {as : List α} (h : Branches key child lo hi is as) :
    Ordered start len lo hi as := by
  induction h with
  | nil hle => exact hle
  | cons hlo hi _ ih => exact ((hchild hi).append ih).mono hlo

theorem key_le {lo hi : Nat} {is : List ι} {as : List α} (h : Branches key child lo hi is as)
    {i : ι} (hi : i ∈ is) : lo ≤ key i := by
  induction h with
  | nil => exact absurd hi List.not_mem_nil
  | cons hlo hhead _ ih =>
    have hmid := (hchild hhead).le
    rcases List.mem_cons.mp hi with rfl | hi
    · exact hlo
    · have := ih hi
      omega

/-- A position is covered in the child under the last key that is not past it, or not at all. -/
theorem find {lo hi : Nat} {is : List ι} {as : List α} (h : Branches key child lo hi is as)
    (n : Nat) :
    match (is.takeWhile fun i => decide (key i ≤ n)).getLast? with
    | none => as.find? (covers start len n) = none
    | some i => ∃ mid bs, child (key i) mid i bs ∧
        as.find? (covers start len n) = bs.find? (covers start len n) := by
  induction h with
  | nil => rfl
  | @cons lo mid hi i is as bs hlo hi' hrest ih =>
    have has := hchild hi'
    by_cases hkey : key i ≤ n
    · rw [List.takeWhile_cons_of_pos (by simpa using hkey), List.getLast?_cons, List.find?_append]
      cases hlast : (is.takeWhile fun i => decide (key i ≤ n)).getLast? with
      | none =>
        rw [hlast] at ih
        exact ⟨mid, as, hi', by rw [ih, Option.or_none]⟩
      | some j =>
        -- the wanted position is at or past the next key, so not under this one
        have hj := List.mem_of_getLast? hlast
        have hmid := hrest.key_le hchild (List.takeWhile_subset _ hj)
        have hjn : key j ≤ n := by simpa using List.mem_takeWhile_imp hj
        rw [hlast] at ih
        rw [has.find_none (Or.inr (Nat.le_trans hmid hjn)), Option.none_or]
        exact ih
    · rw [List.takeWhile_cons_of_neg (by simpa using hkey), List.getLast?_nil]
      exact (has.append (hrest.ordered hchild)).find_none (Or.inl (Nat.not_le.mp hkey))

end Branches

end Lib.Intervals
