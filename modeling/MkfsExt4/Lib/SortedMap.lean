/-
  Ordered maps and sets of naturals, as lists sorted by key.

  `insert` puts a key in its place and replaces the value it had; `insertKey` is the same
  for a set. Proved: what a lookup finds after an insert, which keys are members, and that the
  keys stay in order.
-/
import Mathlib.Data.List.Lookmap
import Mathlib.Tactic.Common

namespace Lib.SortedMap

variable {β : Type}

def insert (k : Nat) (v : β) : List (Nat × β) → List (Nat × β)
  | [] => [(k, v)]
  | (k', v') :: m =>
    if k < k' then (k, v) :: (k', v') :: m
    else if k = k' then (k, v) :: m
    else (k', v') :: insert k v m

def insertKey (k : Nat) : List Nat → List Nat
  | [] => [k]
  | k' :: m => if k < k' then k :: k' :: m else if k = k' then k' :: m else k' :: insertKey k m

@[simp] theorem mem_insertKey {k i : Nat} {m : List Nat} : i ∈ insertKey k m ↔ i = k ∨ i ∈ m := by
  induction m with
  | nil => simp [insertKey]
  | cons k' m ih =>
    simp only [insertKey]
    split_ifs with h1 h2
    · simp
    · subst h2
      simp
    · simp only [List.mem_cons, ih]
      tauto

theorem mem_of_mem_insert {k : Nat} {v : β} {m : List (Nat × β)} {p : Nat × β}
    (h : p ∈ insert k v m) : p = (k, v) ∨ p ∈ m := by
  induction m with
  | nil => exact Or.inl (List.mem_singleton.mp h)
  | cons q m ih =>
    simp only [insert] at h
    split_ifs at h with h1 h2
    · rcases List.mem_cons.mp h with h | h
      · exact Or.inl h
      · exact Or.inr h
    · rcases List.mem_cons.mp h with h | h
      · exact Or.inl h
      · exact Or.inr (List.mem_cons_of_mem _ h)
    · rcases List.mem_cons.mp h with h | h
      · exact Or.inr (h ▸ List.mem_cons_self)
      · rcases ih h with h | h
        · exact Or.inl h
        · exact Or.inr (List.mem_cons_of_mem _ h)

theorem mem_keys_insert {k i : Nat} {v : β} {m : List (Nat × β)} :
    i ∈ (insert k v m).map Prod.fst ↔ i = k ∨ i ∈ m.map Prod.fst := by
  induction m with
  | nil => simp [insert]
  | cons p m ih =>
    simp only [insert]
    split_ifs with h1 h2
    · simp
    · subst h2
      simp
    · simp only [List.map_cons, List.mem_cons, ih]
      tauto

theorem lookup_cons_eq (k : Nat) (v : β) (m : List (Nat × β)) (i : Nat) :
    ((k, v) :: m).lookup i = if i = k then some v else m.lookup i := by
  by_cases h : i = k
  · rw [if_pos h, h, List.lookup_cons_self]
  · rw [if_neg h, List.lookup_cons, beq_false_of_ne h]

/-- A lookup after an insert finds the new value under its key, and what it found before under
    any other. -/
theorem lookup_insert (k : Nat) (v : β) (m : List (Nat × β)) (i : Nat) :
    (insert k v m).lookup i = if i = k then some v else m.lookup i := by
  induction m with
  | nil => exact lookup_cons_eq k v [] i
  | cons p m ih =>
    obtain ⟨k', v'⟩ := p
    simp only [insert]
    by_cases h1 : k < k'
    · rw [if_pos h1, lookup_cons_eq]
    · by_cases h2 : k = k'
      · rw [if_neg h1, if_pos h2, lookup_cons_eq, lookup_cons_eq, ← h2]
        split <;> rfl
      · rw [if_neg h1, if_neg h2, lookup_cons_eq, lookup_cons_eq, ih]
        by_cases h3 : i = k'
        · rw [if_pos h3, if_neg (by omega), if_pos h3]
        · rw [if_neg h3, if_neg h3]

theorem mem_of_lookup {k : Nat} {v : β} {m : List (Nat × β)} (h : m.lookup k = some v) :
    (k, v) ∈ m := by
  obtain ⟨l1, l2, hm, -⟩ := List.lookup_eq_some_iff.mp h
  rw [hm]
  exact List.mem_append_right _ List.mem_cons_self

/-! ## Keys in order -/

/-- An insert keeps the keys in order. -/
theorem sorted_insert {k : Nat} {v : β} {m : List (Nat × β)}
    (h : (m.map Prod.fst).Pairwise (· < ·)) : ((insert k v m).map Prod.fst).Pairwise (· < ·) := by
  induction m with
  | nil => exact List.pairwise_singleton _ _
  | cons p m ih =>
    obtain ⟨hhead, htail⟩ := List.pairwise_cons.mp h
    simp only [insert]
    split_ifs with h1 h2
    · refine List.pairwise_cons.mpr ⟨fun i hi => ?_, h⟩
      rcases List.mem_cons.mp hi with rfl | hi
      · exact h1
      · exact Nat.lt_trans h1 (hhead i hi)
    · subst h2
      exact h
    · refine List.pairwise_cons.mpr ⟨fun i hi => ?_, ih htail⟩
      rcases mem_keys_insert.mp hi with rfl | hi
      · exact Nat.lt_of_le_of_ne (Nat.not_lt.mp h1) (Ne.symm h2)
      · exact hhead i hi

/-- With its keys in order a map holds one value under a key, and a lookup finds it. -/
theorem lookup_of_mem {m : List (Nat × β)} (h : (m.map Prod.fst).Pairwise (· < ·))
    {p : Nat × β} (hp : p ∈ m) : m.lookup p.1 = some p.2 := by
  induction m with
  | nil => exact absurd hp List.not_mem_nil
  | cons q m ih =>
    obtain ⟨hhead, htail⟩ := List.pairwise_cons.mp h
    rw [lookup_cons_eq]
    rcases List.mem_cons.mp hp with rfl | hp
    · rw [if_pos rfl]
    · have hlt := hhead p.1 (List.mem_map_of_mem hp)
      rw [if_neg (Nat.ne_of_gt hlt), ih htail hp]

end Lib.SortedMap
