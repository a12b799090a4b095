/-
  Cutting placed things off at a position.

  A thing may have a position, and it takes up a cell. `Pruned pos cell cut old new freed` says
  what a cut leaves of `old`: of the things with a position exactly those before the cut, of the
  others some, and every cell of `old` either still taken up or freed. Proved: what is kept whole,
  dropped whole, and how parts are put together. Nothing here is about a program.
-/
import Mathlib.Data.List.Forall2
import Mathlib.Data.List.Nodup
import Mathlib.Data.List.Perm.Basic
import Mathlib.Data.List.Perm.Subperm
import Mathlib.Tactic.Common

namespace Lib.Pruning

variable {α β : Type} (pos : α → Option Nat) (cell : α → β)

/-- A thing with a position. -/
def placed (a : α) : Bool := (pos a).isSome

/-- A thing without one. -/
def unplaced (a : α) : Bool := (pos a).isNone

/-- A thing with a position before the cut. -/
def before (cut : Nat) (a : α) : Bool := (pos a).any fun n => decide (n < cut)

structure Pruned (cut : Nat) (old new : List α) (freed : List β) : Prop where
  kept : (new.filter (placed pos)).Perm (old.filter (before pos cut))
  others : (new.filter (unplaced pos)).Subperm (old.filter (unplaced pos))
  cells : (freed ++ new.map cell).Perm (old.map cell)

variable {pos cell} {cut : Nat} {old old' new new' : List α} {freed freed' : List β}

namespace Pruned

theorem nil : Pruned pos cell cut [] [] [] where
  kept := List.Perm.refl _
  others := List.Subperm.refl _
  cells := List.Perm.refl _

theorem append (h : Pruned pos cell cut old new freed)
    (h' : Pruned pos cell cut old' new' freed') :
    Pruned pos cell cut (old ++ old') (new ++ new') (freed ++ freed') where
  kept := by
    rw [List.filter_append, List.filter_append]
    exact h.kept.append h'.kept
  others := by
    rw [List.filter_append, List.filter_append]
    exact h.others.append h'.others
  cells := by
    rw [List.map_append, List.map_append]
    refine List.Perm.trans ?_ (h.cells.append h'.cells)
    rw [List.append_assoc, List.append_assoc]
    refine List.Perm.append_left freed ?_
    rw [← List.append_assoc, ← List.append_assoc]
    exact List.Perm.append_right _ List.perm_append_comm

/-- The order does not matter. -/
theorem perm (h : Pruned pos cell cut old new freed) (hold : old.Perm old')
    (hnew : new.Perm new') (hfreed : freed.Perm freed') :
    Pruned pos cell cut old' new' freed' where
  kept := ((hnew.filter _).symm.trans h.kept).trans (hold.filter _)
  others := ((hnew.filter _).subperm_right.mp
    ((hold.filter _).subperm_left.mp h.others))
  cells := ((hfreed.append (hnew.map cell)).symm.trans h.cells).trans (hold.map cell)

/-- What lies before the cut stays. -/
theorem keep (h : ∀ a ∈ old, ∀ n ∈ pos a, n < cut) : Pruned pos cell cut old old [] where
  kept := by
    refine List.Perm.of_eq (List.filter_congr fun a ha => ?_)
    unfold placed before
    cases hpos : pos a with
    | none => rfl
    | some n => exact (decide_eq_true (h a ha n hpos)).symm
  others := List.Subperm.refl _
  cells := List.Perm.refl _

/-- What lies past the cut goes. -/
theorem drop (h : ∀ a ∈ old, ∀ n ∈ pos a, cut ≤ n) (hfreed : freed.Perm (old.map cell)) :
    Pruned pos cell cut old [] freed where
  kept := by
    rw [List.filter_nil, List.filter_eq_nil_iff.mpr fun a ha => ?_]
    unfold before
    cases hpos : pos a with
    | none => exact Bool.false_ne_true
    | some n =>
      rw [Option.any_some, decide_eq_true_iff]
      exact Nat.not_lt.mpr (h a ha n hpos)
  others := List.nil_subperm
  cells := by rwa [List.map_nil, List.append_nil]

/-- Things before the cut in front of others. -/
theorem append_keep {front : List α} (hfront : ∀ a ∈ front, ∀ n ∈ pos a, n < cut)
    (h : Pruned pos cell cut old new freed) :
    Pruned pos cell cut (front ++ old) (front ++ new) freed :=
  (keep hfront).append h

/-- Things past the cut in front of others. -/
theorem append_drop {front : List α} {gone : List β} (hfront : ∀ a ∈ front, ∀ n ∈ pos a, cut ≤ n)
    (hgone : gone.Perm (front.map cell)) (h : Pruned pos cell cut old new freed) :
    Pruned pos cell cut (front ++ old) new (gone ++ freed) :=
  (drop hfront hgone).append h

/-- A thing without a position that stays. -/
theorem cons_keep {a : α} (ha : pos a = none) (h : Pruned pos cell cut old new freed) :
    Pruned pos cell cut (a :: old) (a :: new) freed where
  kept := by
    have hplaced : ¬ placed pos a = true := by rw [placed, ha]; exact Bool.false_ne_true
    have hbefore : ¬ before pos cut a = true := by rw [before, ha]; exact Bool.false_ne_true
    rw [List.filter_cons_of_neg hplaced, List.filter_cons_of_neg hbefore]
    exact h.kept
  others := by
    have hunplaced : unplaced pos a = true := by rw [unplaced, ha]; rfl
    rw [List.filter_cons_of_pos hunplaced, List.filter_cons_of_pos hunplaced]
    exact (List.subperm_cons _).mpr h.others
  cells := by
    rw [List.map_cons, List.map_cons]
    exact List.perm_middle.trans (h.cells.cons _)

/-- A thing without a position that goes. -/
theorem cons_drop {a : α} (ha : pos a = none) (h : Pruned pos cell cut old new freed) :
    Pruned pos cell cut (a :: old) new (freed ++ [cell a]) where
  kept := by
    have hbefore : ¬ before pos cut a = true := by rw [before, ha]; exact Bool.false_ne_true
    rw [List.filter_cons_of_neg hbefore]
    exact h.kept
  others := h.others.trans ((List.sublist_cons_self a old).filter _).subperm
  cells := by
    rw [List.map_cons, List.append_assoc]
    exact List.perm_middle.trans (h.cells.cons _)

/-- What things are otherwise does not matter. -/
theorem map {γ : Type} {f : α → γ} {pos' : γ → Option Nat} {cell' : γ → β}
    (hpos : pos' ∘ f = pos) (hcell : cell' ∘ f = cell) (h : Pruned pos cell cut old new freed) :
    Pruned pos' cell' cut (old.map f) (new.map f) freed := by
  subst hpos hcell
  refine ⟨?_, ?_, ?_⟩
  · rw [List.filter_map, List.filter_map]
    exact h.kept.map f
  · rw [List.filter_map, List.filter_map]
    obtain ⟨some, hperm, hsub⟩ := h.others
    exact ⟨some.map f, hperm.map f, hsub.map f⟩
  · rw [List.map_map, List.map_map]
    exact h.cells

/-- Where no cell is taken up twice, none is freed and still taken up. -/
theorem disjoint (h : Pruned pos cell cut old new freed) (hnodup : (old.map cell).Nodup) :
    ∀ b ∈ freed, b ∉ new.map cell := by
  have hboth := h.cells.nodup_iff.mpr hnodup
  intro b hb hin
  exact (List.nodup_append.mp hboth).2.2 b hb b hin rfl

/-- Cells still taken up were. -/
theorem cells_subset (h : Pruned pos cell cut old new freed) : new.map cell ⊆ old.map cell :=
  fun _ hb => h.cells.subset (List.mem_append_right _ hb)

end Pruned

/-! ## Parts -/

section Parts

variable {ι γ : Type} {R : ι → List α → Prop} {is : List ι} {parts : List (List α)}

/-- Parts chosen one by one. -/
theorem exists_forall₂ (h : ∀ i ∈ is, ∃ part, R i part) : ∃ parts, List.Forall₂ R is parts := by
  induction is with
  | nil => exact ⟨[], .nil⟩
  | cons i is ih =>
    obtain ⟨part, hpart⟩ := h i List.mem_cons_self
    obtain ⟨parts, hparts⟩ := ih fun j hj => h j (List.mem_cons_of_mem i hj)
    exact ⟨part :: parts, .cons hpart hparts⟩

theorem forall₂_imp_of_subset {S : ι → List α → Prop} (h : List.Forall₂ R is parts)
    (hS : ∀ {i : ι} {part : List α}, i ∈ is → part ⊆ parts.flatten → R i part → S i part) :
    List.Forall₂ S is parts := by
  induction h with
  | nil => exact .nil
  | cons hhead _ ih =>
    refine .cons (hS List.mem_cons_self (List.subset_append_left _ _) hhead) (ih fun hi hsub => ?_)
    exact hS (List.mem_cons_of_mem _ hi) (List.Subset.trans hsub (List.subset_append_right _ _))

theorem exists_part (h : List.Forall₂ R is parts) {i : ι} (hi : i ∈ is) : ∃ part, R i part := by
  induction h with
  | nil => exact absurd hi List.not_mem_nil
  | cons hhead _ ih =>
    rcases List.mem_cons.mp hi with rfl | hi
    · exact ⟨_, hhead⟩
    · exact ih hi

/-- What is in a part is in the part of some index. -/
theorem exists_mem_of_flatten (h : List.Forall₂ R is parts) {a : α} (ha : a ∈ parts.flatten) :
    ∃ i ∈ is, ∃ part ∈ parts, R i part ∧ a ∈ part := by
  induction h with
  | nil => exact absurd ha List.not_mem_nil
  | @cons i part is parts hhead _ ih =>
    rcases List.mem_append.mp ha with ha | ha
    · exact ⟨i, List.mem_cons_self, part, List.mem_cons_self, hhead, ha⟩
    · obtain ⟨j, hj, part', hpart', hR, ha⟩ := ih ha
      exact ⟨j, List.mem_cons_of_mem i hj, part', List.mem_cons_of_mem part hpart', hR, ha⟩

/-- Parts under all indices, empty under some, are the parts under the others. -/
theorem exists_parts_iff (hole : ι → Prop) [DecidablePred hole] {all : List α} :
    (∃ parts, List.Forall₂ (fun i part => if hole i then part = [] else R i part) is parts ∧
      parts.flatten = all) ↔
    ∃ parts, List.Forall₂ R (is.filter fun i => ¬ hole i) parts ∧ parts.flatten = all := by
  induction is generalizing all with
  | nil => simp only [List.filter_nil, List.forall₂_nil_left_iff]
  | cons i is ih =>
    by_cases hi : hole i
    · rw [List.filter_cons_of_neg (by simpa using hi), ← ih]
      constructor
      · intro ⟨parts, hparts, hflat⟩
        cases hparts with
        | cons hhead htail =>
          rw [if_pos hi] at hhead
          subst hhead
          exact ⟨_, htail, hflat⟩
      · intro ⟨parts, hparts, hflat⟩
        exact ⟨[] :: parts, .cons (by rw [if_pos hi]) hparts, hflat⟩
    · rw [List.filter_cons_of_pos (by simpa using hi)]
      constructor
      · intro ⟨parts, hparts, hflat⟩
        cases hparts with
        | cons hhead htail =>
          rw [if_neg hi] at hhead
          obtain ⟨parts', hparts', hflat'⟩ := ih.mp ⟨_, htail, rfl⟩
          exact ⟨_ :: parts', .cons hhead hparts', (congrArg _ hflat').trans hflat⟩
      · intro ⟨parts, hparts, hflat⟩
        cases hparts with
        | cons hhead htail =>
          obtain ⟨parts', hparts', hflat'⟩ := ih.mpr ⟨_, htail, rfl⟩
          exact ⟨_ :: parts', .cons (by rwa [if_neg hi]) hparts', (congrArg _ hflat').trans hflat⟩

/-- Two lists of parts, those under one index the same up to order. -/
theorem perm_flatten {S : ι → List γ → Prop} {outs : List (List γ)} {f : α → γ}
    (houts : List.Forall₂ S is outs) (hparts : List.Forall₂ R is parts)
    (h : ∀ {i : ι} {out : List γ} {part : List α}, S i out → R i part → out.Perm (part.map f)) :
    outs.flatten.Perm (parts.flatten.map f) := by
  induction houts generalizing parts with
  | nil =>
    cases hparts
    exact List.Perm.refl _
  | cons hhead _ ih =>
    cases hparts with
    | cons hhead' htail' =>
      rw [List.flatten_cons, List.flatten_cons, List.map_append]
      exact (h hhead hhead').append (ih htail')

theorem perm_flatten_map {f : α → γ} {w : ι → List γ}
    (h : List.Forall₂ (fun i part => (w i).Perm (part.map f)) is parts) :
    (is.flatMap w).Perm (parts.flatten.map f) := by
  induction h with
  | nil => exact List.Perm.refl _
  | cons hhead _ ih =>
    rw [List.flatMap_cons, List.flatten_cons, List.map_append]
    exact hhead.append ih

end Parts

end Lib.Pruning
