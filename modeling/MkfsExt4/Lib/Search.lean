/-
  Breadth-first search with fuel.

  `search next add fuel queue reached` takes vertices off the queue, and queues and records the
  successors not yet recorded. `add` is how the set of recorded vertices is kept; only its
  members matter. Proved: what the search records is reached from the queue
  (`search_sound`), and with fuel for every vertex of a finite universe that could still be
  queued the record is closed under successors (`search_closed`). `mem_search_iff` is both, for a
  search from one vertex.
-/
import Mathlib.Data.Finset.Card
import Mathlib.Logic.Relation
import Mathlib.Tactic.Common

namespace Lib.Search

open Relation

variable {α : Type} [DecidableEq α]

/-- Queue and record a vertex that is not yet recorded. -/
def visit (add : α → List α → List α) (acc : List α × List α) (c : α) : List α × List α :=
  if c ∉ acc.2 then (acc.1 ++ [c], add c acc.2) else acc

def search (next : α → List α) (add : α → List α → List α) : Nat → List α → List α → List α
  | 0, _, reached => reached
  | _ + 1, [], reached => reached
  | fuel + 1, a :: queue, reached =>
    let acc := (next a).foldl (visit add) (queue, reached)
    search next add fuel acc.1 acc.2

variable {next : α → List α} {add : α → List α → List α}
  (hadd : ∀ a m x, x ∈ add a m ↔ x = a ∨ x ∈ m)

include hadd

/-- What visiting the successors of a vertex does: some of them, all new and distinct, are
    queued and recorded, and afterwards all are recorded. -/
theorem visits_spec (cs : List α) (acc : List α × List α) :
    ∃ new : List α, (cs.foldl (visit add) acc).1 = acc.1 ++ new ∧ new.Nodup ∧ new ⊆ cs ∧
      (∀ x ∈ new, x ∉ acc.2) ∧
      (∀ x, x ∈ (cs.foldl (visit add) acc).2 ↔ x ∈ acc.2 ∨ x ∈ new) ∧
      ∀ c ∈ cs, c ∈ (cs.foldl (visit add) acc).2 := by
  induction cs generalizing acc with
  | nil => exact ⟨[], by simp, by simp, by simp, by simp, by simp, by simp⟩
  | cons c cs ih =>
    obtain ⟨new, h1, h2, h3, h4, h5, h6⟩ := ih (visit add acc c)
    rw [List.foldl_cons]
    by_cases hc : c ∈ acc.2
    · have hv : visit add acc c = acc := by rw [visit, if_neg (not_not.mpr hc)]
      rw [hv] at h1 h4 h5 h6 ⊢
      refine ⟨new, h1, h2, fun x hx => List.mem_cons_of_mem _ (h3 hx), h4, h5, fun d hd => ?_⟩
      rcases List.mem_cons.mp hd with rfl | hd
      · exact (h5 _).mpr (Or.inl hc)
      · exact h6 d hd
    · have hv : visit add acc c = (acc.1 ++ [c], add c acc.2) := by rw [visit, if_pos hc]
      rw [hv] at h1 h4 h5 h6 ⊢
      have hcnew : c ∉ new := fun hx => h4 c hx ((hadd _ _ _).mpr (Or.inl rfl))
      refine ⟨c :: new, by rw [h1, List.append_assoc]; rfl, List.nodup_cons.mpr ⟨hcnew, h2⟩, ?_,
        ?_, ?_, ?_⟩
      · exact List.cons_subset_cons _ h3
      · intro x hx
        rcases List.mem_cons.mp hx with rfl | hx
        · exact hc
        · exact fun hmem => h4 x hx ((hadd _ _ _).mpr (Or.inr hmem))
      · intro x
        rw [h5, hadd, List.mem_cons]
        tauto
      · intro d hd
        rcases List.mem_cons.mp hd with rfl | hd
        · exact (h5 _).mpr (Or.inl ((hadd _ _ _).mpr (Or.inl rfl)))
        · exact h6 d hd

/-- What the search records was recorded before or is reached from the queue. -/
theorem search_sound {fuel : Nat} {queue reached : List α} {x : α}
    (h : x ∈ search next add fuel queue reached) :
    x ∈ reached ∨ ∃ q ∈ queue, ReflTransGen (fun a b => b ∈ next a) q x := by
  induction fuel generalizing queue reached with
  | zero => exact Or.inl h
  | succ fuel ih =>
    cases queue with
    | nil => exact Or.inl h
    | cons a queue =>
      obtain ⟨new, h1, -, h3, -, h5, -⟩ := visits_spec hadd (next a) (queue, reached)
      simp only [search] at h
      have hnew : ∀ q ∈ new, ReflTransGen (fun a b => b ∈ next a) a q := fun q hq =>
        .single (h3 hq)
      rcases ih h with hx | ⟨q, hq, hpath⟩
      · rcases (h5 x).mp hx with hx | hx
        · exact Or.inl hx
        · exact Or.inr ⟨a, List.mem_cons_self, hnew x hx⟩
      · rw [h1] at hq
        rcases List.mem_append.mp hq with hq | hq
        · exact Or.inr ⟨q, List.mem_cons_of_mem _ hq, hpath⟩
        · exact Or.inr ⟨a, List.mem_cons_self, (hnew q hq).trans hpath⟩

theorem search_mono {fuel : Nat} {queue reached : List α} {x : α} (h : x ∈ reached) :
    x ∈ search next add fuel queue reached := by
  induction fuel generalizing queue reached with
  | zero => exact h
  | succ fuel ih =>
    cases queue with
    | nil => exact h
    | cons a queue =>
      obtain ⟨new, -, -, -, -, h5, -⟩ := visits_spec hadd (next a) (queue, reached)
      exact ih ((h5 x).mpr (Or.inl h))

/-- With fuel for the queue and for every vertex still to be recorded, the record ends closed:
    what is recorded but no longer queued has its successors recorded. -/
theorem search_closed (U : Finset α) (hU : ∀ a, ∀ b ∈ next a, b ∈ U) {fuel : Nat}
    {queue reached : List α} (hfuel : queue.length + (U \ reached.toFinset).card ≤ fuel)
    (hsub : queue ⊆ reached) (hdone : ∀ a ∈ reached, a ∈ queue ∨ ∀ b ∈ next a, b ∈ reached) :
    ∀ a ∈ search next add fuel queue reached, ∀ b ∈ next a,
      b ∈ search next add fuel queue reached := by
  induction fuel generalizing queue reached with
  | zero =>
    obtain rfl : queue = [] := List.length_eq_zero_iff.mp (by omega)
    exact fun a ha => (hdone a ha).resolve_left List.not_mem_nil
  | succ fuel ih =>
    cases queue with
    | nil => exact fun a ha => (hdone a ha).resolve_left List.not_mem_nil
    | cons a queue =>
      obtain ⟨new, h1, h2, h3, h4, h5, h6⟩ := visits_spec hadd (next a) (queue, reached)
      simp only [search]
      refine ih ?_ ?_ ?_
      · -- Each vertex queued leaves the vertices still to be recorded.
        have hsdiff : U \ ((next a).foldl (visit add) (queue, reached)).2.toFinset =
            (U \ reached.toFinset) \ new.toFinset := by
          ext x
          simp only [Finset.mem_sdiff, List.mem_toFinset, h5]
          tauto
        have hnew : new.toFinset ⊆ U \ reached.toFinset := by
          intro x hx
          rw [List.mem_toFinset] at hx
          simp only [Finset.mem_sdiff, List.mem_toFinset]
          exact ⟨hU a x (h3 hx), h4 x hx⟩
        have hcard := Finset.card_sdiff_add_card_eq_card hnew
        rw [List.toFinset_card_of_nodup h2] at hcard
        have hlen : (queue ++ new).length = queue.length + new.length := List.length_append
        rw [h1, hsdiff, hlen]
        rw [List.length_cons] at hfuel
        omega
      · intro x hx
        rw [h1] at hx
        rcases List.mem_append.mp hx with hx | hx
        · exact (h5 x).mpr (Or.inl (hsub (List.mem_cons_of_mem _ hx)))
        · exact (h5 x).mpr (Or.inr hx)
      · intro x hx
        rw [h1]
        rcases (h5 x).mp hx with hx | hx
        · rcases hdone x hx with hq | hclosed
          · rcases List.mem_cons.mp hq with rfl | hq
            · exact Or.inr h6
            · exact Or.inl (List.mem_append_left _ hq)
          · exact Or.inr fun b hb => (h5 b).mpr (Or.inl (hclosed b hb))
        · exact Or.inl (List.mem_append_right _ hx)

/-- A search from one vertex, with fuel for it and every other vertex of the universe, records
    exactly what is reached from it. -/
theorem mem_search_iff (U : Finset α) (hU : ∀ a, ∀ b ∈ next a, b ∈ U) {fuel : Nat} {root x : α}
    (hfuel : 1 + U.card ≤ fuel) :
    x ∈ search next add fuel [root] [root] ↔ ReflTransGen (fun a b => b ∈ next a) root x := by
  constructor
  · intro h
    rcases search_sound hadd h with hx | ⟨q, hq, hpath⟩
    · rw [List.mem_singleton.mp hx]
    · rwa [List.mem_singleton.mp hq] at hpath
  · intro h
    have hcard := Finset.card_le_card (Finset.sdiff_subset (s := U) (t := [root].toFinset))
    have hclosed : ∀ a ∈ search next add fuel [root] [root], ∀ b ∈ next a,
        b ∈ search next add fuel [root] [root] :=
      search_closed hadd U hU (by rw [List.length_singleton]; omega) (List.Subset.refl _)
        fun a ha => Or.inl ha
    induction h with
    | refl => exact search_mono hadd (List.mem_singleton_self _)
    | tail _ hbc ih => exact hclosed _ ih _ hbc

end Lib.Search
