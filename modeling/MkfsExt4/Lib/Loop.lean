/-
  Loops as a step function: a turn leads to the next state or stops with a result.

  `Ends step s r` says that the loop from `s` stops with `r`, after finitely many turns. Proved:
  the result is one (`Ends.unique`), and a loop ends like the loop over a part of its state that
  takes the same turns (`ends_map_iff`). Nothing here is about a program.
-/
import Mathlib.Tactic.Common

namespace Lib.Loop

variable {S R : Type} {step : S → S ⊕ R}

/-- The loop from a state stops with a result. -/
inductive Ends (step : S → S ⊕ R) : S → R → Prop
  | stop {s : S} {r : R} (h : step s = .inr r) : Ends step s r
  | turn {s t : S} {r : R} (h : step s = .inl t) (rest : Ends step t r) : Ends step s r

/-- A loop stops with one result. -/
theorem Ends.unique {s : S} {r r' : R} (h : Ends step s r) (h' : Ends step s r') : r = r' := by
  induction h with
  | stop hs =>
    cases h' with
    | stop hs' => exact Sum.inr.inj (hs.symm.trans hs')
    | turn hs' _ => cases hs.symm.trans hs'
  | turn hs _ ih =>
    cases h' with
    | stop hs' => cases hs.symm.trans hs'
    | turn hs' rest =>
      obtain rfl := Sum.inl.inj (hs.symm.trans hs')
      exact ih rest

/-- A loop whose turns are those of another over a part `f` of its state ends when that one
    does, with a result that `g` shows as the other's. -/
theorem ends_map_iff {S' R' : Type} {step' : S' → S' ⊕ R'} {f : S → S'} {g : R → R'}
    (h : ∀ s, step' (f s) = (step s).map f g) {s : S} {r' : R'} :
    Ends step' (f s) r' ↔ ∃ r, Ends step s r ∧ g r = r' := by
  constructor
  · intro hends
    obtain ⟨s', hs'⟩ : ∃ s', s' = f s := ⟨_, rfl⟩
    rw [← hs'] at hends
    induction hends generalizing s with
    | stop hstop =>
      rw [hs', h] at hstop
      cases hstep : step s with
      | inl t =>
        rw [hstep] at hstop
        cases hstop
      | inr r =>
        rw [hstep] at hstop
        exact ⟨r, .stop hstep, Sum.inr.inj hstop⟩
    | turn hturn _ ih =>
      rw [hs', h] at hturn
      cases hstep : step s with
      | inl t =>
        rw [hstep] at hturn
        obtain ⟨r, hr, hg⟩ := ih (Sum.inl.inj hturn).symm
        exact ⟨r, .turn hstep hr, hg⟩
      | inr r =>
        rw [hstep] at hturn
        cases hturn
  · rintro ⟨r, hends, rfl⟩
    induction hends with
    | stop hstop => exact .stop (by rw [h, hstop]; rfl)
    | turn hturn _ ih => exact .turn (by rw [h, hturn]; rfl) ih

end Lib.Loop
