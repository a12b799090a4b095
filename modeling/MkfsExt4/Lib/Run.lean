/-
  Runs of a partial step function.

  `run step s acts` takes the actions of `acts` one after another from `s`, and is
  `none` as soon as one is not enabled. Proved: how runs compose (`run_append`,
  `run_split`), and the invariant rule (`run_invariant`: what every step keeps, every run
  keeps).
-/
import Mathlib.Tactic.Common

namespace Lib.Run

variable {S A : Type}

/-- Take the actions in order; `none` when one of them is not enabled. -/
def run (step : S → A → Option S) : S → List A → Option S
  | s, [] => some s
  | s, a :: as => (step s a).bind fun t => run step t as

variable {step : S → A → Option S}

@[simp] theorem run_nil (s : S) : run step s [] = some s := rfl

theorem run_cons (s : S) (a : A) (as : List A) :
    run step s (a :: as) = (step s a).bind fun t => run step t as := rfl

theorem run_append (s : S) (as bs : List A) :
    run step s (as ++ bs) = (run step s as).bind fun t => run step t bs := by
  induction as generalizing s with
  | nil => rfl
  | cons a as ih =>
    rw [List.cons_append, run_cons, run_cons]
    cases h : step s a with
    | none => rfl
    | some t => simpa using ih t

/-- A run through `as ++ bs` passes a state where `as` ends. -/
theorem run_split {s u : S} {as bs : List A} (h : run step s (as ++ bs) = some u) :
    ∃ t, run step s as = some t ∧ run step t bs = some u := by
  rw [run_append] at h
  cases ht : run step s as with
  | none => simp [ht] at h
  | some t => exact ⟨t, rfl, by simpa [ht] using h⟩

theorem run_cons_split {s u : S} {a : A} {as : List A} (h : run step s (a :: as) = some u) :
    ∃ t, step s a = some t ∧ run step t as = some u := by
  rw [run_cons] at h
  cases ht : step s a with
  | none => simp [ht] at h
  | some t => exact ⟨t, rfl, by simpa [ht] using h⟩

theorem run_snoc {s t u : S} {as : List A} {a : A} (h : run step s as = some t)
    (ha : step t a = some u) : run step s (as ++ [a]) = some u := by
  rw [run_append, h, Option.bind_some, run_cons, ha]
  rfl

/-- What every step keeps, every run keeps. -/
theorem run_invariant {P : S → Prop} (hstep : ∀ s a t, P s → step s a = some t → P t)
    {s t : S} {as : List A} (hs : P s) (h : run step s as = some t) : P t := by
  induction as generalizing s with
  | nil => cases h; exact hs
  | cons a as ih =>
    obtain ⟨u, hu, ht⟩ := run_cons_split h
    exact ih (hstep s a u hs hu) ht

end Lib.Run
