/-
  What a pass of the check adds to the report, of one code.

  `AddsOf code f found f'` says that between the findings `f` and `f'` problems were added, of
  which those with the code are `found`. What reports only under other codes finds nothing of it,
  and what two steps find is found in their order. A message that names a number names one
  (`numbered_inj`).
-/
import MkfsExt4.Fsck.Passes

namespace MkfsExt4.Fsck

open Lib.Hoare

variable {code : Code} {f g f' : Findings}

/-- Problems were added, of which those with the code are `found`. -/
def AddsOf (code : Code) (f : Findings) (found : List Problem) (f' : Findings) : Prop :=
  ∃ ps, f'.report.problems = f.report.problems ++ ps ∧
    ps.filter (fun p => decide (p.code = code)) = found

namespace AddsOf

theorem refl (f : Findings) : AddsOf code f [] f := ⟨[], by simp, rfl⟩

theorem trans {xs ys : List Problem} (h : AddsOf code f xs g) (h' : AddsOf code g ys f') :
    AddsOf code f (xs ++ ys) f' := by
  obtain ⟨ps, hps, rfl⟩ := h
  obtain ⟨qs, hqs, rfl⟩ := h'
  exact ⟨ps ++ qs, by rw [hqs, hps, List.append_assoc], List.filter_append ..⟩

/-- A step that finds nothing goes unseen. -/
theorem skip {xs : List Problem} (h : AddsOf code f [] g) (h' : AddsOf code g xs f') :
    AddsOf code f xs f' := h.trans h'

/-- Only the reports count. -/
theorem of_report {xs : List Problem} (h : AddsOf code f xs f') {f₁ f₁' : Findings}
    (hf : f₁.report = f.report) (hf' : f₁'.report = f'.report) : AddsOf code f₁ xs f₁' := by
  unfold AddsOf
  rw [hf, hf']
  exact h

theorem push {c : Code} (hc : c ≠ code) (f : Findings) (pass : Nat) (severity : Severity)
    (message : String) : AddsOf code f [] (f.push pass c severity message) :=
  ⟨[_], rfl, by simp [hc]⟩

theorem pushIf {c : Code} (hc : c ≠ code) (bad : Prop) [Decidable bad] (f : Findings)
    (pass : Nat) (severity : Severity) (message : String) :
    AddsOf code f [] (f.pushIf bad pass c severity message) := by
  unfold Findings.pushIf FsckReport.pushIf
  split
  · exact .push hc f pass severity message
  · exact .refl f

theorem foldl {α : Type} {step : Findings → α → Findings}
    (hstep : ∀ f x, AddsOf code f [] (step f x)) (xs : List α) (f : Findings) :
    AddsOf code f [] (xs.foldl step f) := by
  induction xs generalizing f with
  | nil => exact .refl f
  | cons x xs ih => exact (hstep f x).trans (ih _)

/-- What the steps of a loop find, in their order. -/
theorem foldlM {α : Type} {step : Findings → α → Except Failure Findings}
    {found : α → List Problem}
    (hstep : ∀ f x f', step f x = .ok f' → AddsOf code f (found x) f') {xs : List α}
    (h : xs.foldlM step f = .ok f') : AddsOf code f (xs.flatMap found) f' := by
  refine foldlM_ok (fun done g => AddsOf code f (done.flatMap found) g) ?_ (.refl f) h
  intro done x g g' hdone hturn
  rw [List.flatMap_append, List.flatMap_singleton]
  exact hdone.trans (hstep g x g' hturn)

/-- Of the added problems, those with the code are the ones found. -/
theorem mem_drop {found : List Problem} (h : AddsOf code f found f') {p : Problem}
    (hp : p.code = code) :
    p ∈ f'.report.problems.drop f.report.problems.length ↔ p ∈ found := by
  obtain ⟨ps, hps, rfl⟩ := h
  rw [hps, List.drop_left, List.mem_filter, decide_eq_true hp, and_iff_left rfl]

end AddsOf

theorem toString_inj {m n : Nat} (h : toString m = toString n) : m = n := by
  have hdigits : Nat.toDigits 10 m = Nat.toDigits 10 n := by
    have := congrArg String.toList h
    simpa [toString, Nat.repr] using this
  have := congrArg (Nat.ofDigitChars 10 · 0) hdigits
  simpa using this

/-- After the same words, a number that a blank ends is read off the message. -/
theorem numbered_inj {words rest rest' : String} {m n : Nat}
    (h : words ++ (toString m ++ (" " ++ rest)) = words ++ (toString n ++ (" " ++ rest'))) :
    m = n := by
  have hdigits : ∀ (n : Nat) (rest : String),
      ((words ++ (toString n ++ (" " ++ rest))).toList.drop words.toList.length).takeWhile
        Char.isDigit = (toString n).toList := by
    intro n rest
    have hnumber : (toString n).toList = Nat.toDigits 10 n := by simp [toString, Nat.repr]
    rw [String.toList_append, List.drop_left, String.toList_append, hnumber,
      List.takeWhile_append_of_pos fun c hc =>
        Nat.isDigit_of_mem_toDigits (by decide) (by decide) hc,
      String.toList_append]
    simp
  have hread := congrArg
    (fun s : String => (s.toList.drop words.toList.length).takeWhile Char.isDigit) h
  simp only [hdigits] at hread
  exact toString_inj (String.toList_inj.mp hread)

end MkfsExt4.Fsck
