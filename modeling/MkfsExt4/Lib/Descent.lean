/-
  Descents: a partial function applied again and again.

  `Steps next` is its graph and `after next n` the value `n` steps on, if there is one. Proved: a
  descent that comes to a cycle never stops (`isSome_after_of_cycle`), and one whose values are
  drawn from `bound` many comes to a cycle once it is longer than that (`cycle_of_after`). So
  fuel past the bound tells the two apart (`isSome_after_iff_cycle`).
-/
import Mathlib.Combinatorics.Pigeonhole
import Mathlib.Logic.Relation
import Mathlib.Tactic.Common

namespace Lib.Descent

open Relation

variable {α : Type} (next : α → Option α)

/-- One step leads from `a` to `b`. -/
def Steps (a b : α) : Prop := next a = some b

/-- Where a descent is after some steps. -/
def after : Nat → α → Option α
  | 0, a => some a
  | n + 1, a => (next a).bind (after n)

/-- The descent from `a` comes back to where it has been. -/
def Cycles (a : α) : Prop := ∃ b, ReflTransGen (Steps next) a b ∧ TransGen (Steps next) b b

variable {next}

theorem after_succ_of_some {n : Nat} {a b : α} (h : next a = some b) :
    after next (n + 1) a = after next n b := by
  rw [after, h, Option.bind_some]

theorem after_add (m n : Nat) (a : α) :
    after next (m + n) a = (after next m a).bind (after next n) := by
  induction m generalizing a with
  | zero => rw [Nat.zero_add, after, Option.bind_some]
  | succ m ih =>
    rw [Nat.succ_add, after, after]
    cases next a with
    | none => rfl
    | some b => exact ih b

theorem reaches_of_after {n : Nat} {a b : α} (h : after next n a = some b) :
    ReflTransGen (Steps next) a b := by
  induction n generalizing a with
  | zero =>
    cases h
    exact .refl
  | succ n ih =>
    rw [after] at h
    obtain ⟨c, hc, hrest⟩ := Option.bind_eq_some_iff.mp h
    exact .head hc (ih hrest)

theorem reaches_of_after_succ {n : Nat} {a b : α} (h : after next (n + 1) a = some b) :
    TransGen (Steps next) a b := by
  rw [after] at h
  obtain ⟨c, hc, hrest⟩ := Option.bind_eq_some_iff.mp h
  exact .head' hc (reaches_of_after hrest)

theorem exists_after_of_reaches {a b : α} (h : ReflTransGen (Steps next) a b) :
    ∃ n, after next n a = some b := by
  induction h using ReflTransGen.head_induction_on with
  | refl => exact ⟨0, rfl⟩
  | head hstep _ ih =>
    obtain ⟨n, hn⟩ := ih
    exact ⟨n + 1, by rw [after_succ_of_some hstep, hn]⟩

/-- A descent that has got this far had got less far before. -/
theorem isSome_after_of_le {m n : Nat} {a : α} (hle : m ≤ n) (h : (after next n a).isSome) :
    (after next m a).isSome := by
  obtain ⟨k, rfl⟩ := Nat.exists_eq_add_of_le hle
  rw [after_add] at h
  cases hm : after next m a with
  | none =>
    rw [hm] at h
    cases h
  | some b => rfl

/-- Round a cycle as often as it takes. -/
theorem isSome_after_of_cycle {a : α} (h : Cycles next a) (n : Nat) :
    (after next n a).isSome := by
  obtain ⟨b, hreach, hround⟩ := h
  obtain ⟨m, hm⟩ := exists_after_of_reaches hreach
  obtain ⟨c, hbc, hcb⟩ := TransGen.head'_iff.mp hround
  obtain ⟨k, hk⟩ := exists_after_of_reaches hcb
  have hturn : after next (k + 1) b = some b := by rw [after_succ_of_some hbc, hk]
  have hturns : ∀ j, after next (j * (k + 1)) b = some b := by
    intro j
    induction j with
    | zero => rw [Nat.zero_mul, after]
    | succ j ih => rw [Nat.succ_mul, after_add, ih, Option.bind_some, hturn]
  have hlong : after next (m + n * (k + 1)) a = some b := by
    rw [after_add, hm, Option.bind_some, hturns]
  refine isSome_after_of_le ?_ (by rw [hlong]; rfl)
  exact Nat.le_add_left_of_le (Nat.le_mul_of_pos_right n k.succ_pos)

/-- With only `bound` values to step to, a longer descent has been somewhere twice. -/
theorem cycle_of_after {bound : Nat} {value : Nat → α}
    (hvalue : ∀ x y, next x = some y → ∃ k < bound, y = value k) {a : α}
    (h : (after next (bound + 1) a).isSome) : Cycles next a := by
  have hkey : ∀ i ∈ Finset.range (bound + 1), ∃ k ∈ Finset.range bound,
      after next (i + 1) a = some (value k) := by
    intro i hi
    have hsome : (after next (i + 1) a).isSome :=
      isSome_after_of_le (Nat.succ_le_of_lt (Finset.mem_range.mp hi)) h
    obtain ⟨b, hb⟩ := Option.isSome_iff_exists.mp hsome
    rw [after_add] at hb
    obtain ⟨x, -, hx⟩ := Option.bind_eq_some_iff.mp hb
    rw [after] at hx
    obtain ⟨y, hxy, hy⟩ := Option.bind_eq_some_iff.mp hx
    cases hy
    obtain ⟨k, hk, rfl⟩ := hvalue x _ hxy
    refine ⟨k, Finset.mem_range.mpr hk, ?_⟩
    rw [after_add]
    exact hb
  choose! key hkeys hafter using hkey
  obtain ⟨i, hi, j, hj, hne, heq⟩ := Finset.exists_ne_map_eq_of_card_lt_of_maps_to
    (by simp) hkeys
  -- Two places of the descent are the same: what lies between them is the cycle.
  wlog hlt : i < j generalizing i j
  · exact this j hj i hi hne.symm heq.symm (by omega)
  refine ⟨value (key i), reaches_of_after (hafter i hi), ?_⟩
  obtain ⟨d, rfl⟩ := Nat.exists_eq_add_of_lt hlt
  have hround := hafter (i + d + 1) hj
  rw [show i + d + 1 + 1 = (i + 1) + (d + 1) by omega, after_add, hafter i hi, Option.bind_some,
    ← heq] at hround
  exact reaches_of_after_succ hround

theorem isSome_after_iff_cycle {bound n : Nat} {value : Nat → α}
    (hvalue : ∀ x y, next x = some y → ∃ k < bound, y = value k) (hn : bound < n) {a : α} :
    (after next n a).isSome ↔ Cycles next a :=
  ⟨fun h => cycle_of_after hvalue (isSome_after_of_le hn h), fun h => isSome_after_of_cycle h n⟩

end Lib.Descent
