/-
  Reflected cyclic redundancy checks over bit vectors.

  `rounds p n` is `n` rounds of the reflected shift-and-xor with polynomial `p`. Proved: they
  are additive in exclusive or (`rounds_xor`), and so is a fold of any step that is
  (`foldl_add`): bytes at the end add to the remainder what they make of a zero remainder.
-/
import Mathlib.Tactic.Common

namespace Lib.Crc

variable {w : Nat}

/-- One round: shift down, and exclusive or with the polynomial when a one falls out. -/
def round (p x : BitVec w) : BitVec w := if x.getLsbD 0 then (x >>> 1) ^^^ p else x >>> 1

def rounds (p : BitVec w) : Nat → BitVec w → BitVec w
  | 0, x => x
  | n + 1, x => rounds p n (round p x)

theorem xor_xor_cancel (x y p : BitVec w) : x ^^^ p ^^^ (y ^^^ p) = x ^^^ y := by
  rw [BitVec.xor_assoc, BitVec.xor_comm y p, ← BitVec.xor_assoc p p y, BitVec.xor_self,
    BitVec.zero_xor]

theorem round_xor (p x y : BitVec w) : round p (x ^^^ y) = round p x ^^^ round p y := by
  unfold round
  rw [BitVec.getLsbD_xor, BitVec.ushiftRight_xor_distrib]
  cases x.getLsbD 0 <;> cases y.getLsbD 0
  · rfl
  · exact BitVec.xor_assoc _ _ _
  · rw [Bool.xor_false, if_pos rfl, if_pos rfl, if_neg Bool.false_ne_true, BitVec.xor_assoc,
      BitVec.xor_assoc, BitVec.xor_comm p]
  · exact (xor_xor_cancel _ _ _).symm

theorem rounds_xor (p : BitVec w) (n : Nat) (x y : BitVec w) :
    rounds p n (x ^^^ y) = rounds p n x ^^^ rounds p n y := by
  induction n generalizing x y with
  | zero => rfl
  | succ n ih => rw [rounds, rounds, rounds, round_xor, ih]

/-- A fold with an additive step, over a sum of remainders: one of them takes the zeroes, the
    other the bytes. -/
theorem foldl_add {σ β : Type} {add : σ → σ → σ} {step : σ → β → σ} {zero : β}
    (h : ∀ s t b, step (add s t) b = add (step s zero) (step t b)) (s t : σ) (bs : List β) :
    bs.foldl step (add s t) =
      add ((List.replicate bs.length zero).foldl step s) (bs.foldl step t) := by
  induction bs generalizing s t with
  | nil => rfl
  | cons b bs ih =>
    rw [List.foldl_cons, h, ih, List.length_cons, List.replicate_succ, List.foldl_cons,
      List.foldl_cons]

end Lib.Crc
