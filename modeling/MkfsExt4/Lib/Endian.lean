/-
  Fixed-width little- and big-endian numerals over bytes.

  `ofLe` and `ofBe` read a byte list as a number, `toLe w v` and `toBe w v` write the
  low `w` bytes of `v`. Proved: the width (`length_toLe`), the two round trips
  (`ofLe_toLe`, `toLe_ofLe` and the big-endian pair) and the bound (`ofLe_lt`).
-/
import Mathlib.Algebra.Order.Ring.Nat
import Mathlib.Data.List.Basic
import Mathlib.Tactic.Common

namespace Lib.Endian

/-- The number a byte list spells, least significant byte first. -/
def ofLe : List UInt8 → Nat
  | [] => 0
  | b :: bs => b.toNat + 256 * ofLe bs

/-- The low `w` bytes of `v`, least significant first. -/
def toLe : Nat → Nat → List UInt8
  | 0, _ => []
  | w + 1, v => UInt8.ofNat v :: toLe w (v / 256)

/-- The number a byte list spells, most significant byte first. -/
def ofBe (bs : List UInt8) : Nat := ofLe bs.reverse

/-- The low `w` bytes of `v`, most significant first. -/
def toBe (w v : Nat) : List UInt8 := (toLe w v).reverse

@[simp] theorem length_toLe (w v : Nat) : (toLe w v).length = w := by
  induction w generalizing v with
  | zero => rfl
  | succ w ih => simp [toLe, ih]

@[simp] theorem length_toBe (w v : Nat) : (toBe w v).length = w := by
  simp [toBe]

theorem getD_toLe_zero (w i : Nat) : (toLe w 0).getD i 0 = 0 := by
  induction w generalizing i with
  | zero => rfl
  | succ w ih =>
    cases i with
    | zero => rfl
    | succ i => exact ih i

theorem ofLe_toLe (w v : Nat) : ofLe (toLe w v) = v % 256 ^ w := by
  induction w generalizing v with
  | zero => simp [toLe, ofLe, Nat.mod_one]
  | succ w ih =>
    have hsplit : v % 256 ^ (w + 1) = v % 256 + 256 * (v / 256 % 256 ^ w) := by
      rw [Nat.pow_succ', Nat.mod_mul]
    rw [toLe, ofLe, ih, UInt8.toNat_ofNat', hsplit]

theorem ofLe_toLe_of_lt {w v : Nat} (h : v < 256 ^ w) : ofLe (toLe w v) = v := by
  rw [ofLe_toLe, Nat.mod_eq_of_lt h]

theorem ofLe_lt (bs : List UInt8) : ofLe bs < 256 ^ bs.length := by
  induction bs with
  | nil => simp [ofLe]
  | cons b bs ih =>
    have hb := b.toNat_lt
    simp only [ofLe, List.length_cons, Nat.pow_succ']
    omega

theorem toLe_ofLe (bs : List UInt8) : toLe bs.length (ofLe bs) = bs := by
  induction bs with
  | nil => rfl
  | cons b bs ih =>
    have hb := b.toNat_lt
    have hdiv : (b.toNat + 256 * ofLe bs) / 256 = ofLe bs := by omega
    have hbyte : UInt8.ofNat (b.toNat + 256 * ofLe bs) = b := by
      apply UInt8.toNat_inj.mp
      rw [UInt8.toNat_ofNat']
      omega
    simp only [List.length_cons, toLe, ofLe, hdiv, ih, hbyte]

/-- Only the low `w` bytes of a number are written. -/
theorem toLe_mod (w v : Nat) : toLe w (v % 256 ^ w) = toLe w v := by
  have := toLe_ofLe (toLe w v)
  rwa [length_toLe, ofLe_toLe] at this

theorem ofBe_toBe (w v : Nat) : ofBe (toBe w v) = v % 256 ^ w := by
  simp [ofBe, toBe, ofLe_toLe]

theorem ofBe_toBe_of_lt {w v : Nat} (h : v < 256 ^ w) : ofBe (toBe w v) = v := by
  rw [ofBe_toBe, Nat.mod_eq_of_lt h]

theorem ofBe_lt (bs : List UInt8) : ofBe bs < 256 ^ bs.length := by
  have := ofLe_lt bs.reverse
  rwa [List.length_reverse] at this

end Lib.Endian
