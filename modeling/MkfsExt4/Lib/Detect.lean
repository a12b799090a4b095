/-
  What a reflected cyclic redundancy check tells apart, bit by bit.

  `remainder p s bits` takes `bits` in one after another. When the polynomial's lowest term is
  one a round loses nothing (`round_inj`), and no more bits than the remainder has leave as many
  remainders as there are such bits (`remainder_inj`). When the polynomial has an odd number of
  terms below its highest a round keeps the parity of what it is made on (`parity_round`). So
  two texts of one length that differ only within as many bits in a row as the remainder has,
  or in an odd number of bits, have different remainders (`remainder_ne`).
-/
import Mathlib.Data.List.GetD
import MkfsExt4.Lib.Crc
import MkfsExt4.Lib.Endian

namespace Lib.Crc

open Lib.Endian

variable {w : Nat} {p : BitVec w}

/-! ## Bits in turn -/

/-- A bit as the lowest of a remainder. -/
def lowBit (b : Bool) : BitVec w := if b then 1#w else 0#w

def bitStep (p s : BitVec w) (b : Bool) : BitVec w := round p (s ^^^ lowBit b)

def remainder (p s : BitVec w) (bits : List Bool) : BitVec w := bits.foldl (bitStep p) s

/-- Bits as one word, the first the lowest. Those past its width fall off. -/
def ofBits : List Bool → BitVec w
  | [] => 0#w
  | b :: bits => lowBit b ^^^ (ofBits bits <<< 1)

theorem remainder_append (p s : BitVec w) (xs ys : List Bool) :
    remainder p s (xs ++ ys) = remainder p (remainder p s xs) ys := List.foldl_append

theorem getLsbD_lowBit (b : Bool) (i : Nat) :
    (lowBit b : BitVec w).getLsbD i = (decide (i < w) && (decide (i = 0) && b)) := by
  cases b
  · simp [lowBit]
  · rw [lowBit, if_pos rfl, BitVec.getLsbD_one, Bool.and_true]
    by_cases hi : i = 0 <;> simp [hi]

theorem getLsbD_ofBits (bits : List Bool) (i : Nat) :
    (ofBits bits : BitVec w).getLsbD i = (decide (i < w) && bits.getD i false) := by
  induction bits generalizing i with
  | nil => simp [ofBits]
  | cons b bits ih =>
    rw [ofBits, BitVec.getLsbD_xor, getLsbD_lowBit, BitVec.getLsbD_shiftLeft, ih]
    cases i with
    | zero => simp
    | succ i =>
      have hlt : i < w ∨ ¬i + 1 < w := by omega
      rcases hlt with hlt | hlt <;> simp [hlt]

theorem ofBits_inj {xs ys : List Bool} (hlen : xs.length = ys.length) (hw : xs.length ≤ w)
    (h : (ofBits xs : BitVec w) = ofBits ys) : xs = ys := by
  refine List.ext_getElem hlen fun i hx hy => ?_
  have hbit := congrArg (fun x => x.getLsbD i) h
  simp only [getLsbD_ofBits] at hbit
  rwa [decide_eq_true (show i < w by omega), Bool.true_and, Bool.true_and,
    List.getD_eq_getElem _ _ hx, List.getD_eq_getElem _ _ hy] at hbit

/-- A word with its highest bit clear comes back from one place up. -/
theorem round_shiftLeft (p : BitVec w) {x : BitVec w} (h : x.getLsbD (w - 1) = false) :
    round p (x <<< 1) = x := by
  have hlow : (x <<< 1).getLsbD 0 = false := by simp
  rw [round, hlow, if_neg Bool.false_ne_true]
  refine BitVec.eq_of_getLsbD_eq fun i hi => ?_
  rw [BitVec.getLsbD_ushiftRight, BitVec.getLsbD_shiftLeft]
  by_cases hlast : i + 1 < w
  · simp [Nat.add_comm 1 i, hlast]
  · obtain rfl : i = w - 1 := by omega
    rw [h]
    simp [show ¬1 + (w - 1) < w by omega]

/-- No more bits than a remainder has are taken in all at once. -/
theorem remainder_eq (p s : BitVec w) {bits : List Bool} (hw : bits.length ≤ w) :
    remainder p s bits = rounds p bits.length (s ^^^ ofBits bits) := by
  induction bits generalizing s with
  | nil => exact BitVec.xor_zero.symm
  | cons b bits ih =>
    have hlt : bits.length < w := hw
    have htop : (ofBits bits : BitVec w).getLsbD (w - 1) = false := by
      rw [getLsbD_ofBits, List.getD_eq_default _ _ (by omega), Bool.and_false]
    calc remainder p s (b :: bits)
        = rounds p bits.length (bitStep p s b ^^^ ofBits bits) := ih _ (Nat.le_of_lt hlt)
      _ = rounds p bits.length (round p ((s ^^^ lowBit b) ^^^ (ofBits bits <<< 1))) := by
        rw [round_xor, round_shiftLeft p htop, bitStep]
      _ = rounds p (b :: bits).length (s ^^^ ofBits (b :: bits)) := by
        rw [ofBits, ← BitVec.xor_assoc]
        rfl

/-! ## What a round keeps -/

theorem round_eq_zero (hp : p.getLsbD (w - 1) = true) {x : BitVec w} (h : round p x = 0#w) :
    x = 0#w := by
  have hpos : 0 < w := Nat.pos_of_ne_zero fun h0 => by
    subst h0
    simp at hp
  cases hlow : x.getLsbD 0 with
  | true =>
    rw [round, hlow, if_pos rfl] at h
    have htop := congrArg (fun y => y.getLsbD (w - 1)) h
    simp only [BitVec.getLsbD_xor, BitVec.getLsbD_ushiftRight, hp, BitVec.getLsbD_zero] at htop
    rw [BitVec.getLsbD_of_ge x _ (by omega)] at htop
    cases htop
  | false =>
    rw [round, hlow, if_neg Bool.false_ne_true] at h
    refine BitVec.eq_of_getLsbD_eq fun i hi => ?_
    rw [BitVec.getLsbD_zero]
    cases i with
    | zero => exact hlow
    | succ i =>
      have hbit := congrArg (fun y => y.getLsbD i) h
      rwa [BitVec.getLsbD_ushiftRight, BitVec.getLsbD_zero, Nat.add_comm] at hbit

theorem xor_eq_zero {x y : BitVec w} (h : x ^^^ y = 0#w) : x = y := by
  rw [← BitVec.xor_zero (x := x), ← BitVec.xor_self (x := y), ← BitVec.xor_assoc, h,
    BitVec.zero_xor]

/-- A round loses nothing. -/
theorem round_inj (hp : p.getLsbD (w - 1) = true) {x y : BitVec w} (h : round p x = round p y) :
    x = y := by
  refine xor_eq_zero (round_eq_zero hp ?_)
  rw [round_xor, h, BitVec.xor_self]

theorem rounds_inj (hp : p.getLsbD (w - 1) = true) {n : Nat} {x y : BitVec w}
    (h : rounds p n x = rounds p n y) : x = y := by
  induction n generalizing x y with
  | zero => exact h
  | succ n ih => exact round_inj hp (ih h)

theorem xor_left_cancel {x y z : BitVec w} (h : x ^^^ y = x ^^^ z) : y = z := by
  rw [← BitVec.zero_xor (x := y), ← BitVec.xor_self (x := x), BitVec.xor_assoc, h,
    ← BitVec.xor_assoc, BitVec.xor_self, BitVec.zero_xor]

theorem remainder_state_inj (hp : p.getLsbD (w - 1) = true) {s t : BitVec w} {bits : List Bool}
    (h : remainder p s bits = remainder p t bits) : s = t := by
  induction bits generalizing s t with
  | nil => exact h
  | cons b bits ih =>
    have hround := round_inj hp (ih h)
    rw [BitVec.xor_comm s, BitVec.xor_comm t] at hround
    exact xor_left_cancel hround

/-- Bits of one length, no more of them than a remainder has, leave different remainders. -/
theorem remainder_inj (hp : p.getLsbD (w - 1) = true) {s : BitVec w} {xs ys : List Bool}
    (hlen : xs.length = ys.length) (hw : xs.length ≤ w)
    (h : remainder p s xs = remainder p s ys) : xs = ys := by
  rw [remainder_eq p s hw, remainder_eq p s (hlen ▸ hw), ← hlen] at h
  exact ofBits_inj hlen hw (xor_left_cancel (rounds_inj hp h))

/-! ## Parity -/

/-- Whether an odd number of the lowest `n` bits are set. -/
def parityTo (x : BitVec w) : Nat → Bool
  | 0 => false
  | n + 1 => parityTo x n ^^ x.getLsbD n

def parity (x : BitVec w) : Bool := parityTo x w

/-- Whether an odd number of bits are set. -/
def parityOf (bits : List Bool) : Bool := bits.foldr xor false

theorem parityTo_xor (x y : BitVec w) (n : Nat) :
    parityTo (x ^^^ y) n = (parityTo x n ^^ parityTo y n) := by
  induction n with
  | zero => rfl
  | succ n ih =>
    rw [parityTo, parityTo, parityTo, ih, BitVec.getLsbD_xor, Bool.xor_assoc, Bool.xor_assoc,
      Bool.xor_left_comm (parityTo y n)]

theorem parity_xor (x y : BitVec w) : parity (x ^^^ y) = (parity x ^^ parity y) :=
  parityTo_xor x y w

theorem parityTo_shiftRight (x : BitVec w) (n : Nat) :
    (parityTo (x >>> 1) n ^^ x.getLsbD 0) = parityTo x (n + 1) := by
  induction n with
  | zero => rfl
  | succ n ih =>
    rw [parityTo, parityTo, ← ih, BitVec.getLsbD_ushiftRight, Nat.add_comm 1 n, Bool.xor_assoc,
      Bool.xor_assoc, Bool.xor_comm (x.getLsbD 0)]

theorem parity_shiftRight (x : BitVec w) : parity (x >>> 1) = (parity x ^^ x.getLsbD 0) := by
  have hshift := parityTo_shiftRight x w
  rw [parityTo, BitVec.getLsbD_of_ge x w (Nat.le_refl w), Bool.xor_false] at hshift
  rw [parity, parity, ← hshift, Bool.xor_assoc, Bool.xor_self, Bool.xor_false]

/-- With an odd number of terms in the polynomial a round keeps the parity. -/
theorem parity_round (hp : parity p = true) (x : BitVec w) : parity (round p x) = parity x := by
  rw [round]
  cases hlow : x.getLsbD 0
  · rw [if_neg Bool.false_ne_true, parity_shiftRight, hlow, Bool.xor_false]
  · rw [if_pos rfl, parity_xor, parity_shiftRight, hlow, hp, Bool.xor_assoc, Bool.xor_self,
      Bool.xor_false]

theorem parityTo_lowBit (b : Bool) {n : Nat} (hn : 0 < n) (hw : n ≤ w) :
    parityTo (lowBit b : BitVec w) n = b := by
  induction n with
  | zero => omega
  | succ n ih =>
    rw [parityTo, getLsbD_lowBit]
    cases n with
    | zero => simp [parityTo, show 0 < w by omega]
    | succ n => simp [ih (Nat.succ_pos n) (by omega)]

theorem parity_remainder (hp : parity p = true) (hw : 0 < w) (s : BitVec w) (bits : List Bool) :
    parity (remainder p s bits) = (parity s ^^ parityOf bits) := by
  induction bits generalizing s with
  | nil => exact (Bool.xor_false _).symm
  | cons b bits ih =>
    have hbit : parity (lowBit b : BitVec w) = b := parityTo_lowBit b hw (Nat.le_refl w)
    calc parity (remainder p s (b :: bits))
        = (parity (bitStep p s b) ^^ parityOf bits) := ih _
      _ = ((parity s ^^ b) ^^ parityOf bits) := by
        rw [bitStep, parity_round hp, parity_xor, hbit]
      _ = (parity s ^^ parityOf (b :: bits)) := Bool.xor_assoc _ _ _

/-! ## Damage -/

/-- In how many places two texts differ. -/
def flips (xs ys : List Bool) : Nat := (List.zipWith xor xs ys).count true

/-- The second text is the first with an odd number of bits flipped, or with some changed
within `n` bits in a row. -/
def Damaged (n : Nat) (xs ys : List Bool) : Prop :=
  xs.length = ys.length ∧ (flips xs ys % 2 = 1 ∨ xs ≠ ys ∧
    ∃ front middle middle' back, xs = front ++ middle ++ back ∧ ys = front ++ middle' ++ back ∧
      middle.length = middle'.length ∧ middle.length ≤ n)

theorem parityOf_flips {xs ys : List Bool} (h : xs.length = ys.length) :
    (parityOf xs ^^ parityOf ys) = decide (flips xs ys % 2 = 1) := by
  induction xs generalizing ys with
  | nil =>
    obtain rfl := List.length_eq_zero_iff.mp h.symm
    rfl
  | cons x xs ih =>
    obtain ⟨y, ys, rfl⟩ := List.exists_cons_of_length_eq_add_one h.symm
    have hrest := ih (Nat.succ.inj h)
    have hcount : flips (x :: xs) (y :: ys) = flips xs ys + (xor x y).toNat := by
      rw [flips, List.zipWith_cons_cons, List.count_cons]
      cases x <;> cases y <;> rfl
    have hsplit : (parityOf (x :: xs) ^^ parityOf (y :: ys)) =
        ((parityOf xs ^^ parityOf ys) ^^ (xor x y)) := by
      rw [Bool.xor_comm (_ ^^ _), Bool.xor_assoc x y, ← Bool.xor_left_comm (parityOf xs) y]
      exact Bool.xor_assoc x (parityOf xs) _
    rw [hsplit, hrest, hcount]
    cases xor x y
    · simp
    · rcases Nat.mod_two_eq_zero_or_one (flips xs ys) with hmod | hmod <;>
        simp [Nat.add_mod, hmod]

/-- **Damage is told.** -/
theorem remainder_ne (htop : p.getLsbD (w - 1) = true) (hodd : parity p = true) {n : Nat}
    (hn : n ≤ w) {xs ys : List Bool} (h : Damaged n xs ys) (s : BitVec w) :
    remainder p s xs ≠ remainder p s ys := by
  intro heq
  have hpos : 0 < w := Nat.pos_of_ne_zero fun h0 => by
    subst h0
    simp at htop
  obtain ⟨hlen, hflips | ⟨hne, front, middle, middle', back, rfl, rfl, hmiddle, hle⟩⟩ := h
  · have hparity := congrArg parity heq
    rw [parity_remainder hodd hpos, parity_remainder hodd hpos] at hparity
    have hsame : (parityOf xs ^^ parityOf ys) = false := by
      rw [Bool.xor_right_inj.mp hparity, Bool.xor_self]
    rw [parityOf_flips hlen, hflips] at hsame
    cases hsame
  · rw [remainder_append, remainder_append, remainder_append, remainder_append] at heq
    have hmid := remainder_inj htop hmiddle (Nat.le_trans hle hn) (remainder_state_inj htop heq)
    exact hne (by rw [hmid])

/-! ## Bytes -/

/-- The bits of a byte, the lowest first. -/
def byteBits (b : UInt8) : List Bool := (List.range 8).map fun i => b.toBitVec.getLsbD i

def bitsOf (bytes : List UInt8) : List Bool := bytes.flatMap byteBits

theorem ofBits_byteBits (b : UInt8) :
    ofBits (byteBits b) = b.toBitVec.setWidth w := by
  refine BitVec.eq_of_getLsbD_eq fun i hi => ?_
  rw [getLsbD_ofBits, BitVec.getLsbD_setWidth, byteBits]
  by_cases h8 : i < 8
  · simp [hi, h8]
  · rw [List.getD_eq_default _ _ (by simpa using h8), BitVec.getLsbD_of_ge _ _ (by omega)]

/-- A byte taken in at once, eight rounds after it. -/
theorem remainder_byteBits (hw : 8 ≤ w) (p s : BitVec w) (b : UInt8) :
    remainder p s (byteBits b) = rounds p 8 (s ^^^ b.toBitVec.setWidth w) := by
  rw [remainder_eq p s (by simpa [byteBits] using hw), ofBits_byteBits]
  rfl

theorem getD_byteBits (b : UInt8) (i : Nat) : (byteBits b).getD i false = b.toNat.testBit i := by
  by_cases h8 : i < 8
  · rw [byteBits, List.getD_eq_getElem _ _ (by simpa using h8)]
    simp [BitVec.getLsbD]
  · rw [List.getD_eq_default _ _ (by simpa [byteBits] using h8)]
    exact (Nat.testBit_lt_two_pow (Nat.lt_of_lt_of_le b.toNat_lt
      (Nat.pow_le_pow_right Nat.two_pos (Nat.not_lt.mp h8)))).symm

/-- The bits of bytes are those of the number they spell, the first byte the lowest. -/
theorem getD_bitsOf (bytes : List UInt8) (i : Nat) :
    (bitsOf bytes).getD i false = (ofLe bytes).testBit i := by
  induction bytes generalizing i with
  | nil => exact (Nat.zero_testBit i).symm
  | cons b bytes ih =>
    have hlen : (byteBits b).length = 8 := by simp [byteBits]
    have hspell : ofLe (b :: bytes) = 2 ^ 8 * ofLe bytes + b.toNat := Nat.add_comm _ _
    rw [hspell, Nat.testBit_two_pow_mul_add _ b.toNat_lt]
    split
    · next h8 =>
      rw [← getD_byteBits]
      exact List.getD_append _ _ _ _ (by rwa [hlen])
    · next h8 =>
      rw [← ih, ← hlen]
      exact List.getD_append_right _ _ _ _ (by rw [hlen]; exact Nat.not_lt.mp h8)

theorem ofBits_bitsOf (bytes : List UInt8) : ofBits (bitsOf bytes) = BitVec.ofNat w (ofLe bytes) := by
  refine BitVec.eq_of_getLsbD_eq fun i hi => ?_
  rw [getLsbD_ofBits, getD_bitsOf, BitVec.getLsbD_ofNat]

theorem bitsOf_append (xs ys : List UInt8) : bitsOf (xs ++ ys) = bitsOf xs ++ bitsOf ys :=
  List.flatMap_append

theorem length_bitsOf (bytes : List UInt8) : (bitsOf bytes).length = 8 * bytes.length := by
  induction bytes with
  | nil => rfl
  | cons b bytes ih =>
    have hcons : bitsOf (b :: bytes) = byteBits b ++ bitsOf bytes := rfl
    rw [hcons, List.length_append, ih, List.length_cons, byteBits, List.length_map,
      List.length_range, Nat.mul_succ, Nat.add_comm]

theorem bitsOf_inj {xs ys : List UInt8} (hlen : xs.length = ys.length)
    (h : bitsOf xs = bitsOf ys) : xs = ys := by
  have hspell : ofLe xs = ofLe ys := Nat.eq_of_testBit_eq fun i => by
    rw [← getD_bitsOf, ← getD_bitsOf, h]
  rw [← toLe_ofLe xs, ← toLe_ofLe ys, hlen, hspell]

/-- Some bytes in a row that were changed. -/
theorem damaged_of_bytes {n : Nat} {front middle middle' back : List UInt8}
    (hlen : middle.length = middle'.length) (hne : middle ≠ middle') (hn : 8 * middle.length ≤ n) :
    Damaged n (bitsOf (front ++ middle ++ back)) (bitsOf (front ++ middle' ++ back)) := by
  refine ⟨by simp only [length_bitsOf, List.length_append, hlen], Or.inr ⟨fun heq => hne ?_,
    bitsOf front, bitsOf middle, bitsOf middle', bitsOf back, ?_, ?_, ?_, ?_⟩⟩
  · have hwhole := bitsOf_inj (by simp only [List.length_append, hlen]) heq
    exact List.append_cancel_left (List.append_cancel_right hwhole)
  · rw [bitsOf_append, bitsOf_append]
  · rw [bitsOf_append, bitsOf_append]
  · rw [length_bitsOf, length_bitsOf, hlen]
  · rw [length_bitsOf]
    exact hn

/-- A remainder that takes in its own bits is zero, and no other is. -/
theorem remainder_self_iff (hp : p.getLsbD (w - 1) = true) (s : BitVec w) {bytes : List UInt8}
    (hw : 8 * bytes.length = w) :
    remainder p s (bitsOf bytes) = 0#w ↔ s = BitVec.ofNat w (ofLe bytes) := by
  have hzero : ∀ n, rounds p n 0#w = 0#w := by
    intro n
    induction n with
    | zero => rfl
    | succ n ih =>
      rw [rounds, round, BitVec.getLsbD_zero, if_neg Bool.false_ne_true, BitVec.zero_ushiftRight]
      exact ih
  rw [remainder_eq p s (by rw [length_bitsOf, hw]), ofBits_bitsOf]
  constructor
  · intro h
    exact xor_eq_zero (rounds_inj hp (h.trans (hzero _).symm))
  · rintro rfl
    rw [BitVec.xor_self, hzero]

/-- A fold that takes the bytes in one after another is the remainder of their bits. -/
theorem foldl_bytes {σ : Type} {step : σ → UInt8 → σ} {f : σ → BitVec w}
    (h : ∀ s b, f (step s b) = remainder p (f s) (byteBits b)) (s : σ) (bytes : List UInt8) :
    f (bytes.foldl step s) = remainder p (f s) (bitsOf bytes) := by
  induction bytes generalizing s with
  | nil => rfl
  | cons b bytes ih =>
    rw [List.foldl_cons, ih, h, ← remainder_append]
    rfl

/-- A word with its `n` highest bits clear comes back from `n` places up. -/
theorem rounds_shiftLeft (p : BitVec w) {y : BitVec w} {n : Nat}
    (h : ∀ i, w ≤ i + n → y.getLsbD i = false) : rounds p n (y <<< n) = y := by
  induction n with
  | zero => exact BitVec.shiftLeft_zero y
  | succ n ih =>
    have htop : (y <<< n).getLsbD (w - 1) = false := by
      rw [BitVec.getLsbD_shiftLeft]
      by_cases hn : w - 1 < n
      · simp [hn]
      · rw [h (w - 1 - n) (by omega), Bool.and_false]
    rw [rounds, BitVec.shiftLeft_add, round_shiftLeft p htop]
    exact ih fun i hi => h i (by omega)

/-- Rounds on a word: those on its low byte, and the rest moved down. -/
theorem rounds_byte (p x : BitVec w) :
    rounds p 8 x = (x >>> 8) ^^^ rounds p 8 (x &&& BitVec.ofNat w 255) := by
  have hsplit : x = (x >>> 8) <<< 8 ^^^ (x &&& BitVec.ofNat w 255) := by
    refine BitVec.eq_of_getLsbD_eq fun i hi => ?_
    have hbit : (255 : Nat).testBit i = decide (i < 8) := Nat.testBit_two_pow_sub_one 8 i
    rw [BitVec.getLsbD_xor, BitVec.getLsbD_shiftLeft, BitVec.getLsbD_ushiftRight,
      BitVec.getLsbD_and, BitVec.getLsbD_ofNat, hbit]
    by_cases h8 : i < 8
    · simp [h8, hi]
    · simp [h8, hi, show 8 + (i - 8) = i by omega]
  have hhigh : rounds p 8 ((x >>> 8) <<< 8) = x >>> 8 := rounds_shiftLeft p fun i hi => by
    rw [BitVec.getLsbD_ushiftRight]
    exact BitVec.getLsbD_of_ge x _ (by omega)
  conv_lhs => rw [hsplit]
  rw [rounds_xor, hhigh]

end Lib.Crc
