/-
  Text as bytes: UTF-8, and the decoding that never fails.

  A text is its list of characters. `utf8` gives its bytes, `fromUtf8Lossy` reads bytes back with
  a replacement character wherever they spell none. Proved: decoding undoes encoding
  (`fromUtf8Lossy_utf8`), so encoding is injective (`utf8_injective`), and a text whose bytes were
  cut by a dozen or more does not come back (`fromUtf8Lossy_take_ne`).
-/
import Mathlib.Data.List.Basic
import Mathlib.Tactic.Common

namespace Lib.Utf8

/-- The bytes of a text. -/
def utf8 (s : List Char) : List UInt8 := s.flatMap String.utf8EncodeChar

/-- Whether two bytes can begin a character of three or four. -/
def beginsLong (b0 b1 : UInt8) : Bool :=
  (b0 == 0xE0 && 0xA0 ≤ b1 && b1 ≤ 0xBF) || (0xE1 ≤ b0 && b0 ≤ 0xEC && 0x80 ≤ b1 && b1 ≤ 0xBF) ||
    (b0 == 0xED && 0x80 ≤ b1 && b1 ≤ 0x9F) || (0xEE ≤ b0 && b0 ≤ 0xEF && 0x80 ≤ b1 && b1 ≤ 0xBF) ||
    (b0 == 0xF0 && 0x90 ≤ b1 && b1 ≤ 0xBF) || (0xF1 ≤ b0 && b0 ≤ 0xF3 && 0x80 ≤ b1 && b1 ≤ 0xBF) ||
    (b0 == 0xF4 && 0x80 ≤ b1 && b1 ≤ 0x8F)

/-- How many of the bytes at the front, which spell no character, one replacement stands for:
    as many as some character begins with, and at least one. -/
def brokenLen : List UInt8 → Nat
  | b0 :: b1 :: b2 :: _ =>
    if !beginsLong b0 b1 then 1 else if 0xF0 ≤ b0 && 0x80 ≤ b2 && b2 ≤ 0xBF then 3 else 2
  | [b0, b1] => if !beginsLong b0 b1 then 1 else 2
  | _ => 1

/-- The characters of some bytes. Each takes at least one byte, so their number is fuel enough. -/
def lossyFrom : (fuel : Nat) → List UInt8 → List Char
  | 0, _ => []
  | _ + 1, [] => []
  | fuel + 1, b :: bs =>
    match (b :: bs).toByteArray.utf8DecodeChar? 0 with
    | some c => c :: lossyFrom fuel ((b :: bs).drop c.utf8Size)
    | none => '\uFFFD' :: lossyFrom fuel ((b :: bs).drop (brokenLen (b :: bs)))

def fromUtf8Lossy (bytes : List UInt8) : List Char := lossyFrom bytes.length bytes

@[simp] theorem utf8_nil : utf8 [] = [] := rfl

theorem utf8_cons (c : Char) (s : List Char) : utf8 (c :: s) = String.utf8EncodeChar c ++ utf8 s :=
  rfl

theorem utf8_append (s t : List Char) : utf8 (s ++ t) = utf8 s ++ utf8 t := List.flatMap_append

theorem length_utf8_le (s : List Char) : (utf8 s).length ≤ 4 * s.length := by
  induction s with
  | nil => exact Nat.le_refl 0
  | cons c s ih =>
    have hc := c.utf8Size_le_four
    rw [utf8_cons, List.length_append, String.length_utf8EncodeChar, List.length_cons]
    omega

theorem length_utf8_replicate (n : Nat) (c : Char) :
    (utf8 (List.replicate n c)).length = n * c.utf8Size := by
  induction n with
  | zero => rw [Nat.zero_mul]; rfl
  | succ n ih =>
    rw [List.replicate_succ, utf8_cons, List.length_append, String.length_utf8EncodeChar, ih]
    rw [Nat.succ_mul, Nat.add_comm]

theorem utf8_eq_nil_iff {s : List Char} : utf8 s = [] ↔ s = [] := by
  cases s with
  | nil => exact ⟨fun _ => rfl, fun _ => rfl⟩
  | cons c s => simp [utf8_cons]

theorem brokenLen_pos (bytes : List UInt8) : 0 < brokenLen bytes := by
  unfold brokenLen
  repeat' split
  all_goals decide

/-- One character at the front. -/
theorem lossyFrom_encode (fuel : Nat) (c : Char) (bytes : List UInt8) :
    lossyFrom (fuel + 1) (String.utf8EncodeChar c ++ bytes) = c :: lossyFrom fuel bytes := by
  have hdecode : (String.utf8EncodeChar c ++ bytes).toByteArray.utf8DecodeChar? 0 = some c := by
    rw [List.toByteArray_append]
    exact ByteArray.utf8DecodeChar?_utf8EncodeChar_append
  have hdrop : (String.utf8EncodeChar c ++ bytes).drop c.utf8Size = bytes :=
    List.drop_left' (String.length_utf8EncodeChar c)
  generalize hall : String.utf8EncodeChar c ++ bytes = all at hdecode hdrop
  cases all with
  | nil => exact absurd (List.append_eq_nil_iff.mp hall).1 String.utf8EncodeChar_ne_nil
  | cons b bs => simp only [lossyFrom, hdecode, hdrop]

theorem length_lossyFrom_le (fuel : Nat) (bytes : List UInt8) :
    (lossyFrom fuel bytes).length ≤ bytes.length := by
  induction fuel generalizing bytes with
  | zero => exact Nat.zero_le _
  | succ fuel ih =>
    cases bytes with
    | nil => exact Nat.le_refl 0
    | cons b bs =>
      simp only [lossyFrom]
      split
      · next c _ =>
        have hc := c.utf8Size_pos
        have := ih ((b :: bs).drop c.utf8Size)
        simp only [List.length_cons, List.length_drop] at this ⊢
        omega
      · have hb := brokenLen_pos (b :: bs)
        have := ih ((b :: bs).drop (brokenLen (b :: bs)))
        simp only [List.length_cons, List.length_drop] at this ⊢
        omega

/-- Without a replacement character nothing was lost. -/
theorem utf8_lossyFrom {fuel : Nat} {bytes : List UInt8} (hfuel : bytes.length ≤ fuel)
    (h : '\uFFFD' ∉ lossyFrom fuel bytes) : utf8 (lossyFrom fuel bytes) = bytes := by
  induction fuel generalizing bytes with
  | zero =>
    rw [List.length_eq_zero_iff.mp (Nat.le_zero.mp hfuel)]
    rfl
  | succ fuel ih =>
    cases bytes with
    | nil => rfl
    | cons b bs =>
      simp only [lossyFrom] at h ⊢
      split at h
      · next c hdecode =>
        have hc := c.utf8Size_pos
        obtain ⟨rest, hrest⟩ := ByteArray.exists_of_utf8DecodeChar?_eq_some hdecode
        have hbytes : b :: bs = String.utf8EncodeChar c ++ rest.data.toList := by
          have hdata := congrArg (fun a : ByteArray => a.data.toList) hrest
          simpa using hdata
        have hdrop : (b :: bs).drop c.utf8Size = rest.data.toList := by
          rw [hbytes]
          exact List.drop_left' (String.length_utf8EncodeChar c)
        have hlen : rest.data.toList.length ≤ fuel := by
          rw [← hdrop, List.length_drop]
          omega
        rw [hdrop] at h ⊢
        rw [utf8_cons, ih hlen fun hm => h (List.mem_cons_of_mem c hm), ← hbytes]
      · exact absurd List.mem_cons_self h

theorem utf8_fromUtf8Lossy {bytes : List UInt8} (h : '\uFFFD' ∉ fromUtf8Lossy bytes) :
    utf8 (fromUtf8Lossy bytes) = bytes := utf8_lossyFrom (Nat.le_refl _) h

/-- Decoding the first `n` bytes of a text gives back the characters that lie in them, and then
    no more than three. -/
theorem lossyFrom_take {fuel n : Nat} {s : List Char} (hfuel : n ≤ fuel)
    (hn : n ≤ (utf8 s).length) : ∃ front back rest, s = front ++ back ∧ (utf8 front).length ≤ n ∧
      lossyFrom fuel ((utf8 s).take n) = front ++ rest ∧ rest.length ≤ 3 ∧
      (n = (utf8 s).length → back = [] ∧ rest = []) := by
  induction s generalizing fuel n with
  | nil =>
    refine ⟨[], [], [], rfl, Nat.zero_le n, ?_, Nat.zero_le 3, fun _ => ⟨rfl, rfl⟩⟩
    rw [utf8_nil, List.take_nil]
    cases fuel <;> rfl
  | cons c s ih =>
    have hsize := String.length_utf8EncodeChar c
    rw [utf8_cons, List.length_append, hsize] at hn
    by_cases hc : c.utf8Size ≤ n
    · have hpos := c.utf8Size_pos
      obtain ⟨fuel, rfl⟩ : ∃ k, fuel = k + 1 := ⟨fuel - 1, by omega⟩
      obtain ⟨front, back, rest, hs, hfront, hlossy, hrest, hall⟩ :=
        @ih fuel (n - c.utf8Size) (by omega) (by omega)
      refine ⟨c :: front, back, rest, by rw [hs]; rfl, ?_, ?_, hrest, fun h => hall ?_⟩
      · rw [utf8_cons, List.length_append, hsize]
        omega
      · rw [utf8_cons, List.take_append, List.take_of_length_le (by omega), hsize,
          lossyFrom_encode, hlossy]
        rfl
      · rw [utf8_cons, List.length_append, hsize] at h
        omega
    · -- The cut falls inside the character: at most three of its bytes are left.
      have hfour := c.utf8Size_le_four
      refine ⟨[], c :: s, lossyFrom fuel ((utf8 (c :: s)).take n), rfl, Nat.zero_le n, rfl, ?_,
        fun h => ?_⟩
      · have := length_lossyFrom_le fuel ((utf8 (c :: s)).take n)
        rw [List.length_take] at this
        omega
      · rw [utf8_cons, List.length_append, hsize] at h
        omega

/-- Decoding undoes encoding. -/
theorem fromUtf8Lossy_utf8 (s : List Char) : fromUtf8Lossy (utf8 s) = s := by
  obtain ⟨front, back, rest, hs, -, hlossy, -, hall⟩ :=
    lossyFrom_take (s := s) (Nat.le_refl (utf8 s).length) (Nat.le_refl _)
  obtain ⟨rfl, rfl⟩ := hall rfl
  rw [List.take_length] at hlossy
  rw [fromUtf8Lossy, hlossy, hs]

theorem utf8_injective : Function.Injective utf8 := by
  intro s t h
  rw [← fromUtf8Lossy_utf8 s, h, fromUtf8Lossy_utf8]

/-- A text cut by more bytes than the last three characters can take does not come back. -/
theorem fromUtf8Lossy_take_ne {n : Nat} {s : List Char} (h : n + 12 < (utf8 s).length) :
    fromUtf8Lossy ((utf8 s).take n) ≠ s := by
  have hlen : ((utf8 s).take n).length = n := List.length_take_of_le (by omega)
  obtain ⟨front, back, rest, hs, hfront, hlossy, hrest, -⟩ :=
    lossyFrom_take (s := s) (Nat.le_refl n) (by omega)
  intro heq
  rw [fromUtf8Lossy, hlen, hlossy] at heq
  have hback : rest = back := List.append_cancel_left (heq.trans hs)
  have hbytes := length_utf8_le back
  rw [hs, utf8_append, List.length_append] at h
  rw [hback] at hrest
  omega

end Lib.Utf8
