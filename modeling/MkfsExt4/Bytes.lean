/-
  Field access in on-disk buffers (`src/bytes.rs`, and the big-endian pair of
  `src/journal.rs`).

  A buffer is a `List UInt8`. A read takes the field's bytes by `slice`, a write puts
  them back by `splice`. The source indexes slices and panics past the end; the model
  reads what is there, and each law below carries the bound the source relies on.
-/
import MkfsExt4.Lib.Store
import MkfsExt4.Lib.Endian

namespace MkfsExt4

open Lib.Store Lib.Endian

/-- Read a `u8` at `off`. -/
def getU8 (buf : List UInt8) (off : Nat) : Nat := (buf.getD off 0).toNat

/-- Read a little-endian `u16` at `off`. -/
def getU16 (buf : List UInt8) (off : Nat) : Nat := ofLe (slice buf off 2)

/-- Read a little-endian `u32` at `off`. -/
def getU32 (buf : List UInt8) (off : Nat) : Nat := ofLe (slice buf off 4)

/-- Read a little-endian `u64` at `off`. -/
def getU64 (buf : List UInt8) (off : Nat) : Nat := ofLe (slice buf off 8)

/-- Write a `u8` at `off`. -/
def putU8 (buf : List UInt8) (off v : Nat) : List UInt8 := splice buf off [UInt8.ofNat v]

/-- Write a little-endian `u16` at `off`. -/
def putU16 (buf : List UInt8) (off v : Nat) : List UInt8 := splice buf off (toLe 2 v)

/-- Write a little-endian `u32` at `off`. -/
def putU32 (buf : List UInt8) (off v : Nat) : List UInt8 := splice buf off (toLe 4 v)

/-- Write a little-endian `u64` at `off`. -/
def putU64 (buf : List UInt8) (off v : Nat) : List UInt8 := splice buf off (toLe 8 v)

/-- Copy a fixed-width byte field, zero-padding or truncating as needed. -/
def putBytes (buf : List UInt8) (off len : Nat) (src : List UInt8) : List UInt8 :=
  splice buf off (src.take len ++ List.replicate (len - src.length) 0)

/-- A fixed-width, optionally NUL-padded field, up to its first NUL. The source then
    makes a `String` of it (`from_utf8_lossy`); a name is its bytes here. -/
def fieldToString (field : List UInt8) : List UInt8 := field.takeWhile (· ≠ 0)

/-- Read a big-endian `u32` at `off`, the byte order of JBD2. -/
def getU32Be (buf : List UInt8) (off : Nat) : Nat := ofBe (slice buf off 4)

/-- Write a big-endian `u32` at `off`. -/
def putU32Be (buf : List UInt8) (off v : Nat) : List UInt8 := splice buf off (toBe 4 v)

/-! ## Lengths and bounds -/

theorem length_slice_le (buf : List UInt8) (off n : Nat) : (slice buf off n).length ≤ n := by
  rw [slice]
  exact List.length_take_le _ _

theorem getU8_lt (buf : List UInt8) (off : Nat) : getU8 buf off < 2 ^ 8 := UInt8.toNat_lt _

theorem getU16_lt (buf : List UInt8) (off : Nat) : getU16 buf off < 2 ^ 16 :=
  Nat.lt_of_lt_of_le (ofLe_lt (slice buf off 2))
    (Nat.pow_le_pow_right (by decide) (length_slice_le buf off 2))

theorem getU32_lt (buf : List UInt8) (off : Nat) : getU32 buf off < 2 ^ 32 :=
  Nat.lt_of_lt_of_le (ofLe_lt (slice buf off 4))
    (Nat.pow_le_pow_right (by decide) (length_slice_le buf off 4))

theorem getU64_lt (buf : List UInt8) (off : Nat) : getU64 buf off < 2 ^ 64 :=
  Nat.lt_of_lt_of_le (ofLe_lt (slice buf off 8))
    (Nat.pow_le_pow_right (by decide) (length_slice_le buf off 8))

theorem getU32Be_lt (buf : List UInt8) (off : Nat) : getU32Be buf off < 2 ^ 32 :=
  Nat.lt_of_lt_of_le (ofBe_lt (slice buf off 4))
    (Nat.pow_le_pow_right (by decide) (length_slice_le buf off 4))

@[simp] theorem length_putU8 (buf : List UInt8) (off v : Nat) :
    (putU8 buf off v).length = buf.length := length_splice _ _ _

@[simp] theorem length_putU16 (buf : List UInt8) (off v : Nat) :
    (putU16 buf off v).length = buf.length := length_splice _ _ _

@[simp] theorem length_putU32 (buf : List UInt8) (off v : Nat) :
    (putU32 buf off v).length = buf.length := length_splice _ _ _

@[simp] theorem length_putU64 (buf : List UInt8) (off v : Nat) :
    (putU64 buf off v).length = buf.length := length_splice _ _ _

@[simp] theorem length_putBytes (buf : List UInt8) (off len : Nat) (src : List UInt8) :
    (putBytes buf off len src).length = buf.length := length_splice _ _ _

/-- The bytes `putBytes` copies fill the field exactly. -/
theorem length_putBytes_field (len : Nat) (src : List UInt8) :
    (src.take len ++ List.replicate (len - src.length) (0 : UInt8)).length = len := by
  simp only [List.length_append, List.length_take, List.length_replicate]
  omega

/-! ## Reading a field back -/

/-- A byte is the number its one byte spells. -/
theorem getU8_of_slice {buf : List UInt8} {off v : Nat} (h : slice buf off 1 = toLe 1 v) :
    getU8 buf off = v % 2 ^ 8 := by
  have hbyte := getD_slice buf off 1 0 0 Nat.one_pos
  rw [h] at hbyte
  rw [getU8, ← Nat.add_zero off, ← hbyte]
  exact UInt8.toNat_ofNat'

theorem getU32_zeroes (n off : Nat) : getU32 (List.replicate n 0) off = 0 := by
  rw [getU32, slice, List.drop_replicate, List.take_replicate]
  generalize min 4 (n - off) = k
  induction k with
  | zero => rfl
  | succ k ih =>
    rw [List.replicate_succ, ofLe, ih]
    rfl

theorem getU32_putU32 {buf : List UInt8} {off v : Nat} (h : off + 4 ≤ buf.length)
    (hv : v < 2 ^ 32) : getU32 (putU32 buf off v) off = v := by
  have hs : slice (putU32 buf off v) off 4 = toLe 4 v := slice_splice (length_toLe 4 v) h
  rw [getU32, hs, ofLe_toLe_of_lt hv]

/-- A field read is unchanged by a write of other bytes of the buffer. -/
theorem getU32_splice_disjoint {buf ys : List UInt8} {o off : Nat}
    (h : off + 4 ≤ o ∨ o + ys.length ≤ off) :
    getU32 (splice buf o ys) off = getU32 buf off := by
  rw [getU32, getU32, slice_splice_disjoint h]

theorem getU32_putU16_disjoint {buf : List UInt8} {o off v : Nat}
    (h : off + 4 ≤ o ∨ o + 2 ≤ off) : getU32 (putU16 buf o v) off = getU32 buf off :=
  getU32_splice_disjoint (by simpa using h)

theorem getU32_putU32_disjoint {buf : List UInt8} {o off v : Nat}
    (h : off + 4 ≤ o ∨ o + 4 ≤ off) : getU32 (putU32 buf o v) off = getU32 buf off :=
  getU32_splice_disjoint (by simpa using h)

theorem getU32_putU64_disjoint {buf : List UInt8} {o off v : Nat}
    (h : off + 4 ≤ o ∨ o + 8 ≤ off) : getU32 (putU64 buf o v) off = getU32 buf off :=
  getU32_splice_disjoint (by simpa using h)

theorem getU32_putBytes_disjoint {buf src : List UInt8} {o off len : Nat}
    (h : off + 4 ≤ o ∨ o + len ≤ off) :
    getU32 (putBytes buf o len src) off = getU32 buf off :=
  getU32_splice_disjoint (by rw [length_putBytes_field]; exact h)

/-! ### Slices of a buffer with a field written -/

theorem slice_putU16_self {buf : List UInt8} {off v : Nat} (h : off + 2 ≤ buf.length) :
    slice (putU16 buf off v) off 2 = toLe 2 v := slice_splice (length_toLe 2 v) h

theorem slice_putU32_self {buf : List UInt8} {off v : Nat} (h : off + 4 ≤ buf.length) :
    slice (putU32 buf off v) off 4 = toLe 4 v := slice_splice (length_toLe 4 v) h

theorem slice_putU16_disjoint {buf : List UInt8} {o off n v : Nat}
    (h : off + n ≤ o ∨ o + 2 ≤ off) : slice (putU16 buf o v) off n = slice buf off n :=
  slice_splice_disjoint (by simpa using h)

theorem slice_putU32_disjoint {buf : List UInt8} {o off n v : Nat}
    (h : off + n ≤ o ∨ o + 4 ≤ off) : slice (putU32 buf o v) off n = slice buf off n :=
  slice_splice_disjoint (by simpa using h)

/-! ### Writing back what was read -/

theorem putU8_getU8 {buf : List UInt8} {off : Nat} (h : off + 1 ≤ buf.length) :
    putU8 buf off (getU8 buf off) = buf := by
  have hbyte : [UInt8.ofNat (getU8 buf off)] = slice buf off 1 := by
    rw [getU8, UInt8.ofNat_toNat, slice, List.getD_eq_getElem?_getD,
      List.getElem?_eq_getElem (by omega), Option.getD_some, List.drop_eq_getElem_cons (by omega)]
    rfl
  rw [putU8, hbyte, splice_slice_self h]

/-- The bytes of a number read off a buffer. -/
theorem toLe_ofLe_slice {buf : List UInt8} {off n : Nat} (h : off + n ≤ buf.length) :
    toLe n (ofLe (slice buf off n)) = slice buf off n := by
  have := toLe_ofLe (slice buf off n)
  rwa [length_slice h] at this

theorem putU16_getU16 {buf : List UInt8} {off : Nat} (h : off + 2 ≤ buf.length) :
    putU16 buf off (getU16 buf off) = buf := by
  rw [putU16, getU16, toLe_ofLe_slice h, splice_slice_self h]

theorem putU32_getU32 {buf : List UInt8} {off : Nat} (h : off + 4 ≤ buf.length) :
    putU32 buf off (getU32 buf off) = buf := by
  rw [putU32, getU32, toLe_ofLe_slice h, splice_slice_self h]

theorem putU64_getU64 {buf : List UInt8} {off : Nat} (h : off + 8 ≤ buf.length) :
    putU64 buf off (getU64 buf off) = buf := by
  rw [putU64, getU64, toLe_ofLe_slice h, splice_slice_self h]

theorem putBytes_slice {buf : List UInt8} {off len : Nat} (h : off + len ≤ buf.length) :
    putBytes buf off len (slice buf off len) = buf := by
  have hlen := length_slice h
  rw [putBytes, hlen, Nat.sub_self, List.replicate_zero, List.append_nil,
    List.take_of_length_le (Nat.le_of_eq hlen), splice_slice_self h]

theorem getU32Be_putU32Be {buf : List UInt8} {off v : Nat} (h : off + 4 ≤ buf.length)
    (hv : v < 2 ^ 32) : getU32Be (putU32Be buf off v) off = v := by
  have hs : slice (putU32Be buf off v) off 4 = toBe 4 v := slice_splice (length_toBe 4 v) h
  rw [getU32Be, hs, ofBe_toBe_of_lt hv]

end MkfsExt4
