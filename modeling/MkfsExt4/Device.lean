/-
  The device seam (`src/device.rs`).

  A device is a flat array of `size` bytes behind `check_bounds`. `Device` is the
  contract every `BlockDevice` keeps when it does not fail; a device that fails is
  modelled where failures matter, over this one.
-/
import MkfsExt4.Bytes
import MkfsExt4.Error

namespace MkfsExt4

open Lib.Store

/-- Bounds-check a request against a device size. A sum that overflows 64 bits is past
    every device, so the overflow branch of the source is the same refusal. -/
def checkBounds (offset len size : Nat) : Except Error Unit :=
  if offset + len ≤ size then .ok () else .error (.outOfBounds offset len size)

/-- A device: `size` bytes, addressed from zero. -/
structure Device where
  size : Nat
  bytes : Nat → UInt8
  logicalSectorSize : Nat := 512

namespace Device

/-- Read exactly `len` bytes starting at `offset`. -/
def readAt (d : Device) (offset len : Nat) : Except Error (List UInt8) := do
  checkBounds offset len d.size
  return window d.bytes offset len

/-- Write all of `buf` starting at `offset`. -/
def writeAt (d : Device) (offset : Nat) (buf : List UInt8) : Except Error Device := do
  checkBounds offset buf.length d.size
  return { d with bytes := overlay d.bytes offset buf }

/-- Write `len` zero bytes at `offset`. -/
def writeZeroes (d : Device) (offset len : Nat) : Except Error Device := do
  checkBounds offset len d.size
  return { d with bytes := fill d.bytes offset len 0 }

/-- The device of `size` bytes that holds the given chunks, each at its offset, over zeroes. -/
def ofChunks (size : Nat) (chunks : List (Nat × List UInt8)) : Device where
  size
  bytes := fun p =>
    match chunks.find? fun c => c.1 ≤ p && p < c.1 + c.2.length with
    | some c => c.2.getD (p - c.1) 0
    | none => 0

theorem readAt_ok_iff {d : Device} {offset len : Nat} {buf : List UInt8} :
    d.readAt offset len = .ok buf ↔
      offset + len ≤ d.size ∧ buf = window d.bytes offset len := by
  unfold Device.readAt checkBounds
  by_cases hin : offset + len ≤ d.size
  · rw [if_pos hin]
    exact ⟨fun h => ⟨hin, (Except.ok.inj h).symm⟩, fun h => congrArg _ h.2.symm⟩
  · rw [if_neg hin]
    exact ⟨fun h => (nomatch h), fun h => absurd h.1 hin⟩

end Device

end MkfsExt4
