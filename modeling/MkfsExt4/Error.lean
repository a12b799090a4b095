/-
  The errors the crate reports (`src/error.rs`).
-/
import Mathlib.Tactic.Common

namespace MkfsExt4

/-- Anything that can go wrong formatting or checking a filesystem. -/
inductive Error where
  /-- The underlying device failed a read, write or flush. -/
  | io (offset : Nat)
  /-- A read failed, with no richer cause than the device's own status word. -/
  | deviceRead (offset status : Nat)
  /-- A read or write ran past the end of the device. -/
  | outOfBounds (offset len size : Nat)
  /-- The requested parameters cannot describe a valid filesystem. -/
  | invalidParams (msg : String)
  /-- The device is too small for the requested filesystem. -/
  | deviceTooSmall (available needed blockSize : Nat)
  /-- A feature this implementation does not handle. -/
  | unsupportedFeature (feature : String)
  /-- A feature combination the format forbids. -/
  | incompatibleFeatures (msg : String)
  /-- No ext2/3/4 superblock was found where one was expected. -/
  | notExtFilesystem (found : Nat)
  /-- A structure on disk did not decode. -/
  | corrupt (what detail : String)
deriving DecidableEq, Repr

/-- How a computation of the crate can end without a result: an error it returns, a panic
    (a division by zero, an index past the end), or a loop that never ends. -/
inductive Failure where
  | error (e : Error)
  | panicked
  | looping
deriving DecidableEq, Repr

/-- `{n:#0wx}`: hexadecimal with its prefix, zero-padded to `w` digits. -/
def hex (w n : Nat) : String :=
  let digits := Nat.toDigits 16 n
  "0x" ++ String.ofList (List.replicate (w - digits.length) '0' ++ digits)

/-- The text of an error. The `io` text ends with the operating system's own, left out. -/
def Error.display : Error → String
  | .io offset => s!"device I/O failed at offset {offset}"
  | .deviceRead offset status =>
    s!"device read failed at offset {offset}, device status " ++ hex 0 status
  | .outOfBounds offset len size =>
    s!"I/O of {len} bytes at offset {offset} runs past the end of the {size}-byte device"
  | .invalidParams msg => s!"invalid parameters: {msg}"
  | .deviceTooSmall available needed blockSize =>
    s!"device holds {available} blocks of {blockSize} bytes; " ++
      s!"{needed} are needed for metadata alone"
  | .unsupportedFeature feature => s!"feature {feature} is not supported by this implementation"
  | .incompatibleFeatures msg => s!"incompatible features: {msg}"
  | .notExtFilesystem found =>
    "no ext2/3/4 superblock found (magic was " ++ hex 4 found ++ ", expected 0xef53)"
  | .corrupt what detail => s!"corrupt {what}: {detail}"

/-- A result of the crate, among the ways a computation can end. -/
def returned {α : Type} : Except Error α → Except Failure α
  | .ok a => .ok a
  | .error e => .error (.error e)

/-- Panic when `bad` holds. -/
def panicIf (bad : Prop) [Decidable bad] : Except Failure Unit :=
  if bad then .error .panicked else .ok ()

theorem panicIf_ok {bad : Prop} [Decidable bad] (h : panicIf bad = .ok ()) : ¬ bad := by
  unfold panicIf at h
  split at h
  · cases h
  · assumption

theorem returned_ok {α : Type} {x : Except Error α} {a : α} (h : returned x = .ok a) :
    x = .ok a := by
  cases x with
  | ok b => exact congrArg _ (Except.ok.inj h)
  | error e => cases h

theorem returned_ok_iff {α : Type} {x : Except Error α} {a : α} :
    returned x = .ok a ↔ x = .ok a :=
  ⟨returned_ok, fun h => by rw [h]; rfl⟩

theorem panicIf_bind_ok_iff {α : Type} {bad : Prop} [Decidable bad] {m : Unit → Except Failure α}
    {a : α} : (panicIf bad >>= m) = .ok a ↔ ¬ bad ∧ m () = .ok a := by
  unfold panicIf
  split
  · next hbad => exact ⟨fun h => (nomatch h), fun h => absurd hbad h.1⟩
  · next hbad => exact ⟨fun h => ⟨hbad, h⟩, fun h => h.2⟩

end MkfsExt4
