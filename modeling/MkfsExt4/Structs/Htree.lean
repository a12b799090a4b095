/-
  Hashed directories (`src/structs/htree.rs`): the hash of a name, and the entries of an index
  block.

  A word is a `UInt32`, with the wrapping arithmetic of the source; what is read off a block is a
  natural, as everywhere else. Proved: the search of an index block is a routing by its entries
  (`find_ok`, `route_entries`).
-/
import MkfsExt4.Lib.Routing
import MkfsExt4.Structs.Dirent
import Mathlib.Data.Nat.Basic

namespace MkfsExt4

open Lib.Store Lib.Routing

/-! Hash algorithms (`s_def_hash_version`). -/

namespace HashVersion

def legacy : Nat := 0
def halfMd4 : Nat := 1
def tea : Nat := 2
def legacyUnsigned : Nat := 3
def teaUnsigned : Nat := 5

end HashVersion

/-! Flags of the superblock (`s_flags`). -/

namespace SbFlags

def unsignedHash : Nat := 0x0002

end SbFlags

namespace Htree

/-! ## The hash of a name -/

/-- One byte of a name, read the way the filesystem's creator read it. -/
def charValue (byte : UInt8) (signed : Bool) : UInt32 :=
  if signed && 0x80 ≤ byte then byte.toUInt32 ||| 0xffffff00 else byte.toUInt32

/-- The old hash. -/
def legacy (name : List UInt8) (signed : Bool) : UInt32 :=
  let hashes := name.foldl
    (fun (hash0, hash1) byte =>
      let c := charValue byte signed
      let hash := hash1 + (hash0 ^^^ (c * 7152373))
      let hash := if hash &&& 0x80000000 ≠ 0 then hash - 0x7fffffff else hash
      (hash, hash0))
    ((0x12a3fe2d, 0x37abe8f9) : UInt32 × UInt32)
  hashes.1 <<< 1

/-- The first `num` words of a name, padded with its unclamped length in all four bytes. A word
    the name ends in keeps padding above its bytes. The words past `num`, which the source
    leaves zero, are never read. -/
def str2hashbuf (msg : List UInt8) (num : Nat) (signed : Bool) : List UInt32 :=
  let len := UInt32.ofNat msg.length
  let pad := len ||| (len <<< 8)
  let pad := pad ||| (pad <<< 16)
  (List.range num).map fun word =>
    (slice msg (word * 4) 4).foldl (fun val byte => charValue byte signed + (val <<< 8)) pad

/-- The state of a hash: four words. -/
structure HashBuf where
  (a b c d : UInt32)
deriving DecidableEq, Repr

/-- TEA in a Davies-Meyer construction, over four words. -/
def teaTransform (buf : HashBuf) (input : List UInt32) : HashBuf :=
  let key := fun i => input.getD i 0
  let (_, b0, b1) := (List.range 16).foldl
    (fun (sum, b0, b1) _ =>
      let sum := sum + 0x9e3779b9
      let b0 := b0 + (((b1 <<< 4) + key 0) ^^^ (b1 + sum) ^^^ ((b1 >>> 5) + key 1))
      let b1 := b1 + (((b0 <<< 4) + key 2) ^^^ (b0 + sum) ^^^ ((b0 >>> 5) + key 3))
      (sum, b0, b1))
    ((0, buf.a, buf.b) : UInt32 × UInt32 × UInt32)
  { buf with a := buf.a + b0, b := buf.b + b1 }

def rotateLeft (x s : UInt32) : UInt32 := (x <<< s) ||| (x >>> (32 - s))

/-- Selection. -/
def selection (x y z : UInt32) : UInt32 := z ^^^ (x &&& (y ^^^ z))

/-- Majority. -/
def majority (x y z : UInt32) : UInt32 := (x &&& y) + ((x ^^^ y) &&& z)

/-- Parity. -/
def parity (x y z : UInt32) : UInt32 := x ^^^ y ^^^ z

/-- The rounds of one function, each an input word and a rotation. Every round writes its first
    register and hands the four on with the last in front, so that four rounds write each once. -/
def rounds (fn : UInt32 → UInt32 → UInt32 → UInt32) (k : UInt32) (input : List UInt32)
    (schedule : List (Nat × UInt32)) (buf : HashBuf) : HashBuf :=
  schedule.foldl
    (fun r (word, s) =>
      let a := rotateLeft (r.a + fn r.b r.c r.d + (input.getD word 0 + k)) s
      { a := r.d, b := a, c := r.b, d := r.c })
    buf

/-- A cut-down MD4 that keeps only 32 bits of result. -/
def halfMd4Transform (buf : HashBuf) (input : List UInt32) : HashBuf :=
  let r := rounds selection 0 input
    [(0, 3), (1, 7), (2, 11), (3, 19), (4, 3), (5, 7), (6, 11), (7, 19)] buf
  let r := rounds majority 0o13240474631 input
    [(1, 3), (3, 5), (5, 9), (7, 13), (0, 3), (2, 5), (4, 9), (6, 13)] r
  let r := rounds parity 0o15666365641 input
    [(3, 3), (7, 9), (2, 11), (6, 15), (1, 3), (5, 9), (0, 11), (4, 15)] r
  { a := buf.a + r.a, b := buf.b + r.b, c := buf.c + r.c, d := buf.d + r.d }

/-- The parts of a name a hash takes in one after another, `step` bytes further each time. -/
def parts (name : List UInt8) (step : Nat) : List (List UInt8) :=
  (List.range ((name.length + step - 1) / step)).map fun k => name.drop (k * step)

/-- The hash of a name, as `(hash, minor_hash)`. The low bit of the hash is always clear. A seed
    of zeros means none. -/
def dirhash (version : Nat) (name : List UInt8) (seed : List Nat) : Nat × Nat :=
  let word := fun i => UInt32.ofNat (seed.getD i 0)
  let buf : HashBuf :=
    if seed.any (· ≠ 0) then { a := word 0, b := word 1, c := word 2, d := word 3 }
    else { a := 0x67452301, b := 0xefcdab89, c := 0x98badcfe, d := 0x10325476 }
  let signed := version = HashVersion.legacy ∨ version = HashVersion.halfMd4 ∨
    version = HashVersion.tea
  let (hash, minor) :=
    if version = HashVersion.legacy ∨ version = HashVersion.legacyUnsigned then
      (legacy name signed, 0)
    else if version = HashVersion.tea ∨ version = HashVersion.teaUnsigned then
      let buf := (parts name 16).foldl
        (fun buf part => teaTransform buf (str2hashbuf part 4 signed)) buf
      (buf.a, buf.b)
    else
      let buf := (parts name 32).foldl
        (fun buf part => halfMd4Transform buf (str2hashbuf part 8 signed)) buf
      (buf.b, buf.c)
  ((hash &&& 0xfffffffe).toNat, minor.toNat)

/-- The hash version to use, given what the superblock says of the signedness of `char`. -/
def versionFor (defHashVersion flags : Nat) : Nat :=
  if flags &&& SbFlags.unsignedHash ≠ 0 ∧ defHashVersion < 3 then defHashVersion + 3
  else defHashVersion

/-! ## Index blocks -/

/-- How many levels of interior nodes a root block declares. -/
def indirectLevels (block : List UInt8) : Nat := getU8 block (rootInfoOffset + 6)

/-- The hash version a root block declares. -/
def rootHashVersion (block : List UInt8) : Nat := getU8 block (rootInfoOffset + 4)

/-- How many index entries a block holds. -/
def count (block : List UInt8) (countOffset : Nat) : Nat := getU16 block (countOffset + 2)

/-- An index entry as `(hash, block)`. Entry zero has no hash. -/
def entryAt (block : List UInt8) (countOffset index : Nat) : Nat × Nat :=
  let start := countOffset + index * entryLen
  (if index = 0 then 0 else getU32 block start, getU32 block (start + 4))

/-- Read one index entry; past the block's end is a panic. -/
def entry (block : List UInt8) (countOffset index : Nat) : Except Failure (Nat × Nat) := do
  panicIf (block.length < countOffset + index * entryLen + entryLen)
  return entryAt block countOffset index

/-- The loop of `find`, `left` entries from `i` on. -/
def findFrom (block : List UInt8) (countOffset hash : Nat) : (left i chosen : Nat) →
    Except Failure Nat
  | 0, _, chosen => .ok chosen
  | left + 1, i, chosen => do
    let (start, _) ← entry block countOffset i
    if hash < start then return chosen else findFrom block countOffset hash left (i + 1) i

/-- Which index entry covers a hash: the last, in ascending order, whose hash is not greater. -/
def find (block : List UInt8) (countOffset hash : Nat) : Except Failure Nat :=
  let count := count block countOffset
  if count = 0 then .error (.error (.corrupt "htree" "index block holds no entries"))
  else findFrom block countOffset hash (count - 1) 1 0

/-! ## Finding -/

/-- The entries of an index block. -/
def entries (block : List UInt8) (countOffset : Nat) : List (Nat × Nat) :=
  (List.range (count block countOffset)).map (entryAt block countOffset)

/-- An index block that holds an entry, and all it counts. -/
def Holds (block : List UInt8) (countOffset : Nat) : Prop :=
  0 < count block countOffset ∧
    countOffset + count block countOffset * entryLen ≤ block.length

instance (block : List UInt8) (countOffset : Nat) : Decidable (Holds block countOffset) :=
  inferInstanceAs (Decidable (_ ∧ _))

variable {block : List UInt8} {countOffset : Nat}

@[simp] theorem length_entries (block : List UInt8) (countOffset : Nat) :
    (entries block countOffset).length = count block countOffset := by
  rw [entries, List.length_map, List.length_range]

theorem getElem?_entries {i : Nat} (hi : i < count block countOffset) :
    (entries block countOffset)[i]? = some (entryAt block countOffset i) := by
  rw [entries, List.getElem?_map, List.getElem?_range hi]
  rfl

theorem drop_entries {i : Nat} (hi : i < count block countOffset) :
    (entries block countOffset).drop i =
      entryAt block countOffset i :: (entries block countOffset).drop (i + 1) := by
  have hlt : i < (entries block countOffset).length := by rwa [length_entries]
  have hget := getElem?_entries hi
  rw [List.getElem?_eq_getElem hlt] at hget
  rw [List.drop_eq_getElem_cons hlt, Option.some.inj hget]

theorem entry_ok (h : Holds block countOffset) {i : Nat} (hi : i < count block countOffset) :
    entry block countOffset i = .ok (entryAt block countOffset i) := by
  have hend : countOffset + i * entryLen + entryLen ≤ block.length := by
    have := Nat.mul_le_mul_right entryLen (Nat.succ_le_of_lt hi)
    have := h.2
    rw [Nat.succ_mul] at *
    omega
  rw [entry, panicIf, if_neg (Nat.not_lt.mpr hend)]
  rfl

theorem findFrom_ok (h : Holds block countOffset) (hash : Nat) :
    ∀ (left i : Nat), 0 < i → i + left = count block countOffset →
      findFrom block countOffset hash left i (i - 1) =
        .ok (i - 1 + position hash ((entries block countOffset).drop i))
  | 0, i, _, hcount => by
    rw [List.drop_of_length_le (by rw [length_entries]; omega)]
    rfl
  | left + 1, i, hi, hcount => by
    have hlt : i < count block countOffset := by omega
    rw [findFrom, entry_ok h hlt, drop_entries hlt, position]
    dsimp only [bind, Except.bind]
    by_cases hle : hash < (entryAt block countOffset i).1
    · rw [if_pos hle, if_neg (Nat.not_le.mpr hle)]
      rfl
    · rw [if_neg hle, if_pos (Nat.not_lt.mp hle)]
      have ih := findFrom_ok h hash left (i + 1) (Nat.succ_pos i) (by omega)
      rw [Nat.add_sub_cancel] at ih
      rw [ih]
      congr 1
      omega

theorem findFrom_le {hash : Nat} : ∀ {left i chosen c : Nat},
    findFrom block countOffset hash left i chosen = .ok c → c = chosen ∨ c < i + left
  | 0, _, _, _, h => Or.inl (Except.ok.inj h).symm
  | left + 1, i, chosen, c, h => by
    rw [findFrom] at h
    cases hentry : entry block countOffset i with
    | error e =>
      rw [hentry] at h
      cases h
    | ok x =>
      rw [hentry] at h
      dsimp only [bind, Except.bind] at h
      split at h
      · exact Or.inl (Except.ok.inj h).symm
      · rcases findFrom_le h with heq | hlt
        · exact Or.inr (by omega)
        · exact Or.inr (by omega)

/-- What `find` chooses is an entry. -/
theorem find_lt {hash c : Nat} (h : find block countOffset hash = .ok c) :
    c < count block countOffset := by
  rw [find] at h
  split at h
  · cases h
  · next hne =>
    rcases findFrom_le h with rfl | hlt
    · exact Nat.pos_of_ne_zero hne
    · omega

/-- `find` counts the front of the entries behind the first. -/
theorem find_ok (h : Holds block countOffset) (hash : Nat) :
    find block countOffset hash =
      .ok (position hash ((entries block countOffset).drop 1)) := by
  have hpos := h.1
  rw [find, if_neg (Nat.ne_of_gt hpos)]
  have hfrom := findFrom_ok h hash (count block countOffset - 1) 1 Nat.one_pos (by omega)
  rw [Nat.sub_self, Nat.zero_add] at hfrom
  exact hfrom

theorem position_lt_count (h : Holds block countOffset) (hash : Nat) :
    position hash ((entries block countOffset).drop 1) < count block countOffset := by
  have hle := position_le hash ((entries block countOffset).drop 1)
  rw [List.length_drop, length_entries] at hle
  have := h.1
  omega

/-- An index whose hash has its low bit set goes on from the one before it. -/
def continued (hash : Nat) : Bool := hash % 2 = 1

/-- The entries that follow the one found while they continue it are where the hash is routed. -/
theorem route_entries (h : Holds block countOffset) (hash : Nat) :
    route continued hash (entries block countOffset) =
      entryAt block countOffset (position hash ((entries block countOffset).drop 1)) ::
        ((entries block countOffset).drop
          (position hash ((entries block countOffset).drop 1) + 1)).takeWhile
            fun x => continued x.1 := by
  have hsplit := drop_entries h.1
  rw [List.drop_zero] at hsplit
  have hroute := @route_eq _ _ _ continued hash (entryAt block countOffset 0)
    ((entries block countOffset).drop 1)
  rw [← hsplit, drop_entries (position_lt_count h hash)] at hroute
  exact hroute

end Htree

end MkfsExt4
