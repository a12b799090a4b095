/-
  Index blocks of hashed directories as they are written (`limit`, `build_root`, `build_node`,
  `set_count`, `set_entry`, `stamp_csum` of `src/structs/htree.rs`).

  What a block holds of an index is an `Index`: a count, and an entry for each place. Each write to
  a block does to its `Index` what it says (`Represents.edit`), so a run of writes in any order
  leaves the index they describe (`Represents.edits`), and the checksum goes behind it. `root_edited`
  and `node_edited` say this of a block from its building on, for the readers of the block.
-/
import MkfsExt4.Structs.DirentStamp
import MkfsExt4.Structs.Htree

namespace MkfsExt4

open Lib.Store Lib.Endian Lib.Record Lib.Routing

namespace Htree

/-! ## Writing -/

/-- How many index entries a block can hold, given where they start. -/
def limit (blockSize countOffset : Nat) (hasCsum : Bool) : Nat :=
  let tail := if hasCsum then tailLen else 0
  (blockSize - countOffset - tail) / entryLen % 2 ^ 16

/-- A root block: `.`, `..`, the root info, and an empty index. -/
def buildRoot (blockSize ino parent hashVersion indirectLevels : Nat) (filetype hasCsum : Bool) :
    List UInt8 :=
  let buf := List.replicate blockSize 0
  let ft := if filetype then FileType.dir else 0
  let buf := putU32 buf 0 ino
  let buf := putU16 buf 4 12
  let buf := putU8 buf 6 1
  let buf := putU8 buf 7 ft
  let buf := putU8 buf 8 0x2e
  -- ".." claims the whole rest of the block, hiding the index behind it.
  let buf := putU32 buf 12 parent
  let buf := putU16 buf 16 (blockSize - 12)
  let buf := putU8 buf 18 2
  let buf := putU8 buf 19 ft
  let buf := putU8 buf 20 0x2e
  let buf := putU8 buf 21 0x2e
  let buf := putU32 buf rootInfoOffset 0
  let buf := putU8 buf (rootInfoOffset + 4) hashVersion
  let buf := putU8 buf (rootInfoOffset + 5) rootInfoLen
  let buf := putU8 buf (rootInfoOffset + 6) indirectLevels
  let buf := putU8 buf (rootInfoOffset + 7) 0
  let buf := putU16 buf rootCountOffset (limit blockSize rootCountOffset hasCsum)
  putU16 buf (rootCountOffset + 2) 0

/-- An interior node block: one entry claiming everything, then an index. -/
def buildNode (blockSize : Nat) (hasCsum : Bool) : List UInt8 :=
  let buf := List.replicate blockSize 0
  let buf := putU32 buf 0 0
  let buf := putU16 buf 4 blockSize
  let buf := putU16 buf nodeCountOffset (limit blockSize nodeCountOffset hasCsum)
  putU16 buf (nodeCountOffset + 2) 0

/-- Set how many index entries a block holds. -/
def setCount (block : List UInt8) (countOffset count : Nat) : List UInt8 :=
  putU16 block (countOffset + 2) count

/-- Write one index entry. The hash of entry zero is not written: its bytes are the count and
limit. -/
def setEntry (block : List UInt8) (countOffset index hash target : Nat) : List UInt8 :=
  let start := countOffset + index * entryLen
  let block := if 0 < index then putU32 block start hash else block
  putU32 block (start + 4) target

/-- Where the tail of an index block is, and its checksum. -/
def computeCsum (block : List UInt8) (blockSize : Nat) (seed : UInt32)
    (inum generation countOffset : Nat) : Option (Nat × Nat) :=
  let limit := getU16 block countOffset
  let entries := count block countOffset
  let tailAt := countOffset + limit * entryLen
  if blockSize < tailAt + tailLen ∨ block.length < blockSize ∨ limit < entries then none
  else
    let used := countOffset + entries * entryLen
    let crc := Csum.crc32c (Csum.crc32c seed (toLe 4 inum)) (toLe 4 generation)
    let crc := Csum.crc32c crc (block.take used)
    let crc := Csum.crc32c crc (slice block tailAt 4)
    let crc := Csum.crc32c crc [0, 0, 0, 0]
    some (tailAt, crc.toNat)

/-- Stamp an index block's checksum. -/
def stampCsum (block : List UInt8) (blockSize : Nat) (seed : UInt32)
    (inum generation countOffset : Nat) : List UInt8 :=
  match computeCsum block blockSize seed inum generation countOffset with
  | some (tailAt, crc) => putU32 block (tailAt + 4) crc
  | none => block

theorem csum_eq (block : List UInt8) (blockSize : Nat) (seed : UInt32)
    (inum generation countOffset : Nat) : csum block blockSize seed inum generation countOffset =
      (computeCsum block blockSize seed inum generation countOffset).map
        fun c => (getU32 block (c.1 + 4), c.2) := by
  unfold csum computeCsum count
  dsimp only
  split <;> rfl

/-! ## The index of a block -/

/-- What an index block says: how many entries count, and an entry for each place. -/
structure Index where
  count : Nat
  entry : Nat → Nat × Nat

/-- The index of a block that was just built. -/
def Index.empty : Index := { count := 0, entry := fun _ => (0, 0) }

/-- A write to an index block. -/
inductive Edit
  | entry (index hash target : Nat)
  | count (n : Nat)

/-- The write, on the block. -/
def Edit.write (countOffset : Nat) (block : List UInt8) : Edit → List UInt8
  | .entry index hash target => setEntry block countOffset index hash target
  | .count n => setCount block countOffset n

/-- The write, on the index. Entry zero has no hash. -/
def Edit.apply (ix : Index) : Edit → Index
  | .entry index hash target =>
    { ix with entry := Function.update ix.entry index (if index = 0 then 0 else hash, target) }
  | .count n => { ix with count := n }

/-- A write of a place there is room for, with a hash and a block that have room in theirs. -/
def Edit.Fits (limit : Nat) : Edit → Prop
  | .entry index hash target => index < limit ∧ hash < 2 ^ 32 ∧ target < 2 ^ 32
  | .count n => n ≤ limit

instance (limit : Nat) : (e : Edit) → Decidable (e.Fits limit)
  | .entry _ _ _ => inferInstanceAs (Decidable (_ ∧ _ ∧ _))
  | .count _ => inferInstanceAs (Decidable (_ ≤ _))

/-- A block holds an index, with places for `cap` entries, behind its first bytes. -/
structure Represents (block : List UInt8) (blockSize countOffset cap : Nat) (head : List UInt8)
    (ix : Index) : Prop where
  length : block.length = blockSize
  pos : 0 < cap
  room : countOffset + cap * entryLen ≤ blockSize
  limit : getU16 block countOffset = cap
  count : count block countOffset = ix.count
  entries : ∀ i < cap, entryAt block countOffset i = ix.entry i
  head : slice block 0 countOffset = head

section Represents

variable {block : List UInt8} {blockSize countOffset cap : Nat} {head : List UInt8} {ix : Index}
  (h : Represents block blockSize countOffset cap head ix)

include h

/-- What a word put behind the header of the index leaves. -/
theorem Represents.put (off v : Nat) (hlow : countOffset + 4 ≤ off) :
    getU16 (putU32 block off v) countOffset = cap ∧
      Htree.count (putU32 block off v) countOffset = ix.count ∧
      slice (putU32 block off v) 0 countOffset = head := by
  refine ⟨?_, ?_, ?_⟩
  · rw [getU16, slice_putU32_disjoint (Or.inl (by omega))]
    exact h.limit
  · rw [Htree.count, getU16, slice_putU32_disjoint (Or.inl (by omega))]
    exact h.count
  · rw [slice_putU32_disjoint (Or.inl (by omega))]
    exact h.head

/-- The block of an entry is written where it is read, and nowhere else. -/
theorem Represents.putTarget {i target : Nat} (hi : i < cap) (htarget : target < 2 ^ 32) :
    Represents (putU32 block (countOffset + i * entryLen + 4) target) blockSize countOffset cap head
      { ix with entry := Function.update ix.entry i ((ix.entry i).1, target) } := by
  have hroom := h.room
  have hlen := h.length
  obtain ⟨hlimit, hcount, hhead⟩ :=
    h.put (countOffset + i * entryLen + 4) target (by simp only [entryLen]; omega)
  simp only [entryLen] at *
  refine ⟨(length_putU32 _ _ _).trans hlen, h.pos, h.room, hlimit, hcount, fun j hj => ?_, hhead⟩
  have hhash : getU32 (putU32 block (countOffset + i * 8 + 4) target) (countOffset + j * 8) =
      getU32 block (countOffset + j * 8) := getU32_putU32_disjoint (by omega)
  have hold := h.entries j hj
  dsimp only
  by_cases hij : j = i
  · subst hij
    rw [Function.update_self, ← hold]
    simp only [entryAt, entryLen]
    rw [hhash, getU32_putU32 (by omega) htarget]
  · rw [Function.update_of_ne hij, ← hold]
    simp only [entryAt, entryLen]
    rw [hhash, getU32_putU32_disjoint (by omega)]

/-- So is its hash, but for entry zero. -/
theorem Represents.putHash {i hash : Nat} (hpos : 0 < i) (hi : i < cap) (hhash : hash < 2 ^ 32) :
    Represents (putU32 block (countOffset + i * entryLen) hash) blockSize countOffset cap head
      { ix with entry := Function.update ix.entry i (hash, (ix.entry i).2) } := by
  have hroom := h.room
  have hlen := h.length
  simp only [entryLen] at *
  obtain ⟨hlimit, hcount, hhead⟩ := h.put (countOffset + i * 8) hash (by omega)
  refine ⟨(length_putU32 _ _ _).trans hlen, h.pos, h.room, hlimit, hcount, fun j hj => ?_, hhead⟩
  have htarget : getU32 (putU32 block (countOffset + i * 8) hash) (countOffset + j * 8 + 4) =
      getU32 block (countOffset + j * 8 + 4) := getU32_putU32_disjoint (by omega)
  have hold := h.entries j hj
  dsimp only
  by_cases hij : j = i
  · subst hij
    rw [Function.update_self, ← hold]
    simp only [entryAt, entryLen]
    rw [htarget, if_neg hpos.ne', getU32_putU32 (by omega) hhash]
  · rw [Function.update_of_ne hij, ← hold]
    simp only [entryAt, entryLen]
    rw [htarget, getU32_putU32_disjoint (by omega)]

/-- A write to the block does to its index what it says. -/
theorem Represents.edit {e : Edit} (he : e.Fits cap) :
    Represents (e.write countOffset block) blockSize countOffset cap head (e.apply ix) := by
  cases e with
  | entry index hash target =>
    obtain ⟨hindex, hhash, htarget⟩ := he
    unfold Edit.write Edit.apply setEntry
    dsimp only
    rcases Nat.eq_zero_or_pos index with rfl | hfar
    · have hzero : (ix.entry 0).1 = 0 := by rw [← h.entries 0 hindex]; rfl
      have hput := h.putTarget hindex htarget
      rw [hzero] at hput
      exact hput
    · have hput := (h.putHash hfar hindex hhash).putTarget hindex htarget
      dsimp only at hput
      rw [Function.update_self, Function.update_idem] at hput
      rw [if_pos hfar, if_neg hfar.ne']
      exact hput
  | count n =>
    have hroom := h.room
    have hlen := h.length
    have hpos := h.pos
    simp only [entryLen] at hroom
    refine ⟨(length_putU16 _ _ _).trans hlen, hpos, h.room, ?_, ?_, fun j hj => ?_, ?_⟩
    · rw [← h.limit]
      exact congrArg ofLe (slice_putU16_disjoint (Or.inl (Nat.le_refl _)))
    · have hn : n < 2 ^ 16 := Nat.lt_of_le_of_lt he (h.limit ▸ getU16_lt block countOffset)
      have hself : slice (putU16 block (countOffset + 2) n) (countOffset + 2) 2 = toLe 2 n :=
        slice_putU16_self (by omega)
      exact (congrArg ofLe hself).trans (Lib.Endian.ofLe_toLe_of_lt hn)
    · refine Eq.trans ?_ (h.entries j hj)
      simp only [Edit.write, setCount, entryAt, entryLen]
      rw [@getU32_putU16_disjoint _ _ (countOffset + j * 8 + 4) n (by omega)]
      split
      · rfl
      · rw [getU32_putU16_disjoint (by omega)]
    · rw [← h.head]
      exact slice_putU16_disjoint (Or.inl (by omega))

end Represents

/-- A run of writes, in any order, leaves the index they describe. -/
theorem Represents.edits {blockSize countOffset cap : Nat} {head : List UInt8} {es : List Edit}
    (hfits : ∀ e ∈ es, e.Fits cap) {block : List UInt8} {ix : Index}
    (h : Represents block blockSize countOffset cap head ix) :
    Represents (es.foldl (Edit.write countOffset) block) blockSize countOffset cap head
      (es.foldl Edit.apply ix) := by
  induction es generalizing block ix with
  | nil => exact h
  | cons e es ih =>
    obtain ⟨he, hfits⟩ := List.forall_mem_cons.mp hfits
    exact ih hfits (h.edit he)

/-- No more entries count than there are places. -/
theorem count_edits_le {cap : Nat} {es : List Edit} (hfits : ∀ e ∈ es, e.Fits cap) {ix : Index}
    (h : ix.count ≤ cap) : (es.foldl Edit.apply ix).count ≤ cap := by
  induction es generalizing ix with
  | nil => exact h
  | cons e es ih =>
    obtain ⟨he, hfits⟩ := List.forall_mem_cons.mp hfits
    refine ih hfits ?_
    cases e with
    | entry index hash target => exact h
    | count n => exact he

/-! ## The checksum -/

section Stamp

variable {block : List UInt8} {blockSize countOffset cap : Nat} {head : List UInt8} {ix : Index}
  (h : Represents block blockSize countOffset cap head ix)

include h

/-- Without room for a tail nothing is stamped, and nothing is verified. -/
theorem Represents.stamp_none (hfull : blockSize < countOffset + cap * entryLen + tailLen)
    (seed : UInt32) (inum generation : Nat) :
    stampCsum block blockSize seed inum generation countOffset = block ∧
      csum block blockSize seed inum generation countOffset = none := by
  have hnone : computeCsum block blockSize seed inum generation countOffset = none := by
    unfold computeCsum
    dsimp only
    rw [h.limit, if_pos (Or.inl hfull)]
  rw [csum_eq, stampCsum, hnone]
  exact ⟨rfl, rfl⟩

/-- With room the checksum goes behind the index, and is the one that is computed. -/
theorem Represents.stamp_some (hcount : ix.count ≤ cap)
    (hroom : countOffset + cap * entryLen + tailLen ≤ blockSize)
    (seed : UInt32) (inum generation : Nat) :
    Represents (stampCsum block blockSize seed inum generation countOffset) blockSize countOffset cap
        head ix ∧
      ∃ c, csum (stampCsum block blockSize seed inum generation countOffset) blockSize seed inum
        generation countOffset = some (c, c) := by
  have hlen := h.length
  have hpos := h.pos
  have hused : countOffset + ix.count * entryLen ≤ countOffset + cap * entryLen :=
    Nat.add_le_add_left (Nat.mul_le_mul_right _ hcount) _
  have hcompute : ∀ buf : List UInt8, buf.length = blockSize → getU16 buf countOffset = cap →
      Htree.count buf countOffset = ix.count →
      slice buf 0 (countOffset + cap * entryLen + 4) =
        slice block 0 (countOffset + cap * entryLen + 4) →
      computeCsum buf blockSize seed inum generation countOffset =
        computeCsum block blockSize seed inum generation countOffset := by
    intro buf hbuf hlimit hcount' hsame
    unfold computeCsum
    dsimp only
    rw [hlimit, hcount', h.limit, h.count, hbuf, hlen]
    have htake : buf.take (countOffset + ix.count * entryLen) =
        block.take (countOffset + ix.count * entryLen) :=
      @slice_congr_take _ buf block _ 0 _ hsame (by omega)
    have htail : slice buf (countOffset + cap * entryLen) 4 =
        slice block (countOffset + cap * entryLen) 4 :=
      slice_congr_take hsame (Nat.le_refl _)
    rw [htake, htail]
  obtain ⟨crc, hcrc, hblock⟩ : ∃ crc < 2 ^ 32,
      computeCsum block blockSize seed inum generation countOffset =
        some (countOffset + cap * entryLen, crc) := by
    unfold computeCsum
    dsimp only
    rw [h.limit, h.count, hlen, if_neg (by omega)]
    exact ⟨_, UInt32.toNat_lt _, rfl⟩
  rw [stampCsum, hblock]
  dsimp only
  simp only [entryLen, tailLen] at *
  obtain ⟨hlimit, hcount', hhead⟩ := h.put (countOffset + cap * 8 + 4) crc (by omega)
  have hstamped : (putU32 block (countOffset + cap * 8 + 4) crc).length = blockSize :=
    (length_putU32 _ _ _).trans hlen
  refine ⟨⟨hstamped, hpos, h.room, hlimit, hcount', fun j hj => ?_, hhead⟩, crc, ?_⟩
  · refine Eq.trans ?_ (h.entries j hj)
    simp only [entryAt, entryLen]
    rw [@getU32_putU32_disjoint _ _ (countOffset + j * 8 + 4) crc (by omega)]
    split
    · rfl
    · rw [getU32_putU32_disjoint (by omega)]
  · rw [csum_eq, hcompute _ hstamped hlimit hcount' (slice_putU32_disjoint (Or.inl (by omega))),
      hblock]
    exact congrArg (fun stored => some (stored, crc)) (getU32_putU32 (by omega) hcrc)

end Stamp

/-! ## Blocks from their building on -/

section Built

variable {blockSize : Nat} {hasCsum : Bool} {es : List Edit}
  (hsize : ∃ k, blockSize = 2 ^ k ∧ 10 ≤ k ∧ k ≤ 16)

include hsize

/-- The places of an index take what is behind its start, but for the tail. -/
theorem limit_bounds {countOffset : Nat} (hoff : countOffset = rootCountOffset ∨
    countOffset = nodeCountOffset) : 0 < limit blockSize countOffset hasCsum ∧
      countOffset + limit blockSize countOffset hasCsum * entryLen ≤ blockSize ∧
      if hasCsum then countOffset + limit blockSize countOffset hasCsum * entryLen + tailLen ≤ blockSize
      else blockSize < countOffset + limit blockSize countOffset hasCsum * entryLen + tailLen := by
  obtain ⟨k, rfl, hlow, hhigh⟩ := hsize
  have hlo : 1024 ≤ 2 ^ k := Nat.pow_le_pow_right Nat.two_pos hlow
  have hhi : 2 ^ k ≤ 65536 := Nat.pow_le_pow_right Nat.two_pos hhigh
  unfold limit
  simp only [rootCountOffset, nodeCountOffset, entryLen, tailLen] at *
  cases hasCsum <;> simp only [if_true, if_false, Bool.false_eq_true] <;> omega

end Built

/-- A block behind whose first bytes there are only a limit and zeroes holds an empty index. -/
theorem represents_empty {blockSize countOffset cap : Nat} {head : List UInt8} {block : List UInt8}
    (hlen : block.length = blockSize) (hpos : 0 < cap) (hroom : countOffset + cap * entryLen ≤ blockSize)
    (hlimit : getU16 block countOffset = cap) (hcount : getU16 block (countOffset + 2) = 0)
    (hzero : ∀ off, countOffset + 4 ≤ off → getU32 block off = 0)
    (hhead : slice block 0 countOffset = head) :
    Represents block blockSize countOffset cap head .empty := by
  refine ⟨hlen, hpos, hroom, hlimit, hcount, fun i _ => ?_, hhead⟩
  simp only [entryAt, entryLen, Index.empty]
  rw [hzero (countOffset + i * 8 + 4) (by omega)]
  split
  · rfl
  · rw [hzero _ (by omega)]

/-- What the readers of an index block find in it. -/
theorem Represents.reads {block : List UInt8} {blockSize countOffset cap : Nat} {head : List UInt8}
    {ix : Index} (h : Represents block blockSize countOffset cap head ix) (hcount : ix.count ≤ cap) :
    Htree.entries block countOffset = (List.range ix.count).map ix.entry ∧
      ∀ hash, 0 < ix.count → find block countOffset hash =
        .ok (position hash (((List.range ix.count).map ix.entry).drop 1)) := by
  have hentries : Htree.entries block countOffset = (List.range ix.count).map ix.entry := by
    rw [Htree.entries, h.count]
    exact List.map_congr_left fun i hi =>
      h.entries i (Nat.lt_of_lt_of_le (List.mem_range.mp hi) hcount)
  refine ⟨hentries, fun hash hpos => ?_⟩
  rw [← hentries]
  refine find_ok ⟨by rwa [h.count], ?_⟩ hash
  rw [h.count, h.length]
  exact Nat.le_trans (Nat.add_le_add_left (Nat.mul_le_mul_right _ hcount) _) h.room

/-- What a stamped block of a run of writes is to its readers. -/
structure Reads (block : List UInt8) (blockSize countOffset : Nat) (hasCsum : Bool) (seed : UInt32)
    (inum generation : Nat) (ix : Index) : Prop where
  entries : entries block countOffset = (List.range ix.count).map ix.entry
  find : ∀ hash, 0 < ix.count → find block countOffset hash =
    .ok (position hash (((List.range ix.count).map ix.entry).drop 1))
  csum : ∃ c, csum block blockSize seed inum generation countOffset =
    if hasCsum then some (c, c) else none

/-- From an empty index on, writes in any order and the checksum after them. -/
theorem Represents.stamped {blockSize countOffset : Nat} {hasCsum : Bool} {head block : List UInt8}
    {es : List Edit} (hsize : ∃ k, blockSize = 2 ^ k ∧ 10 ≤ k ∧ k ≤ 16)
    (hoff : countOffset = rootCountOffset ∨ countOffset = nodeCountOffset)
    (h : Represents block blockSize countOffset (Htree.limit blockSize countOffset hasCsum) head .empty)
    (hfits : ∀ e ∈ es, e.Fits (Htree.limit blockSize countOffset hasCsum)) (seed : UInt32)
    (inum generation : Nat) : ∀ stamped, stamped = stampCsum (es.foldl (Edit.write countOffset) block)
        blockSize seed inum generation countOffset →
      stamped.length = blockSize ∧ slice stamped 0 countOffset = head ∧
        Reads stamped blockSize countOffset hasCsum seed inum generation
          (es.foldl Edit.apply .empty) := by
  rintro stamped rfl
  obtain ⟨-, -, htail⟩ := @limit_bounds blockSize hasCsum hsize countOffset hoff
  have hedited := h.edits hfits
  have hcount := @count_edits_le _ es hfits .empty (Nat.zero_le _)
  cases hasCsum with
  | true =>
    obtain ⟨hstamped, c, hc⟩ := hedited.stamp_some hcount htail seed inum generation
    obtain ⟨hentries, hfind⟩ := hstamped.reads hcount
    exact ⟨hstamped.length, hstamped.head, hentries, hfind, c, hc⟩
  | false =>
    obtain ⟨hsame, hnone⟩ := hedited.stamp_none htail seed inum generation
    obtain ⟨hentries, hfind⟩ := hedited.reads hcount
    rw [hsame]
    exact ⟨hedited.length, hedited.head, hentries, hfind, 0, hnone⟩

/-- Fields in front of an index, and its header: they stand, and the index is empty. -/
theorem represents_built {blockSize countOffset cap : Nat} {front : List Field}
    (hfront : ∀ f ∈ front, f.off + f.width ≤ countOffset)
    (hapart : (front.map Field.place).Pairwise Apart) (hpos : 0 < cap) (hsmall : cap < 2 ^ 16)
    (hroom : countOffset + cap * entryLen ≤ blockSize) : ∀ block,
      block = writeAll (List.replicate blockSize 0)
        (front ++ [.num countOffset 2 cap, .num (countOffset + 2) 2 0]) →
      Represents block blockSize countOffset cap (slice block 0 countOffset) .empty ∧
        ∀ f ∈ front, slice block f.off f.width = f.bytes := by
  rintro block rfl
  simp only [entryLen] at hroom
  have hends : ∀ f ∈ front ++ [.num countOffset 2 cap, .num (countOffset + 2) 2 0],
      f.off + f.width ≤ countOffset + 4 := by
    intro f hf
    rcases List.mem_append.mp hf with hf | hf
    · exact Nat.le_add_right_of_le (hfront f hf)
    · simp only [List.mem_cons, List.not_mem_nil, or_false] at hf
      rcases hf with rfl | rfl <;> simp [Field.num]
  have hplaces : ((front ++ [Field.num countOffset 2 cap, Field.num (countOffset + 2) 2 0]).map
      Field.place).Pairwise Apart := by
    rw [List.map_append, List.pairwise_append]
    refine ⟨hapart, by simp [Field.place, Field.num, Apart], ?_⟩
    intro p hp q hq
    obtain ⟨f, hf, rfl⟩ := List.mem_map.mp hp
    have hf := hfront f hf
    simp only [List.map_cons, List.map_nil, List.mem_cons, List.not_mem_nil, or_false] at hq
    rcases hq with rfl | rfl <;> simp only [Apart, Field.place, Field.num] <;> omega
  have hstands : ∀ f ∈ front ++ [.num countOffset 2 cap, .num (countOffset + 2) 2 0],
      slice (writeAll (List.replicate blockSize 0) (front ++ [.num countOffset 2 cap,
        .num (countOffset + 2) 2 0])) f.off f.width = f.bytes := by
    intro f hf
    obtain ⟨i, hi⟩ := List.mem_iff_getElem?.mp hf
    refine slice_writeAll rfl hplaces hi (Nat.le_trans (hends f hf) ?_)
    rw [List.length_replicate]
    omega
  refine ⟨represents_empty ?_ hpos (by simpa only [entryLen] using hroom) ?_ ?_ (fun off hoff => ?_)
    rfl, fun f hf => hstands f (List.mem_append_left _ hf)⟩
  · rw [length_writeAll, List.length_replicate]
  · have hmem : Field.num countOffset 2 cap ∈ front ++ [Field.num countOffset 2 cap,
      Field.num (countOffset + 2) 2 0] := by simp
    exact (ofLe_slice_of_stands hstands hmem).trans (Nat.mod_eq_of_lt hsmall)
  · have hmem : Field.num (countOffset + 2) 2 0 ∈ front ++ [Field.num countOffset 2 cap,
      Field.num (countOffset + 2) 2 0] := by simp
    exact ofLe_slice_of_stands hstands hmem
  · rw [getU32, slice_writeAll_outside fun f hf => Or.inr (Nat.le_trans (hends f hf) hoff), ← getU32,
      getU32_zeroes]

/-! ### A root -/

/-- What is in front of the index of a root. -/
def rootHead (blockSize ino parent ft hashVersion indirectLevels : Nat) : List Field :=
  [.num 0 4 ino, .num 4 2 12, .num 6 1 1, .num 7 1 ft, .num 8 1 0x2e, .num 12 4 parent,
    .num 16 2 (blockSize - 12), .num 18 1 2, .num 19 1 ft, .num 20 1 0x2e, .num 21 1 0x2e,
    .num 24 4 0, .num 28 1 hashVersion, .num 29 1 rootInfoLen, .num 30 1 indirectLevels, .num 31 1 0]

theorem buildRoot_eq (blockSize ino parent hashVersion indirectLevels : Nat)
    (filetype hasCsum : Bool) :
    buildRoot blockSize ino parent hashVersion indirectLevels filetype hasCsum =
      writeAll (List.replicate blockSize 0)
        (rootHead blockSize ino parent (if filetype then FileType.dir else 0) hashVersion
          indirectLevels ++ [.num 32 2 (limit blockSize rootCountOffset hasCsum), .num 34 2 0]) := rfl

section Root

variable {blockSize ino parent ft hashVersion indirectLevels : Nat} {block : List UInt8}
  (hlen : block.length = blockSize) (hlow : 1024 ≤ blockSize) (hhigh : blockSize ≤ 65536)
  (hstands : ∀ f ∈ rootHead blockSize ino parent ft hashVersion indirectLevels,
    slice block f.off f.width = f.bytes)

include hstands

theorem root_word {off width v : Nat}
    (hf : .num off width v ∈ rootHead blockSize ino parent ft hashVersion indirectLevels)
    (hv : v < 256 ^ width) : ofLe (slice block off width) = v :=
  (ofLe_slice_of_stands hstands hf).trans (Nat.mod_eq_of_lt hv)

theorem root_byte {off v : Nat}
    (hf : .num off 1 v ∈ rootHead blockSize ino parent ft hashVersion indirectLevels)
    (hv : v < 2 ^ 8) : getU8 block off = v :=
  (getU8_of_slice (hstands _ hf)).trans (Nat.mod_eq_of_lt hv)

include hlen hlow hhigh

/-- A block with this front is a root. -/
theorem countOffset_root : countOffset block blockSize = some rootCountOffset := by
  have hrec : getU16 block 4 = 12 := root_word hstands (by simp [rootHead]) (by decide)
  have hrest : getU16 block 16 = blockSize - 12 :=
    root_word hstands (by simp [rootHead]) (by omega)
  have hzero : getU32 block rootInfoOffset = 0 :=
    root_word hstands (by simp [rootHead, rootInfoOffset]) (by decide)
  have hinfo : getU8 block (rootInfoOffset + 5) = rootInfoLen :=
    root_byte hstands (by simp [rootHead, rootInfoOffset]) (by decide)
  unfold countOffset
  dsimp only
  rw [hlen, hrec, hrest, hzero, hinfo, if_neg (by rw [rootCountOffset]; omega), if_neg (by omega),
    if_pos rfl, if_neg (not_not_intro rfl), if_neg (by simp)]

/-- A linear reader of it finds the two entries of every directory and no others. -/
theorem parseBlock_root (hino : ino < 2 ^ 32) (hparent : parent < 2 ^ 32) (hft : ft < 2 ^ 8) :
    Dirent.parseBlock block = .ok [{ inode := ino, recLen := 12, fileType := ft, name := [0x2e] },
      { inode := parent, recLen := blockSize - 12, fileType := ft, name := [0x2e, 0x2e] }] := by
  have hdot : DirEntry.decode block =
      .ok { inode := ino, recLen := 12, fileType := ft, name := [0x2e] } := by
    refine Dirent.decode_of_fields (by show 8 + 1 ≤ 12; decide) (by dsimp only; omega) ?_ ?_ ?_ ?_ ?_
    · exact root_word hstands (by simp [rootHead]) hino
    · exact root_word hstands (by simp [rootHead]) (by show 12 < 256 ^ 2; decide)
    · exact root_byte hstands (by simp [rootHead]) (by show 1 < 2 ^ 8; decide)
    · exact root_byte hstands (by simp [rootHead]) hft
    · exact hstands (.num 8 1 0x2e) (by simp [rootHead])
  have hdotdot : DirEntry.decode (block.drop 12) =
      .ok { inode := parent, recLen := blockSize - 12, fileType := ft, name := [0x2e, 0x2e] } := by
    have hbyte : ∀ {off v : Nat}, .num (12 + off) 1 v ∈ rootHead blockSize ino parent ft hashVersion
        indirectLevels → v < 2 ^ 8 → getU8 (block.drop 12) off = v := fun hf hv =>
      (getU8_of_slice ((Dirent.slice_drop _ _ _ _).trans (hstands _ hf))).trans (Nat.mod_eq_of_lt hv)
    refine Dirent.decode_of_fields (by show 8 + 2 ≤ blockSize - 12; omega) ?_ ?_ ?_ ?_ ?_ ?_
    · rw [List.length_drop, hlen]
    · rw [getU32, Dirent.slice_drop]
      exact root_word hstands (by simp [rootHead]) hparent
    · rw [getU16, Dirent.slice_drop]
      exact root_word hstands (by simp [rootHead]) (by dsimp only; omega)
    · exact hbyte (by simp [rootHead]) (by show 2 < 2 ^ 8; decide)
    · exact hbyte (by simp [rootHead]) hft
    · have hfirst : slice block 20 1 = [0x2e] := hstands (.num 20 1 0x2e) (by simp [rootHead])
      have hsecond : slice block (20 + 1) 1 = [0x2e] := hstands (.num 21 1 0x2e) (by simp [rootHead])
      rw [Dirent.slice_drop]
      refine (slice_add block 20 1 1).trans ?_
      rw [hfirst, hsecond]
      rfl
  have hend : (block.drop 12).drop (blockSize - 12) = [] := by
    rw [List.drop_drop]
    exact List.drop_of_length_le (by omega)
  rw [Dirent.parseBlock_cons hdot]
  dsimp only
  rw [Dirent.parseBlock_cons hdotdot]
  dsimp only
  rw [hend]
  rfl

end Root

/-- A root block, after any run of writes to its index within its limit and the checksum: it is
still a root of its hash version and levels, its index is what the writes say, a search of it is a
search of that index, the stored checksum is the computed one where there is room for it, and a
linear reader finds "." and "..". -/
theorem root_edited {blockSize ino parent hashVersion indirectLevels : Nat} {filetype hasCsum : Bool}
    {es : List Edit} (hsize : ∃ k, blockSize = 2 ^ k ∧ 10 ≤ k ∧ k ≤ 16) (hino : ino < 2 ^ 32)
    (hparent : parent < 2 ^ 32) (hversion : hashVersion < 2 ^ 8) (hlevels : indirectLevels < 2 ^ 8)
    (hfits : ∀ e ∈ es, e.Fits (limit blockSize rootCountOffset hasCsum)) (seed : UInt32)
    (inum generation : Nat) : ∀ block, block = stampCsum (es.foldl (Edit.write rootCountOffset)
        (buildRoot blockSize ino parent hashVersion indirectLevels filetype hasCsum))
        blockSize seed inum generation rootCountOffset →
      countOffset block blockSize = some rootCountOffset ∧ rootHashVersion block = hashVersion ∧
        Htree.indirectLevels block = indirectLevels ∧
        Reads block blockSize rootCountOffset hasCsum seed inum generation
          (es.foldl Edit.apply .empty) ∧
        ∃ dot dotdot, Dirent.parseBlock block = .ok [dot, dotdot] ∧
          (dot.inode, dot.name) = (ino, [0x2e]) ∧
          (dotdot.inode, dotdot.name) = (parent, [0x2e, 0x2e]) := by
  intro block hblock
  obtain ⟨hpos, hroom, -⟩ := @limit_bounds blockSize hasCsum hsize rootCountOffset (Or.inl rfl)
  have hbounds : 1024 ≤ blockSize ∧ blockSize ≤ 65536 := by
    obtain ⟨k, rfl, hlow, hhigh⟩ := hsize
    exact ⟨Nat.pow_le_pow_right Nat.two_pos hlow, Nat.pow_le_pow_right Nat.two_pos hhigh⟩
  obtain ⟨hlow, hhigh⟩ := hbounds
  have hft : (if filetype then FileType.dir else 0) < 2 ^ 8 := by cases filetype <;> decide
  have hfront : ∀ f ∈ rootHead blockSize ino parent (if filetype then FileType.dir else 0) hashVersion
      indirectLevels, f.off + f.width ≤ rootCountOffset := by
    simp [rootHead, Field.num, rootCountOffset]
  have hapart : ((rootHead blockSize ino parent (if filetype then FileType.dir else 0) hashVersion
      indirectLevels).map Field.place).Pairwise Apart := by
    show List.Pairwise Apart [(0, 4), (4, 2), (6, 1), (7, 1), (8, 1), (12, 4), (16, 2), (18, 1),
      (19, 1), (20, 1), (21, 1), (24, 4), (28, 1), (29, 1), (30, 1), (31, 1)]
    decide
  obtain ⟨hbuilt, hstands⟩ := represents_built hfront hapart hpos (Nat.mod_lt _ (by decide)) hroom _
    (buildRoot_eq blockSize ino parent hashVersion indirectLevels filetype hasCsum)
  obtain ⟨hlen, hhead, hreads⟩ := hbuilt.stamped hsize (Or.inl rfl) hfits seed inum generation _ hblock
  have hstands' : ∀ f ∈ rootHead blockSize ino parent (if filetype then FileType.dir else 0)
      hashVersion indirectLevels, slice block f.off f.width = f.bytes := fun f hf =>
    (slice_congr_take hhead (hfront f hf)).trans (hstands f hf)
  refine ⟨countOffset_root hlen hlow hhigh hstands', ?_, ?_, hreads, _, _,
    parseBlock_root hlen hlow hhigh hstands' hino hparent hft, rfl, rfl⟩
  · exact root_byte hstands' (by simp [rootHead, rootInfoOffset]) hversion
  · exact root_byte hstands' (by simp [rootHead, rootInfoOffset]) hlevels

/-! ### A node -/

theorem buildNode_eq (blockSize : Nat) (hasCsum : Bool) : buildNode blockSize hasCsum =
    writeAll (List.replicate blockSize 0) ([.num 0 4 0, .num 4 2 blockSize] ++
      [.num 8 2 (limit blockSize nodeCountOffset hasCsum), .num 10 2 0]) := rfl

/-- A node block, after any run of writes to its index within its limit and the checksum: its index
is what the writes say, and a search of it a search of that index. It is known as a node, and empty
to a linear reader, unless its size does not fit the length of its one entry. -/
theorem node_edited {blockSize : Nat} {hasCsum : Bool} {es : List Edit}
    (hsize : ∃ k, blockSize = 2 ^ k ∧ 10 ≤ k ∧ k ≤ 16)
    (hfits : ∀ e ∈ es, e.Fits (limit blockSize nodeCountOffset hasCsum)) (seed : UInt32)
    (inum generation : Nat) : ∀ block, block = stampCsum (es.foldl (Edit.write nodeCountOffset)
        (buildNode blockSize hasCsum)) blockSize seed inum generation nodeCountOffset →
      Reads block blockSize nodeCountOffset hasCsum seed inum generation
        (es.foldl Edit.apply .empty) ∧
      (countOffset block blockSize = some nodeCountOffset ↔ blockSize < 65536) ∧
      (blockSize < 65536 → ∃ e, Dirent.parseBlock block = .ok [e] ∧ e.inode = 0) := by
  intro block hblock
  obtain ⟨hpos, hroom, -⟩ := @limit_bounds blockSize hasCsum hsize nodeCountOffset (Or.inr rfl)
  have hbounds : 1024 ≤ blockSize ∧ blockSize ≤ 65536 := by
    obtain ⟨k, rfl, hlow, hhigh⟩ := hsize
    exact ⟨Nat.pow_le_pow_right Nat.two_pos hlow, Nat.pow_le_pow_right Nat.two_pos hhigh⟩
  obtain ⟨hlow, hhigh⟩ := hbounds
  have hfront : ∀ f ∈ [Field.num 0 4 0, .num 4 2 blockSize], f.off + f.width ≤ nodeCountOffset := by
    simp [Field.num, nodeCountOffset]
  have hapart : ([Field.num 0 4 0, .num 4 2 blockSize].map Field.place).Pairwise Apart := by
    show List.Pairwise Apart [(0, 4), (4, 2)]
    decide
  obtain ⟨hbuilt, hstands⟩ := represents_built hfront hapart hpos (Nat.mod_lt _ (by decide)) hroom _
    (buildNode_eq blockSize hasCsum)
  have hname : slice (buildNode blockSize hasCsum) 6 2 = [0, 0] := by
    rw [buildNode_eq, slice_writeAll_outside, slice, List.drop_replicate, List.take_replicate,
      Nat.min_eq_left (by omega)]
    · rfl
    · simp [Apart, Field.place, Field.num]
  obtain ⟨hlen, hhead, hreads⟩ := hbuilt.stamped hsize (Or.inr rfl) hfits seed inum generation _ hblock
  have hsame : ∀ pos n, pos + n ≤ 8 → slice block pos n = slice (buildNode blockSize hasCsum) pos n :=
    fun pos n hin => slice_congr_take (show block.take 8 = (buildNode _ _).take 8 from hhead) hin
  have hrec : getU16 block 4 = blockSize % 2 ^ 16 := by
    have hword := ofLe_slice_of_stands hstands (by simp : Field.num 4 2 blockSize ∈ _)
    rw [getU16, hsame 4 2 (by decide)]
    exact hword
  have hbyte : ∀ i < 2, getU8 block (6 + i) = 0 := by
    intro i hi
    rw [getU8, ← getD_slice block 6 2 i 0 hi, hsame 6 2 (by decide), hname]
    rcases i with _ | _ | i
    · rfl
    · rfl
    · omega
  refine ⟨hreads, ?_, fun hsmall => ⟨{ inode := 0, recLen := blockSize, fileType := 0, name := [] },
    ?_, rfl⟩⟩
  · unfold countOffset
    dsimp only
    rw [hlen, hrec, hbyte 0 Nat.two_pos, if_neg (by rw [rootCountOffset]; omega)]
    rcases Nat.lt_or_ge blockSize (2 ^ 16) with hsmall | hlarge
    · rw [Nat.mod_eq_of_lt hsmall, if_pos ⟨rfl, rfl⟩]
      exact iff_of_true rfl hsmall
    · obtain rfl : blockSize = 65536 := Nat.le_antisymm hhigh hlarge
      exact iff_of_false (Option.some_ne_none _).symm (Nat.lt_irrefl _)
  · have hdecode : DirEntry.decode block =
        .ok { inode := 0, recLen := blockSize, fileType := 0, name := [] } := by
      refine Dirent.decode_of_fields (by dsimp only [Dirent.entryHeaderLen, List.length_nil]; omega)
        hlen.ge ?_ ?_ (hbyte 0 Nat.two_pos) (hbyte 1 Nat.one_lt_two) List.take_zero
      · rw [getU32, hsame 0 4 (by decide)]
        exact ofLe_slice_of_stands hstands (by simp : Field.num 0 4 0 ∈ _)
      · rw [hrec]
        exact Nat.mod_eq_of_lt hsmall
    rw [Dirent.parseBlock_cons hdecode]
    dsimp only
    rw [List.drop_of_length_le hlen.le]
    rfl

/-- Three entries, the first of them set again, and counted. -/
def someEdits : List Edit :=
  [.entry 0 7 10, .count 2, .entry 2 0x8000 12, .entry 1 0x4000 11, .entry 0 0 9, .count 3]

theorem root_edited_three : ∃ block, countOffset block 1024 = some rootCountOffset ∧
    entries block rootCountOffset = [(0, 9), (0x4000, 11), (0x8000, 12)] ∧
    find block rootCountOffset 0x7fff = .ok 1 := by
  obtain ⟨hroot, -, -, hreads, -⟩ := @root_edited 1024 12 2 1 0 true true someEdits
    ⟨10, rfl, by decide, by decide⟩ (by decide) (by decide) (by decide) (by decide) (by decide) 7 12 0
    _ rfl
  exact ⟨_, hroot, hreads.entries, hreads.find 0x7fff (by decide)⟩

theorem node_edited_three : ∃ block, countOffset block 1024 = some nodeCountOffset ∧
    entries block nodeCountOffset = [(0, 9), (0x4000, 11), (0x8000, 12)] := by
  obtain ⟨hreads, hnode, -⟩ := @node_edited 1024 true someEdits ⟨10, rfl, by decide, by decide⟩
    (by decide) 7 12 0 _ rfl
  exact ⟨_, hnode.mpr (by decide), hreads.entries⟩

end Htree

end MkfsExt4
