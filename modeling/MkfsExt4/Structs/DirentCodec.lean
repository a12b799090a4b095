/-
  Directory blocks that were built are read back (`src/structs/dirent.rs`).

  A block is its records one after another (`putRecords`), the last of them stretched to the end
  or to the tail. `parseBlock_laid` reads records that stand in a block, and `chainEndsAt_iff`
  says where the walk over their lengths can stop: at their ends. `buildBlock_roundTrip` puts the
  two together for every block that can be built, its checksum included.
-/
import MkfsExt4.Lib.Hoare
import MkfsExt4.Lib.Record
import MkfsExt4.Structs.Dirent

namespace MkfsExt4

open Lib.Store Lib.Endian Lib.Hoare Lib.Record

namespace Dirent

/-! ## What parsing checks -/

/-- Bytes the records of a list of entries take. -/
def recordsLen (entries : List DirEntry) : Nat := (entries.map DirEntry.recLen).sum

/-- What decoding an entry checks. -/
theorem decode_ok {buf : List UInt8} {e : DirEntry} (h : DirEntry.decode buf = .ok e) :
    entryHeaderLen ≤ e.recLen ∧ e.recLen ≤ buf.length ∧ e.recLen = getU16 buf 4 ∧
      e.inode = getU32 buf 0 ∧ e.name = slice buf entryHeaderLen (getU8 buf 6) ∧
      entryHeaderLen + getU8 buf 6 ≤ e.recLen := by
  unfold DirEntry.decode at h
  dsimp only at h
  split at h
  · cases h
  split at h
  · cases h
  split at h
  · cases h
  · obtain rfl := Except.ok.inj h
    dsimp only
    exact ⟨by omega, by omega, rfl, rfl, rfl, by omega⟩

theorem parseFrom_fuel {fuel fuel' : Nat} {buf : List UInt8} (h : buf.length ≤ fuel)
    (h' : buf.length ≤ fuel') : parseFrom fuel buf = parseFrom fuel' buf := by
  induction fuel generalizing fuel' buf with
  | zero =>
    cases fuel' with
    | zero => rfl
    | succ fuel' => rw [parseFrom, parseFrom, if_pos (Nat.lt_of_le_of_lt h (by decide))]
  | succ fuel ih =>
    cases fuel' with
    | zero => rw [parseFrom, parseFrom, if_pos (Nat.lt_of_le_of_lt h' (by decide))]
    | succ fuel' =>
      rw [parseFrom, parseFrom]
      split
      · rfl
      · next hlen =>
        cases hdec : DirEntry.decode buf with
        | error e => rfl
        | ok e =>
          have hrec := (decode_ok hdec).1
          rw [entryHeaderLen] at hlen hrec
          have hdrop : (buf.drop e.recLen).length = buf.length - e.recLen := List.length_drop
          have hrest : parseFrom fuel (buf.drop e.recLen) = parseFrom fuel' (buf.drop e.recLen) :=
            ih (by omega) (by omega)
          show (parseFrom fuel (buf.drop e.recLen) >>= _) = (parseFrom fuel' (buf.drop e.recLen) >>= _)
          rw [hrest]

/-- The parse loop, one entry at a time. -/
theorem parseBlock_ok {buf : List UInt8} {entries : List DirEntry}
    (h : parseBlock buf = .ok entries) :
    (buf.length < entryHeaderLen ∧ entries = []) ∨
      ∃ e rest, entries = e :: rest ∧ entryHeaderLen ≤ buf.length ∧
        DirEntry.decode buf = .ok e ∧ parseBlock (buf.drop e.recLen) = .ok rest := by
  unfold parseBlock at h
  cases hlen : buf.length with
  | zero =>
    rw [hlen, parseFrom] at h
    exact Or.inl ⟨by decide, (Except.ok.inj h).symm⟩
  | succ n =>
    rw [hlen, parseFrom] at h
    split at h
    · next hshort => exact Or.inl ⟨by omega, (Except.ok.inj h).symm⟩
    · next hlong =>
      obtain ⟨e, hdec, h⟩ := bind_ok h
      obtain ⟨rest, hrest, h⟩ := bind_ok h
      have hrec := (decode_ok hdec).1
      rw [entryHeaderLen] at hrec
      refine Or.inr ⟨e, rest, (Except.ok.inj h).symm, by omega, hdec, ?_⟩
      rw [parseBlock, ← hrest]
      exact parseFrom_fuel (Nat.le_refl _) (by rw [List.length_drop]; omega)

theorem recordsLen_le {buf : List UInt8} {entries : List DirEntry}
    (h : parseBlock buf = .ok entries) : recordsLen entries ≤ buf.length := by
  induction entries generalizing buf with
  | nil => exact Nat.zero_le _
  | cons e entries ih =>
    rcases parseBlock_ok h with ⟨-, hnil⟩ | ⟨e', rest, heq, -, hdec, hrest⟩
    · cases hnil
    · obtain ⟨rfl, rfl⟩ := List.cons.inj heq
      have hle := (decode_ok hdec).2.1
      have := ih hrest
      rw [List.length_drop] at this
      rw [recordsLen, List.map_cons, List.sum_cons, ← recordsLen]
      omega

/-- One entry of the parse loop. -/
theorem parseBlock_cons {buf : List UInt8} {e : DirEntry} (h : DirEntry.decode buf = .ok e) :
    parseBlock buf = (do return e :: (← parseBlock (buf.drop e.recLen))) := by
  obtain ⟨hlo, hhi, -⟩ := decode_ok h
  rw [entryHeaderLen] at hlo
  obtain ⟨n, hn⟩ : ∃ n, buf.length = n + 1 := ⟨buf.length - 1, by omega⟩
  have hrest : parseFrom n (buf.drop e.recLen) = parseBlock (buf.drop e.recLen) :=
    parseFrom_fuel (by rw [List.length_drop]; omega) (Nat.le_refl _)
  rw [parseBlock, hn, parseFrom, if_neg (by rw [entryHeaderLen]; omega), h, ← hrest]
  rfl

/-! ## Blocks that can be built -/

/-- Whether writing the last entry panics: its length is cut to sixteen bits, and a record shorter
    than its entry cannot be padded. -/
def lastPanics (limit : Nat) : List DirEntry → (off : Nat) → Bool
  | [], _ => false
  | [e], off => (limit - off) % 2 ^ 16 < entryHeaderLen + e.name.length
  | e :: entries, off => lastPanics limit entries (off + recLen e.name.length)

/-- `build_block` with its panics: a block too small for a tail, and a single entry in a block of
    65536 bytes without one. -/
def tryBuildBlock (entries : List DirEntry) (blockSize : Nat) (withTail : Bool) :
    Except Failure (List UInt8) := do
  panicIf (withTail ∧ blockSize < tailLen)
  let block ← returned (buildBlock entries blockSize withTail)
  panicIf (lastPanics (blockSize - if withTail then tailLen else 0) entries 0)
  return block

/-! ## Records one after another -/

/-- A record whose numbers fit their fields, and whose name fits the record. -/
structure Fits (e : DirEntry) : Prop where
  inode : e.inode < 2 ^ 32
  recLen : e.recLen < 2 ^ 16
  name : e.name.length < 2 ^ 8
  fileType : e.fileType < 2 ^ 8
  inside : entryHeaderLen + e.name.length ≤ e.recLen

/-- What a record at `off` puts in its block. -/
def recordFields (e : DirEntry) (off : Nat) : List Field :=
  [.num off 4 e.inode, .num (off + 4) 2 e.recLen, .num (off + 6) 1 e.name.length,
    .num (off + 7) 1 e.fileType,
    ⟨off + entryHeaderLen, _, e.name ++ List.replicate (e.recLen - (entryHeaderLen + e.name.length)) 0,
      rfl⟩]

theorem putEntry_eq (block : List UInt8) (off : Nat) (e : DirEntry) :
    putEntry block off e = writeAll block (recordFields e off) := rfl

theorem recordsLen_cons (e : DirEntry) (rs : List DirEntry) :
    recordsLen (e :: rs) = e.recLen + recordsLen rs := rfl

theorem recordsLen_append (rs rs' : List DirEntry) :
    recordsLen (rs ++ rs') = recordsLen rs + recordsLen rs' := by
  rw [recordsLen, List.map_append, List.sum_append, recordsLen, recordsLen]

/-- The records one after another from `off` on. -/
def putRecords : List DirEntry → (block : List UInt8) → (off : Nat) → List UInt8
  | [], block, _ => block
  | e :: rs, block, off => putRecords rs (putEntry block off e) (off + e.recLen)

theorem putRecords_append (rs rs' : List DirEntry) (block : List UInt8) (off : Nat) :
    putRecords (rs ++ rs') block off =
      putRecords rs' (putRecords rs block off) (off + recordsLen rs) := by
  induction rs generalizing block off with
  | nil => rfl
  | cons e rs ih => rw [List.cons_append, putRecords, putRecords, ih, recordsLen_cons, Nat.add_assoc]

@[simp] theorem length_putRecords (rs : List DirEntry) (block : List UInt8) (off : Nat) :
    (putRecords rs block off).length = block.length := by
  induction rs generalizing block off with
  | nil => rfl
  | cons e rs ih => rw [putRecords, ih, length_putEntry]

/-- Each field of a record lies in it. -/
theorem recordFields_within {e : DirEntry} {off : Nat} (h : Fits e) {f : Field}
    (hf : f ∈ recordFields e off) : off ≤ f.off ∧ f.off + f.width ≤ off + e.recLen := by
  have hinside := h.inside
  simp only [recordFields, entryHeaderLen, List.mem_cons, List.not_mem_nil, or_false] at hf hinside
  rcases hf with rfl | rfl | rfl | rfl | rfl <;>
    simp only [Field.num, List.length_append, List.length_replicate] <;> omega

/-- Records leave the bytes before them alone. -/
theorem slice_putRecords_before {rs : List DirEntry} {block : List UInt8} {off pos n : Nat}
    (h : ∀ e ∈ rs, Fits e) (hbefore : pos + n ≤ off) :
    slice (putRecords rs block off) pos n = slice block pos n := by
  induction rs generalizing block off with
  | nil => rfl
  | cons e rs ih =>
    obtain ⟨he, h⟩ := List.forall_mem_cons.mp h
    rw [putRecords, ih h (by omega), putEntry_eq]
    refine slice_writeAll_outside fun f hf => Or.inl ?_
    have hwithin := recordFields_within he hf
    exact Nat.le_trans hbefore hwithin.1

/-- The fields of each record stand in the block. -/
def Laid (block : List UInt8) : List DirEntry → (off : Nat) → Prop
  | [], _ => True
  | e :: rs, off => (∀ f ∈ recordFields e off, slice block f.off f.width = f.bytes) ∧
      Laid block rs (off + e.recLen)

theorem laid_putRecords {rs : List DirEntry} {block : List UInt8} {off : Nat}
    (h : ∀ e ∈ rs, Fits e) (hroom : off + recordsLen rs ≤ block.length) :
    Laid (putRecords rs block off) rs off := by
  induction rs generalizing block off with
  | nil => trivial
  | cons e rs ih =>
    obtain ⟨he, h⟩ := List.forall_mem_cons.mp h
    rw [recordsLen_cons] at hroom
    refine ⟨fun f hf => ?_, ih h (by rw [length_putEntry]; omega)⟩
    have hwithin := recordFields_within he hf
    rw [putRecords, slice_putRecords_before h hwithin.2, putEntry_eq]
    obtain ⟨i, hi⟩ := List.mem_iff_getElem?.mp hf
    refine slice_writeAll rfl ?_ hi (by omega)
    simp only [recordFields, entryHeaderLen, List.map_cons, List.map_nil, Field.place, Field.num,
      List.pairwise_cons, List.forall_mem_cons, List.not_mem_nil, false_implies, implies_true,
      and_true, List.Pairwise.nil, Apart]
    omega

/-! ## Reading them -/

/-- A record that stands in a block is decoded. -/
theorem decode_laid {e : DirEntry} {block : List UInt8} {off : Nat} (h : Fits e)
    (hlaid : ∀ f ∈ recordFields e off, slice block f.off f.width = f.bytes)
    (hroom : off + e.recLen ≤ block.length) : DirEntry.decode (block.drop off) = .ok e := by
  have hinside := h.inside
  rw [entryHeaderLen] at hinside
  have hdrop : ∀ pos n, slice (block.drop off) pos n = slice block (off + pos) n := fun pos n => by
    rw [slice, slice, List.drop_drop]
  have hinode : getU32 (block.drop off) 0 = e.inode := by
    rw [getU32, hdrop]
    exact (ofLe_slice_of_stands hlaid (by simp [recordFields])).trans (Nat.mod_eq_of_lt h.inode)
  have hrec : getU16 (block.drop off) 4 = e.recLen := by
    rw [getU16, hdrop]
    exact (ofLe_slice_of_stands hlaid (by simp [recordFields])).trans (Nat.mod_eq_of_lt h.recLen)
  have hbyte : ∀ pos v, .num (off + pos) 1 v ∈ recordFields e off → v < 2 ^ 8 →
      getU8 (block.drop off) pos = v := fun pos v hf hv => by
    have hstands := hlaid _ hf
    exact (getU8_of_slice ((hdrop pos 1).trans hstands)).trans (Nat.mod_eq_of_lt hv)
  have hlen : getU8 (block.drop off) 6 = e.name.length := hbyte 6 _ (by simp [recordFields]) h.name
  have htype : getU8 (block.drop off) 7 = e.fileType := hbyte 7 _ (by simp [recordFields]) h.fileType
  have hname : slice (block.drop off) entryHeaderLen e.name.length = e.name := by
    have hstands := hlaid ⟨off + entryHeaderLen, _, e.name ++ List.replicate
      (e.recLen - (entryHeaderLen + e.name.length)) 0, rfl⟩ (by simp [recordFields])
    have hcut := @slice_slice _ block 0 e.name.length (off + entryHeaderLen)
      (e.name ++ List.replicate (e.recLen - (entryHeaderLen + e.name.length)) (0 : UInt8)).length
      (by rw [List.length_append]; omega)
    rw [hdrop, ← Nat.add_zero (off + entryHeaderLen), ← hcut, hstands, slice, List.drop_zero,
      List.take_left']
    rfl
  have hbuf : (block.drop off).length = block.length - off := List.length_drop
  unfold DirEntry.decode
  dsimp only
  rw [hrec, hlen, hname, hinode, htype, if_neg (by rw [entryHeaderLen]; omega),
    if_neg (by rw [entryHeaderLen]; omega), if_neg (by rw [entryHeaderLen]; omega)]

/-- Records that stand in a block are parsed one after another. -/
theorem parseBlock_laid {rs : List DirEntry} {block : List UInt8} {off : Nat}
    (h : ∀ e ∈ rs, Fits e) (hlaid : Laid block rs off) (hroom : off + recordsLen rs ≤ block.length) :
    parseBlock (block.drop off) =
      (do return rs ++ (← parseBlock (block.drop (off + recordsLen rs)))) := by
  induction rs generalizing off with
  | nil => exact (bind_pure _).symm
  | cons e rs ih =>
    obtain ⟨he, h⟩ := List.forall_mem_cons.mp h
    rw [recordsLen_cons] at hroom
    rw [parseBlock_cons (decode_laid he hlaid.1 (by omega)), List.drop_drop, ih h hlaid.2 (by omega),
      recordsLen_cons, Nat.add_assoc]
    simp only [bind_assoc, pure_bind, List.cons_append]

/-! ## Walking over their lengths -/

/-- What the walk over the lengths and the look for a tail see of each record: its inode number,
    its length, and the length of its name together with its type. -/
def Chained (block : List UInt8) : List DirEntry → (off : Nat) → Prop
  | [], _ => True
  | e :: rs, off => (getU32 block off = e.inode ∧ getU16 block (off + 4) = e.recLen ∧
      getU16 block (off + 6) = e.name.length + 256 * e.fileType) ∧ Chained block rs (off + e.recLen)

/-- Stamping a checksum leaves what the walk sees, the records being longer than their headers. -/
theorem chained_setBlockCsum {rs : List DirEntry} {block : List UInt8} {off : Nat} (csum : Nat)
    (h : ∀ e ∈ rs, Fits e) (hlen : ∀ e ∈ rs, tailLen ≤ e.recLen) (hlaid : Laid block rs off)
    (hroom : off + recordsLen rs ≤ block.length) : Chained (setBlockCsum block csum) rs off := by
  induction rs generalizing off with
  | nil => trivial
  | cons e rs ih =>
    obtain ⟨he, h⟩ := List.forall_mem_cons.mp h
    obtain ⟨hlen1, hlen⟩ := List.forall_mem_cons.mp hlen
    rw [recordsLen_cons] at hroom
    rw [tailLen] at hlen1
    obtain ⟨hfields, hlaid⟩ := hlaid
    refine ⟨⟨?_, ?_, ?_⟩, ih h hlen hlaid (by omega)⟩
    · rw [setBlockCsum, getU32_putU32_disjoint (by rw [tailLen]; omega), getU32]
      exact (ofLe_slice_of_stands hfields (by simp [recordFields])).trans (Nat.mod_eq_of_lt he.inode)
    · rw [setBlockCsum, getU16, slice_putU32_disjoint (by rw [tailLen]; omega)]
      exact (ofLe_slice_of_stands hfields (by simp [recordFields])).trans (Nat.mod_eq_of_lt he.recLen)
    · have hname : slice block (off + 6) 1 = toLe 1 e.name.length :=
        hfields (.num (off + 6) 1 e.name.length) (by simp [recordFields])
      have htype : slice block (off + 6 + 1) 1 = toLe 1 e.fileType :=
        hfields (.num (off + 7) 1 e.fileType) (by simp [recordFields])
      have hlt := he.name
      have hlt' := he.fileType
      rw [setBlockCsum, getU16, slice_putU32_disjoint (by rw [tailLen]; omega), slice_add _ _ 1 1,
        hname, htype]
      simp only [toLe, List.cons_append, List.nil_append, ofLe, UInt8.toNat_ofNat']
      omega

theorem Chained.drop {before after : List DirEntry} {block : List UInt8} {off : Nat}
    (h : Chained block (before ++ after) off) : Chained block after (off + recordsLen before) := by
  induction before generalizing off with
  | nil => exact h
  | cons e before ih =>
    rw [recordsLen_cons, ← Nat.add_assoc]
    exact ih h.2

/-- The walk stops where a record ends, and nowhere else. -/
theorem chainEndsAt_iff {rs : List DirEntry} {block : List UInt8} {off stop fuel : Nat}
    (h : Chained block rs off) (hlen : ∀ e ∈ rs, 8 ≤ e.recLen ∧ e.recLen % 4 = 0)
    (hstop : stop ≤ off + recordsLen rs) (hfuel : rs.length ≤ fuel) :
    chainEndsAt block stop fuel off = true ↔
      ∃ before after, rs = before ++ after ∧ off + recordsLen before = stop := by
  induction rs generalizing off fuel with
  | nil =>
    have hend : ¬ off < stop := Nat.not_lt.mpr hstop
    have hwalk : chainEndsAt block stop fuel off = (off == stop) := by
      cases fuel with
      | zero => rfl
      | succ fuel => rw [chainEndsAt, if_neg hend]
    rw [hwalk, beq_iff_eq]
    constructor
    · exact fun heq => ⟨[], [], rfl, heq⟩
    · rintro ⟨before, after, heq, hsum⟩
      obtain ⟨rfl, -⟩ := List.append_eq_nil_iff.mp heq.symm
      exact hsum
  | cons e rs ih =>
    obtain ⟨⟨-, hrec, -⟩, h⟩ := h
    obtain ⟨⟨hlo, halign⟩, hlen⟩ := List.forall_mem_cons.mp hlen
    rw [recordsLen_cons] at hstop
    cases fuel with
    | zero => exact absurd hfuel (by simp)
    | succ fuel =>
      rw [chainEndsAt]
      by_cases hend : off < stop
      · rw [if_pos hend, hrec]
        dsimp only
        rw [if_neg (by omega), ih h hlen (by omega) (Nat.le_of_succ_le_succ hfuel)]
        constructor
        · rintro ⟨before, after, heq, hsum⟩
          exact ⟨e :: before, after, by rw [heq, List.cons_append],
            by rw [recordsLen_cons, ← hsum, Nat.add_assoc]⟩
        · rintro ⟨before, after, heq, hsum⟩
          cases before with
          | nil => exact absurd hsum (Nat.ne_of_lt hend)
          | cons e' before =>
            obtain ⟨rfl, hrest⟩ := List.cons.inj heq
            exact ⟨before, after, hrest, by rw [← hsum, recordsLen_cons, Nat.add_assoc]⟩
      · rw [if_neg hend, beq_iff_eq]
        constructor
        · exact fun heq => ⟨[], e :: rs, rfl, heq⟩
        · rintro ⟨before, after, heq, hsum⟩
          cases before with
          | nil => exact hsum
          | cons e' before =>
            obtain ⟨rfl, -⟩ := List.cons.inj heq
            rw [recordsLen_cons] at hsum
            omega

/-! ## The records of a built block -/

/-- Bytes the entries need. -/
def entriesLen (entries : List DirEntry) : Nat := (entries.map fun e => recLen e.name.length).sum

/-- The records the entries become: each takes what its name needs, the last one the rest. -/
def placed (limit : Nat) : List DirEntry → (off : Nat) → List DirEntry
  | [], _ => []
  | [e], off => [{ e with recLen := limit - off }]
  | e :: entries, off =>
    { e with recLen := recLen e.name.length } :: placed limit entries (off + recLen e.name.length)

/-- The fake entry that holds the checksum. -/
def tailEntry : DirEntry := { inode := 0, recLen := tailLen, fileType := 0xDE, name := [] }

/-- What of an entry its record keeps: everything but the length. -/
def stored (e : DirEntry) : Nat × Nat × List UInt8 := (e.inode, e.fileType, e.name)

/-- An entry that names an inode. -/
structure Names (e : DirEntry) : Prop where
  used : e.inode ≠ 0
  inode : e.inode < 2 ^ 32
  fileType : e.fileType < 2 ^ 8
  name : e.name ≠ []
  short : e.name.length ≤ nameLenMax

theorem entriesLen_cons (e : DirEntry) (entries : List DirEntry) :
    entriesLen (e :: entries) = recLen e.name.length + entriesLen entries := rfl

theorem recLen_ge (n : Nat) : entryHeaderLen + n ≤ recLen n := by
  simp only [recLen, entryHeaderLen]
  omega

theorem placed_cons_cons (limit : Nat) (e e' : DirEntry) (entries : List DirEntry) (off : Nat) :
    placed limit (e :: e' :: entries) off =
      { e with recLen := recLen e.name.length } ::
        placed limit (e' :: entries) (off + recLen e.name.length) := rfl

theorem placed_stored (limit : Nat) (entries : List DirEntry) (off : Nat) :
    (placed limit entries off).map stored = entries.map stored := by
  induction entries generalizing off with
  | nil => rfl
  | cons e entries ih =>
    cases entries with
    | nil => rfl
    | cons e' entries =>
      rw [placed_cons_cons, List.map_cons, ih, List.map_cons]
      rfl

theorem recordsLen_placed {limit : Nat} {entries : List DirEntry} {off : Nat} (hne : entries ≠ [])
    (hroom : off + entriesLen entries ≤ limit) :
    off + recordsLen (placed limit entries off) = limit := by
  induction entries generalizing off with
  | nil => exact absurd rfl hne
  | cons e entries ih =>
    cases entries with
    | nil =>
      rw [placed, recordsLen_cons]
      exact Nat.add_sub_cancel' (Nat.le_trans (Nat.le_add_right _ _) hroom)
    | cons e' entries =>
      rw [entriesLen_cons] at hroom
      have hrest := @ih (off + recLen e.name.length) (List.cons_ne_nil _ _) (by omega)
      rw [placed_cons_cons, recordsLen_cons, ← Nat.add_assoc]
      exact hrest

/-- What a record of a block owes to its entry. -/
theorem mem_placed {limit : Nat} {entries : List DirEntry} {off : Nat} {r : DirEntry}
    (hoff : off % 4 = 0) (hlimit : limit % 4 = 0) (hsmall : limit ≤ 65536)
    (hshort : ∀ e ∈ entries, e.name.length ≤ nameLenMax)
    (hroom : off + entriesLen entries ≤ limit) (hwrites : lastPanics limit entries off = false)
    (hr : r ∈ placed limit entries off) :
    ∃ e ∈ entries, ∃ len, r = { e with recLen := len } ∧ recLen e.name.length ≤ len ∧
      len < 2 ^ 16 ∧ len % 4 = 0 := by
  induction entries generalizing off with
  | nil => exact absurd hr List.not_mem_nil
  | cons e entries ih =>
    obtain ⟨hshort1, hshort⟩ := List.forall_mem_cons.mp hshort
    rw [entriesLen_cons] at hroom
    cases entries with
    | nil =>
      rw [placed, List.mem_singleton] at hr
      have hcut : ¬ (limit - off) % 2 ^ 16 < entryHeaderLen + e.name.length :=
        of_decide_eq_false hwrites
      rw [entryHeaderLen] at hcut
      have hlen : recLen e.name.length ≤ limit - off := by
        rw [entriesLen, List.map_nil, List.sum_nil] at hroom
        omega
      exact ⟨e, List.mem_cons_self, limit - off, hr, hlen, by omega, by omega⟩
    | cons e' entries =>
      have halign : recLen e.name.length % 4 = 0 := Nat.mul_mod_left _ _
      have hlen : recLen e.name.length < 2 ^ 16 := by
        rw [nameLenMax] at hshort1
        simp only [recLen, entryHeaderLen]
        omega
      rcases List.mem_cons.mp hr with rfl | hr
      · exact ⟨e, List.mem_cons_self, _, rfl, Nat.le_refl _, hlen, halign⟩
      · obtain ⟨e₁, he₁, h⟩ := ih (by omega) hshort (by omega) hwrites hr
        exact ⟨e₁, List.mem_cons_of_mem _ he₁, h⟩

/-- The entries are written as these records. -/
theorem putEntries_eq {limit : Nat} {entries : List DirEntry} {off : Nat} (block : List UInt8)
    (hsmall : limit ≤ 65536) (hwrites : lastPanics limit entries off = false) :
    putEntries limit entries block off = putRecords (placed limit entries off) block off := by
  induction entries generalizing block off with
  | nil => rfl
  | cons e entries ih =>
    cases entries with
    | nil =>
      have hcut : ¬ (limit - off) % 2 ^ 16 < entryHeaderLen + e.name.length :=
        of_decide_eq_false hwrites
      rw [entryHeaderLen] at hcut
      rw [putEntries, placed, putRecords, putRecords, Nat.mod_eq_of_lt (by omega)]
    | cons e' entries =>
      exact ih (putEntry block off { e with recLen := recLen e.name.length }) hwrites

/-- The tail is one more record. -/
theorem writeTailHeader_eq (block : List UInt8) (off : Nat) :
    writeTailHeader block off = putEntry block off tailEntry := by
  have hmark : ∀ buf : List UInt8, putU16 buf (off + 6) nameLenCsum =
      putU8 (putU8 buf (off + 6) 0) (off + 7) 0xDE := fun buf =>
    (splice_splice_append buf (off + 6) [0x00] [0xDE] 0).symm
  unfold writeTailHeader
  dsimp only
  rw [hmark]
  rfl

/-! ## Reading a built block -/

/-- Bytes of a block that entries may take. -/
def usable (blockSize : Nat) (withTail : Bool) : Nat := blockSize - if withTail then tailLen else 0

/-- All records of a block, the tail among them. -/
def records (entries : List DirEntry) (blockSize : Nat) (withTail : Bool) : List DirEntry :=
  placed (usable blockSize withTail) entries 0 ++ if withTail then [tailEntry] else []

section Built

variable {entries : List DirEntry} {blockSize : Nat} {withTail : Bool} {block : List UInt8}

/-- What building a block checks, and the records it writes. -/
theorem tryBuildBlock_ok (hhi : blockSize ≤ 65536) (hne : entries ≠ [])
    (h : tryBuildBlock entries blockSize withTail = .ok block) :
    (withTail = true → tailLen ≤ blockSize) ∧ entriesLen entries ≤ usable blockSize withTail ∧
      lastPanics (usable blockSize withTail) entries 0 = false ∧
      block = putRecords (records entries blockSize withTail) (List.replicate blockSize 0) 0 := by
  unfold tryBuildBlock at h
  obtain ⟨_, htail, h⟩ := bind_ok h
  obtain ⟨block', hbuild, h⟩ := bind_ok h
  obtain ⟨_, hlast, h⟩ := bind_ok h
  obtain rfl := Except.ok.inj h
  have htail : withTail = true → tailLen ≤ blockSize := fun hw =>
    Nat.not_lt.mp fun hlt => panicIf_ok htail ⟨hw, hlt⟩
  have hlast : lastPanics (usable blockSize withTail) entries 0 = false :=
    Bool.eq_false_iff.mpr (panicIf_ok hlast)
  have hsmall : usable blockSize withTail ≤ 65536 := Nat.le_trans (Nat.sub_le _ _) hhi
  have hbuild := returned_ok hbuild
  unfold buildBlock at hbuild
  dsimp only at hbuild
  rw [← usable, ← entriesLen] at hbuild
  split at hbuild
  · cases hbuild
  · next hroom =>
    have hroom : entriesLen entries ≤ usable blockSize withTail := Nat.not_lt.mp hroom
    have hin : 0 + entriesLen entries ≤ usable blockSize withTail := by rwa [Nat.zero_add]
    have hend := recordsLen_placed hne hin
    rw [putEntries_eq _ hsmall hlast] at hbuild
    refine ⟨htail, hroom, hlast, ?_⟩
    rw [← Except.ok.inj hbuild, records, putRecords_append, hend]
    cases withTail with
    | false => rfl
    | true =>
      rw [if_pos rfl, if_pos rfl, writeTailHeader_eq]
      rfl

variable (hlo : 1024 ≤ blockSize) (hhi : blockSize ≤ 65536) (halign : blockSize % 4 = 0)
  (hne : entries ≠ []) (hnames : ∀ e ∈ entries, Names e)
  (hbuilt : tryBuildBlock entries blockSize withTail = .ok block)

include hhi halign hne hnames hbuilt in
/-- The records stand in the block, up to its end, and are of lengths the walk accepts. -/
theorem records_laid :
    block.length = blockSize ∧ recordsLen (records entries blockSize withTail) = blockSize ∧
      Laid block (records entries blockSize withTail) 0 ∧
      ∀ r ∈ records entries blockSize withTail,
        Fits r ∧ tailLen ≤ r.recLen ∧ r.recLen % 4 = 0 := by
  obtain ⟨htail, hroom, hlast, hblock⟩ := tryBuildBlock_ok hhi hne hbuilt
  have hsmall : usable blockSize withTail ≤ 65536 := Nat.le_trans (Nat.sub_le _ _) hhi
  have halign' : usable blockSize withTail % 4 = 0 := by
    unfold usable tailLen
    split <;> omega
  have hlen : block.length = blockSize := by
    rw [hblock, length_putRecords, List.length_replicate]
  have hplaced : ∀ r ∈ placed (usable blockSize withTail) entries 0,
      Fits r ∧ tailLen ≤ r.recLen ∧ r.recLen % 4 = 0 := by
    intro r hr
    obtain ⟨e, he, len, rfl, hge, hlt, hmod⟩ := mem_placed rfl halign' hsmall
      (fun e he => (hnames e he).short) (by rwa [Nat.zero_add]) hlast hr
    have hname := hnames e he
    have hpos := List.length_pos_of_ne_nil hname.name
    have hinside := recLen_ge e.name.length
    have hlong : tailLen ≤ recLen e.name.length := by
      simp only [recLen, entryHeaderLen, tailLen]
      omega
    exact ⟨⟨hname.inode, hlt, Nat.lt_succ_of_le hname.short, hname.fileType,
      Nat.le_trans hinside hge⟩, Nat.le_trans hlong hge, hmod⟩
  have hall : ∀ r ∈ records entries blockSize withTail,
      Fits r ∧ tailLen ≤ r.recLen ∧ r.recLen % 4 = 0 := by
    intro r hr
    rcases List.mem_append.mp hr with hr | hr
    · exact hplaced r hr
    · split at hr
      · obtain rfl := List.mem_singleton.mp hr
        exact ⟨⟨by decide, by decide, by decide, by decide, by decide⟩, Nat.le_refl _, rfl⟩
      · exact absurd hr List.not_mem_nil
  have hsum : recordsLen (records entries blockSize withTail) = blockSize := by
    have hin : 0 + entriesLen entries ≤ usable blockSize withTail := by rwa [Nat.zero_add]
    have hend := recordsLen_placed hne hin
    rw [Nat.zero_add] at hend
    rw [records, recordsLen_append, hend]
    cases withTail with
    | false => rfl
    | true => exact Nat.sub_add_cancel (htail rfl)
  refine ⟨hlen, hsum, ?_, hall⟩
  rw [hblock]
  exact laid_putRecords (fun r hr => (hall r hr).1) (by rw [List.length_replicate]; omega)

include hhi halign hne hnames hbuilt in
theorem parseBlock_built : parseBlock block = .ok (records entries blockSize withTail) := by
  obtain ⟨hlen, hsum, hlaid, hall⟩ := records_laid hhi halign hne hnames hbuilt
  have hparse := parseBlock_laid (fun r hr => (hall r hr).1) hlaid (by omega)
  have hend : block.drop blockSize = [] := List.drop_of_length_le (Nat.le_of_eq hlen)
  rw [List.drop_zero, Nat.zero_add, hsum, hend] at hparse
  exact hparse.trans (congrArg Except.ok (List.append_nil _))

include hlo hhi halign hne hnames hbuilt in
/-- A checksum that is stamped is found exactly when there is a tail to hold it. -/
theorem blockCsum_built {csum : Nat} (hcsum : csum < 2 ^ 32) :
    blockCsum (setBlockCsum block csum) = if withTail then some csum else none := by
  obtain ⟨hlen, hsum, hlaid, hall⟩ := records_laid hhi halign hne hnames hbuilt
  have hchained : Chained (setBlockCsum block csum) (records entries blockSize withTail) 0 :=
    chained_setBlockCsum csum (fun r hr => (hall r hr).1) (fun r hr => (hall r hr).2.1) hlaid
      (by omega)
  have hstamped : (setBlockCsum block csum).length = blockSize := by
    rw [length_setBlockCsum, hlen]
  have hcount : ∀ rs : List DirEntry, (∀ r ∈ rs, tailLen ≤ r.recLen) → rs.length ≤ recordsLen rs := by
    intro rs h
    induction rs with
    | nil => exact Nat.le_refl _
    | cons r rs ih =>
      obtain ⟨hr, h⟩ := List.forall_mem_cons.mp h
      have hrest := ih h
      rw [tailLen] at hr
      rw [List.length_cons, recordsLen_cons]
      omega
  have hfuel := hcount _ fun r hr => (hall r hr).2.1
  have hwalk := @chainEndsAt_iff _ _ _ (blockSize - tailLen) blockSize hchained
    (fun r hr => ⟨Nat.le_trans (by decide) (hall r hr).2.1, (hall r hr).2.2⟩)
    (by rw [Nat.zero_add, hsum]; exact Nat.sub_le _ _) (by rwa [hsum] at hfuel)
  unfold blockCsum
  dsimp only
  rw [hstamped, if_neg (by rw [tailLen]; omega)]
  cases withTail with
  | false =>
    by_cases hends : chainEndsAt (setBlockCsum block csum) (blockSize - tailLen) blockSize 0 = true
    · -- The record that starts there names an inode, so it is no tail.
      obtain ⟨before, after, heq, hstop⟩ := hwalk.mp hends
      have hafter := (heq ▸ hchained).drop
      rw [hstop] at hafter
      cases after with
      | nil =>
        rw [List.append_nil] at heq
        rw [Nat.zero_add, ← heq, hsum, tailLen] at hstop
        omega
      | cons r after =>
        have hr : r ∈ placed (usable blockSize false) entries 0 := by
          have hr : r ∈ records entries blockSize false :=
            heq ▸ List.mem_append_right _ List.mem_cons_self
          rwa [records, if_neg Bool.false_ne_true, List.append_nil] at hr
        have hused : r.inode ≠ 0 := by
          have hstored : stored r ∈ entries.map stored :=
            placed_stored (usable blockSize false) entries 0 ▸ List.mem_map_of_mem hr
          obtain ⟨e, he, hsame⟩ := List.mem_map.mp hstored
          rw [← (Prod.mk.inj hsame).1]
          exact (hnames e he).used
        have hword : getU32 (setBlockCsum block csum) (blockSize - tailLen) ≠ 0 := by
          rw [hafter.1.1]
          exact hused
        rw [hends, if_neg (by decide), if_neg fun h => hword h.1]
        rfl
    · rw [Bool.eq_false_iff.mpr hends]
      rfl
  | true =>
    have hbefore : 0 + recordsLen (placed (usable blockSize true) entries 0) =
        blockSize - tailLen := by
      obtain ⟨-, hroom, -⟩ := tryBuildBlock_ok hhi hne hbuilt
      exact recordsLen_placed hne (by rwa [Nat.zero_add])
    have hends := hwalk.mpr ⟨placed (usable blockSize true) entries 0, [tailEntry], rfl, hbefore⟩
    have hafter : Chained (setBlockCsum block csum) [tailEntry] (blockSize - tailLen) := by
      rw [← hbefore]
      exact hchained.drop
    have hmark : getU32 (setBlockCsum block csum) (blockSize - tailLen) = 0 ∧
        getU16 (setBlockCsum block csum) (blockSize - tailLen + 4) = tailLen ∧
        getU16 (setBlockCsum block csum) (blockSize - tailLen + 6) = nameLenCsum := hafter.1
    have hvalue : getU32 (setBlockCsum block csum) (blockSize - tailLen + 8) = csum := by
      rw [setBlockCsum, hlen, getU32_putU32 (by rw [hlen, tailLen]; omega) hcsum]
    rw [hends, if_neg (by decide), if_pos hmark, hvalue]
    rfl

include hlo hhi halign hne hnames hbuilt in
/-- A block that could be built parses to its entries in order and then its tail; the records take
    all of the block; and a checksum can be stamped on it and found again exactly when it has a
    tail. -/
theorem buildBlock_roundTrip : ∃ parsed,
    parseBlock block = .ok (parsed ++ if withTail then [tailEntry] else []) ∧
      parsed.map stored = entries.map stored ∧
      recordsLen (parsed ++ if withTail then [tailEntry] else []) = block.length ∧
      block.length = blockSize ∧
      ∀ csum < 2 ^ 32, blockCsum (setBlockCsum block csum) = if withTail then some csum else none := by
  obtain ⟨hlen, hsum, -⟩ := records_laid hhi halign hne hnames hbuilt
  exact ⟨placed (usable blockSize withTail) entries 0,
    parseBlock_built hhi halign hne hnames hbuilt, placed_stored _ entries 0, hsum.trans hlen.symm,
    hlen, fun _ hcsum => blockCsum_built hlo hhi halign hne hnames hbuilt hcsum⟩

end Built

/-- The first two entries of the root directory. -/
def dots : List DirEntry :=
  [{ inode := 2, recLen := 12, fileType := FileType.dir, name := [0x2e] },
    { inode := 2, recLen := 12, fileType := FileType.dir, name := [0x2e, 0x2e] }]

theorem buildBlock_roundTrip_dots : ∃ block, tryBuildBlock dots 1024 true = .ok block ∧ ∃ parsed,
    parseBlock block = .ok (parsed ++ if true then [tailEntry] else []) ∧
      parsed.map stored = dots.map stored ∧
      recordsLen (parsed ++ if true then [tailEntry] else []) = block.length ∧
      block.length = 1024 ∧
      ∀ csum < 2 ^ 32, blockCsum (setBlockCsum block csum) = if true then some csum else none := by
  have hnames : ∀ e ∈ dots, Names e := by
    simp only [dots, List.forall_mem_cons]
    exact ⟨⟨by decide, by decide, by decide, by decide, by decide⟩,
      ⟨by decide, by decide, by decide, by decide, by decide⟩, nofun⟩
  have hbuilt : ∃ block, tryBuildBlock dots 1024 true = .ok block := ⟨_, rfl⟩
  obtain ⟨block, hbuilt⟩ := hbuilt
  have hne : dots ≠ [] := List.cons_ne_nil _ _
  exact ⟨block, hbuilt,
    buildBlock_roundTrip (by decide) (by decide) (by decide) hne hnames hbuilt⟩

/-- Of the lists that fit, the last length is lost on a single entry that is given 65536 bytes. -/
theorem lastPanics_iff {limit : Nat} {entries : List DirEntry} {off : Nat} (hsmall : limit ≤ 65536)
    (hroom : off + entriesLen entries ≤ limit) :
    lastPanics limit entries off = true ↔ entries.length = 1 ∧ limit - off = 65536 := by
  induction entries generalizing off with
  | nil => simp [lastPanics]
  | cons e entries ih =>
    have hinside := recLen_ge e.name.length
    rw [entriesLen_cons] at hroom
    rw [entryHeaderLen] at hinside
    cases entries with
    | nil =>
      have hcut : lastPanics limit [e] off = true ↔ (limit - off) % 2 ^ 16 < 8 + e.name.length :=
        decide_eq_true_iff
      rw [hcut, List.length_singleton]
      omega
    | cons e' entries =>
      have hrest := @ih (off + recLen e.name.length) (by omega)
      have hlong : ¬ (e :: e' :: entries).length = 1 := by simp
      refine hrest.trans ⟨fun h => ?_, fun h => absurd h.1 hlong⟩
      omega

/-- Building panics on one kind of list that fits: a single entry in a block of 65536 bytes that
    has no tail. -/
theorem tryBuildBlock_panics_iff {entries : List DirEntry} {blockSize : Nat} {withTail : Bool}
    (hlo : 1024 ≤ blockSize) (hhi : blockSize ≤ 65536) :
    tryBuildBlock entries blockSize withTail = .error .panicked ↔
      entriesLen entries ≤ usable blockSize withTail ∧ entries.length = 1 ∧ blockSize = 65536 ∧
        withTail = false := by
  have htail : ¬ (withTail = true ∧ blockSize < tailLen) := fun h => by
    have := h.2
    rw [tailLen] at this
    omega
  have hlimit : usable blockSize withTail = 65536 ↔ blockSize = 65536 ∧ withTail = false := by
    unfold usable tailLen
    cases withTail with
    | false => simp
    | true =>
      simp
      omega
  unfold tryBuildBlock buildBlock panicIf
  dsimp only
  rw [← usable, ← entriesLen, if_neg htail]
  by_cases hfits : usable blockSize withTail < entriesLen entries
  · rw [if_pos hfits]
    exact ⟨fun h => absurd (Except.error.inj h) nofun, fun h => absurd hfits (Nat.not_lt.mpr h.1)⟩
  · rw [if_neg hfits]
    have hroom := Nat.not_lt.mp hfits
    have hlast := @lastPanics_iff (usable blockSize withTail) entries 0
      (Nat.le_trans (Nat.sub_le _ _) hhi) (by rwa [Nat.zero_add])
    rw [Nat.sub_zero, hlimit] at hlast
    by_cases hp : lastPanics (usable blockSize withTail) entries 0 = true
    · rw [if_pos hp]
      exact ⟨fun _ => ⟨hroom, hlast.mp hp⟩, fun _ => rfl⟩
    · rw [if_neg hp]
      refine ⟨fun h => ?_, fun h => absurd (hlast.mpr h.2) hp⟩
      cases h

end Dirent

end MkfsExt4
