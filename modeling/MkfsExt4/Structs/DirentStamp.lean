/-
  Directory blocks are read back with their checksum stamped (`src/structs/dirent.rs`).

  The checksum stands behind the header of the tail, and the name of the tail is empty, so that the
  records of a block are parsed as before it was stamped (`parseBlock_stamped`). The block of one
  empty entry is among those blocks.
-/
import MkfsExt4.Structs.DirentCodec

namespace MkfsExt4

open Lib.Store Lib.Endian Lib.Hoare Lib.Record

namespace Dirent

/-! ## Records that stand in two blocks -/

theorem laid_append {rs rs' : List DirEntry} {block : List UInt8} {off : Nat} :
    Laid block (rs ++ rs') off ↔ Laid block rs off ∧ Laid block rs' (off + recordsLen rs) := by
  induction rs generalizing off with
  | nil => exact (iff_of_eq (true_and _)).symm
  | cons e rs ih =>
    rw [List.cons_append, Laid, Laid, ih, recordsLen_cons, Nat.add_assoc, and_assoc]

/-- Records stand in every block that has the same bytes where they are. -/
theorem laid_congr {rs : List DirEntry} {block block' : List UInt8} {off : Nat}
    (hfits : ∀ e ∈ rs, Fits e) (hsame : ∀ pos n, off ≤ pos → pos + n ≤ off + recordsLen rs →
      slice block' pos n = slice block pos n) (hlaid : Laid block rs off) : Laid block' rs off := by
  induction rs generalizing off with
  | nil => trivial
  | cons e rs ih =>
    obtain ⟨he, hfits⟩ := List.forall_mem_cons.mp hfits
    rw [recordsLen_cons] at hsame
    refine ⟨fun f hf => ?_,
      ih hfits (fun pos n hpos hend => hsame pos n (by omega) (by omega)) hlaid.2⟩
    obtain ⟨hlow, hhigh⟩ := recordFields_within he hf
    rw [hsame f.off f.width hlow (by omega)]
    exact hlaid.1 f hf

/-! ## What decoding reads -/

theorem slice_drop (block : List UInt8) (off pos n : Nat) :
    slice (block.drop off) pos n = slice block (off + pos) n := by
  rw [slice, slice, List.drop_drop]

/-- An entry is decoded by its header and its name, whatever is behind them. -/
theorem decode_of_fields {buf : List UInt8} {e : DirEntry}
    (hinside : entryHeaderLen + e.name.length ≤ e.recLen) (hroom : e.recLen ≤ buf.length)
    (hinode : getU32 buf 0 = e.inode) (hrec : getU16 buf 4 = e.recLen)
    (hlen : getU8 buf 6 = e.name.length) (htype : getU8 buf 7 = e.fileType)
    (hname : slice buf entryHeaderLen e.name.length = e.name) : DirEntry.decode buf = .ok e := by
  rw [entryHeaderLen] at hinside
  unfold DirEntry.decode
  dsimp only
  rw [hrec, hlen, hname, hinode, htype, if_neg (by rw [entryHeaderLen]; omega),
    if_neg (by rw [entryHeaderLen]; omega), if_neg (by rw [entryHeaderLen]; omega)]

/-! ## The tail under its checksum -/

/-- The records before a tail and the tail are parsed, whatever the checksum. -/
theorem parseBlock_stamped {rs : List DirEntry} {block : List UInt8} (csum : Nat)
    (hfits : ∀ e ∈ rs, Fits e) (hlaid : Laid block (rs ++ [tailEntry]) 0)
    (hlen : recordsLen rs + tailLen = block.length) :
    parseBlock (setBlockCsum block csum) = .ok (rs ++ [tailEntry]) := by
  rw [tailLen] at hlen
  have hsame : ∀ pos n, pos + n ≤ recordsLen rs + 8 →
      slice (setBlockCsum block csum) pos n = slice block pos n := fun pos n hend =>
    slice_putU32_disjoint (Or.inl (by rw [tailLen]; omega))
  obtain ⟨hrecords, htail, -⟩ := laid_append.mp hlaid
  rw [Nat.zero_add] at htail
  have hword : ∀ pos width v, .num (recordsLen rs + pos) width v ∈
      recordFields tailEntry (recordsLen rs) → pos + width ≤ 8 →
      slice ((setBlockCsum block csum).drop (recordsLen rs)) pos width = toLe width v := by
    intro pos width v hf hend
    rw [slice_drop, hsame _ _ (by omega)]
    exact htail _ hf
  have hroom : recordsLen rs + 12 = (setBlockCsum block csum).length :=
    hlen.trans (length_setBlockCsum block csum).symm
  have hdecode : DirEntry.decode ((setBlockCsum block csum).drop (recordsLen rs)) = .ok tailEntry := by
    refine decode_of_fields (by decide) ?_ ?_ ?_ ?_ ?_ List.take_zero
    · rw [List.length_drop, ← hroom, Nat.add_sub_cancel_left]
      exact Nat.le_refl _
    · exact congrArg ofLe (hword 0 4 0 (by simp [recordFields, tailEntry]) (by decide))
    · exact congrArg ofLe (hword 4 2 tailLen (by simp [recordFields, tailEntry]) (by decide))
    · exact getU8_of_slice (hword 6 1 0 (by simp [recordFields, tailEntry]) (by decide))
    · exact getU8_of_slice (hword 7 1 0xDE (by simp [recordFields, tailEntry]) (by decide))
  have hparse := parseBlock_laid hfits
    (laid_congr hfits (fun pos n _ hend => hsame pos n (by omega)) hrecords)
    (by rw [length_setBlockCsum]; omega)
  rw [List.drop_zero, Nat.zero_add] at hparse
  have hend : ((setBlockCsum block csum).drop (recordsLen rs)).drop tailEntry.recLen = [] := by
    rw [List.drop_drop]
    exact List.drop_of_length_le (by rw [length_setBlockCsum, ← hlen]; exact Nat.le_refl _)
  rw [hparse, parseBlock_cons hdecode, hend]
  rfl

/-! ## Built blocks -/

/-- A block that is built does not panic, but for a single entry. -/
theorem tryBuildBlock_of_ok {entries : List DirEntry} {blockSize : Nat} {withTail : Bool}
    {block : List UInt8} (hlo : 1024 ≤ blockSize) (hhi : blockSize ≤ 65536)
    (hmany : entries.length ≠ 1) (h : buildBlock entries blockSize withTail = .ok block) :
    tryBuildBlock entries blockSize withTail = .ok block := by
  have htail : ¬ (withTail = true ∧ blockSize < tailLen) := fun hw =>
    absurd (Nat.lt_of_lt_of_le hw.2 (by decide : tailLen ≤ 1024)) (Nat.not_lt.mpr hlo)
  have hroom : entriesLen entries ≤ usable blockSize withTail := by
    unfold buildBlock at h
    dsimp only at h
    rw [← usable, ← entriesLen] at h
    split at h
    · cases h
    · next hroom => exact Nat.not_lt.mp hroom
  have hlast : ¬ lastPanics (usable blockSize withTail) entries 0 = true := fun hpanics =>
    hmany ((lastPanics_iff (Nat.le_trans (Nat.sub_le _ _) hhi) (by rwa [Nat.zero_add])).mp hpanics).1
  unfold tryBuildBlock
  rw [panicIf, if_neg htail, h]
  refine (bind_of_ok rfl).trans ?_
  exact panicIf_bind_ok_iff.mpr ⟨hlast, rfl⟩

/-- A block that was built and stamped parses to its records. -/
theorem parseBlock_built_stamped {entries : List DirEntry} {blockSize : Nat} {block : List UInt8}
    (csum : Nat) (hhi : blockSize ≤ 65536) (halign : blockSize % 4 = 0) (hne : entries ≠ [])
    (hnames : ∀ e ∈ entries, Names e) (hbuilt : tryBuildBlock entries blockSize true = .ok block) :
    parseBlock (setBlockCsum block csum) = .ok (records entries blockSize true) := by
  obtain ⟨hlen, hsum, hlaid, hall⟩ := records_laid hhi halign hne hnames hbuilt
  have hsplit : records entries blockSize true =
      placed (usable blockSize true) entries 0 ++ [tailEntry] := rfl
  rw [hsplit] at hsum hlaid hall ⊢
  rw [recordsLen_append] at hsum
  exact parseBlock_stamped csum (fun r hr => (hall r (List.mem_append_left _ hr)).1) hlaid
    (hsum.trans hlen.symm)

/-- The names among the records of a block are the entries it was built from. -/
theorem stored_records {entries : List DirEntry} {blockSize : Nat} {withTail : Bool}
    (hnames : ∀ e ∈ entries, Names e) :
    ((records entries blockSize withTail).filter DirEntry.isName).map stored =
      entries.map stored := by
  have hplaced : ∀ r ∈ placed (usable blockSize withTail) entries 0, r.isName = true := by
    intro r hr
    have hstored : stored r ∈ entries.map stored :=
      placed_stored (usable blockSize withTail) entries 0 ▸ List.mem_map_of_mem hr
    obtain ⟨e, he, hsame⟩ := List.mem_map.mp hstored
    obtain ⟨hinode, hrest⟩ := Prod.mk.inj hsame
    obtain ⟨-, hname⟩ := Prod.mk.inj hrest
    have hused : r.inode ≠ 0 := hinode ▸ (hnames e he).used
    have hnamed : r.name ≠ [] := hname ▸ (hnames e he).name
    simp [DirEntry.isName, DirEntry.isTail, hused, hnamed]
  have htail : (if withTail then [tailEntry] else []).filter DirEntry.isName = [] := by
    cases withTail <;> rfl
  rw [records, List.filter_append, htail, List.append_nil, List.filter_eq_self.mpr hplaced,
    placed_stored]

/-! ## A block without names -/

/-- The record of a block that holds no name. -/
def hole (limit : Nat) : DirEntry := { inode := 0, recLen := limit, fileType := 0, name := [] }

/-- A block of zeroes that holds a length holds a record without a name of this length. -/
theorem laid_hole {blockSize limit : Nat} (hlow : entryHeaderLen ≤ limit) (hroom : limit ≤ blockSize) :
    Laid (putU16 (List.replicate blockSize 0) 4 limit) [hole limit] 0 := by
  rw [entryHeaderLen] at hlow
  have hzero : ∀ pos n, pos + n ≤ 4 ∨ 4 + 2 ≤ pos → pos + n ≤ limit →
      slice (putU16 (List.replicate blockSize 0) 4 limit) pos n = List.replicate n 0 := by
    intro pos n hout hin
    rw [slice_putU16_disjoint hout, slice, List.drop_replicate, List.take_replicate,
      Nat.min_eq_left (by omega)]
  refine ⟨fun f hf => ?_, trivial⟩
  simp only [recordFields, hole, entryHeaderLen, List.mem_cons, List.not_mem_nil, or_false,
    List.length_nil, List.nil_append, Nat.zero_add, Nat.add_zero] at hf
  rcases hf with rfl | rfl | rfl | rfl | rfl
  · exact hzero 0 4 (by omega) (by omega)
  · exact slice_putU16_self (by rw [List.length_replicate]; omega)
  · exact hzero 6 1 (by omega) (by omega)
  · exact hzero 7 1 (by omega) (by omega)
  · have hwidth : (List.replicate (limit - 8) (0 : UInt8)).length = limit - 8 := List.length_replicate
    refine (hzero 8 _ (by omega) ?_).trans (congrArg (List.replicate · 0) hwidth)
    exact (congrArg (8 + ·) hwidth).trans_le (by omega)

section Hole

variable {blockSize limit : Nat} (hlow : entryHeaderLen ≤ limit) (hsmall : limit < 2 ^ 16)

include hlow hsmall

theorem fits_hole : Fits (hole limit) :=
  ⟨Nat.two_pow_pos 32, hsmall, Nat.two_pow_pos 8, Nat.two_pow_pos 8, hlow⟩

theorem parseBlock_hole : parseBlock (putU16 (List.replicate limit 0) 4 limit) = .ok [hole limit] := by
  have hfits : ∀ e ∈ [hole limit], Fits e := List.forall_mem_singleton.mpr (fits_hole hlow hsmall)
  have hlen : (putU16 (List.replicate limit 0) 4 limit).length = limit := by
    rw [length_putU16, List.length_replicate]
  have hsum : 0 + recordsLen [hole limit] = limit := Nat.zero_add limit
  have hparse := parseBlock_laid hfits (laid_hole hlow (Nat.le_refl _)) (by rw [hsum, hlen])
  rw [hsum, List.drop_of_length_le hlen.le, List.drop_zero] at hparse
  exact hparse

/-- The same with a tail behind the record. -/
theorem parseBlock_hole_stamped (csum : Nat) (hroom : limit + tailLen = blockSize) :
    parseBlock (setBlockCsum
      (writeTailHeader (putU16 (List.replicate blockSize 0) 4 limit) limit) csum) =
        .ok ([hole limit] ++ [tailEntry]) := by
  have hfits : ∀ e ∈ [hole limit], Fits e := List.forall_mem_singleton.mpr (fits_hole hlow hsmall)
  have htail : ∀ e ∈ [tailEntry], Fits e :=
    List.forall_mem_singleton.mpr ⟨by decide, by decide, by decide, by decide, by decide⟩
  have hlen : (putU16 (List.replicate blockSize 0) 4 limit).length = blockSize := by
    rw [length_putU16, List.length_replicate]
  have hsum : 0 + recordsLen [hole limit] = limit := Nat.zero_add limit
  rw [writeTailHeader_eq]
  change parseBlock (setBlockCsum (putRecords [tailEntry] _ limit) csum) = _
  refine parseBlock_stamped csum hfits (laid_append.mpr ⟨?_, ?_⟩) ?_
  · refine laid_congr hfits (fun pos n _ hend => ?_) (laid_hole hlow (hroom ▸ Nat.le_add_right _ _))
    exact slice_putRecords_before htail (hsum ▸ hend)
  · rw [hsum]
    exact laid_putRecords htail (by rw [hlen, ← hroom]; exact Nat.le_refl _)
  · rw [length_putRecords, hlen, ← hroom]
    rfl

end Hole

end Dirent

end MkfsExt4
