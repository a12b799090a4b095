/-
  The inode codec, byte by byte: what encoding a decoded inode makes of each byte it was
  decoded from (`getD_encode`).

  Most bytes come back. The exceptions are the two checksum halves and the reserved word,
  which are written as zero, and the bytes of the declared extra area that lie in no whole
  field the codec knows: `decode` keeps what follows the extra area, and nothing of these.
-/
import Mathlib.Data.List.GetD
import Mathlib.Data.List.TakeWhile
import MkfsExt4.Lib.Hoare
import MkfsExt4.Structs.Inode

namespace MkfsExt4.Inode

open Lib.Store Lib.Endian Lib.Record Lib.Hoare

/-- `i_extra_isize` of a raw inode. -/
def extraIsizeOf (raw : List UInt8) (inodeSize : Nat) : Nat :=
  if goodOldInodeSize < inodeSize then getU16 raw 0x80 else 0

/-- A byte of the extra area, `i_checksum_hi` included, in no field the codec carries: the
fields from 0x84 on are seven words, each there only as a whole. -/
def Uncovered (extraIsize i : Nat) : Prop :=
  0x82 ≤ i ∧ i < goodOldInodeSize + extraIsize ∧
    (i < 0x84 ∨ goodOldInodeSize + 4 * min (extraIsize / 4) 8 ≤ i)

instance (extraIsize i : Nat) : Decidable (Uncovered extraIsize i) :=
  inferInstanceAs (Decidable (_ ∧ _))

/-- A byte that encoding writes as zero, whatever it was. -/
def Zeroed (extraIsize i : Nat) : Prop := 0x7c ≤ i ∧ i < 0x80 ∨ Uncovered extraIsize i

instance (extraIsize i : Nat) : Decidable (Zeroed extraIsize i) :=
  inferInstanceAs (Decidable (_ ∨ _))

/-! ## The original 128 bytes -/

theorem putU16_join_div32 {buf : List UInt8} {lo off : Nat} (h : off + 2 ≤ buf.length) :
    putU16 buf off (join 32 (getU32 buf lo) (getU16 buf off) / 2 ^ 32) = buf := by
  rw [join_div _ (getU32_lt _ _), putU16_getU16 h]

variable {raw : List UInt8} {inodeSize : Nat} {inode : Inode}

/-- Over the raw inode itself, encoding what was decoded writes two zero words. -/
theorem encodeBase_raw (h : decode raw inodeSize = .ok inode) :
    inode.encodeBase raw = putU16 (putU16 raw 0x7c 0) 0x7e 0 := by
  obtain ⟨hsize, hlen, hword⟩ := decodable_of_decode h
  rw [goodOldInodeSize] at hsize hword
  unfold decode at h
  dsimp only at h
  rw [if_neg (by rw [goodOldInodeSize]; omega), if_neg (by rw [goodOldInodeSize]; omega)] at h
  obtain rfl := Except.ok.inj h
  unfold encodeBase
  simp (disch := omega) only [putU16_getU16, putU32_getU32, putBytes_slice, putU16_join,
    putU16_join_div, putU16_join_div32, putU32_join, putU32_join_div,
    iBlockLen]

theorem baseLayout_covers : ∀ i < 128, ∃ p ∈ baseLayout, p.1 ≤ i ∧ i < p.1 + p.2 := by decide

/-- A byte of the original 128. -/
theorem getD_encodeBase (hlen : raw.length = inodeSize) (h : decode raw inodeSize = .ok inode)
    {i : Nat} (hi : i < 128) :
    (inode.encodeBase (List.replicate inodeSize 0)).getD i 0 =
      if 0x7c ≤ i then 0 else raw.getD i 0 := by
  have hraw := encodeBase_raw h
  obtain ⟨hsize, -⟩ := decodable_of_decode h
  rw [goodOldInodeSize] at hsize
  have hcover : ∃ f ∈ inode.baseFields, f.off ≤ i ∧ i < f.off + f.width := by
    obtain ⟨p, hp, hpi⟩ := baseLayout_covers i hi
    obtain ⟨f, hf, rfl⟩ := List.mem_map.mp (show p ∈ inode.baseFields.map Field.place from hp)
    exact ⟨f, hf, hpi⟩
  have hsame : (inode.encodeBase (List.replicate inodeSize 0)).getD i 0 =
      (inode.encodeBase raw).getD i 0 := by
    rw [encodeBase_eq, encodeBase_eq]
    exact getD_writeAll_congr (by rw [List.length_replicate, hlen])
      (by rw [List.length_replicate]; omega) (Or.inl hcover)
  rw [hsame, hraw, putU16, putU16, getD_splice _ _ (by rw [length_splice]; omega),
    getD_splice _ _ (by omega), length_toLe, getD_toLe_zero, getD_toLe_zero]
  by_cases h7c : 0x7c ≤ i
  · rw [if_pos h7c]
    by_cases h7e : 0x7e ≤ i
    · rw [if_pos (by omega)]
    · rw [if_neg (by omega), if_pos (by omega)]
  · rw [if_neg h7c, if_neg (by omega), if_neg (by omega)]

theorem baseLayout_within : ∀ p ∈ baseLayout, p.1 + p.2 ≤ 128 := by decide

/-- Nothing is written past them. -/
theorem getD_encodeBase_past (inode : Inode) (inodeSize : Nat) {i : Nat} (hi : 128 ≤ i) :
    (inode.encodeBase (List.replicate inodeSize 0)).getD i 0 = 0 := by
  rw [encodeBase_eq, getD_writeAll_outside, List.getD_eq_getElem?_getD,
    List.getElem?_getD_replicate_default_eq]
  intro f hf hin
  have := baseLayout_within f.place (List.mem_map_of_mem hf)
  simp only [Field.place] at this
  omega

/-! ## The extra area -/

/-- A word of the extra area, written back as it was decoded. -/
theorem getD_putExtra {buf : List UInt8} {large : Prop} [Decidable large] {stop off i : Nat}
    (hlarge : large) (hlen : buf.length = raw.length) (hstop : stop ≤ raw.length)
    (hi : i < raw.length) :
    (if off + 4 ≤ stop then
        putU32 buf off (if large ∧ off + 4 ≤ stop then getU32 raw off else 0)
      else buf).getD i 0 =
      if off + 4 ≤ stop ∧ off ≤ i ∧ i < off + 4 then raw.getD i 0 else buf.getD i 0 := by
  by_cases hoff : off + 4 ≤ stop
  · rw [if_pos hoff, if_pos ⟨hlarge, hoff⟩, putU32, getU32, toLe_ofLe_slice (by omega),
      getD_splice _ _ (by omega), length_slice (by omega)]
    by_cases hin : off ≤ i ∧ i < off + 4
    · rw [if_pos hin, if_pos ⟨hoff, hin⟩, getD_slice _ _ _ _ _ (by omega),
        Nat.add_sub_cancel' hin.1]
    · rw [if_neg hin, if_neg fun h => hin h.2]
  · rw [if_neg hoff, if_neg fun h => hoff h.1]

theorem dropTrailingZeroes_append (xs : List UInt8) :
    ∃ n, xs = dropTrailingZeroes xs ++ List.replicate n 0 := by
  have hsplit := congrArg List.reverse (List.takeWhile_append_dropWhile (p := (· == (0 : UInt8)))
    (l := xs.reverse))
  rw [List.reverse_append, List.reverse_reverse] at hsplit
  refine ⟨(xs.reverse.takeWhile (· == 0)).length, ?_⟩
  conv_lhs => rw [← hsplit]
  rw [dropTrailingZeroes]
  refine congrArg _ (List.eq_replicate_iff.mpr ⟨List.length_reverse, fun b hb => ?_⟩)
  have hzero := List.mem_takeWhile_imp (List.mem_reverse.mp hb)
  exact beq_iff_eq.mp hzero

/-- Past the bytes that are kept there are only zeroes. -/
theorem getD_dropTrailingZeroes (xs : List UInt8) (i : Nat) :
    xs.getD i 0 = if i < (dropTrailingZeroes xs).length then (dropTrailingZeroes xs).getD i 0
      else 0 := by
  obtain ⟨n, hn⟩ := dropTrailingZeroes_append xs
  generalize dropTrailingZeroes xs = kept at hn
  subst hn
  rw [List.getD_eq_getElem?_getD, List.getD_eq_getElem?_getD]
  split
  · next hi => rw [List.getElem?_append_left hi]
  · next hi =>
    rw [List.getElem?_append_right (by omega), List.getElem?_replicate]
    split <;> rfl

theorem length_dropTrailingZeroes_le (xs : List UInt8) :
    (dropTrailingZeroes xs).length ≤ xs.length := by
  obtain ⟨n, hn⟩ := dropTrailingZeroes_append xs
  have hlen := congrArg List.length hn
  rw [List.length_append] at hlen
  omega

/-- A byte of the extra area and of what follows it. -/
theorem getD_encodeExtra (hlen : raw.length = inodeSize) (hsize : 132 ≤ inodeSize)
    (hfit : goodOldInodeSize + extraIsizeOf raw inodeSize ≤ inodeSize)
    (h : decode raw inodeSize = .ok inode) {buf : List UInt8} (hbuf : buf.length = inodeSize)
    (hzero : ∀ i, 128 ≤ i → buf.getD i 0 = 0) {i : Nat} (hlo : 128 ≤ i) (hi : i < inodeSize) :
    (inode.encodeExtra inodeSize buf).getD i 0 =
      if Uncovered (extraIsizeOf raw inodeSize) i then 0 else raw.getD i 0 := by
  have hlarge : goodOldInodeSize < inodeSize := by rw [goodOldInodeSize]; omega
  have hx : extraIsizeOf raw inodeSize = getU16 raw 0x80 := if_pos hlarge
  rw [hx] at hfit ⊢
  unfold decode at h
  dsimp only at h
  rw [if_neg (by omega), if_neg (by omega), if_pos hlarge] at h
  obtain rfl := Except.ok.inj h
  have hstop : extraEnd (getU16 raw 0x80) inodeSize = goodOldInodeSize + getU16 raw 0x80 :=
    Nat.min_eq_left hfit
  unfold encodeExtra
  dsimp only
  rw [hstop]
  have hend : goodOldInodeSize + getU16 raw 0x80 ≤ raw.length := by omega
  have hilen : i < raw.length := by omega
  have hbase : (putU16 (putU16 buf 0x80 (getU16 raw 0x80)) 0x82 0).getD i 0 =
      if i < 0x82 then raw.getD i 0 else 0 := by
    rw [putU16, putU16, getU16, toLe_ofLe_slice (by omega),
      getD_splice _ _ (by rw [length_splice]; omega), getD_splice _ _ (by omega), length_toLe,
      getD_toLe_zero, length_slice (by omega), hzero i hlo]
    by_cases hlow : i < 0x82
    · rw [if_neg (by omega), if_pos (by omega), if_pos hlow, getD_slice _ _ _ _ _ (by omega),
        Nat.add_sub_cancel' hlo]
    · rw [if_neg (by omega : ¬ (0x80 ≤ i ∧ i < 0x80 + 2)), if_neg hlow]
      split <;> rfl
  have htail := getD_dropTrailingZeroes
    (slice raw (goodOldInodeSize + getU16 raw 0x80)
      (inodeSize - (goodOldInodeSize + getU16 raw 0x80)))
    (i - (goodOldInodeSize + getU16 raw 0x80))
  have htaillen := length_dropTrailingZeroes_le
    (slice raw (goodOldInodeSize + getU16 raw 0x80)
      (inodeSize - (goodOldInodeSize + getU16 raw 0x80)))
  rw [length_slice (by omega)] at htaillen
  rw [getD_splice _ _ (by simp only [length_putExtra, length_putU16, hbuf]; exact hi),
    getD_putExtra hlarge (by simp only [length_putExtra, length_putU16, hbuf, hlen]) hend hilen,
    getD_putExtra hlarge (by simp only [length_putExtra, length_putU16, hbuf, hlen]) hend hilen,
    getD_putExtra hlarge (by simp only [length_putExtra, length_putU16, hbuf, hlen]) hend hilen,
    getD_putExtra hlarge (by simp only [length_putExtra, length_putU16, hbuf, hlen]) hend hilen,
    getD_putExtra hlarge (by simp only [length_putExtra, length_putU16, hbuf, hlen]) hend hilen,
    getD_putExtra hlarge (by simp only [length_putExtra, length_putU16, hbuf, hlen]) hend hilen,
    getD_putExtra hlarge (by simp only [length_putU16, hbuf, hlen]) hend hilen, hbase,
    List.take_of_length_le htaillen]
  clear hbase
  generalize dropTrailingZeroes _ = tail at htail htaillen
  have hold : goodOldInodeSize = 128 := rfl
  clear h hstop
  generalize getU16 raw 0x80 = x at *
  by_cases hpast : goodOldInodeSize + x ≤ i
  · -- What follows the extra area is kept, or was zero already.
    rw [getD_slice _ _ _ _ _ (by omega), Nat.add_sub_cancel' hpast] at htail
    rw [if_neg fun hu : Uncovered x i => absurd hu.2.1 (by omega)]
    by_cases hkept : i - (goodOldInodeSize + x) < tail.length
    · rw [if_pos hkept] at htail
      rw [if_pos (by omega), htail]
    · rw [if_neg hkept] at htail
      rw [htail, if_neg (by omega)]
      repeat' split
      all_goals rfl
  · rw [if_neg fun h : _ ∧ _ => hpast h.1]
    clear htail
    by_cases hu : Uncovered x i
    · rw [if_pos hu]
      obtain ⟨h82, -, hu⟩ := hu
      (repeat' split) <;> first | rfl | omega
    · rw [if_neg hu]
      unfold Uncovered at hu
      (repeat' split) <;> first | rfl | omega

/-- What encoding a decoded inode makes of each byte. -/
theorem getD_encode (hlen : raw.length = inodeSize)
    (hsize : Encodable inodeSize)
    (hfit : goodOldInodeSize + extraIsizeOf raw inodeSize ≤ inodeSize)
    (h : decode raw inodeSize = .ok inode) {i : Nat} (hi : i < inodeSize) :
    (inode.encode inodeSize).getD i 0 =
      if Zeroed (extraIsizeOf raw inodeSize) i then 0 else raw.getD i 0 := by
  have hold := encodable_ge hsize
  have hbaselen : (inode.encodeBase (List.replicate inodeSize 0)).length = inodeSize := by
    rw [length_encodeBase, List.length_replicate]
  unfold encode
  dsimp only
  by_cases hlow : i < 128
  · have hz : Zeroed (extraIsizeOf raw inodeSize) i ↔ 0x7c ≤ i := by
      unfold Zeroed Uncovered
      omega
    rw [if_congr hz rfl rfl, ← getD_encodeBase hlen h hlow]
    split
    · rfl
    · have hslice := inode.slice_encodeExtra (inode.encodeBase (List.replicate inodeSize 0))
        hold (show 0 + 128 ≤ goodOldInodeSize from Nat.le_refl _)
      have hget := congrArg (fun bs => bs.getD i 0) hslice
      simp only [getD_slice _ _ _ _ _ hlow, Nat.zero_add] at hget
      exact hget
  · have hlarge : ¬ inodeSize ≤ goodOldInodeSize := by
      rw [goodOldInodeSize]
      omega
    have hz : Zeroed (extraIsizeOf raw inodeSize) i ↔
        Uncovered (extraIsizeOf raw inodeSize) i :=
      ⟨fun hz => hz.resolve_left (by omega), Or.inr⟩
    rw [if_neg hlarge, if_congr hz rfl rfl]
    refine getD_encodeExtra hlen (by unfold Encodable goodOldInodeSize at hsize; omega) hfit h
      hbaselen
      (fun j hj => ?_) (by omega) hi
    exact inode.getD_encodeBase_past inodeSize hj

/-! ## The bytes that are read -/

/-- A byte of an inode that decoding takes into a field or into the tail: not the checksum halves,
the reserved word, nor the part of the declared extra area in no whole field. -/
def Taken (extraIsize inodeSize i : Nat) : Prop :=
  i < 0x7c ∨ goodOldInodeSize < inodeSize ∧ (0x80 ≤ i ∧ i < 0x82 ∨
    0x84 ≤ i ∧ i < 0xa0 ∧ i / 4 * 4 + 4 ≤ extraEnd extraIsize inodeSize ∨
      extraEnd extraIsize inodeSize ≤ i)

instance (extraIsize inodeSize i : Nat) : Decidable (Taken extraIsize inodeSize i) :=
  inferInstanceAs (Decidable (_ ∨ _))

/-- Two inodes' bytes agree wherever the first is decoded from. -/
def SameTaken (raw raw' : List UInt8) (inodeSize : Nat) : Prop :=
  ∀ i < inodeSize, Taken (extraIsizeOf raw inodeSize) inodeSize i → raw.getD i 0 = raw'.getD i 0

/-- What decoding keeps of the extra area's size and of what follows the area. -/
theorem decode_tail (h : decode raw inodeSize = .ok inode) (hlarge : goodOldInodeSize < inodeSize) :
    inodeSize ≤ raw.length ∧ inode.extraIsize = getU16 raw 0x80 ∧
      inode.tail = dropTrailingZeroes (slice raw (extraEnd inode.extraIsize inodeSize)
        (inodeSize - extraEnd inode.extraIsize inodeSize)) := by
  obtain ⟨hsize, hlen, hword⟩ := decodable_of_decode h
  unfold decode at h
  dsimp only at h
  rw [if_neg (by omega), if_neg (by omega), if_pos hlarge] at h
  obtain rfl := Except.ok.inj h
  exact ⟨hlen, rfl, rfl⟩

/-- The seven words of the extra area, each there only as a whole. -/
theorem decode_words (h : decode raw inodeSize = .ok inode) (hlarge : goodOldInodeSize < inodeSize) :
    [inode.ctimeExtra, inode.mtimeExtra, inode.atimeExtra, inode.crtime, inode.crtimeExtra,
        inode.versionHi, inode.projid] =
      (List.range 7).map fun k =>
        if 0x84 + 4 * k + 4 ≤ extraEnd inode.extraIsize inodeSize then getU32 raw (0x84 + 4 * k)
          else 0 := by
  obtain ⟨hsize, hlen, hword⟩ := decodable_of_decode h
  unfold decode at h
  dsimp only at h
  rw [if_neg (by omega), if_neg (by omega)] at h
  obtain rfl := Except.ok.inj h
  simp only [hlarge, true_and]
  rfl

section Alike

variable {raw' : List UInt8} (hlen : raw.length = inodeSize) (hlen' : raw'.length = inodeSize)

include hlen hlen'

theorem slice_alike (hsame : SameTaken raw raw' inodeSize) {off n : Nat} (hin : off + n ≤ inodeSize)
    (htaken : ∀ i, off ≤ i → i < off + n → Taken (extraIsizeOf raw inodeSize) inodeSize i) :
    slice raw off n = slice raw' off n :=
  (slice_eq_iff 0 (by omega) (by omega)).mpr fun i hlo hhi =>
    hsame i (by omega) (htaken i hlo hhi)

/-- Bytes that agree where the first are decoded from decode alike. -/
theorem decode_alike (hsame : SameTaken raw raw' inodeSize) :
    decode raw inodeSize = decode raw' inodeSize := by
  have hslice := @slice_alike raw inodeSize raw' hlen hlen' hsame
  unfold decode
  dsimp only
  rw [hlen, hlen']
  by_cases hfew : inodeSize < inodeSize ∨ inodeSize < goodOldInodeSize
  · rw [if_pos hfew, if_pos hfew]
  by_cases hword : goodOldInodeSize < inodeSize ∧ inodeSize < 0x82
  · rw [if_neg hfew, if_neg hfew, if_pos hword, if_pos hword]
  rw [if_neg hfew, if_neg hfew, if_neg hword, if_neg hword]
  rw [goodOldInodeSize] at hfew hword
  have h16 : ∀ off, off + 2 ≤ 0x7c → getU16 raw off = getU16 raw' off := fun off h =>
    congrArg ofLe (hslice (by omega) fun i _ _ => Or.inl (by omega))
  have h32 : ∀ off, off + 4 ≤ 0x7c → getU32 raw off = getU32 raw' off := fun off h =>
    congrArg ofLe (hslice (by omega) fun i _ _ => Or.inl (by omega))
  have hblock : slice raw 0x28 iBlockLen = slice raw' 0x28 iBlockLen := by
    rw [iBlockLen]
    exact hslice (by omega) fun i _ _ => Or.inl (by omega)
  have hextra : (if goodOldInodeSize < inodeSize then getU16 raw 0x80 else 0) =
      if goodOldInodeSize < inodeSize then getU16 raw' 0x80 else 0 := by
    split
    · next hlarge =>
      rw [goodOldInodeSize] at hlarge
      exact congrArg ofLe (hslice (by omega) fun i _ _ => Or.inr ⟨hlarge, Or.inl (by omega)⟩)
    · rfl
  have hstop : extraEnd (extraIsizeOf raw inodeSize) inodeSize ≤ inodeSize := Nat.min_le_right _ _
  unfold extraIsizeOf at hslice hstop
  rw [← hextra]
  generalize (if goodOldInodeSize < inodeSize then getU16 raw 0x80 else 0) = extra at hslice hstop ⊢
  have hfield : ∀ off, 0x84 ≤ off → off + 4 ≤ 0xa0 → off % 4 = 0 →
      (if goodOldInodeSize < inodeSize ∧ off + 4 ≤ extraEnd extra inodeSize then getU32 raw off
        else 0) =
      if goodOldInodeSize < inodeSize ∧ off + 4 ≤ extraEnd extra inodeSize then getU32 raw' off
        else 0 := by
    intro off hlo hhi hfour
    split
    · next hhas =>
      refine congrArg ofLe (hslice (by omega) fun i _ _ => Or.inr ⟨hhas.1, Or.inr (Or.inl ?_)⟩)
      omega
    · rfl
  have htail : slice raw (extraEnd extra inodeSize) (inodeSize - extraEnd extra inodeSize) =
      slice raw' (extraEnd extra inodeSize) (inodeSize - extraEnd extra inodeSize) := by
    refine hslice (by omega) fun i hlo hhi => Or.inr ⟨?_, Or.inr (Or.inr hlo)⟩
    -- An inode of 128 bytes has no tail.
    unfold extraEnd at hlo hhi
    rw [goodOldInodeSize] at hlo hhi ⊢
    omega
  simp (disch := omega) only [h16, h32, hblock, hfield, htail]

/-- Inodes decode to one inode only if their bytes agree there. -/
theorem alike_of_decode (h : decode raw inodeSize = .ok inode)
    (h' : decode raw' inodeSize = .ok inode) : SameTaken raw raw' inodeSize := by
  intro i hi htaken
  by_cases hlow : i < 0x7c
  · have hbase := getD_encodeBase hlen h (by omega : i < 128)
    have hbase' := getD_encodeBase hlen' h' (by omega : i < 128)
    rw [if_neg (by omega)] at hbase hbase'
    exact hbase.symm.trans hbase'
  obtain ⟨hlarge, hplace⟩ := htaken.resolve_left hlow
  obtain ⟨-, hextra, htail⟩ := decode_tail h hlarge
  obtain ⟨-, hextra', htail'⟩ := decode_tail h' hlarge
  have hplaces : ∀ {off n : Nat}, off + n ≤ inodeSize → off ≤ i → i < off + n →
      ofLe (slice raw off n) = ofLe (slice raw' off n) → raw.getD i 0 = raw'.getD i 0 := by
    intro off n hin hlo hhi heq
    have hbytes := congrArg (toLe n) heq
    rw [toLe_ofLe_slice (by omega), toLe_ofLe_slice (by omega)] at hbytes
    exact (slice_eq_iff 0 (by omega) (by omega)).mp hbytes i hlo hhi
  have hstop : extraEnd inode.extraIsize inodeSize ≤ inodeSize := Nat.min_le_right _ _
  rw [extraIsizeOf, if_pos hlarge, ← hextra] at hplace
  rcases hplace with ⟨hlo, hhi⟩ | ⟨hlo, hhi, hwhole⟩ | hpast
  · rw [goodOldInodeSize] at hlarge
    obtain ⟨-, -, hword⟩ := decodable_of_decode h
    rw [goodOldInodeSize] at hword
    exact hplaces (by omega) hlo hhi (hextra.symm.trans hextra')
  · have hwords := (decode_words h hlarge).symm.trans (decode_words h' hlarge)
    have hk := List.map_inj_left.mp hwords ((i - 0x84) / 4) (List.mem_range.mpr (by omega))
    have hoff : 0x84 + 4 * ((i - 0x84) / 4) = i / 4 * 4 := by omega
    rw [hoff, if_pos hwhole, if_pos hwhole] at hk
    exact hplaces (by omega) (by omega) (by omega) hk
  · have hkept := getD_dropTrailingZeroes
      (slice raw (extraEnd inode.extraIsize inodeSize)
        (inodeSize - extraEnd inode.extraIsize inodeSize))
      (i - extraEnd inode.extraIsize inodeSize)
    have hkept' := getD_dropTrailingZeroes
      (slice raw' (extraEnd inode.extraIsize inodeSize)
        (inodeSize - extraEnd inode.extraIsize inodeSize))
      (i - extraEnd inode.extraIsize inodeSize)
    rw [← htail, getD_slice _ _ _ _ _ (by omega), Nat.add_sub_cancel' hpast] at hkept
    rw [← htail', getD_slice _ _ _ _ _ (by omega), Nat.add_sub_cancel' hpast] at hkept'
    exact hkept.trans hkept'.symm

/-- Of the sizes that decode at all, two inodes decode alike exactly when their bytes agree
wherever they are decoded from. -/
theorem decode_eq_iff (hsize : Decodable inodeSize inodeSize) :
    decode raw inodeSize = decode raw' inodeSize ↔ SameTaken raw raw' inodeSize := by
  refine ⟨fun heq => ?_, decode_alike hlen hlen'⟩
  obtain ⟨inode, h, -⟩ := @decode_ok raw inodeSize (by rwa [hlen])
  exact alike_of_decode hlen hlen' h (heq.symm.trans h)

end Alike

/-! ## The whole inode -/

/-- The checksum halves and the reserved word. -/
def Spared (i : Nat) : Prop := 0x7c ≤ i ∧ i < 0x80 ∨ 0x82 ≤ i ∧ i < 0x84

/-- Encode what decoding gives. -/
def reencode (raw : List UInt8) (inodeSize : Nat) : Except Failure (List UInt8) := do
  let inode ← decode raw inodeSize
  panicIf (¬ Encodable inodeSize)
  return inode.encode inodeSize

/-- Encoding what was decoded gives back every byte but the spared ones. -/
def Reproduced (raw : List UInt8) (inodeSize : Nat) : Prop :=
  ∃ bytes, reencode raw inodeSize = .ok bytes ∧
    ∀ i < inodeSize, ¬ Spared i → bytes.getD i 0 = raw.getD i 0

/-- The bytes of the extra area that lie in no whole field are zero. -/
def Covered (raw : List UInt8) (inodeSize : Nat) : Prop :=
  ∀ i, 0x84 ≤ i → Uncovered (extraIsizeOf raw inodeSize) i → raw.getD i 0 = 0

theorem decode_of_encodable (hlen : raw.length = inodeSize) (hsize : Encodable inodeSize) :
    ∃ inode, decode raw inodeSize = .ok inode := by
  obtain ⟨inode, h, -⟩ := decode_ok (decodable_of_encodable hsize (Nat.le_of_eq hlen.symm))
  exact ⟨inode, h⟩

theorem reproduced_iff (hlen : raw.length = inodeSize)
    (hfit : goodOldInodeSize + extraIsizeOf raw inodeSize ≤ inodeSize) :
    Reproduced raw inodeSize ↔ Encodable inodeSize ∧ Covered raw inodeSize := by
  unfold Reproduced reencode
  constructor
  · rintro ⟨bytes, hok, hsame⟩
    obtain ⟨inode, hdec, hok⟩ := bind_ok_iff.mp hok
    obtain ⟨henc, hok⟩ := panicIf_bind_ok_iff.mp hok
    obtain rfl := Except.ok.inj hok
    refine ⟨not_not.mp henc, fun i hi hu => ?_⟩
    have hlt : i < inodeSize := Nat.lt_of_lt_of_le hu.2.1 hfit
    have := hsame i hlt (by unfold Spared; omega)
    rw [← this, getD_encode hlen (not_not.mp henc) hfit hdec hlt,
      if_pos (show Zeroed _ i from Or.inr hu)]
  · rintro ⟨henc, hcov⟩
    obtain ⟨inode, hdec⟩ := decode_of_encodable hlen henc
    refine ⟨_, bind_ok_iff.mpr ⟨inode, hdec, panicIf_bind_ok_iff.mpr ⟨not_not.mpr henc, rfl⟩⟩,
      fun i hi hsp => ?_⟩
    rw [getD_encode hlen henc hfit hdec hi]
    split
    · next hz =>
      unfold Spared at hsp
      rcases hz with hz | hu
      · exact absurd (Or.inl hz) hsp
      · exact (hcov i (by unfold Uncovered at hu; omega) hu).symm
    · rfl

/-! ## With the checksum -/

/-- An inode with its checksum words zero. -/
def withoutChecksum (raw : List UInt8) (hasHi : Bool) : List UInt8 :=
  if hasHi then putU16 (putU16 raw 0x7c 0) 0x82 0 else putU16 raw 0x7c 0

/-- Whether a raw inode carries the high half of its checksum. -/
def hasHiOf (raw : List UInt8) (inodeSize : Nat) : Bool :=
  goodOldInodeSize < inodeSize && inodeCsumHiExtraEnd ≤ extraIsizeOf raw inodeSize

theorem hasHiOf_iff : hasHiOf raw inodeSize ↔
    goodOldInodeSize < inodeSize ∧ inodeCsumHiExtraEnd ≤ extraIsizeOf raw inodeSize := by
  rw [hasHiOf, Bool.and_eq_true, decide_eq_true_iff, decide_eq_true_iff]

/-- The stored checksum words are what encoding would stamp: the checksum of the inode with
these words zero, or zero on a filesystem without checksums. -/
def ChecksumRight (raw : List UInt8) (inodeSize : Nat) (metadataCsum : Bool) (seed : UInt32)
    (inum : Nat) : Prop :=
  let hasHi := hasHiOf raw inodeSize
  let crc :=
    if metadataCsum then
      Csum.inodeCsum seed inum (getU32 raw 0x64) (withoutChecksum raw hasHi)
    else 0
  getU16 raw 0x7c = crc % 2 ^ 16 ∧ (hasHi → getU16 raw 0x82 = crc / 2 ^ 16)

/-- Every byte of the extra area in no whole field, the high checksum half apart, is zero. -/
def Kept (raw : List UInt8) (inodeSize : Nat) : Prop :=
  ∀ i, Uncovered (extraIsizeOf raw inodeSize) i →
    0x84 ≤ i ∨ extraIsizeOf raw inodeSize < 4 → raw.getD i 0 = 0

theorem hasChecksumHi_decode (h : decode raw inodeSize = .ok inode) :
    inode.hasChecksumHi inodeSize = hasHiOf raw inodeSize ∧
      inode.generation = getU32 raw 0x64 := by
  obtain ⟨hsize, hlen, hword⟩ := decodable_of_decode h
  unfold decode at h
  dsimp only at h
  rw [if_neg (by omega), if_neg (by omega)] at h
  obtain rfl := Except.ok.inj h
  exact ⟨rfl, rfl⟩

theorem getD_withoutChecksum (hasHi : Bool) {i : Nat} (hi : i < raw.length) :
    (withoutChecksum raw hasHi).getD i 0 =
      if 0x7c ≤ i ∧ i < 0x7e ∨ hasHi ∧ 0x82 ≤ i ∧ i < 0x84 then 0 else raw.getD i 0 := by
  unfold withoutChecksum
  cases hasHi with
  | false =>
    rw [if_neg Bool.false_ne_true, putU16, getD_splice _ _ hi, length_toLe, getD_toLe_zero]
    exact if_congr (by simp) rfl rfl
  | true =>
    rw [if_pos rfl, putU16, putU16, getD_splice _ _ (by rw [length_splice]; exact hi),
      getD_splice _ _ hi, length_toLe, getD_toLe_zero, getD_toLe_zero]
    by_cases hlow : 0x7c ≤ i ∧ i < 0x7e
    · rw [if_neg (by omega), if_pos (by omega), if_pos (Or.inl hlow)]
    · rw [if_neg (by omega : ¬ (0x7c ≤ i ∧ i < 0x7c + 2))]
      exact if_congr (by simp [hlow]) rfl rfl

theorem length_encode (inode : Inode) (inodeSize : Nat) :
    (inode.encode inodeSize).length = inodeSize := by
  unfold encode
  dsimp only
  split
  · rw [length_encodeBase, List.length_replicate]
  · rw [length_encodeExtra, length_encodeBase, List.length_replicate]

/-- Away from the checksum words, stamping changes nothing. -/
theorem getD_encodeWithCsum (inode : Inode) {inodeSize : Nat} (metadataCsum : Bool) (seed : UInt32)
    (inum : Nat) {i : Nat} (hi : i < inodeSize) (hlow : ¬ (0x7c ≤ i ∧ i < 0x7e))
    (hhigh : inode.hasChecksumHi inodeSize → ¬ (0x82 ≤ i ∧ i < 0x84)) :
    (inode.encodeWithCsum inodeSize metadataCsum seed inum).getD i 0 =
      (inode.encode inodeSize).getD i 0 := by
  have hlen := length_encode inode inodeSize
  unfold encodeWithCsum
  dsimp only
  split
  · split
    · next hhi =>
      rw [putU16, putU16, getD_splice _ _ (by rw [length_splice]; omega),
        getD_splice _ _ (by omega), length_toLe, length_toLe, if_neg (hhigh hhi), if_neg hlow]
    · rw [putU16, getD_splice _ _ (by omega), length_toLe, if_neg hlow]
  · rfl

/-- The bytes of a word that reads as `v` does in its low 16 bits. -/
theorem toLe_of_getU16 {off v : Nat} (hin : off + 2 ≤ raw.length)
    (h : getU16 raw off = v % 2 ^ 16) : toLe 2 v = slice raw off 2 := by
  rw [← toLe_ofLe_slice hin, ← toLe_mod]
  exact congrArg (toLe 2) h.symm

/-- Stamping the words that were there over an inode without them gives it back. -/
theorem restamp {crc : Nat} {hasHi : Bool} (hlen : raw.length = inodeSize) (hsize : 128 ≤ inodeSize)
    (hlow : getU16 raw 0x7c = crc % 2 ^ 16)
    (hhigh : hasHi → 132 ≤ inodeSize ∧ getU16 raw 0x82 = crc / 2 ^ 16) :
    (if hasHi then
        putU16 (putU16 (withoutChecksum raw hasHi) 0x7c crc) 0x82 (crc / 2 ^ 16)
      else putU16 (withoutChecksum raw hasHi) 0x7c crc) = raw := by
  have hlenW : (withoutChecksum raw hasHi).length = raw.length := by
    unfold withoutChecksum
    split <;> simp only [length_putU16]
  have hbytes := toLe_of_getU16 (by omega : 0x7c + 2 ≤ raw.length) hlow
  refine ext_getD 0 (by split <;> simp only [length_putU16, hlenW]) fun i hi => ?_
  have hi' : i < raw.length := by
    split at hi <;> simpa only [length_putU16, hlenW] using hi
  have hbase := @getD_withoutChecksum raw hasHi i hi'
  have hone : (putU16 (withoutChecksum raw hasHi) 0x7c crc).getD i 0 =
      if hasHi ∧ 0x82 ≤ i ∧ i < 0x84 then 0 else raw.getD i 0 := by
    rw [putU16, hbytes, getD_splice _ _ (by omega), length_slice (by omega), hbase]
    by_cases hin : 0x7c ≤ i ∧ i < 0x7c + 2
    · rw [if_pos hin, getD_slice _ _ _ _ _ (by omega), Nat.add_sub_cancel' hin.1,
        if_neg (by omega)]
    · rw [if_neg hin]
      exact if_congr ⟨fun h => h.resolve_left hin, Or.inr⟩ rfl rfl
  cases hasHi with
  | false =>
    rw [if_neg Bool.false_ne_true, hone, if_neg (by simp)]
  | true =>
    obtain ⟨hlarge, hhigh⟩ := hhigh rfl
    have hhigh : getU16 raw 0x82 = crc / 2 ^ 16 % 2 ^ 16 := by
      rw [← hhigh, Nat.mod_eq_of_lt (getU16_lt _ _)]
    rw [if_pos rfl, putU16, getD_splice _ _ (by rw [length_putU16, hlenW]; exact hi'), hone,
      toLe_of_getU16 (by omega) hhigh, length_slice (by omega)]
    by_cases hin : 0x82 ≤ i ∧ i < 0x82 + 2
    · rw [if_pos hin, getD_slice _ _ _ _ _ (by omega), Nat.add_sub_cancel' hin.1]
    · rw [if_neg hin, if_neg fun hc => hin hc.2]

section Stamp

variable {metadataCsum : Bool} {seed : UInt32} {inum : Nat} (hlen : raw.length = inodeSize)
  (hsize : Encodable inodeSize)
  (hfit : goodOldInodeSize + extraIsizeOf raw inodeSize ≤ inodeSize)
  (h : decode raw inodeSize = .ok inode) (hres : getU16 raw 0x7e = 0)

include hlen hsize hfit h hres

/-- With nothing lost, encoding gives the inode with its checksum words zero. -/
theorem encode_of_kept (hkept : Kept raw inodeSize) :
    inode.encode inodeSize = withoutChecksum raw (hasHiOf raw inodeSize) := by
  have hold := encodable_ge hsize
  rw [goodOldInodeSize] at hold
  -- The reserved word is zero, so writing it as zero loses nothing.
  have hword : ∀ i, 0x7e ≤ i → i < 0x80 → raw.getD i 0 = 0 := fun i hlo hhi => by
    have hput : putU16 raw 0x7e 0 = raw := by
      rw [← hres]
      exact putU16_getU16 (by omega)
    rw [← hput, putU16, getD_splice _ _ (by omega), length_toLe, if_pos (by omega),
      getD_toLe_zero]
  have hlenW : (withoutChecksum raw (hasHiOf raw inodeSize)).length = inodeSize := by
    unfold withoutChecksum
    split <;> simp only [length_putU16, hlen]
  refine ext_getD 0 (by rw [length_encode, hlenW]) fun i hi => ?_
  rw [length_encode] at hi
  rw [getD_encode hlen hsize hfit h hi, getD_withoutChecksum _ (by omega)]
  by_cases hstamp : 0x7c ≤ i ∧ i < 0x7e ∨ hasHiOf raw inodeSize ∧ 0x82 ≤ i ∧ i < 0x84
  · rw [if_pos hstamp, if_pos ?_]
    rcases hstamp with hlow | ⟨hhi, hhigh⟩
    · exact Or.inl (by omega)
    · have hx := (hasHiOf_iff.mp hhi).2
      rw [inodeCsumHiExtraEnd] at hx
      exact Or.inr ⟨hhigh.1, by rw [goodOldInodeSize]; omega, Or.inl hhigh.2⟩
  · rw [if_neg hstamp]
    split
    · next hz =>
      rcases hz with hz | hu
      · exact (hword i (by omega) hz.2).symm
      · refine (hkept i hu ?_).symm
        by_cases h84 : 0x84 ≤ i
        · exact Or.inl h84
        · refine Or.inr (Nat.lt_of_not_le fun hx => hstamp (Or.inr ⟨?_, hu.1, by omega⟩))
          exact hasHiOf_iff.mpr ⟨by omega, hx⟩
    · rfl

/-- A decoded inode encodes to the very bytes it came from, checksum and all, exactly when
nothing of its extra area is lost. -/
theorem encodeWithCsum_eq_iff (hright : ChecksumRight raw inodeSize metadataCsum seed inum) :
    inode.encodeWithCsum inodeSize metadataCsum seed inum = raw ↔ Kept raw inodeSize := by
  obtain ⟨hhi, hgen⟩ := hasChecksumHi_decode h
  have hold := encodable_ge hsize
  constructor
  · intro heq i hu hwhere
    have hlt : i < inodeSize := Nat.lt_of_lt_of_le hu.2.1 hfit
    have h82 := hu.1
    have hget := inode.getD_encodeWithCsum metadataCsum seed inum hlt (by omega) fun hc => by
      rw [hhi, hasHiOf_iff, inodeCsumHiExtraEnd] at hc
      omega
    rw [← heq, hget, getD_encode hlen hsize hfit h hlt, if_pos (show Zeroed _ i from Or.inr hu)]
  · intro hkept
    have henc := encode_of_kept hlen hsize hfit h hres hkept
    rw [goodOldInodeSize] at hold
    unfold ChecksumRight at hright
    unfold encodeWithCsum
    dsimp only at hright ⊢
    rw [henc, hgen, hhi]
    cases metadataCsum with
    | false =>
      rw [if_neg Bool.false_ne_true] at hright
      have hlow : putU16 raw 0x7c 0 = raw := by
        have hz : getU16 raw 0x7c = 0 := hright.1
        rw [← hz]
        exact putU16_getU16 (by omega)
      rw [if_neg Bool.false_ne_true]
      unfold withoutChecksum
      split
      · next hyes =>
        have hz : getU16 raw 0x82 = 0 := hright.2 hyes
        have hx := (hasHiOf_iff.mp hyes)
        rw [hlow, ← hz]
        rw [inodeCsumHiExtraEnd, goodOldInodeSize] at hx
        rw [goodOldInodeSize] at hfit
        exact putU16_getU16 (by omega)
      · exact hlow
    | true =>
      rw [if_pos rfl] at hright ⊢
      exact restamp hlen hold hright.1 fun hyes => ⟨by
        have hx := (hasHiOf_iff.mp hyes)
        rw [inodeCsumHiExtraEnd, goodOldInodeSize] at hx
        rw [goodOldInodeSize] at hfit
        omega, hright.2 hyes⟩

end Stamp

end MkfsExt4.Inode
