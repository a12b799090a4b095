/-
  What truncation makes of the bytes of a node (`truncate_node` of `src/orphan.rs`): a leaf's
  extents cut, the entries kept put back one after another, the tail stamped.
-/
import MkfsExt4.Orphan.ExtentTree

namespace MkfsExt4

open Lib.Store Lib.Endian Lib.Hoare Lib.Intervals Lib.Pruning

namespace Orphan

variable {header : ExtentHeader} {node : List UInt8} {kept : List (List UInt8)}

theorem length_entry {i n : Nat} (hroom : Extent.headerLen + n * Extent.entryLen ≤ node.length)
    (hi : i < n) : (Extent.entry node i).length = Extent.entryLen := by
  have hmul := Nat.mul_le_mul_right Extent.entryLen (Nat.succ_le_of_lt hi)
  rw [Nat.succ_mul] at hmul
  exact length_slice (by omega)

/-- Nothing of a node but its entries and the count of them is rewritten. -/
@[simp] theorem length_rewriteNode : (rewriteNode header node kept).length = node.length := by
  simp [rewriteNode]

theorem decode_rewriteNode (hdecode : ExtentHeader.decode node = .ok header)
    (hlen : Extent.headerLen ≤ node.length) (hkept : kept.length ≤ header.entries) :
    ExtentHeader.decode (rewriteNode header node kept) =
      .ok { header with entries := kept.length } := by
  have htyped := ExtentHeader.typed_of_decode hdecode
  have hcount := Nat.lt_of_le_of_lt hkept htyped.entries
  refine ExtentHeader.decode_encodeInto ⟨hcount, htyped.max, htyped.depth, htyped.generation⟩ ?_
  rwa [length_splice, length_splice]

theorem slice_encodeInto (h : ExtentHeader) {buf : List UInt8} {off n : Nat}
    (hoff : Extent.headerLen ≤ off) : slice (h.encodeInto buf) off n = slice buf off n := by
  simp only [Extent.headerLen] at hoff
  rw [ExtentHeader.encodeInto, slice_putU32_disjoint (by omega), slice_putU16_disjoint (by omega),
    slice_putU16_disjoint (by omega), slice_putU16_disjoint (by omega),
    slice_putU16_disjoint (by omega)]

/-- The entries kept are those of the node afterwards, in their order. -/
theorem entries_rewriteNode (hroom : Extent.headerLen + header.entries * Extent.entryLen ≤ node.length)
    (hkept : kept.length ≤ header.entries) (hraw : ∀ raw ∈ kept, raw.length = Extent.entryLen) :
    (List.range kept.length).map (Extent.entry (rewriteNode header node kept)) = kept := by
  have hget : (List.range kept.length).map (fun i => kept.getD i []) = kept := by
    refine List.ext_getElem (by rw [List.length_map, List.length_range]) fun i _ hi => ?_
    rw [List.getElem_map, List.getElem_range]
    exact List.getD_eq_getElem _ _ hi
  have hblock : ∀ i < kept.length, (kept.getD i []).length = Extent.entryLen := by
    intro i hi
    rw [List.getD_eq_getElem _ _ hi]
    exact hraw _ (List.getElem_mem hi)
  have hflat : kept.flatten.length = kept.length * Extent.entryLen := by
    have := length_flatten_blocks hblock
    rwa [hget] at this
  have hle := Nat.mul_le_mul_right Extent.entryLen hkept
  refine List.ext_getElem (by rw [List.length_map, List.length_range]) fun i hi hi' => ?_
  have hstep := Nat.mul_le_mul_right Extent.entryLen (Nat.succ_le_of_lt hi')
  rw [Nat.succ_mul] at hstep
  rw [List.getElem_map, List.getElem_range, Extent.entry, rewriteNode]
  rw [slice_encodeInto _ (Nat.le_add_right _ _)]
  have hwhole := @slice_splice _ (splice node Extent.headerLen
    (List.replicate (header.entries * Extent.entryLen) 0)) _ Extent.headerLen _ hflat
    (by rw [length_splice]; omega)
  rw [← slice_slice _ (n := kept.length * Extent.entryLen) hstep, hwhole]
  have hslice := slice_flatten_blocks 0 hblock hi' []
  rw [hget, List.append_nil, List.getD_eq_getElem _ _ hi'] at hslice
  exact hslice

/-- What `stamp_node` changes is the tail, and that is then right. -/
theorem stampNode_ok {fs : Filesystem} {inum generation : Nat} {out : List UInt8}
    (hdecode : ExtentHeader.decode node = .ok header)
    (hroom : fs.hasMetadataCsum = true →
      Extent.tailOffset header.max + Extent.tailLen ≤ node.length)
    (h : stampNode fs inum generation node = .ok out) :
    out.length = node.length ∧
      out.take (Extent.tailOffset header.max) = node.take (Extent.tailOffset header.max) ∧
      (fs.hasMetadataCsum = true → fs.Stamped inum generation header out) := by
  unfold stampNode at h
  by_cases hcsum : fs.hasMetadataCsum = true
  · have hfit := hroom hcsum
    have hfit4 : Extent.tailOffset header.max + 4 ≤ node.length := hfit
    have hsame : ∀ v, (putU32 node (Extent.tailOffset header.max) v).take
        (Extent.tailOffset header.max) = node.take (Extent.tailOffset header.max) :=
      fun v => take_splice (by omega)
    simp only [hcsum, Bool.not_true, Bool.false_eq_true, if_false, hdecode, returned, bind,
      Except.bind, if_neg (Nat.not_lt.mpr hfit)] at h
    obtain rfl := Except.ok.inj h
    refine ⟨length_putU32 .., hsame _, fun _ => ⟨by rwa [length_putU32], ?_⟩⟩
    rw [getU32_putU32 hfit4 (Csum.extentBlockCsum_lt _ _ _ _), hsame]
  · rw [Bool.not_eq_true] at hcsum
    rw [hcsum] at h
    obtain rfl := Except.ok.inj h
    exact ⟨rfl, rfl, fun hyes => absurd (hcsum.symm.trans hyes) Bool.false_ne_true⟩

/-! ## A leaf -/

/-- The part of an extent of `n` blocks from its block `skip` on. -/
def part (ext : Extent) (skip n : Nat) : Extent where
  block := ext.block + skip
  len := n + if ext.isUninit then Extent.initMaxLen else 0
  start := ext.start + skip

/-- A part is written or not as the whole is, and has the blocks it is meant to have. -/
theorem part_spec {ext : Extent} {n : Nat} (skip : Nat) (hn : 0 < n)
    (hle : n ≤ ext.effectiveLen) :
    (part ext skip n).isUninit = ext.isUninit ∧ (part ext skip n).effectiveLen = n := by
  rw [Extent.effectiveLen] at hle
  by_cases hu : Extent.initMaxLen < ext.len
  · have huninit : ext.isUninit = true := decide_eq_true hu
    have hlen : (part ext skip n).len = n + Extent.initMaxLen := by rw [part, if_pos huninit]
    have hpart : Extent.initMaxLen < (part ext skip n).len := by omega
    refine ⟨(decide_eq_true hpart).trans huninit.symm, ?_⟩
    rw [Extent.effectiveLen, if_pos hpart, hlen, Nat.add_sub_cancel]
  · have huninit : ext.isUninit = false := decide_eq_false hu
    have hlen : (part ext skip n).len = n := by
      rw [part, huninit]
      rfl
    rw [if_neg hu] at hle
    have hpart : ¬ Extent.initMaxLen < (part ext skip n).len := by omega
    refine ⟨(decide_eq_false hpart).trans huninit.symm, ?_⟩
    rw [Extent.effectiveLen, if_neg hpart, hlen]

theorem part_typed {ext : Extent} {keep : Nat} (h : ext.Typed) (hlt : keep < ext.effectiveLen) :
    (part ext 0 keep).Typed := by
  refine ⟨h.block, ?_, h.start⟩
  have hlen := h.len
  rw [Extent.effectiveLen] at hlt
  by_cases hu : Extent.initMaxLen < ext.len
  · have huninit : ext.isUninit = true := decide_eq_true hu
    rw [if_pos hu] at hlt
    rw [part, if_pos huninit]
    show keep + Extent.initMaxLen < 2 ^ 16
    omega
  · have huninit : ext.isUninit = false := decide_eq_false hu
    rw [if_neg hu] at hlt
    rw [part, huninit]
    exact Nat.lt_trans hlt hlen

/-- The length of an extent cut short stays within its field. -/
theorem cut_eq_part {ext : Extent} {keep : Nat} (h : ext.Typed) (hlt : keep < ext.effectiveLen) :
    { ext with len := (keep + if ext.isUninit then Extent.initMaxLen else 0) % 2 ^ 16 } =
      part ext 0 keep := by
  have hlen := (part_typed h hlt).len
  rw [part] at hlen
  dsimp only at hlen
  rw [Nat.mod_eq_of_lt hlen]
  rfl

/-- An extent is its first blocks and the rest. -/
theorem ofExtent_split {ext : Extent} {keep : Nat} (hpos : 0 < keep)
    (hlt : keep < ext.effectiveLen) :
    Held.ofExtent ext = Held.ofExtent (part ext 0 keep) ++
      Held.ofExtent (part ext keep (ext.effectiveLen - keep)) := by
  obtain ⟨huninit, hlen⟩ := part_spec 0 hpos hlt.le
  obtain ⟨huninit', hlen'⟩ := part_spec keep (Nat.sub_pos_of_lt hlt) (Nat.sub_le _ _)
  have hsplit : List.range ext.effectiveLen = List.range keep ++
      (List.range (ext.effectiveLen - keep)).map (keep + ·) := by
    rw [← List.range_add]
    congr 1
    omega
  rw [Held.ofExtent, Held.ofExtent, Held.ofExtent, Filesystem.extentRefs, Filesystem.extentRefs,
    Filesystem.extentRefs, huninit, hlen, huninit', hlen', hsplit]
  simp only [List.map_append, List.map_map]
  refine congrArg₂ (· ++ ·) rfl (List.map_congr_left fun k _ => ?_)
  simp only [Function.comp_apply, part, Nat.add_assoc]

/-- The entries of a leaf, cut: those past the cut are gone, the one across it is its part before
    it, and written or not as it was. -/
theorem cutLeaf_pruned {cut lo hi : Nat} {is : List Nat}
    (hraw : ∀ i ∈ is, (Extent.entry node i).length = Extent.entryLen)
    (hord : Ordered Extent.block Extent.effectiveLen lo hi
      (is.map fun i => Extent.decode (Extent.entry node i))) :
    Ordered Extent.block Extent.effectiveLen lo hi ((cutLeaf cut node is).1.map Extent.decode) ∧
      Pruned Held.pos Held.cell cut
        ((is.map fun i => Extent.decode (Extent.entry node i)).flatMap Held.ofExtent)
        (((cutLeaf cut node is).1.map Extent.decode).flatMap Held.ofExtent)
        (cutLeaf cut node is).2 ∧
      (cutLeaf cut node is).1.length ≤ is.length ∧
      ∀ raw ∈ (cutLeaf cut node is).1, raw.length = Extent.entryLen := by
  induction is generalizing lo with
  | nil => exact ⟨hord, Pruned.nil, Nat.le_refl 0, fun _ hraw => absurd hraw List.not_mem_nil⟩
  | cons i is ih =>
    have htyped := Extent.typed_decode (Extent.entry node i)
    rw [List.map_cons] at hord
    obtain ⟨hlo, hpos, htail⟩ := hord
    obtain ⟨hord', hpruned, hcount, hraw'⟩ :=
      ih (fun j hj => hraw j (List.mem_cons_of_mem i hj)) htail
    rw [List.map_cons, List.flatMap_cons, cutLeaf]
    dsimp only
    generalize Extent.decode (Extent.entry node i) = ext at htyped hlo hpos hord'
    have hcells := Held.map_cell_ofExtent ext
    split
    · next hcut =>
      -- past the cut
      refine ⟨hord'.mono (by omega), ?_, Nat.le_succ_of_le hcount, hraw'⟩
      refine Pruned.append_drop (fun x hx n hn => ?_) (List.Perm.of_eq hcells.symm) hpruned
      exact Nat.le_trans hcut (Held.pos_ofExtent hx hn).1
    · next hbefore =>
      have hraw'' : ∀ {e : Extent}, ∀ raw ∈ e.encode :: (cutLeaf cut node is).1,
          raw.length = Extent.entryLen := by
        intro e raw hmem
        rcases List.mem_cons.mp hmem with rfl | hmem
        · exact Extent.length_encode e
        · exact hraw' raw hmem
      split
      · next hacross =>
        -- across the cut
        have hkeep : 0 < cut - ext.block := by omega
        have hlt : cut - ext.block < ext.effectiveLen := by omega
        have hfits := part_typed htyped hlt
        rw [cut_eq_part htyped hlt]
        have hlen := (part_spec 0 hkeep hlt.le).2
        have hrest := (part_spec (cut - ext.block) (Nat.sub_pos_of_lt hlt) (Nat.sub_le _ _)).2
        rw [List.map_cons, Extent.decode_encode hfits]
        refine ⟨⟨hlo, by rw [hlen]; exact hkeep, hord'.mono ?_⟩, ?_, Nat.succ_le_succ hcount, hraw''⟩
        · rw [hlen]
          exact Nat.add_le_add_left hlt.le ext.block
        · rw [List.flatMap_cons, ofExtent_split hkeep hlt]
          refine Pruned.append ?_ hpruned
          have hfront : Pruned Held.pos Held.cell cut (Held.ofExtent (part ext 0 (cut - ext.block)))
              (Held.ofExtent (part ext 0 (cut - ext.block))) [] := by
            refine Pruned.keep fun x hx n hn => ?_
            have hlast := (Held.pos_ofExtent hx hn).2
            rw [hlen] at hlast
            have hblock : (part ext 0 (cut - ext.block)).block = ext.block := rfl
            omega
          have hback : Pruned Held.pos Held.cell cut
              (Held.ofExtent (part ext (cut - ext.block) (ext.effectiveLen - (cut - ext.block)))) []
              (List.range' (ext.start + (cut - ext.block))
                (ext.effectiveLen - (cut - ext.block))) := by
            refine Pruned.drop (fun x hx n hn => ?_) (List.Perm.of_eq ?_)
            · have hfirst := (Held.pos_ofExtent hx hn).1
              have hblock : (part ext (cut - ext.block) (ext.effectiveLen -
                (cut - ext.block))).block = ext.block + (cut - ext.block) := rfl
              omega
            · rw [Held.map_cell_ofExtent, hrest]
              rfl
          have hboth := hfront.append hback
          rwa [List.append_nil, List.nil_append] at hboth
      · next hbelow =>
        -- before the cut
        rw [List.map_cons, Extent.decode_encode htyped]
        refine ⟨⟨hlo, hpos, hord'⟩, ?_, Nat.succ_le_succ hcount, hraw''⟩
        rw [List.flatMap_cons]
        refine Pruned.append_keep (fun x hx n hn => ?_) hpruned
        have hlast := (Held.pos_ofExtent hx hn).2
        omega

end Orphan

end MkfsExt4
