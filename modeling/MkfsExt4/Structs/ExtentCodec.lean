/-
  Extent nodes read back (`src/structs/extent.rs`): the header a node was built with, the bytes
  past its entries, and the leaf an index names.
-/
import MkfsExt4.Structs.Extent

namespace MkfsExt4

open Lib.Store Lib.Endian

/-- The fields of a header fit their widths. -/
structure ExtentHeader.Typed (h : ExtentHeader) : Prop where
  entries : h.entries < 2 ^ 16
  max : h.max < 2 ^ 16
  depth : h.depth < 2 ^ 16
  generation : h.generation < 2 ^ 32

theorem ExtentHeader.maxEntries_lt (space : Nat) (withTail : Bool) :
    maxEntries space withTail < 2 ^ 16 := Nat.mod_lt _ (by decide)

@[simp] theorem ExtentHeader.length_encodeInto (h : ExtentHeader) (buf : List UInt8) :
    (h.encodeInto buf).length = buf.length := by
  simp [encodeInto]

/-- Only the first twelve bytes of a node are its header. -/
theorem ExtentHeader.decode_congr {buf buf' : List UInt8}
    (h : slice buf 0 Extent.headerLen = slice buf' 0 Extent.headerLen) :
    decode buf = decode buf' := by
  have hfield : ∀ {off n : Nat}, off + n ≤ Extent.headerLen → slice buf off n = slice buf' off n := by
    intro off n hin
    exact slice_congr_take (m := Extent.headerLen) h hin
  have hword : ∀ {off : Nat}, off + 2 ≤ Extent.headerLen → getU16 buf off = getU16 buf' off :=
    fun hin => congrArg ofLe (hfield hin)
  have hlast : getU32 buf 8 = getU32 buf' 8 := congrArg ofLe (hfield (by decide))
  unfold decode
  rw [hword (by decide : 0 + 2 ≤ _), hword (by decide : 2 + 2 ≤ _),
    hword (by decide : 4 + 2 ≤ _), hword (by decide : 6 + 2 ≤ _), hlast]

theorem ExtentHeader.decode_encodeInto {h : ExtentHeader} {buf : List UInt8} (hfit : h.Typed)
    (hlen : Extent.headerLen ≤ buf.length) : decode (h.encodeInto buf) = .ok h := by
  simp only [Extent.headerLen] at hlen
  have hword : ∀ {b : List UInt8} {off v : Nat}, off + 2 ≤ b.length → v < 2 ^ 16 →
      ofLe (slice (putU16 b off v) off 2) = v := by
    intro b off v hin hv
    rw [slice_putU16_self hin]
    exact ofLe_toLe_of_lt hv
  have hmagic : getU16 (h.encodeInto buf) 0 = extentMagic := by
    rw [getU16, encodeInto, slice_putU32_disjoint (by omega), slice_putU16_disjoint (by omega),
      slice_putU16_disjoint (by omega), slice_putU16_disjoint (by omega)]
    exact hword (by omega) (by decide)
  have hentries : getU16 (h.encodeInto buf) 2 = h.entries := by
    rw [getU16, encodeInto, slice_putU32_disjoint (by omega), slice_putU16_disjoint (by omega),
      slice_putU16_disjoint (by omega)]
    exact hword (by rw [length_putU16]; omega) hfit.entries
  have hmax : getU16 (h.encodeInto buf) 4 = h.max := by
    rw [getU16, encodeInto, slice_putU32_disjoint (by omega), slice_putU16_disjoint (by omega)]
    exact hword (by rw [length_putU16, length_putU16]; omega) hfit.max
  have hdepth : getU16 (h.encodeInto buf) 6 = h.depth := by
    rw [getU16, encodeInto, slice_putU32_disjoint (by omega)]
    exact hword (by rw [length_putU16, length_putU16, length_putU16]; omega) hfit.depth
  have hgeneration : getU32 (h.encodeInto buf) 8 = h.generation := by
    rw [encodeInto]
    refine getU32_putU32 ?_ hfit.generation
    rw [length_putU16, length_putU16, length_putU16, length_putU16]
    omega
  unfold decode
  rw [hmagic, hentries, hmax, hdepth, hgeneration]
  rfl

/-- The fields of a header read from a node fit their widths. -/
theorem ExtentHeader.typed_of_decode {buf : List UInt8} {h : ExtentHeader}
    (hdecode : decode buf = .ok h) : h.Typed := by
  unfold decode at hdecode
  dsimp only at hdecode
  split at hdecode
  · cases hdecode
  · obtain rfl := Except.ok.inj hdecode
    exact ⟨getU16_lt _ _, getU16_lt _ _, getU16_lt _ _, getU32_lt _ _⟩

namespace Extent

/-- The fields of an extent fit their widths. -/
structure Typed (e : Extent) : Prop where
  block : e.block < 2 ^ 32
  len : e.len < 2 ^ 16
  start : e.start < 2 ^ 48

theorem typed_decode (buf : List UInt8) : (decode buf).Typed := by
  have hlo : getU32 buf 8 < 2 ^ 32 := getU32_lt _ _
  have hhi : getU16 buf 6 < 2 ^ 16 := getU16_lt _ _
  refine ⟨getU32_lt _ _, getU16_lt _ _, ?_⟩
  show join 32 (getU32 buf 8) (getU16 buf 6) < 2 ^ 48
  rw [join]
  omega

@[simp] theorem length_encode (e : Extent) : e.encode.length = entryLen := by
  simp [encode]

theorem decode_encode {e : Extent} (h : e.Typed) : decode e.encode = e := by
  have hblock : getU32 e.encode 0 = e.block := by
    rw [getU32, encode, slice_putU32_disjoint (by omega), slice_putU16_disjoint (by omega),
      slice_putU16_disjoint (by omega), slice_putU32_self (by simp [entryLen])]
    exact ofLe_toLe_of_lt h.block
  have hword : getU16 e.encode 4 = e.len := by
    rw [getU16, encode, slice_putU32_disjoint (by omega), slice_putU16_disjoint (by omega),
      slice_putU16_self (by simp [entryLen])]
    exact ofLe_toLe_of_lt h.len
  have hlo : getU32 e.encode 8 = e.start % 2 ^ 32 := by
    rw [getU32, encode, slice_putU32_self (by simp [entryLen])]
    exact ofLe_toLe 4 e.start
  have hhi : getU16 e.encode 6 = e.start / 2 ^ 32 % 2 ^ 16 := by
    rw [getU16, encode, slice_putU32_disjoint (by omega), slice_putU16_self (by simp [entryLen])]
    exact ofLe_toLe 2 (e.start / 2 ^ 32)
  have hstart : join 32 (getU32 e.encode 8) (getU16 e.encode 6) = e.start := by
    rw [hlo, hhi, join_halves 32 16, Nat.mod_eq_of_lt h.start]
  rw [decode, hblock, hword, hstart]

/-- Outside of its entries a node is its header over zeroes. -/
theorem slice_buildNode {len off n : Nat} {header : ExtentHeader} {extents : List Extent}
    (h : off + n ≤ headerLen ∨ headerLen + extents.length * entryLen ≤ off) :
    slice (buildNode len header extents) off n =
      slice (header.encodeInto (List.replicate len 0)) off n := by
  suffices hfold : ∀ (entries : List (Extent × Nat)) (buf : List UInt8),
      (∀ e ∈ entries, e.2 < extents.length) →
      slice (entries.foldl (fun buf e => splice buf (headerLen + e.2 * entryLen) e.1.encode) buf)
        off n = slice buf off n by
    refine hfold _ _ fun e he => ?_
    have hlt := (List.mem_zipIdx he).2.1
    rwa [Nat.zero_add] at hlt
  intro entries
  induction entries with
  | nil => exact fun _ _ => rfl
  | cons e entries ih =>
    intro buf hin
    rw [List.foldl_cons, ih _ fun e' he' => hin e' (List.mem_cons_of_mem e he')]
    refine slice_splice_disjoint ?_
    have hlast := hin e List.mem_cons_self
    rw [length_encode]
    simp only [headerLen, entryLen] at h ⊢
    omega

theorem decode_buildNode {len : Nat} {header : ExtentHeader} {extents : List Extent}
    (hfit : header.Typed) (hlen : headerLen ≤ len) :
    ExtentHeader.decode (buildNode len header extents) = .ok header := by
  rw [ExtentHeader.decode_congr (slice_buildNode (Or.inl (Nat.le_of_eq (Nat.zero_add _))))]
  exact ExtentHeader.decode_encodeInto hfit (by rwa [List.length_replicate])

end Extent

/-- The leaf an index names, cut to 48 bits. -/
theorem ExtentIdx.decode_encode (idx : ExtentIdx) :
    (ExtentIdx.decode idx.encode).leaf = idx.leaf % 2 ^ 48 := by
  have hlo : getU32 idx.encode 4 = idx.leaf % 2 ^ 32 := by
    rw [getU32, ExtentIdx.encode, slice_putU16_disjoint (by omega), slice_putU16_disjoint (by omega),
      slice_putU32_self (by simp [Extent.entryLen])]
    exact ofLe_toLe 4 idx.leaf
  have hhi : getU16 idx.encode 8 = idx.leaf / 2 ^ 32 % 2 ^ 16 := by
    rw [getU16, ExtentIdx.encode, slice_putU16_disjoint (by omega),
      slice_putU16_self (by simp [Extent.entryLen])]
    exact ofLe_toLe 2 (idx.leaf / 2 ^ 32)
  rw [ExtentIdx.decode, hlo, hhi]
  exact join_halves 32 16 idx.leaf

end MkfsExt4
