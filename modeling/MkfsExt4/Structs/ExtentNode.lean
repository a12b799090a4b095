/-
  The entries of an extent node (`src/structs/extent.rs`): a tree inline in an inode is read back
  as it was built (`build_inline`, `read_inline`), and a search of a leaf finds what its extents
  map (`resolve_extent` in `src/fs.rs`).
-/
import Mathlib.Data.List.Induction
import MkfsExt4.Fs.BlockMap
import MkfsExt4.Structs.ExtentCodec

namespace MkfsExt4

open Lib.Store Lib.Endian Lib.Hoare

namespace Extent

/-- The entries of a node, in order. -/
def Entries (node : List UInt8) (extents : List Extent) : Prop :=
  headerLen + extents.length * entryLen ≤ node.length ∧
    ∀ i e, extents[i]? = some e → entry node i = e.encode

/-- A node that was built has the entries it was built from. -/
theorem entries_buildNode {len : Nat} {header : ExtentHeader} {extents : List Extent}
    (hroom : headerLen + extents.length * entryLen ≤ len) :
    Entries (buildNode len header extents) extents := by
  refine ⟨by rwa [length_buildNode], ?_⟩
  induction extents using List.reverseRecOn with
  | nil => exact fun i e h => absurd h (Option.some_ne_none e).symm
  | append_singleton extents last ih =>
    intro i e hi
    simp only [List.length_append, List.length_singleton, headerLen, entryLen] at hroom
    have hlen := length_buildNode len header extents
    have hlast := length_encode last
    rw [entryLen] at hlast
    rw [buildNode, List.zipIdx_append, List.foldl_append]
    change entry (splice (buildNode len header extents)
      (headerLen + (0 + extents.length) * entryLen) last.encode) i = e.encode
    rw [Nat.zero_add, entry]
    rcases Nat.lt_trichotomy i extents.length with hlt | rfl | hgt
    · rw [List.getElem?_append_left hlt] at hi
      rw [slice_splice_disjoint (by simp only [headerLen, entryLen]; omega)]
      exact ih (by simp only [headerLen, entryLen]; omega) i e hi
    · rw [List.getElem?_append_right (Nat.le_refl _), Nat.sub_self] at hi
      obtain rfl := Option.some.inj hi
      exact slice_splice (length_encode last) (by simp only [headerLen, entryLen]; omega)
    · rw [List.getElem?_eq_none (by rw [List.length_append, List.length_singleton]; omega)] at hi
      cases hi

/-! ## Trees inline in an inode -/

/-- `read_inline`: the leaf extents of an inline tree. An entry past the end of the map panics. -/
def readInline (iBlock : List UInt8) : Except Failure (List Extent) := do
  let header ← returned (ExtentHeader.decode iBlock)
  if header.depth ≠ 0 then
    throw (.error (.corrupt "extent header"
      s!"expected an inline depth-0 node, found depth {header.depth}"))
  let max := ExtentHeader.maxEntries inlineLen false
  if max < header.entries then
    throw (.error (.corrupt "extent header"
      s!"{header.entries} entries claimed, only {max} fit inline"))
  panicIf (iBlock.length < headerLen + header.entries * entryLen)
  return (List.range header.entries).map fun i => decode (entry iBlock i)

/-- The header of a tree inline in an inode. -/
def inlineHeader (count : Nat) : ExtentHeader where
  entries := count
  max := ExtentHeader.maxEntries inlineLen false
  depth := 0
  generation := 0

theorem buildInline_ok {extents : List Extent} {node : List UInt8}
    (h : buildInline extents = .ok node) : extents.length ≤ 4 ∧
      node = buildNode inlineLen (inlineHeader extents.length) extents := by
  unfold buildInline at h
  dsimp only at h
  split at h
  · cases h
  · next hfit => exact ⟨Nat.not_lt.mp hfit, (Except.ok.inj h).symm⟩

theorem decode_entries {node : List UInt8} {extents : List Extent} (h : Entries node extents)
    (htyped : ∀ e ∈ extents, e.Typed) :
    (List.range extents.length).map (fun i => decode (entry node i)) = extents := by
  refine List.ext_getElem? fun i => ?_
  rw [List.getElem?_map]
  rcases Nat.lt_or_ge i extents.length with hlt | hge
  · have hget := List.getElem?_eq_getElem hlt
    rw [List.getElem?_range hlt, Option.map_some, h.2 i _ hget,
      decode_encode (htyped _ (List.getElem_mem hlt)), hget]
  · rw [List.getElem?_eq_none (by rwa [List.length_range]), List.getElem?_eq_none hge]
    rfl

theorem decode_inline {extents : List Extent} (hfit : extents.length ≤ 4) :
    ExtentHeader.decode (buildNode inlineLen (inlineHeader extents.length) extents) =
      .ok (inlineHeader extents.length) :=
  decode_buildNode ⟨Nat.lt_of_le_of_lt hfit (by decide), ExtentHeader.maxEntries_lt _ _,
    Nat.two_pow_pos 16, Nat.two_pow_pos 32⟩ (by decide)

theorem entries_inline {extents : List Extent} (hfit : extents.length ≤ 4) :
    Entries (buildNode inlineLen (inlineHeader extents.length) extents) extents :=
  entries_buildNode (Nat.add_le_add_left (Nat.mul_le_mul_right entryLen hfit) headerLen)

/-- A tree that is built inline is read back as the extents it was built from; more than four do
not fit. -/
theorem readInline_buildInline (extents : List Extent) (htyped : ∀ e ∈ extents, e.Typed) :
    (∃ node, buildInline extents = .ok node ∧ node.length = iBlockLen ∧
      readInline node = .ok extents) ↔ extents.length ≤ 4 := by
  refine ⟨fun h => ?_, fun hfit => ?_⟩
  · obtain ⟨node, hnode, -⟩ := h
    exact (buildInline_ok hnode).1
  · refine ⟨buildNode inlineLen (inlineHeader extents.length) extents,
      if_neg (Nat.not_lt.mpr hfit), length_buildNode _ _ _, ?_⟩
    have hentries := entries_inline hfit
    unfold readInline
    rw [bind_of_ok (returned_ok_iff.mpr (decode_inline hfit))]
    refine (if_neg (not_not_intro rfl)).trans ?_
    refine (if_neg (Nat.not_lt.mpr hfit)).trans ?_
    exact panicIf_bind_ok_iff.mpr ⟨Nat.not_lt.mpr hentries.1,
      congrArg Except.ok (decode_entries hentries htyped)⟩

/-! ## Searching a leaf -/

/-- Whether an extent maps a logical block. -/
def holds (logical : Nat) (e : Extent) : Bool :=
  e.block ≤ logical ∧ logical < e.block + e.effectiveLen

/-- What extents map a logical block to: the first that holds it says. -/
def mapped (extents : List Extent) (logical : Nat) : Option Nat :=
  (extents.find? (holds logical)).map fun e => e.start + (logical - e.block)

theorem mapped_append (es es' : List Extent) (logical : Nat) :
    mapped (es ++ es') logical = (mapped es logical).or (mapped es' logical) := by
  rw [mapped, List.find?_append, mapped, mapped]
  cases es.find? (holds logical) <;> rfl

theorem findExtent_eq {node : List UInt8} {extents : List Extent} (h : Entries node extents)
    (htyped : ∀ e ∈ extents, e.Typed) (logical : Nat) {count i : Nat}
    (hcount : count + i = extents.length) :
    Filesystem.findExtent node logical count i = .ok (mapped (extents.drop i) logical) := by
  induction count generalizing i with
  | zero =>
    rw [List.drop_of_length_le (by omega)]
    rfl
  | succ count ih =>
    have hlt : i < extents.length := by omega
    obtain ⟨e, hget⟩ : ∃ e, extents[i]? = some e := ⟨_, List.getElem?_eq_getElem hlt⟩
    have hdrop : extents.drop i = e :: extents.drop (i + 1) := by
      rw [List.drop_eq_getElem_cons hlt, ← Option.some.inj (hget.symm.trans
        (List.getElem?_eq_getElem hlt))]
    have hentry : Filesystem.nodeEntry node i = .ok e.encode := by
      have hnode := h.1
      have hin : (i + 1) * entryLen ≤ extents.length * entryLen := Nat.mul_le_mul_right _ hlt
      rw [Nat.succ_mul] at hin
      exact panicIf_bind_ok_iff.mpr ⟨by omega, congrArg Except.ok (h.2 i e hget)⟩
    rw [Filesystem.findExtent, bind_of_ok hentry,
      decode_encode (htyped e (List.mem_of_getElem? hget)), hdrop, mapped]
    dsimp only
    by_cases hholds : e.block ≤ logical ∧ logical < e.block + e.effectiveLen
    · have hyes : holds logical e = true := decide_eq_true hholds
      rw [List.find?_cons_of_pos hyes, if_pos hholds]
      rfl
    · have hnot : ¬holds logical e = true := fun h => hholds (of_decide_eq_true h)
      rw [List.find?_cons_of_neg hnot, if_neg hholds, ih (by omega)]
      rfl

end Extent

end MkfsExt4
