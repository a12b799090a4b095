/-
  What a command that writes whole blocks leaves as it was: everything but the bytes of the
  blocks it touches (`write_block` of `src/fs.rs`).
-/
import MkfsExt4.Fs.BlockMap

namespace MkfsExt4

open Lib.Store Lib.Hoare

namespace Filesystem

/-- `fs'` is `fs` with no blocks but these written. -/
structure Touches (fs fs' : Filesystem) (blocks : List Nat) : Prop where
  device : fs' = { fs with device := fs'.device }
  size : fs'.device.size = fs.device.size
  reads : ∀ b ∉ blocks, fs'.readBlock b = fs.readBlock b

namespace Touches

variable {fs fs' fs'' : Filesystem} {blocks blocks' : List Nat}

theorem refl (fs : Filesystem) (blocks : List Nat) : Touches fs fs blocks :=
  ⟨rfl, rfl, fun _ _ => rfl⟩

theorem mono (h : Touches fs fs' blocks) (hsub : blocks ⊆ blocks') : Touches fs fs' blocks' :=
  ⟨h.device, h.size, fun b hb => h.reads b fun hin => hb (hsub hin)⟩

theorem trans (h : Touches fs fs' blocks) (h' : Touches fs' fs'' blocks) :
    Touches fs fs'' blocks where
  device := by
    rw [h'.device, h.device]
  size := h'.size.trans h.size
  reads := fun b hb => (h'.reads b hb).trans (h.reads b hb)

theorem superblock (h : Touches fs fs' blocks) : fs'.superblock = fs.superblock := by
  rw [h.device]

theorem blockSize (h : Touches fs fs' blocks) : fs'.blockSize = fs.blockSize := by
  rw [Filesystem.blockSize, Filesystem.blockSize, h.superblock]

theorem perBlock (h : Touches fs fs' blocks) : fs'.perBlock = fs.perBlock := by
  rw [Filesystem.perBlock, Filesystem.perBlock, h.blockSize]

theorem csumSeed (h : Touches fs fs' blocks) : fs'.csumSeed = fs.csumSeed := by
  rw [h.device]

theorem hasMetadataCsum (h : Touches fs fs' blocks) :
    fs'.hasMetadataCsum = fs.hasMetadataCsum := by
  have hscheme : fs'.csumScheme = fs.csumScheme := by rw [h.device]
  rw [Filesystem.hasMetadataCsum, Filesystem.hasMetadataCsum, hscheme]

end Touches

variable {fs fs' : Filesystem}

/-- A block that was read is as long as a block. -/
theorem length_of_readBlock {block : Nat} {buf : List UInt8} (h : fs.readBlock block = .ok buf) :
    buf.length = fs.blockSize := by
  unfold readBlock at h
  dsimp only at h
  split at h
  · cases h
  · rw [(readAtBlock_ok h).1, length_window]

theorem writeBlock_touches {block : Nat} {buf : List UInt8} (hlen : buf.length = fs.blockSize)
    (h : exec (writeBlock block buf) fs = (.ok (), fs')) : Touches fs fs' [block] := by
  obtain ⟨rfl, hin⟩ := writeBlock_ok h
  refine ⟨rfl, rfl, fun b hb => ?_⟩
  have hne : b ≠ block := fun heq => hb (heq ▸ List.mem_singleton_self _)
  have hwindow : window (fs.withBytes (block * fs.blockSize) buf).device.bytes (b * fs.blockSize)
      fs.blockSize = window fs.device.bytes (b * fs.blockSize) fs.blockSize := by
    refine window_overlay_disjoint _ _ ?_
    rw [hlen]
    rcases Nat.lt_or_gt_of_ne hne with hlt | hgt
    · have := Nat.mul_le_mul_right fs.blockSize (Nat.succ_le_of_lt hlt)
      rw [Nat.succ_mul] at this
      exact Or.inl this
    · have := Nat.mul_le_mul_right fs.blockSize (Nat.succ_le_of_lt hgt)
      rw [Nat.succ_mul] at this
      exact Or.inr this
  have hsize : (fs.withBytes (block * fs.blockSize) buf).blockSize = fs.blockSize := rfl
  have hsb : (fs.withBytes (block * fs.blockSize) buf).superblock = fs.superblock := rfl
  have hdev : (fs.withBytes (block * fs.blockSize) buf).device.size = fs.device.size := rfl
  simp only [readBlock, readAtBlock, blockOffset, Device.readAt, hsize, hsb, hdev]
  by_cases hover : b * fs.blockSize < 2 ^ 64
  · simp only [if_pos hover, bind, Except.bind, hwindow]
  · simp only [if_neg hover, bind, Except.bind]

theorem readBlock_of_written {block : Nat} {buf old : List UInt8}
    (hlen : buf.length = fs.blockSize) (hread : fs.readBlock block = .ok old)
    (h : exec (writeBlock block buf) fs = (.ok (), fs')) : fs'.readBlock block = .ok buf := by
  obtain ⟨rfl, -⟩ := writeBlock_ok h
  have hwindow : window (fs.withBytes (block * fs.blockSize) buf).device.bytes
      (block * fs.blockSize) fs.blockSize = buf := by
    rw [← hlen]
    exact window_overlay _ _ _
  have hsize : (fs.withBytes (block * fs.blockSize) buf).blockSize = fs.blockSize := rfl
  have hsb : (fs.withBytes (block * fs.blockSize) buf).superblock = fs.superblock := rfl
  have hdev : (fs.withBytes (block * fs.blockSize) buf).device.size = fs.device.size := rfl
  unfold readBlock at hread ⊢
  dsimp only at hread ⊢
  rw [hsb, hsize]
  split at hread
  · cases hread
  · next hcount =>
    rw [if_neg hcount]
    unfold readAtBlock at hread ⊢
    obtain ⟨offset, hoffset, hread⟩ := bind_ok hread
    obtain ⟨rfl, hover⟩ := blockOffset_ok hoffset
    have hin := (Device.readAt_ok_iff.mp (returned_ok hread)).1
    refine bind_ok_iff.mpr ⟨block * fs.blockSize, ?_, returned_ok_iff.mpr ?_⟩
    · unfold blockOffset
      rw [hsize, if_pos hover]
    · exact Device.readAt_ok_iff.mpr ⟨hdev ▸ hin, hwindow.symm⟩

end Filesystem

end MkfsExt4
