/-
  What a check never changes in a superblock: which copy it is, and where its descriptors go.

  A repair changes the counts, the state, the orphan list and the feature flags. The number of the
  group a copy was made for goes through every stage as it was read, and is written wherever the
  superblock is. `Keeps Filesystem.identity` is the property of a command that leaves it alone.
-/
import MkfsExt4.Fs.Descriptors
import MkfsExt4.Fsck.BlockCounts
import MkfsExt4.Structs.SuperblockCodec

namespace MkfsExt4

open Lib.Store Lib.Hoare

/-- Which copy a superblock is, and what decides where the descriptor table goes. -/
def Superblock.identity (sb : Superblock) : Nat × Nat × Nat × Nat :=
  (sb.blockGroupNr, sb.blockSize, sb.firstDataBlock, sb.groupCount)

def Filesystem.identity (fs : Filesystem) : Nat × Nat × Nat × Nat := fs.superblock.identity

/-! ## Commands that leave the superblock alone -/

namespace Orphan

open Filesystem
open Fsck (reading_keeps)

/-- What leaves the superblock alone leaves its identity alone. -/
theorem keeps_identity {α : Type} {m : FsM α} (h : Keeps Filesystem.superblock m) :
    Keeps Filesystem.identity m := h.read Superblock.identity

theorem writeInode_keeps (inum : Nat) (inode : Inode) :
    Keeps Filesystem.superblock (writeInode inum inode) := by
  refine keeps_bind (reading_keeps _ _) fun place => keeps_bind (reading_keeps _ _) fun _ => ?_
  refine keeps_bind (reading_keeps _ _) fun encoded => keeps_bind (reading_keeps _ _) fun _ => ?_
  exact keeps_bind (reading_keeps _ _) fun _ => writeBlock_keeps _ _

end Orphan

/-! ## The stages of a check -/

namespace Fsck

open Filesystem Orphan

theorem fixLinks_superblock (r : FsckReport) (fix : LinkFix) :
    Keeps Filesystem.superblock (fixLinks r fix) :=
  keeps_bind (reading_keeps _ _) fun _ => keeps_bind (writeInode_keeps _ _) fun _ => keeps_pure _

theorem fixBitmap_superblock (writes : Bool) (code : Code) (message : String) (block : Nat)
    (actual expected : List UInt8) (r : FsckReport) :
    Keeps Filesystem.superblock (fixBitmap writes code message block actual expected r) := by
  unfold fixBitmap
  split
  · exact keeps_pure _
  · split
    · exact keeps_bind (writeBlock_keeps _ _) fun _ => keeps_pure _
    · exact keeps_pure _

theorem pass5Group_superblock (writes : Bool) (state : ScanState) (t : Totals) (group : Nat) :
    Keeps Filesystem.superblock (pass5Group writes state t group) := by
  unfold pass5Group
  refine keeps_bind keeps_get fun fs => keeps_bind (reading_keeps _ _) fun actual => ?_
  refine keeps_bind (reading_keeps _ _) fun desc => ?_
  refine keeps_bind (fixBitmap_superblock _ _ _ _ _ _ _) fun r1 => ?_
  refine keeps_bind (reading_keeps _ _) fun _ => keeps_bind (reading_keeps _ _) fun _ => ?_
  refine keeps_bind (fixBitmap_superblock _ _ _ _ _ _ _) fun r2 => ?_
  dsimp only
  split
  · refine keeps_bind (reading_keeps _ _) fun _ => keeps_bind (reading_keeps _ _) fun _ => ?_
    exact keeps_bind (keeps_modify fun _ => rfl) fun _ => keeps_pure _
  · exact keeps_pure _

theorem pass5Bitmaps_identity (writes : Bool) (f : Findings) :
    Keeps Filesystem.identity (pass5Bitmaps writes f) := by
  unfold pass5Bitmaps
  refine keeps_bind keeps_get fun fs => ?_
  refine keeps_bind (keeps_identity (keeps_foldlM (pass5Group_superblock _ _) _ _)) fun t => ?_
  dsimp only
  split
  · exact keeps_bind (keeps_modify fun _ => rfl) fun _ => keeps_pure _
  · exact keeps_pure _

end Fsck

end MkfsExt4
